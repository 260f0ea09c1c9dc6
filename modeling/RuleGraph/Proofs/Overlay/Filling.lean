import RuleGraph.Proofs.Matching.Taking
import RuleGraph.Proofs.Overlay.Reading

/-!
# A filled overlay covers everything

`filled` walks along the children of a token and keeps track of how far they have
come. Where children follow one another inside of their parent, this is simply where
the last child has stopped, so a gap reaches exactly from one child to the next. The
children of a token then tile it, and so do the leaves below it, whose texts therefore
spell out its own.

All of it is said of the trees that an overlay is read as, a token with its children
at a time (`Every`), and proved by one induction over trees: what holds of the filled
children of a token, and what holds of the children between which gaps are put from a
given offset on.
-/

namespace RuleGraph

variable {α : Type}

/-! ## Spans in a row -/

/-- Tokens that follow one another between two offsets. -/
def Ordered (low high : Nat) : List (Token α) → Prop
  | [] => low ≤ high
  | t :: rest => low ≤ t.start ∧ t.start ≤ t.stop ∧ Ordered t.stop high rest

/-- Tokens that follow one another between two offsets and leave nothing open. -/
def Tiles (low high : Nat) : List (Token α) → Prop
  | [] => low = high
  | t :: rest => t.start = low ∧ low ≤ t.stop ∧ Tiles t.stop high rest

namespace Tiles

variable {first second tokens : List (Token α)}

theorem append :
    ∀ {low middle high : Nat}, Tiles low middle first → Tiles middle high second →
    Tiles low high (first ++ second) := by
  induction first with
  | nil =>
    intro low middle high hfirst hsecond
    obtain rfl : low = middle := hfirst
    exact hsecond
  | cons t rest ih =>
    intro low middle high ⟨hstart, hstop, hrest⟩ hsecond
    exact ⟨hstart, hstop, ih hrest hsecond⟩

theorem le : ∀ {low high : Nat}, Tiles low high tokens → low ≤ high := by
  induction tokens with
  | nil => exact fun h => Nat.le_of_eq h
  | cons t rest ih => exact fun h => Nat.le_trans h.2.1 (ih h.2.2)

end Tiles

/-! ## Texts -/

/-- The bytes that a token lies on, if the source has them. -/
def Token.text? (source : Bytes) (t : Token α) : Option Bytes :=
  Parse.slice? source t.start t.stop

/-- A slice is what two slices that meet come to, if both are in the source. -/
theorem slice?_eq_bind (source : Bytes) {low middle high : Nat} (hlow : low ≤ middle)
    (hhigh : middle ≤ high) :
    Parse.slice? source low high = (Parse.slice? source low middle).bind fun first =>
      (Parse.slice? source middle high).map fun second => first ++ second := by
  unfold Parse.slice?
  by_cases hin : high ≤ source.length
  · have hdrop : source.drop middle = (source.drop low).drop (middle - low) := by
      rw [List.drop_drop, Nat.add_sub_cancel' hlow]
    have hsum : high - low = (middle - low) + (high - middle) := by omega
    rw [if_pos ⟨Nat.le_trans hlow hhigh, hin⟩, if_pos ⟨hlow, Nat.le_trans hhigh hin⟩,
      if_pos ⟨hhigh, hin⟩, hdrop, hsum, List.take_add]
    rfl
  · rw [if_neg fun h => hin h.2, if_neg (c := middle ≤ high ∧ _) fun h => hin h.2]
    split <;> rfl

/-- The texts of tokens, one after the other, if the source has all of them. -/
def textOf? (source : Bytes) (tokens : List (Token α)) : Option Bytes :=
  (tokens.mapM (Token.text? source)).map List.flatten

theorem textOf?_cons (source : Bytes) (t : Token α) (rest : List (Token α)) :
    textOf? source (t :: rest) = (t.text? source).bind fun first =>
      (textOf? source rest).map fun second => first ++ second := by
  unfold textOf?
  rw [List.mapM_cons]
  cases t.text? source with
  | none => rfl
  | some first => cases rest.mapM (Token.text? source) <;> rfl

theorem textOf?_singleton (source : Bytes) (t : Token α) :
    textOf? source [t] = t.text? source := by
  rw [textOf?_cons]
  cases t.text? source with
  | none => rfl
  | some text => exact congrArg some (List.append_nil text)

/-- Tokens that tile a span spell out its text. -/
theorem Tiles.textOf? (source : Bytes) {tokens : List (Token α)} (hne : tokens ≠ []) :
    ∀ {low high : Nat}, Tiles low high tokens →
      RuleGraph.textOf? source tokens = Parse.slice? source low high := by
  induction tokens with
  | nil => exact absurd rfl hne
  | cons t rest ih =>
    intro low high ⟨hstart, hstop, hrest⟩
    subst hstart
    by_cases hrestNe : rest = []
    · subst hrestNe
      obtain rfl : t.stop = high := hrest
      exact textOf?_singleton source t
    · rw [textOf?_cons, ih hrestNe hrest, slice?_eq_bind source hstop hrest.le]
      rfl

namespace Tree

/-! ## Tokens with their children -/

/-- What holds of every token of some trees and its children. -/
def Every (p : Token α → List (Tree α) → Prop) : List (Tree α) → Prop
  | [] => True
  | node t children :: rest => p t children ∧ Every p children ∧ Every p rest

section Every

variable {p : Token α → List (Tree α) → Prop}

@[simp] theorem every_nil : Every p [] := by
  rw [Every]
  trivial

theorem every_cons {t : Token α} {children rest : List (Tree α)} :
    Every p (node t children :: rest) ↔
      p t children ∧ Every p children ∧ Every p rest := by
  rw [Every]

theorem Every.append {first second : List (Tree α)} (hfirst : Every p first)
    (hsecond : Every p second) : Every p (first ++ second) := by
  induction first with
  | nil => exact hsecond
  | cons tree rest ih =>
    cases tree
    obtain ⟨hp, hchildren, hrest⟩ := every_cons.mp hfirst
    exact every_cons.mpr ⟨hp, hchildren, ih hrest⟩

theorem Every.imp {q : Token α → List (Tree α) → Prop} {trees : List (Tree α)}
    (himp : ∀ t children, p t children → q t children) (h : Every p trees) :
    Every q trees := by
  induction trees using forestInduction with
  | nil => exact every_nil
  | cons t children rest ihChildren ihRest =>
    obtain ⟨hp, hchildren, hrest⟩ := every_cons.mp h
    exact every_cons.mpr ⟨himp t children hp, ihChildren hchildren, ihRest hrest⟩

end Every

/-- The children of a token follow one another inside it. -/
def OrderedIn (t : Token α) (children : List (Tree α)) : Prop :=
  children ≠ [] → Ordered t.start t.stop (children.map token)

/-- The children of a token cover it. -/
def TiledBy (t : Token α) (children : List (Tree α)) : Prop :=
  children ≠ [] → Tiles t.start t.stop (children.map token)

mutual

/-- The token itself, unless it has children. -/
def leavesOf : Tree α → List (Token α)
  | node t children => if children.isEmpty then [t] else leaves children

/-- The tokens without children. -/
def leaves : List (Tree α) → List (Token α)
  | [] => []
  | tree :: rest => leavesOf tree ++ leaves rest

end

theorem leaves_ne_nil {trees : List (Tree α)} : trees ≠ [] → leaves trees ≠ [] := by
  induction trees using forestInduction with
  | nil => exact fun hne => absurd rfl hne
  | cons t children rest ihChildren _ =>
    intro _
    rw [leaves, leavesOf]
    split
    · exact List.cons_ne_nil _ _
    · rename_i hne
      rw [List.isEmpty_iff] at hne
      exact List.append_ne_nil_of_left_ne_nil (ihChildren hne) _

/-- Where children tile their parents, the leaves tile what the roots tile. -/
theorem tiles_leaves {trees : List (Tree α)} : ∀ {low high : Nat}, Every TiledBy trees →
    Tiles low high (trees.map token) → Tiles low high (leaves trees) := by
  induction trees using forestInduction with
  | nil =>
    intro low high _ htiles
    rw [leaves]
    exact htiles
  | cons t children rest ihChildren ihRest =>
    intro low high hevery htiles
    obtain ⟨hstart, hstop, hrest⟩ := htiles
    obtain ⟨htiled, hchildren, hothers⟩ := every_cons.mp hevery
    rw [leaves, leavesOf]
    split
    · exact ⟨hstart, hstop, ihRest hothers hrest⟩
    · rename_i hne
      rw [List.isEmpty_iff] at hne
      have hinner := ihChildren hchildren (htiled hne)
      rw [show t.start = low from hstart] at hinner
      exact hinner.append (ihRest hothers hrest)

/-- The leaves below a token spell out its text. -/
theorem textOf?_leaves (source : Bytes) {t : Token α} {children : List (Tree α)}
    (htiled : TiledBy t children) (hchildren : Every TiledBy children) :
    textOf? source (leaves [node t children]) = t.text? source := by
  rw [leaves, leavesOf, leaves, List.append_nil]
  split
  · exact textOf?_singleton source t
  · rename_i hne
    rw [List.isEmpty_iff] at hne
    exact (tiles_leaves hchildren (htiled hne)).textOf? source (leaves_ne_nil hne)

/-! ## Filled trees -/

section Filled

variable {t : Token α} {children trees : List (Tree α)}

theorem tiles_gapBetween {low high : Nat} (hle : low ≤ high) :
    Tiles low high ((gapBetween t low high).map token) := by
  unfold gapBetween
  split
  · exact ⟨rfl, hle, rfl⟩
  · exact Nat.le_antisymm hle (Nat.le_of_not_lt ‹_›)

/-- Behind the place up to which everything is covered, children that follow one
another and the gaps between them tile what is left of their parent. -/
theorem tiles_filledList :
    ∀ {covered : Nat}, Ordered covered t.stop (children.map token) →
    Tiles covered t.stop ((filledList t covered children).map token) := by
  induction children with
  | nil =>
    intro covered h
    rw [filledList]
    exact tiles_gapBetween h
  | cons child rest ih =>
    intro covered h
    obtain ⟨hstart, hle, hrest⟩ := h
    have hcovered : max covered child.token.stop = child.token.stop :=
      Nat.max_eq_right (Nat.le_trans hstart hle)
    rw [filledList, hcovered, List.map_append, List.map_cons, token_filled]
    exact (tiles_gapBetween hstart).append ⟨rfl, hle, ih hrest⟩

theorem OrderedIn.tiledBy (h : OrderedIn t children) :
    TiledBy t (filledIn t children) := by
  intro hne
  unfold filledIn at hne ⊢
  split
  · exact absurd (if_pos ‹_›) hne
  · rename_i hchildren
    exact tiles_filledList (h fun hnil => hchildren (List.isEmpty_iff.mpr hnil))

/-- The gaps among the filled children of a token carry its label. -/
theorem label_of_mem_filledList (hchildren : ∀ c ∈ children, c.token.isGap = false) :
    ∀ {covered : Nat}, ∀ c ∈ filledList t covered children, c.token.isGap = true →
      c.token.label = t.label := by
  have hgap {low high : Nat} : ∀ c ∈ gapBetween t low high, c.token.label = t.label := by
    unfold gapBetween
    split
    · exact List.forall_mem_singleton.mpr rfl
    · exact List.forall_mem_nil _
  induction children with
  | nil =>
    intro covered c hc _
    rw [filledList] at hc
    exact hgap c hc
  | cons child rest ih =>
    intro covered c hc hisGap
    obtain ⟨hchild, hrest⟩ := List.forall_mem_cons.mp hchildren
    rw [filledList, List.mem_append, List.mem_cons] at hc
    rcases hc with hc | rfl | hc
    · exact hgap c hc
    · rw [token_filled, hchild] at hisGap
      cases hisGap
    · exact ih hrest c hc hisGap

/-- To prove something of all filled trees, prove it of the gaps and of every token with
its filled children. -/
theorem every_filled {p : Token α → List (Tree α) → Prop}
    (hgap : ∀ (t : Token α) (low high : Nat), low < high → p (gap t low high).token [])
    (h : Every (fun t children => p t (filledIn t children)) trees) :
    Every p (trees.map filled) ∧
      ∀ (t : Token α) (covered : Nat), Every p (filledList t covered trees) := by
  have hbetween (t : Token α) (low high : Nat) : Every p (gapBetween t low high) := by
    unfold gapBetween
    split
    · exact every_cons.mpr ⟨hgap t low high ‹_›, every_nil, every_nil⟩
    · exact every_nil
  induction trees using forestInduction with
  | nil =>
    refine ⟨every_nil, fun t covered => ?_⟩
    rw [filledList]
    exact hbetween t covered t.stop
  | cons s children rest ihChildren ihRest =>
    obtain ⟨hs, hchildren, hrest⟩ := every_cons.mp h
    have hinner : Every p (filledIn s children) := by
      unfold filledIn
      split
      · exact every_nil
      · exact (ihChildren hchildren).2 s s.start
    constructor
    · rw [List.map_cons, filled_node]
      exact every_cons.mpr ⟨hs, hinner, (ihRest hrest).1⟩
    · intro t covered
      rw [filledList, filled_node]
      exact (hbetween t covered s.start).append
        (every_cons.mpr ⟨hs, hinner, (ihRest hrest).2 t _⟩)

/-! ## Without the gaps -/

theorem isGap_gap (t : Token α) (start stop : Nat) :
    Token.isGap (⟨t.label, start, stop, -(t.depth + 1)⟩ : Token α) = true :=
  decide_eq_true (show -((t.depth : Int) + 1) < 0 by omega)

/-- The tokens that are no gaps. -/
def withoutGaps (tokens : List (Token α)) : List (Token α) :=
  tokens.filter (!·.isGap)

theorem withoutGaps_append (first second : List (Token α)) :
    withoutGaps (first ++ second) = withoutGaps first ++ withoutGaps second :=
  List.filter_append ..

theorem withoutGaps_cons {rest : List (Token α)} (h : t.isGap = false) :
    withoutGaps (t :: rest) = t :: withoutGaps rest := by
  simp [withoutGaps, h]

theorem withoutGaps_gapBetween (t : Token α) (low high : Nat) :
    withoutGaps (listTokens (gapBetween t low high)) = [] := by
  unfold gapBetween
  split
  · refine List.filter_eq_nil_iff.mpr (List.forall_mem_singleton.mpr ?_)
    rw [isGap_gap]
    decide
  · rfl

/-- Without the gaps, filled trees have the tokens that they had before. -/
theorem withoutGaps_filled (h : ∀ t ∈ listTokens trees, t.isGap = false) :
    withoutGaps (listTokens (trees.map filled)) = listTokens trees ∧
      ∀ (t : Token α) (covered : Nat),
        withoutGaps (listTokens (filledList t covered trees)) = listTokens trees := by
  induction trees using forestInduction with
  | nil =>
    refine ⟨rfl, fun t covered => ?_⟩
    rw [filledList, listTokens_nil]
    exact withoutGaps_gapBetween t covered t.stop
  | cons s children rest ihChildren ihRest =>
    rw [listTokens_cons, List.forall_mem_cons, List.forall_mem_append] at h
    obtain ⟨hs, hchildren, hrest⟩ := h
    have hinner : withoutGaps (listTokens (filledIn s children)) =
        listTokens children := by
      unfold filledIn
      split
      · rename_i hempty
        rw [List.isEmpty_iff.mp hempty]
        rfl
      · exact (ihChildren hchildren).2 s s.start
    constructor
    · rw [List.map_cons, filled_node, listTokens_cons, withoutGaps_cons hs,
        withoutGaps_append, hinner, (ihRest hrest).1, listTokens_cons]
    · intro t covered
      rw [filledList, filled_node, listTokens_append, withoutGaps_append,
        withoutGaps_gapBetween, List.nil_append, listTokens_cons, withoutGaps_cons hs,
        withoutGaps_append, hinner, (ihRest hrest).2, listTokens_cons]

end Filled

theorem token_mem_listTokens {trees : List (Tree α)} {tree : Tree α} (h : tree ∈ trees) :
    tree.token ∈ listTokens trees := by
  induction trees with
  | nil => cases h
  | cons head rest ih =>
    obtain ⟨t, children⟩ := head
    rw [listTokens_cons]
    rcases List.mem_cons.mp h with rfl | h
    · exact List.mem_cons_self
    · exact List.mem_cons_of_mem _ (List.mem_append_right _ (ih h))

/-- What holds of all tokens holds of every token and of its children. -/
theorem every_of_forall {q : Token α → Prop} {trees : List (Tree α)}
    (h : ∀ t ∈ listTokens trees, q t) :
    Every (fun t children => q t ∧ ∀ c ∈ children, q c.token) trees := by
  induction trees using forestInduction with
  | nil => exact every_nil
  | cons t children rest ihChildren ihRest =>
    rw [listTokens_cons, List.forall_mem_cons, List.forall_mem_append] at h
    obtain ⟨ht, hchildren, hrest⟩ := h
    exact every_cons.mpr ⟨⟨ht, fun c hc => hchildren c.token (token_mem_listTokens hc)⟩,
      ihChildren hchildren, ihRest hrest⟩

end Tree

namespace Overlay

open RuleGraph.Tree

/-- An overlay without gaps in which nothing is pending and children follow one another
inside of their parent. -/
structure WellNested (o : Overlay α) : Prop where
  reachable : o.Reachable
  closed : o.pending = []
  recognised : ∀ t ∈ o.tokens, t.isGap = false
  ordered : Every OrderedIn o.trees

/-- What an overlay has gained in which the gaps of another one are filled. -/
structure Covers (full o : Overlay α) : Prop where
  /-- Without the gaps it is what it was. -/
  kept : (⟨full.tokens.filter (!·.isGap), full.pending⟩ : Overlay α) = o
  /-- Every token is found in the trees. -/
  complete : listTokens full.trees = full.tokens.toList
  /-- The children of a token cover it, if there are any. -/
  tiled : Every TiledBy full.trees
  /-- No gap is a root, -/
  roots : ∀ tree ∈ full.trees, tree.token.isGap = false
  /-- every gap has the label of the token that it is a gap of, -/
  labels : Every (fun t children => ∀ c ∈ children, c.token.isGap = true →
    t.isGap = false ∧ c.token.label = t.label) full.trees
  /-- and it is not empty and has no children. -/
  gaps : Every (fun t children => t.isGap = true → t.start < t.stop ∧ children = [])
    full.trees
  /-- The leaves below a token spell out its text. -/
  texts : ∀ source : Bytes, Every (fun t children =>
    textOf? source (leaves [node t children]) = t.text? source) full.trees

/-- The trees of an overlay are filled one by one. -/
theorem trees_filled {o : Overlay α} (h : o.Reachable) :
    o.filled.trees = o.trees.map Tree.filled := by
  rw [h.trees_eq_forest]
  exact trees_of_levelled rfl (levelled_filled (levelled_forest h.anchored.1)).1

theorem listTokens_trees {o : Overlay α} (h : o.Reachable) :
    listTokens o.trees = o.tokens.toList := by
  rw [h.trees_eq_forest, listTokens_forest]

theorem WellNested.recognised_trees {o : Overlay α} (h : o.WellNested) :
    ∀ t ∈ listTokens o.trees, t.isGap = false := by
  rw [listTokens_trees h.reachable]
  exact fun t ht => h.recognised t (Array.mem_toList_iff.mp ht)

theorem WellNested.tiled_filled {o : Overlay α} (h : o.WellNested) :
    Every TiledBy o.filled.trees := by
  rw [trees_filled h.reachable]
  exact (every_filled (fun t low high _ hne => absurd rfl hne)
    (h.ordered.imp fun t children => OrderedIn.tiledBy)).1

theorem every_textOf?_leaves {trees : List (Tree α)} (h : Every TiledBy trees)
    (source : Bytes) :
    Every (fun t children => textOf? source (leaves [node t children]) = t.text? source)
      trees := by
  induction trees using forestInduction with
  | nil => exact every_nil
  | cons t children rest ihChildren ihRest =>
    obtain ⟨ht, hchildren, hrest⟩ := every_cons.mp h
    exact every_cons.mpr
      ⟨textOf?_leaves source ht hchildren, ihChildren hchildren, ihRest hrest⟩

theorem WellNested.covers_filled {o : Overlay α} (h : o.WellNested) :
    o.filled.Covers o := by
  have htokens := listTokens_trees h.reachable.filled
  have hrecognised := every_of_forall h.recognised_trees
  refine ⟨?_, htokens, h.tiled_filled, ?_, ?_, ?_, every_textOf?_leaves h.tiled_filled⟩
  · have hkept := (withoutGaps_filled h.recognised_trees).1
    rw [← trees_filled h.reachable, htokens, listTokens_trees h.reachable] at hkept
    have htokens : o.filled.tokens.filter (!·.isGap) = o.tokens := by
      rw [← Array.toList_inj, Array.toList_filter]
      exact hkept
    show (⟨_, []⟩ : Overlay α) = ⟨o.tokens, o.pending⟩
    rw [htokens, h.closed]
  · rw [trees_filled h.reachable]
    intro tree htree
    obtain ⟨original, horiginal, rfl⟩ := List.mem_map.mp htree
    rw [token_filled]
    exact h.recognised_trees _ (token_mem_listTokens horiginal)
  · rw [trees_filled h.reachable]
    refine (every_filled (fun t low high _ => List.forall_mem_nil _)
      (hrecognised.imp fun t children ⟨ht, hchildren⟩ c hc hgap => ⟨ht, ?_⟩)).1
    unfold filledIn at hc
    split at hc
    · cases hc
    · exact label_of_mem_filledList hchildren c hc hgap
  · rw [trees_filled h.reachable]
    refine (every_filled (fun t low high hlt _ => ⟨hlt, rfl⟩)
      (hrecognised.imp fun t children ⟨ht, _⟩ hgap => ?_)).1
    rw [ht] at hgap
    cases hgap

/-! ## Matches -/

theorem every_ordered_trees {forest : List (Stretch α)} :
    ∀ (depth : Nat) {low high : Nat}, Stretch.Orderly low high forest →
      Every OrderedIn (Stretch.trees depth forest) ∧
        Ordered low high ((Stretch.trees depth forest).map token) := by
  induction forest using Stretch.forestInduction with
  | nil =>
    intro depth low high h
    rw [Stretch.Orderly] at h
    rw [Stretch.trees]
    exact ⟨every_nil, h⟩
  | cons label start stop inner rest ihInner ihRest =>
    intro depth low high h
    rw [Stretch.Orderly] at h
    obtain ⟨hlow, hinner, hrest⟩ := h
    rw [Stretch.trees]
    obtain ⟨hevery, hordered⟩ := ihInner (depth + 1) hinner
    exact ⟨every_cons.mpr ⟨fun _ => hordered, hevery, (ihRest depth hrest).1⟩, hlow,
      hinner.le, (ihRest depth hrest).2⟩

/-- The tokens of an orderly forest are a well-nested overlay. -/
theorem wellNested_listing {forest : List (Stretch α)} {low high : Nat}
    (h : Stretch.Orderly low high forest) :
    (⟨(Stretch.listing 0 forest).toArray, []⟩ : Overlay α).WellNested := by
  have hrecorded : Stretch.recordAll forest (empty : Overlay α) =
      ⟨(Stretch.listing 0 forest).toArray, []⟩ := by
    rw [Stretch.recordAll_eq_grow]
    simp [grow, empty]
  have htrees : (⟨(Stretch.listing 0 forest).toArray, []⟩ : Overlay α).trees =
      Stretch.trees 0 forest :=
    trees_of_levelled (Stretch.listTokens_trees forest 0).symm
      (Stretch.levelled_trees forest 0)
  refine ⟨hrecorded ▸ Stretch.reachable_recordAll forest .empty, rfl, fun t ht => ?_, ?_⟩
  · have hlevel := (mem_listing h t (List.mem_toArray.mp ht)).1
    exact decide_eq_false (by rw [hlevel]; omega)
  · rw [htrees]
    exact (every_ordered_trees 0 h).1

end Overlay

namespace Matching

/-- What a match leaves is well nested and lies in the input. -/
theorem wellNested_of_match {g : Grammar} {limit : Nat} {start : String} {input : Bytes}
    {p : Parse String} (h : g.matchWith limit start input = .ok p) :
    p.overlay.WellNested ∧ ∀ t ∈ p.overlay.tokens, t.start ≤ t.stop ∧
      t.stop ≤ input.length := by
  obtain ⟨stop, forest, hmeans, rfl⟩ := exists_forest_of_match h
  obtain ⟨bytes, rest, rfl, rfl, -⟩ := Means.exists_takes hmeans
  have horderly : Stretch.Orderly 0 (0 + bytes.length) forest := Means.orderly hmeans
  refine ⟨Overlay.wellNested_listing horderly, fun t ht => ?_⟩
  obtain ⟨-, -, -, hspan, hstop⟩ :=
    Overlay.mem_listing horderly t (List.mem_toArray.mp ht)
  rw [List.length_append]
  exact ⟨hspan, by omega⟩

/-- Filling the gaps of a well-nested overlay loses nothing and leaves nothing open, and
every overlay that a match leaves is one. -/
theorem filled_covers :
    (∀ {α : Type} (o : Overlay α), o.WellNested → o.filled.Covers o) ∧
      ∀ (g : Grammar) (limit : Nat) (start : String) (input : Bytes) (p : Parse String),
        g.matchWith limit start input = .ok p →
          p.overlay.WellNested ∧ ∀ t ∈ p.overlay.tokens, t.start ≤ t.stop ∧
          t.stop ≤ input.length :=
  ⟨fun _ h => h.covers_filled, fun _ _ _ _ _ h => wellNested_of_match h⟩

/-- Two items in brackets, with a comma and a blank between them. -/
theorem filled_covers_list :
    let item := Rule.capture "item" (.selection [.symbol 'a', .symbol 'b'])
    let g : Grammar := ⟨[.capture "list"
      (.sequence [.symbol '[', item, .literal (stringBytes ", "), item, .symbol ']'])]⟩
    let o : Overlay String :=
      ⟨#[⟨"list", 0, 6, 0⟩, ⟨"item", 1, 2, 1⟩, ⟨"item", 4, 5, 1⟩], []⟩
    g.matchWith 8 "list" (stringBytes "[a, b]") = .ok ⟨stringBytes "[a, b]", o, 6⟩ ∧
      o.filled.tokens = #[⟨"list", 0, 6, 0⟩, ⟨"list", 0, 1, -1⟩, ⟨"item", 1, 2, 1⟩,
        ⟨"list", 2, 4, -1⟩, ⟨"item", 4, 5, 1⟩, ⟨"list", 5, 6, -1⟩] ∧
      o.WellNested ∧ o.filled.Covers o := by
  intro item g o
  have hmatch : g.matchWith 8 "list" (stringBytes "[a, b]") =
      .ok ⟨stringBytes "[a, b]", o, 6⟩ := by
    rfl
  have hnested := (filled_covers.2 g 8 "list" (stringBytes "[a, b]") _ hmatch).1
  exact ⟨hmatch, by decide +kernel, hnested, filled_covers.1 o hnested⟩

end Matching

end RuleGraph
