import RuleGraph.Proofs.Overlay.Stretches

/-!
# Trees and the depths of their tokens

`Tree.forest` reads a nesting off any list of tokens at all. The nesting says what
the depths say only if no depth is left out, which is what `Climbs` asks for: the
first token lies inside no other, and each later one at most one deeper than the
token before it. The trees of such a list are `Levelled`, every child exactly one
deeper than its parent, and levelled trees and climbing lists are the same thing
twice.

The trees are read from the last token to the first, and behind the first few
tokens the roots still differ in depth. They only fall, though, and never rise
above what a next token could be. `Sloping` is this weaker shape, and putting a
token in front of it keeps it.
-/

namespace RuleGraph

open Overlay (takeWhile_append_of_shallow)

/-- Levels of which the first is at most so deep, and every later one at most one
deeper than the one before it. -/
def Climbs (most : Nat) : List Int → Prop
  | [] => True
  | level :: rest => level.natAbs ≤ most ∧ Climbs (level.natAbs + 1) rest

namespace Climbs

theorem take {levels : List Int} : ∀ {most : Nat}, Climbs most levels → ∀ count,
    Climbs most (levels.take count) := by
  induction levels with
  | nil =>
    intro most _ count
    rw [List.take_nil]
    trivial
  | cons level rest ih =>
    intro most h count
    cases count with
    | zero => trivial
    | succ count => exact ⟨h.1, ih h.2 count⟩

/-- A level may come last if it is at most one deeper than the one before it, or at
most so deep as a first one may be. -/
theorem snoc {last : Int} {levels : List Int} :
    ∀ {most : Nat}, Climbs most levels →
      (∀ level ∈ levels.getLast?, last.natAbs ≤ level.natAbs + 1) →
      (levels = [] → last.natAbs ≤ most) → Climbs most (levels ++ [last]) := by
  induction levels with
  | nil => exact fun _ _ hnil => ⟨hnil rfl, trivial⟩
  | cons level rest ih =>
    intro most h hlast _
    refine ⟨h.1, ih h.2 (fun l hl => hlast l ?_) fun hnil => hlast level ?_⟩
    · rw [List.getLast?_cons, hl]
      exact rfl
    · rw [hnil]
      exact rfl

end Climbs

namespace Tree

variable {α : Type}

/-- To prove something of every forest, prove it of one whose first tree has children
that have it and is followed by trees that have it. -/
theorem forestInduction {motive : List (Tree α) → Prop} (nil : motive [])
    (cons : ∀ t children rest, motive children → motive rest →
      motive (node t children :: rest)) :
    ∀ trees, motive trees
  | [] => nil
  | node t children :: rest =>
    cons t children rest (forestInduction nil cons children)
      (forestInduction nil cons rest)

/-! ## Tokens of trees -/

@[simp] theorem listTokens_nil : listTokens ([] : List (Tree α)) = [] := by
  rw [listTokens]

@[simp] theorem listTokens_cons (t : Token α) (children rest : List (Tree α)) :
    listTokens (node t children :: rest) =
      t :: (listTokens children ++ listTokens rest) := by
  rw [listTokens, tokens, List.cons_append]

theorem listTokens_append (first second : List (Tree α)) :
    listTokens (first ++ second) = listTokens first ++ listTokens second := by
  induction first with
  | nil => simp
  | cons tree rest ih =>
    rw [List.cons_append, listTokens, listTokens, ih, List.append_assoc]

/-- Reading trees off a list of tokens loses none of them. -/
theorem listTokens_forest (tokens : List (Token α)) :
    listTokens (forest tokens) = tokens := by
  induction tokens with
  | nil => exact listTokens_nil
  | cons t rest ih =>
    show listTokens (graft t (forest rest)) = _
    rw [graft, listTokens_cons, ← listTokens_append, List.takeWhile_append_dropWhile, ih]

/-! ## Depths -/

/-- Trees at a depth, with the children of each one deeper. -/
def Levelled (depth : Nat) : List (Tree α) → Prop
  | [] => True
  | node t children :: rest =>
    t.depth = depth ∧ Levelled (depth + 1) children ∧ Levelled depth rest

@[simp] theorem levelled_nil (depth : Nat) : Levelled depth ([] : List (Tree α)) := by
  rw [Levelled]
  trivial

theorem levelled_cons {depth : Nat} {t : Token α} {children rest : List (Tree α)} :
    Levelled depth (node t children :: rest) ↔
      t.depth = depth ∧ Levelled (depth + 1) children ∧ Levelled depth rest := by
  rw [Levelled]

theorem Levelled.append {depth : Nat} {first second : List (Tree α)}
    (hfirst : Levelled depth first) (hsecond : Levelled depth second) :
    Levelled depth (first ++ second) := by
  induction first with
  | nil => exact hsecond
  | cons tree rest ih =>
    cases tree
    rw [levelled_cons] at hfirst
    exact levelled_cons.mpr ⟨hfirst.1, hfirst.2.1, ih hfirst.2.2⟩

/-- No token of levelled trees lies less deep than the roots. -/
theorem Levelled.depth_le {trees : List (Tree α)} :
    ∀ {depth : Nat}, Levelled depth trees → ∀ t ∈ listTokens trees, depth ≤ t.depth := by
  induction trees using forestInduction with
  | nil =>
    intro depth _ t ht
    rw [listTokens_nil] at ht
    cases ht
  | cons t children rest ihChildren ihRest =>
    intro depth h s hs
    obtain ⟨ht, hchildren, hrest⟩ := levelled_cons.mp h
    rw [listTokens_cons, List.mem_cons, List.mem_append] at hs
    rcases hs with rfl | hs | hs
    · exact Nat.le_of_eq ht.symm
    · have := ihChildren hchildren s hs
      omega
    · exact ihRest hrest s hs

/-- The tokens of levelled trees climb, in front of whatever may follow them. -/
theorem Levelled.climbs {trees : List (Tree α)} :
    ∀ {depth most : Nat} {after : List Int}, Levelled depth trees → depth ≤ most →
      (∀ most, depth ≤ most → Climbs most after) →
      Climbs most ((listTokens trees).map Token.level ++ after) := by
  induction trees using forestInduction with
  | nil =>
    intro depth most after _ hle hafter
    rw [listTokens_nil]
    exact hafter most hle
  | cons t children rest ihChildren ihRest =>
    intro depth most after h hle hafter
    obtain ⟨ht, hchildren, hrest⟩ := levelled_cons.mp h
    have hnatAbs : t.level.natAbs = depth := ht
    rw [listTokens_cons, List.map_cons, List.map_append, List.cons_append,
      List.append_assoc]
    refine ⟨by omega, ihChildren hchildren (by omega) fun most hmost => ?_⟩
    exact ihRest hrest (by omega) hafter

/-- Trees with levelled children whose roots never lie deeper than the root before, and
the first at most so deep. -/
def Sloping (most : Nat) : List (Tree α) → Prop
  | [] => True
  | node t children :: rest =>
    t.depth ≤ most ∧ Levelled (t.depth + 1) children ∧ Sloping t.depth rest

/-- A sloping forest falls into the trees that lie below a token and the others. -/
theorem Sloping.cut {depth : Nat} {trees : List (Tree α)} :
    ∀ {most : Nat}, Sloping most trees → most ≤ depth + 1 →
      Levelled (depth + 1) (trees.takeWhile fun s => depth < s.token.depth) ∧
        Sloping depth (trees.dropWhile fun s => depth < s.token.depth) := by
  induction trees with
  | nil => exact fun _ _ => ⟨levelled_nil _, trivial⟩
  | cons tree rest ih =>
    obtain ⟨t, children⟩ := tree
    intro most ⟨hmost, hchildren, hrest⟩ hle
    by_cases hdeep : depth < t.depth
    · have hbelow : decide (depth < (node t children).token.depth) = true :=
        decide_eq_true hdeep
      have heq : t.depth = depth + 1 := by omega
      obtain ⟨hinside, hothers⟩ := ih hrest (by omega)
      rw [heq] at hchildren
      simp only [List.takeWhile_cons, List.dropWhile_cons, hbelow, if_true]
      exact ⟨levelled_cons.mpr ⟨heq, hchildren, hinside⟩, hothers⟩
    · have hbeside : decide (depth < (node t children).token.depth) = false :=
        decide_eq_false hdeep
      simp only [List.takeWhile_cons, List.dropWhile_cons, hbeside,
        Bool.false_eq_true, if_false]
      exact ⟨levelled_nil _, Nat.le_of_not_lt hdeep, hchildren, hrest⟩

theorem sloping_forest {tokens : List (Token α)} :
    ∀ {most : Nat}, Climbs most (tokens.map Token.level) →
      Sloping most (forest tokens) := by
  induction tokens with
  | nil => exact fun _ => trivial
  | cons t rest ih =>
    intro most h
    obtain ⟨hbelow, hothers⟩ := (ih h.2).cut (Nat.le_refl _)
    exact ⟨h.1, hbelow, hothers⟩

theorem Sloping.levelled {trees : List (Tree α)} (h : Sloping 0 trees) :
    Levelled 0 trees := by
  induction trees with
  | nil => exact levelled_nil 0
  | cons tree rest ih =>
    obtain ⟨t, children⟩ := tree
    obtain ⟨hmost, hchildren, hrest⟩ := h
    have ht : t.depth = 0 := Nat.le_zero.mp hmost
    rw [ht] at hchildren hrest
    exact levelled_cons.mpr ⟨ht, hchildren, ih hrest⟩

theorem levelled_forest {tokens : List (Token α)}
    (h : Climbs 0 (tokens.map Token.level)) : Levelled 0 (forest tokens) :=
  (sloping_forest h).levelled

/-! ## Filling keeps the depths -/

theorem depth_gap (t : Token α) (start stop : Nat) :
    Token.depth (⟨t.label, start, stop, -(t.depth + 1)⟩ : Token α) = t.depth + 1 := by
  show (-((t.depth : Int) + 1)).natAbs = _
  omega

theorem levelled_gapBetween (t : Token α) (start stop : Nat) :
    Levelled (t.depth + 1) (gapBetween t start stop) := by
  unfold gapBetween
  split
  · exact levelled_cons.mpr ⟨depth_gap t start stop, levelled_nil _, levelled_nil _⟩
  · exact levelled_nil _

/-- The children of a token with the gaps between them, if it has any. -/
def filledIn (t : Token α) (children : List (Tree α)) : List (Tree α) :=
  if children.isEmpty then [] else filledList t t.start children

theorem filled_node (t : Token α) (children : List (Tree α)) :
    filled (node t children) = node t (filledIn t children) := by
  cases children <;> rw [filled] <;> rfl

@[simp] theorem token_filled (tree : Tree α) : tree.filled.token = tree.token := by
  obtain ⟨t, children⟩ := tree
  rw [filled_node]
  rfl

theorem levelled_filled {trees : List (Tree α)} : ∀ {depth : Nat}, Levelled depth trees →
    Levelled depth (trees.map filled) ∧
      ∀ (t : Token α) (covered : Nat), t.depth + 1 = depth →
        Levelled depth (filledList t covered trees) := by
  induction trees using forestInduction with
  | nil =>
    intro depth _
    refine ⟨levelled_nil _, fun t covered ht => ?_⟩
    rw [filledList, ← ht]
    exact levelled_gapBetween t covered t.stop
  | cons s children rest ihChildren ihRest =>
    intro depth h
    obtain ⟨hs, hchildren, hrest⟩ := levelled_cons.mp h
    have hinner : Levelled (depth + 1) (filledIn s children) := by
      unfold filledIn
      split
      · exact levelled_nil _
      · exact (ihChildren hchildren).2 s s.start (by omega)
    constructor
    · rw [List.map_cons, filled_node]
      exact levelled_cons.mpr ⟨hs, hinner, (ihRest hrest).1⟩
    · intro t covered ht
      rw [filledList, filled_node]
      refine .append ?_ (levelled_cons.mpr ⟨hs, hinner, (ihRest hrest).2 t _ ht⟩)
      rw [← ht]
      exact levelled_gapBetween t covered s.start

end Tree

end RuleGraph
