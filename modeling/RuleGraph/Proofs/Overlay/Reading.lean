import RuleGraph.Proofs.Overlay.Ancestry

/-!
# Trees read back from an overlay

An overlay keeps a level for every token and nothing else about which token lies in
which. `after?` is how the nesting is read: the tokens between a token and the index
that it gives are what lies below, and they are read in the same way. `read` does
this for a stretch of tokens.

What has been recorded as a forest is found again, whatever the overlay held before
and whatever the spans are. The induction is on the forest, with the tokens behind it
left open except for the first: it must not lie deeper than the roots, or it would be
taken for a descendant of the last one.
-/

namespace RuleGraph

variable {α : Type}

/-! ## Recording a forest -/

namespace Stretch

mutual

/-- Begins a token, records what is inside of it, and finishes it. -/
def record : Stretch α → Overlay α → Overlay α
  | node label start stop inner, o => (recordAll inner (o.begin label start)).finish stop

def recordAll : List (Stretch α) → Overlay α → Overlay α
  | [], o => o
  | s :: rest, o => recordAll rest (s.record o)

end

/-- Recording a forest adds the tokens that list it, inside of what is pending. -/
theorem recordAll_eq_grow (forest : List (Stretch α)) :
    ∀ o : Overlay α, recordAll forest o = o.grow (listing o.pending.length forest) := by
  induction forest using forestInduction with
  | nil =>
    intro o
    rw [recordAll, listing_nil, Overlay.grow_nil]
  | cons label start stop inner rest ihInner ihRest =>
    intro o
    rw [recordAll, record, ihInner, Overlay.finish_grow_begin, ihRest, Overlay.grow_grow,
      listing_cons]
    rfl

theorem reachable_recordAll (forest : List (Stretch α)) :
    ∀ {o : Overlay α}, o.Reachable → (recordAll forest o).Reachable := by
  induction forest using forestInduction with
  | nil =>
    intro o h
    rw [recordAll]
    exact h
  | cons label start stop inner rest ihInner ihRest =>
    intro o h
    rw [recordAll, record]
    exact ihRest (.finish stop (ihInner (.begin label start h)))

/-- The trees of the tokens that list a forest at a depth. -/
def trees (depth : Nat) : List (Stretch α) → List (Tree α)
  | [] => []
  | node label start stop inner :: rest =>
    .node ⟨label, start, stop, depth⟩ (trees (depth + 1) inner) :: trees depth rest

theorem listTokens_trees (forest : List (Stretch α)) :
    ∀ depth, Tree.listTokens (trees depth forest) = listing depth forest := by
  induction forest using forestInduction with
  | nil =>
    intro depth
    rw [trees, Tree.listTokens_nil, listing_nil]
  | cons label start stop inner rest ihInner ihRest =>
    intro depth
    rw [trees, Tree.listTokens_cons, ihInner, ihRest, listing_cons]

theorem levelled_trees (forest : List (Stretch α)) :
    ∀ depth, Tree.Levelled depth (trees depth forest) := by
  induction forest using forestInduction with
  | nil =>
    intro depth
    rw [trees]
    exact Tree.levelled_nil depth
  | cons label start stop inner rest ihInner ihRest =>
    intro depth
    rw [trees]
    exact Tree.levelled_cons.mpr ⟨Overlay.depth_mk .., ihInner (depth + 1), ihRest depth⟩

end Stretch

/-- What the trees are stretches of, without the levels. -/
def Tree.stretches : List (Tree α) → List (Stretch α)
  | [] => []
  | node t children :: rest =>
    .node t.label t.start t.stop (stretches children) :: stretches rest

theorem Tree.stretches_trees (forest : List (Stretch α)) :
    ∀ depth, stretches (Stretch.trees depth forest) = forest := by
  induction forest using Stretch.forestInduction with
  | nil =>
    intro depth
    rw [Stretch.trees, stretches]
  | cons label start stop inner rest ihInner ihRest =>
    intro depth
    rw [Stretch.trees, stretches, ihInner, ihRest]

namespace Overlay

/-! ## Reading -/

theorem after?_eq_some {o : Overlay α} {i next : Nat} (h : o.after? i = some next) :
    ∃ t, o.tokens[i]? = some t ∧
      next = i + 1 + (below (o.tokens.toList.drop (i + 1)) t.depth).length := by
  obtain ⟨t, ht, rfl⟩ := Option.map_eq_some_iff.mp h
  exact ⟨t, ht, rfl⟩

theorem lt_after? {o : Overlay α} {i next : Nat} (h : o.after? i = some next) :
    i < next ∧ i < o.count := by
  obtain ⟨t, ht, rfl⟩ := after?_eq_some h
  exact ⟨by omega, (Array.getElem?_eq_some_iff.mp ht).1⟩

/-- The trees that the tokens from one index to another form. What lies between a
token and the index after everything below it are its descendants. -/
def read (o : Overlay α) (first stop : Nat) : List (Tree α) :=
  match o.tokens[first]?, hnext : o.after? first with
  | some t, some next =>
    if first < stop then .node t (o.read (first + 1) next) :: o.read next stop else []
  | _, _ => []
termination_by o.count - first
decreasing_by
  all_goals
    have := lt_after? hnext
    omega

/-- All trees of an overlay. -/
def trees (o : Overlay α) : List (Tree α) :=
  o.read 0 o.count

theorem read_self (o : Overlay α) (first : Nat) : o.read first first = [] := by
  rw [read]
  split
  · exact if_neg (Nat.lt_irrefl first)
  · rfl

theorem read_cons {o : Overlay α} {first next stop : Nat} {t : Token α}
    (ht : o.tokens[first]? = some t) (hnext : o.after? first = some next)
    (hlt : first < stop) :
    o.read first stop = .node t (o.read (first + 1) next) :: o.read next stop := by
  rw [read]
  split
  · rename_i s i hs hi
    cases ht.symm.trans hs
    cases hnext.symm.trans hi
    exact if_pos hlt
  · rename_i hnone
    exact absurd hnext (hnone t next ht)

/-- The index after everything below a token is found behind its children, if no token
there lies deeper than it. -/
theorem after?_of_drop {o : Overlay α} {first : Nat} {t : Token α}
    {children : List (Tree α)} {rest : List (Token α)}
    (hdrop : o.tokens.toList.drop first = t :: (Tree.listTokens children ++ rest))
    (hchildren : Tree.Levelled (t.depth + 1) children)
    (hrest : ∀ s ∈ rest.head?, s.depth ≤ t.depth) :
    o.tokens[first]? = some t ∧
      o.after? first = some (first + 1 + (Tree.listTokens children).length) := by
  have hfirst : o.tokens[first]? = some t := by
    rw [← Array.getElem?_toList, ← List.head?_drop, hdrop]
    rfl
  have hbelow : below (o.tokens.toList.drop (first + 1)) t.depth =
      Tree.listTokens children := by
    rw [← List.tail_drop, hdrop, List.tail_cons, below,
      takeWhile_append_of_shallow fun s hs =>
      decide_eq_false (Nat.not_lt.mpr (hrest s hs))]
    exact List.takeWhile_eq_self_iff.mpr fun s hs =>
      decide_eq_true (hchildren.depth_le s hs)
  rw [after?, hfirst, Option.map_some, hbelow]
  exact ⟨rfl, rfl⟩

/-- Where the tokens of a tree are, with other trees behind it. The first token that is
not a descendant is the next root or what follows the trees. -/
theorem node_of_drop {o : Overlay α} {first depth : Nat} {t : Token α}
    {children others : List (Tree α)} {rest : List (Token α)}
    (hdrop : o.tokens.toList.drop first =
      Tree.listTokens (.node t children :: others) ++ rest)
    (hlevelled : Tree.Levelled depth (.node t children :: others))
    (hrest : ∀ s ∈ rest.head?, s.depth ≤ depth) :
    let behind := Tree.listTokens others ++ rest
    let next := first + 1 + (Tree.listTokens children).length
    o.tokens[first]? = some t ∧ o.after? first = some next ∧
      o.tokens.toList.drop (first + 1) = Tree.listTokens children ++ behind ∧
      (∀ s ∈ behind.head?, s.depth ≤ depth + 1) ∧ o.tokens.toList.drop next = behind := by
  intro behind next
  obtain ⟨rfl, hchildren, hothers⟩ := Tree.levelled_cons.mp hlevelled
  rw [Tree.listTokens_cons, List.cons_append, List.append_assoc] at hdrop
  have hhead : ∀ s ∈ behind.head?, s.depth ≤ t.depth := by
    cases others with
    | nil => exact hrest
    | cons tree others =>
      obtain ⟨s, inner⟩ := tree
      rw [show behind = _ from congrArg (· ++ rest) (Tree.listTokens_cons ..)]
      rintro _ ⟨⟩
      exact Nat.le_of_eq (Tree.levelled_cons.mp hothers).1
  obtain ⟨hfirst, hafter⟩ := after?_of_drop hdrop hchildren hhead
  have hlater : o.tokens.toList.drop (first + 1) =
      Tree.listTokens children ++ behind := by
    rw [← List.tail_drop, hdrop, List.tail_cons]
  refine ⟨hfirst, hafter, hlater, fun s hs => Nat.le_succ_of_le (hhead s hs), ?_⟩
  rw [← List.drop_drop, hlater, List.drop_left]

theorem length_listTokens_cons (first : Nat) (t : Token α)
    (children others : List (Tree α)) :
    first + (Tree.listTokens (.node t children :: others)).length =
      first + 1 + (Tree.listTokens children).length +
        (Tree.listTokens others).length := by
  rw [Tree.listTokens_cons, List.length_cons, List.length_append]
  omega

/-- Levelled trees are found where their tokens are, if no token behind them lies
deeper than the roots. -/
theorem read_of_drop {o : Overlay α} {trees : List (Tree α)} :
    ∀ {depth first : Nat} {rest : List (Token α)},
      o.tokens.toList.drop first = Tree.listTokens trees ++ rest →
      Tree.Levelled depth trees → (∀ t ∈ rest.head?, t.depth ≤ depth) →
      o.read first (first + (Tree.listTokens trees).length) = trees := by
  induction trees using Tree.forestInduction with
  | nil =>
    intro depth first rest _ _ _
    rw [Tree.listTokens_nil]
    exact o.read_self first
  | cons t children others ihChildren ihOthers =>
    intro depth first rest hdrop hlevelled hrest
    obtain ⟨-, hchildren, hothers⟩ := Tree.levelled_cons.mp hlevelled
    obtain ⟨hfirst, hafter, hlater, hhead, hbehind⟩ := node_of_drop hdrop hlevelled hrest
    have hinner := ihChildren hlater hchildren hhead
    have hnext := ihOthers hbehind hothers hrest
    rw [length_listTokens_cons, read_cons hfirst hafter (by omega), hinner, hnext]

/-- The trees of an overlay are the trees that its tokens are listed from. -/
theorem trees_of_levelled {o : Overlay α} {trees : List (Tree α)}
    (htokens : o.tokens.toList = Tree.listTokens trees)
    (hlevelled : Tree.Levelled 0 trees) : o.trees = trees := by
  have hdrop : o.tokens.toList.drop 0 = Tree.listTokens trees ++ [] := by
    rw [List.drop_zero, List.append_nil, htokens]
  have hread := read_of_drop hdrop hlevelled (by rintro _ ⟨⟩)
  rw [Nat.zero_add, ← htokens] at hread
  exact hread

/-- In a reachable overlay the trees that are read forwards, token by token, are
those that are put together from the last token on. -/
theorem Reachable.trees_eq_forest {o : Overlay α} (h : o.Reachable) :
    o.trees = Tree.forest o.tokens.toList :=
  trees_of_levelled (Tree.listTokens_forest _).symm (Tree.levelled_forest h.anchored.1)

/-! ## Ranges -/

/-- What lies below a token is deeper than it. -/
theorem depth_lt_of_below {o : Overlay α} {i j : Nat} {s t : Token α} (h : o.Below i j)
    (hs : o.tokens[i]? = some s) (ht : o.tokens[j]? = some t) : s.depth < t.depth := by
  have hdeep : decide (s.depth < t.depth) = true :=
    List.mem_takeWhile_imp (p := fun u : Token α => decide (s.depth < u.depth))
      (h.mem_below hs ht)
  exact of_decide_eq_true hdeep

/-- A token at the index after everything below another one is not deeper. -/
theorem depth_le_at_after? {o : Overlay α} {i next : Nat} {s t : Token α}
    (hs : o.tokens[i]? = some s) (hnext : o.after? i = some next)
    (ht : o.tokens[next]? = some t) : t.depth ≤ s.depth := by
  rw [after?, hs, Option.map_some, Option.some.injEq] at hnext
  have hsplit :=
    List.takeWhile_append_dropWhile (p := fun u : Token α => s.depth < u.depth)
      (l := o.tokens.toList.drop (i + 1))
  have hlater := getElem?_drop_later (show i < next by omega) ht
  rw [← hsplit, ← hnext, Nat.add_sub_cancel_left, below,
    List.getElem?_append_right (Nat.le_refl _), Nat.sub_self, ← List.head?_eq_getElem?]
      at hlater
  have hnot := List.head?_dropWhile_not (fun u : Token α => decide (s.depth < u.depth))
    (o.tokens.toList.drop (i + 1))
  rw [hlater] at hnot
  exact Nat.le_of_not_lt (of_decide_eq_false hnot)

theorem after?_le_count {o : Overlay α} {i next : Nat} (h : o.after? i = some next) :
    next ≤ o.count := by
  have hlt := (lt_after? h).2
  obtain ⟨t, -, rfl⟩ := after?_eq_some h
  have hle : (below (o.tokens.toList.drop (i + 1)) t.depth).length ≤ o.count - (i + 1) :=
    Nat.le_trans (List.takeWhile_sublist _).length_le (by simp [count])
  omega

/-- A range that begins in the range of a token ends in it: the token behind the outer
range is too shallow for the inner one. -/
theorem after?_le_after? {o : Overlay α} {i j m n : Nat} (hi : o.after? i = some m)
    (hj : o.after? j = some n) (hij : i < j) (hjm : j < m) : n ≤ m := by
  obtain ⟨s, hs, -⟩ := after?_eq_some hi
  obtain ⟨t, ht, -⟩ := after?_eq_some hj
  refine Nat.le_of_not_lt fun hmn => ?_
  have hcount := after?_le_count hj
  obtain ⟨u, hm⟩ : ∃ u, o.tokens[m]? = some u :=
    ⟨_, Array.getElem?_eq_getElem (Nat.lt_of_lt_of_le hmn hcount)⟩
  have hbelow : o.Below i j := ⟨m, hi, hij, hjm⟩
  have hbelow' : o.Below j m := ⟨n, hj, hjm, hmn⟩
  have hst := depth_lt_of_below hbelow hs ht
  have htm := depth_lt_of_below hbelow' ht hm
  have := depth_le_at_after? hs hi hm
  omega

/-- Recording a forest and reading back what has been recorded gives the forest. And
of the ranges of two tokens one lies in the other, unless they lie apart. -/
theorem read_recorded (o : Overlay α) (forest : List (Stretch α)) :
    Tree.stretches
      ((Stretch.recordAll forest o).read o.count (Stretch.recordAll forest o).count) =
        forest ∧
      ∀ i j m n, o.after? i = some m → o.after? j = some n →
        m ≤ j ∨ n ≤ i ∨ (i ≤ j ∧ n ≤ m) ∨ (j ≤ i ∧ m ≤ n) := by
  constructor
  · have hdrop :
        (o.grow (Stretch.listing o.pending.length forest)).tokens.toList.drop o.count =
          Tree.listTokens (Stretch.trees o.pending.length forest) ++ [] := by
      rw [Stretch.listTokens_trees, List.append_nil]
      simp [grow, count]
    have hread := read_of_drop hdrop (Stretch.levelled_trees forest _) (by rintro _ ⟨⟩)
    rw [Stretch.listTokens_trees] at hread
    rw [Stretch.recordAll_eq_grow, count_grow, hread, Tree.stretches_trees]
  · intro i j m n hi hj
    rcases Nat.lt_trichotomy i j with hij | rfl | hji
    · rcases Nat.lt_or_ge j m with hjm | hmj
      · exact .inr (.inr (.inl ⟨Nat.le_of_lt hij, after?_le_after? hi hj hij hjm⟩))
      · exact .inl hmj
    · cases hi.symm.trans hj
      exact .inr (.inr (.inl ⟨Nat.le_refl i, Nat.le_refl m⟩))
    · rcases Nat.lt_or_ge i n with hin | hni
      · exact .inr (.inr (.inr ⟨Nat.le_of_lt hji, after?_le_after? hj hi hji hin⟩))
      · exact .inr (.inl hni)

/-- Spans that are no real spans, behind a token that was there before. -/
theorem read_recorded_inverted :
    let o := (empty.begin 'a' 0).finish 1
    let forest : List (Stretch Char) :=
      [.node 'b' 5 2 [.node 'c' 9 9 [], .node 'd' 0 7 []], .node 'e' 1 1 []]
    let r := Stretch.recordAll forest o
    r.tokens.toList.map Token.level = [0, 0, 1, 1, 0] ∧
      Tree.stretches (r.read o.count r.count) = forest ∧
      r.after? 1 = some 4 ∧ r.after? 2 = some 3 ∧
      (4 ≤ 2 ∨ 3 ≤ 1 ∨ (1 ≤ 2 ∧ 3 ≤ 4) ∨ (2 ≤ 1 ∧ 4 ≤ 3)) := by
  intro o forest r
  have hb : r.after? 1 = some 4 := by decide +kernel
  have hc : r.after? 2 = some 3 := by decide +kernel
  exact ⟨by decide +kernel, (read_recorded o forest).1, hb, hc,
    (read_recorded r []).2 1 2 4 3 hb hc⟩

end Overlay

end RuleGraph
