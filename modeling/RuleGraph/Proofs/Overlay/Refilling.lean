import RuleGraph.Proofs.Overlay.Filling

/-!
# Filled once is filled

Nothing is said here about spans. They may be inverted, overlap, or lie outside of their
parent, so that children do not tile it and the place up to which it is covered is more
than where the last child has stopped. An overlay is left as it is if no child of a
token starts behind that place and the token does not stop behind it either, which is
what `Gapless` says.

That a filled overlay is gapless is less obvious than it looks. The gaps are children
too, and with them the second pass along the children may have come further than the
first one was, namely where a child stops before it starts: it counts for nothing itself,
while the gap in front of it reaches up to its start. Further is all it can be, though,
and a token that starts behind the place of the second pass starts behind that of the
first one, where there is a gap already.
-/

namespace RuleGraph

variable {α : Type}

namespace Tree

/-- How far everything is covered behind some children of a token. -/
def coveredBy (covered : Nat) (children : List (Tree α)) : Nat :=
  children.foldl (fun covered c => max covered c.token.stop) covered

/-- If a token has children, each of them starts where the start of the token and the
earlier children reach, or before, and so far as all of them reach the token stops. -/
def Gapless (t : Token α) (children : List (Tree α)) : Prop :=
  children ≠ [] →
    (∀ earlier child later, children = earlier ++ child :: later →
      child.token.start ≤ coveredBy t.start earlier) ∧
    t.stop ≤ coveredBy t.start children

/-- The same along the children, from a place on up to which everything is covered. -/
def Covering (covered stop : Nat) : List (Tree α) → Prop
  | [] => stop ≤ covered
  | c :: rest => c.token.start ≤ covered ∧ Covering (max covered c.token.stop) stop rest

section Covering

variable {t : Token α} {children trees : List (Tree α)}

theorem covering_iff {stop : Nat} : ∀ {covered : Nat}, Covering covered stop children ↔
    (∀ earlier child later, children = earlier ++ child :: later →
      child.token.start ≤ coveredBy covered earlier) ∧
      stop ≤ coveredBy covered children := by
  induction children with
  | nil => simp [Covering, coveredBy]
  | cons c rest ih =>
    intro covered
    rw [Covering, ih]
    constructor
    · rintro ⟨hstart, hrest, hstop⟩
      refine ⟨fun earlier child later heq => ?_, hstop⟩
      cases earlier with
      | nil =>
        obtain ⟨rfl, -⟩ := List.cons.inj heq
        exact hstart
      | cons e earlier =>
        obtain ⟨rfl, hlater⟩ := List.cons.inj heq
        exact hrest earlier child later hlater
    · rintro ⟨hall, hstop⟩
      refine ⟨hall [] c rest rfl, fun earlier child later heq => ?_, hstop⟩
      exact hall (c :: earlier) child later (by rw [heq, List.cons_append])

theorem gapless_iff :
    Gapless t children ↔ (children ≠ [] → Covering t.start t.stop children) := by
  rw [Gapless, covering_iff]

/-! ## Nothing to fill -/

theorem gapBetween_of_le {low high : Nat} (h : high ≤ low) : gapBetween t low high = [] :=
  if_neg (Nat.not_lt.mpr h)

theorem filledList_of_covering : ∀ {covered : Nat}, Covering covered t.stop children →
    filledList t covered children = children.map filled := by
  induction children with
  | nil =>
    intro covered h
    rw [filledList, gapBetween_of_le h, List.map_nil]
  | cons c rest ih =>
    intro covered h
    rw [filledList, gapBetween_of_le h.1, ih h.2, List.nil_append, List.map_cons]

theorem filledIn_of_gapless (h : Gapless t children) :
    filledIn t children = children.map filled := by
  cases children with
  | nil => rfl
  | cons c rest =>
    exact filledList_of_covering (gapless_iff.mp h (List.cons_ne_nil c rest))

theorem filled_of_gapless (h : Every Gapless trees) : trees.map filled = trees := by
  induction trees using forestInduction with
  | nil => rfl
  | cons t children rest ihChildren ihRest =>
    obtain ⟨ht, hchildren, hrest⟩ := every_cons.mp h
    rw [List.map_cons, filled_node, filledIn_of_gapless ht, ihChildren hchildren,
      ihRest hrest]

/-! ## Nothing left to fill -/

/-- A gap up to a place reaches it, and one that is not there was not needed. -/
theorem covering_gapBetween {covered reached place stop : Nat} (hle : covered ≤ reached)
    (h : ∀ further, covered ≤ further → place ≤ further →
      Covering further stop children) :
    Covering reached stop (gapBetween t covered place ++ children) := by
  by_cases hlt : covered < place
  · rw [gapBetween, if_pos hlt]
    exact ⟨hle, h _ (Nat.le_trans hle (Nat.le_max_left _ _)) (Nat.le_max_right _ _)⟩
  · rw [gapBetween_of_le (Nat.le_of_not_lt hlt)]
    exact h reached hle (by omega)

/-- A second pass that has come at least as far as the first one finds nothing open. -/
theorem covering_filledList : ∀ {covered reached : Nat}, covered ≤ reached →
    Covering reached t.stop (filledList t covered children) := by
  induction children with
  | nil =>
    intro covered reached hle
    rw [filledList, ← List.append_nil (gapBetween t covered t.stop)]
    exact covering_gapBetween hle fun further _ hstop => hstop
  | cons c rest ih =>
    intro covered reached hle
    rw [filledList]
    refine covering_gapBetween hle fun further hcovered hstart => ?_
    rw [Covering, token_filled]
    exact ⟨hstart, ih (by omega)⟩

theorem gapless_filledIn (t : Token α) (children : List (Tree α)) :
    Gapless t (filledIn t children) := by
  rw [gapless_iff]
  intro hne
  unfold filledIn at hne ⊢
  split
  · exact absurd (if_pos ‹_›) hne
  · exact covering_filledList (Nat.le_refl t.start)

theorem every_of_all {p : Token α → List (Tree α) → Prop} (h : ∀ t children, p t children)
    (trees : List (Tree α)) : Every p trees := by
  induction trees using forestInduction with
  | nil => exact every_nil
  | cons t children rest ihChildren ihRest =>
    exact every_cons.mpr ⟨h t children, ihChildren, ihRest⟩

theorem gapless_filled (trees : List (Tree α)) : Every Gapless (trees.map filled) :=
  (every_filled (fun _ _ _ _ hne => absurd rfl hne)
    (every_of_all gapless_filledIn trees)).1

end Covering

end Tree

namespace Overlay

/-- No token leaves a stretch open between its children, in front of them or behind
them. -/
def Gapless (o : Overlay α) : Prop :=
  Tree.Every Tree.Gapless o.trees

theorem Reachable.gapless_filled {o : Overlay α} (h : o.Reachable) :
    o.filled.Gapless := by
  rw [Gapless, trees_filled h]
  exact Tree.gapless_filled o.trees

theorem Reachable.filled_of_gapless {o : Overlay α} (h : o.Reachable)
    (hclosed : o.pending = []) (hgapless : o.Gapless) : o.filled = o := by
  rw [Gapless, h.trees_eq_forest] at hgapless
  have htokens : o.filled.tokens = o.tokens := by
    rw [Overlay.filled, Tree.filled_of_gapless hgapless, Tree.listTokens_forest,
      Array.toArray_toList]
  show (⟨o.filled.tokens, []⟩ : Overlay α) = ⟨o.tokens, o.pending⟩
  rw [htokens, hclosed]

/-- Whatever the spans are and whatever is pending, an overlay that is filled twice is as
if it had been filled once. It is left as it is exactly if nothing is pending in it and
nothing is left open. -/
theorem Reachable.filled_idempotent {o : Overlay α} (h : o.Reachable) :
    o.filled.filled = o.filled ∧ (o.filled = o ↔ o.pending = [] ∧ o.Gapless) := by
  refine ⟨h.filled.filled_of_gapless rfl h.gapless_filled, fun heq => ?_,
    fun ⟨hclosed, hgapless⟩ =>
    h.filled_of_gapless hclosed hgapless⟩
  rw [← heq]
  exact ⟨rfl, h.gapless_filled⟩

/-- An inverted child behind a gap, one that begins outside of its parent, and a token
that is still pending. Filled, it is left as it is. -/
theorem filled_idempotent_inverted :
    let o :=
      ((((((empty.begin 'a' 2).begin 'b' 7).finish 4).begin 'c' 1).finish 5).begin 'd' 6)
    o.Reachable ∧
      o.filled.tokens.toList.map (fun t => (t.label, t.start, t.stop, t.level)) =
        [('a', 2, 2, 0), ('a', 2, 7, -1), ('b', 7, 4, 1), ('c', 1, 5, 1), ('a', 5, 6, -1),
          ('d', 6, 6, 1)] ∧
      o.filled.filled = o.filled ∧ o.filled ≠ o ∧ o.filled.pending = [] ∧
      o.filled.Gapless := by
  intro o
  have h : o.Reachable :=
    .begin 'd' 6 <| .finish 5 <| .begin 'c' 1 <| .finish 4 <| .begin 'b' 7 <|
      .begin 'a' 2 .empty
  have hpending : o.pending ≠ [] := by decide +kernel
  have hchanged : o.filled ≠ o := fun heq => hpending (h.filled_idempotent.2.mp heq).1
  have hfixed := h.filled.filled_idempotent.2.mp h.filled_idempotent.1
  exact ⟨h, by decide +kernel, h.filled_idempotent.1, hchanged, hfixed⟩

end Overlay

end RuleGraph
