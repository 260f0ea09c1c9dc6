import RuleGraph.Proofs.CharSet.Canonical

/-!
# Sorting ranges and searching among them

Two other ways to the same sets. Ranges in any order, overlapping and touching as they
like, are sorted and then merged in one walk, in which a range is only ever compared
with the one that is being put together. And whether a number is a member is found out
by halving: the range in the middle tells on which side of it to go on.

Both are faster than what the definitions do, and both rest on order. Merging needs the
ranges sorted by where they begin. Halving needs more, that they end in the same order
in which they begin, and this is what being canonical comes to.
-/

namespace RuleGraph

namespace Range

/-- By where they begin, and by where they end if they begin together. -/
def precedes (r s : Range) : Bool :=
  r.low < s.low || r.low == s.low && r.high ≤ s.high

/-- Puts one range after the other into the range that is being put together, or starts
the next one. No number comes behind the greatest word, so it counts as next to itself. -/
def merge (last : Range) : List Range → List Range
  | [] => [last]
  | r :: rest =>
    if r.low ≤ min (last.high + 1) maxWord then
      merge ⟨last.low, max last.high r.high⟩ rest
    else last :: merge r rest

/-- Whether one of the ranges holds the number, by halving. -/
def search (c : Nat) (ranges : List Range) : Bool :=
  match h : ranges.drop (ranges.length / 2) with
  | [] => false
  | r :: above =>
    if r.high < c then search c above
    else if c < r.low then search c (ranges.take (ranges.length / 2))
    else true
termination_by ranges.length
decreasing_by
  all_goals
    have hlength := congrArg List.length h
    simp only [List.length_drop, List.length_cons, List.length_take] at hlength ⊢
    omega

variable {last r : Range} {ranges rest : List Range} {c : Nat}

/-! ## Merging -/

theorem precedes_iff {r s : Range} :
    r.precedes s = true ↔ r.low < s.low ∨ r.low = s.low ∧ r.high ≤ s.high := by
  simp only [precedes, Bool.or_eq_true, Bool.and_eq_true, decide_eq_true_eq, beq_iff_eq]

/-- Sorted ranges begin one after the other. -/
theorem pairwise_mergeSort (ranges : List Range) :
    (ranges.mergeSort precedes).Pairwise fun r s => r.low ≤ s.low := by
  refine (List.pairwise_mergeSort ?_ ?_ ranges).imp fun {r s} h => ?_
  · intro r s t
    simp only [precedes_iff]
    omega
  · intro r s
    rw [Bool.or_eq_true, precedes_iff, precedes_iff]
    omega
  · have := precedes_iff.mp h
    omega

theorem any_merge (hsorted : (last :: ranges).Pairwise fun r s => r.low ≤ s.low) :
    (merge last ranges).any (·.holds c) = true ↔
      last.holds c = true ∨ ranges.any (·.holds c) = true := by
  induction ranges generalizing last with
  | nil => simp [merge]
  | cons r rest ih =>
    obtain ⟨hlast, hrest⟩ := List.pairwise_cons.mp hsorted
    obtain ⟨hlow, hlasts⟩ := List.forall_mem_cons.mp hlast
    rw [merge]
    split
    · rename_i hmeets
      have hunion : (⟨last.low, max last.high r.high⟩ : Range).holds c = true ↔
          last.holds c = true ∨ r.holds c = true := by
        simp only [holds_iff]
        omega
      have hmerged := @ih ⟨last.low, max last.high r.high⟩
        (List.pairwise_cons.mpr ⟨hlasts, hrest.of_cons⟩)
      rw [hmerged, hunion, List.any_cons, Bool.or_eq_true, or_assoc]
    · rw [List.any_cons, Bool.or_eq_true, ih hrest, List.any_cons, Bool.or_eq_true]

theorem ascending_merge (hsorted : (last :: ranges).Pairwise fun r s => r.low ≤ s.low)
    (hle : ∀ r ∈ last :: ranges, r.low ≤ r.high ∧ r.high ≤ maxWord) :
    Ascending last.low (merge last ranges) := by
  induction ranges generalizing last with
  | nil => exact ⟨Nat.le_refl _, (hle last List.mem_cons_self).1, trivial⟩
  | cons r rest ih =>
    obtain ⟨hlast, hrest⟩ := List.pairwise_cons.mp hsorted
    obtain ⟨hlow, hlasts⟩ := List.forall_mem_cons.mp hlast
    obtain ⟨hleLast, hleRest⟩ := List.forall_mem_cons.mp hle
    obtain ⟨hleR, hleOthers⟩ := List.forall_mem_cons.mp hleRest
    rw [merge]
    split
    · have hmerged : last.low ≤ max last.high r.high ∧
          max last.high r.high ≤ maxWord := by omega
      exact @ih ⟨last.low, max last.high r.high⟩
        (List.pairwise_cons.mpr ⟨hlasts, hrest.of_cons⟩)
        (List.forall_mem_cons.mpr ⟨hmerged, hleOthers⟩)
    · refine ⟨Nat.le_refl _, hleLast.1, (ih hrest hleRest).from_le ?_⟩
      omega

/-! ## Halving -/

theorem any_eq_false_of_high_lt (h : ∀ r ∈ ranges, r.high < c) :
    ranges.any (·.holds c) = false :=
  List.any_eq_false.mpr fun r hr => by
    have := h r hr
    rw [holds_iff]
    omega

theorem any_eq_false_of_lt_low (h : ∀ r ∈ ranges, c < r.low) :
    ranges.any (·.holds c) = false :=
  List.any_eq_false.mpr fun r hr => by
    have := h r hr
    rw [holds_iff]
    omega

theorem Apart.sublist (h : Apart ranges) (hsub : rest.Sublist ranges) : Apart rest :=
  ⟨fun r hr => h.1 r (hsub.subset hr), h.2.sublist hsub⟩

theorem Apart.any_above {below above : List Range} (h : Apart (below ++ r :: above))
    (hlt : r.high < c) :
    (below ++ r :: above).any (·.holds c) = above.any (·.holds c) := by
  obtain ⟨hle, hapart⟩ := h
  have hr := hle r (List.mem_append_right _ List.mem_cons_self)
  have hbelow : ∀ s ∈ below, s.high < c := fun s hs => by
    have := (List.pairwise_append.mp hapart).2.2 s hs r List.mem_cons_self
    omega
  have hnone : ∀ s ∈ below ++ [r], s.high < c :=
    List.forall_mem_append.mpr ⟨hbelow, List.forall_mem_singleton.mpr hlt⟩
  rw [List.append_cons, List.any_append, any_eq_false_of_high_lt hnone, Bool.false_or]

theorem Apart.any_below {below above : List Range} (h : Apart (below ++ r :: above))
    (hlt : c < r.low) :
    (below ++ r :: above).any (·.holds c) = below.any (·.holds c) := by
  obtain ⟨hle, hapart⟩ := h
  have hr := hle r (List.mem_append_right _ List.mem_cons_self)
  have habove : ∀ s ∈ above, c < s.low := fun s hs => by
    have := (List.pairwise_cons.mp (List.pairwise_append.mp hapart).2.1).1 s hs
    omega
  rw [List.any_append, any_eq_false_of_lt_low (List.forall_mem_cons.mpr ⟨hlt, habove⟩),
    Bool.or_false]

theorem search_nothing (h : ranges.drop (ranges.length / 2) = []) :
    search c ranges = false := by
  rw [search]
  split
  · rfl
  · rename_i heq
    cases h.symm.trans heq

theorem search_cons {above : List Range}
    (h : ranges.drop (ranges.length / 2) = r :: above) :
    search c ranges =
      if r.high < c then search c above
      else if c < r.low then search c (ranges.take (ranges.length / 2))
      else true := by
  rw [search]
  split
  · rename_i heq
    cases h.symm.trans heq
  · rename_i heq
    cases h.symm.trans heq
    rfl

/-- Among ranges that lie apart, halving finds what there is. -/
theorem search_eq (h : Apart ranges) : search c ranges = ranges.any (·.holds c) := by
  induction ranges using search.induct c with
  | case1 ranges hdrop =>
    have hlength := List.drop_eq_nil_iff.mp hdrop
    have hempty : ranges = [] := List.eq_nil_of_length_eq_zero (by omega)
    rw [search_nothing hdrop, hempty, List.any_nil]
  | case2 ranges r above hdrop hlt ih =>
    have hsplit := List.take_append_drop (ranges.length / 2) ranges
    have habove := List.drop_sublist (ranges.length / 2) ranges
    rw [hdrop] at hsplit habove
    rw [search_cons hdrop, if_pos hlt,
      ih (h.sublist ((List.sublist_cons_self r above).trans habove))]
    rw [← hsplit] at h
    rw [← h.any_above hlt, hsplit]
  | case3 ranges r above hdrop hge hlt ih =>
    have hsplit := List.take_append_drop (ranges.length / 2) ranges
    rw [hdrop] at hsplit
    rw [search_cons hdrop, if_neg hge, if_pos hlt, ih (h.sublist (List.take_sublist _ _))]
    rw [← hsplit] at h
    rw [← h.any_below hlt, hsplit]
  | case4 ranges r above hdrop hge hge' =>
    have hr : r ∈ ranges := by
      refine List.mem_of_mem_drop (i := ranges.length / 2) ?_
      rw [hdrop]
      exact List.mem_cons_self
    have hholds : r.holds c = true := holds_iff.mpr (by omega)
    rw [search_cons hdrop, if_neg hge, if_neg hge', List.any_eq_true.mpr ⟨r, hr, hholds⟩]

end Range

namespace CharSet

open Range

/-- The members of the ranges as a set, whatever their order. -/
def normalized (ranges : List Range) : CharSet :=
  match ranges.mergeSort precedes with
  | [] => empty
  | r :: rest => ⟨merge r rest⟩

variable {a b : CharSet} {ranges : List Range} {c : Nat}

theorem contains_normalized :
    (normalized ranges).contains c = true ↔ ranges.any (·.holds c) = true := by
  have hsorted := pairwise_mergeSort ranges
  rw [← (List.mergeSort_perm ranges precedes).any_eq, normalized]
  generalize ranges.mergeSort precedes = sorted at hsorted
  cases sorted with
  | nil => exact Iff.rfl
  | cons r rest =>
    exact (any_merge hsorted).trans (by rw [List.any_cons, Bool.or_eq_true])

theorem canonical_normalized (h : ∀ r ∈ ranges, r.low ≤ r.high ∧ r.high ≤ maxWord) :
    (normalized ranges).Canonical := by
  have hsorted := pairwise_mergeSort ranges
  have hle : ∀ r ∈ ranges.mergeSort precedes, r.low ≤ r.high ∧ r.high ≤ maxWord :=
    fun r hr => h r ((List.mergeSort_perm ranges precedes).mem_iff.mp hr)
  rw [normalized]
  generalize ranges.mergeSort precedes = sorted at hsorted hle
  cases sorted with
  | nil => trivial
  | cons r rest => exact (ascending_merge hsorted hle).from_le (Nat.zero_le _)

/-- Putting the ranges of one set into the other comes to sorting those of both. -/
theorem union_eq_normalized (ha : a.Canonical) (hb : b.Canonical)
    (hwithinA : a.Within maxWord) (hwithinB : b.Within maxWord) :
    a.union b = normalized (a.ranges ++ b.ranges) := by
  have hle : ∀ r ∈ a.ranges ++ b.ranges, r.low ≤ r.high ∧ r.high ≤ maxWord :=
    List.forall_mem_append.mpr
      ⟨fun r hr => ⟨Ascending.low_le_high ha r hr, ha.high_le hwithinA r hr⟩,
        fun r hr => ⟨Ascending.low_le_high hb r hr, hb.high_le hwithinB r hr⟩⟩
  refine (ha.union hb).ext (canonical_normalized hle) fun c => ?_
  rw [contains_union, contains_normalized, List.any_append, Bool.or_eq_true]
  exact Iff.rfl

theorem of_eq_normalized {members : List Nat} (h : ∀ m ∈ members, m ≤ maxWord) :
    of members = normalized (members.map fun c => ⟨c, c⟩) := by
  have hle : ∀ r ∈ members.map fun c => (⟨c, c⟩ : Range), r.low ≤ r.high ∧
      r.high ≤ maxWord :=
    List.forall_mem_map.mpr fun m hm => ⟨Nat.le_refl m, h m hm⟩
  refine (canonical_of members).ext (canonical_normalized hle) fun c => ?_
  rw [contains_of, contains_normalized, List.any_map, List.any_eq_true]
  constructor
  · exact fun hc => ⟨c, hc, holds_iff.mpr ⟨Nat.le_refl c, Nat.le_refl c⟩⟩
  · rintro ⟨m, hm, hholds⟩
    obtain ⟨hlow, hhigh⟩ := holds_iff.mp hholds
    rwa [Nat.le_antisymm hhigh hlow]

/-- Halving decides membership. -/
theorem Canonical.search_eq (h : a.Canonical) : search c a.ranges = a.contains c :=
  Range.search_eq h.apart

end CharSet

end RuleGraph
