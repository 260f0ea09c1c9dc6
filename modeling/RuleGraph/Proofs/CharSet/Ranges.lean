import RuleGraph.CharSet.Basic

/-!
# Separate ranges

The ranges of a set ascend, and a code point lies between each of them and the next.
`Ascending` says so in the way in which lists of ranges are built and walked: from a
code point on, below which nothing may lie any more. Whatever is done to a set, its
ranges are of this kind again.

So there is not much choice in putting a set together from its ranges: to put one in
that lies above all others is to append it.
-/

namespace RuleGraph

namespace Range

/-- Ranges that hold something, from a code point on, each with a gap behind it. -/
def Ascending (next : Nat) : List Range → Prop
  | [] => True
  | r :: rest => next ≤ r.low ∧ r.low ≤ r.high ∧ Ascending (r.high + 2) rest

variable {next : Nat} {r : Range} {ranges : List Range}

theorem Ascending.from_le {least : Nat} (h : Ascending next ranges) (hle : least ≤ next) :
    Ascending least ranges := by
  cases ranges with
  | nil => trivial
  | cons s rest => exact ⟨Nat.le_trans hle h.1, h.2⟩

theorem Ascending.low_le_high (h : Ascending next ranges) :
    ∀ r ∈ ranges, r.low ≤ r.high := by
  induction ranges generalizing next with
  | nil => exact List.forall_mem_nil _
  | cons r rest ih => exact List.forall_mem_cons.mpr ⟨h.2.1, ih h.2.2⟩

theorem Ascending.of_append {more : List Range} (h : Ascending next (ranges ++ more)) :
    Ascending next ranges := by
  induction ranges generalizing next with
  | nil => trivial
  | cons r rest ih => exact ⟨h.1, h.2.1, ih h.2.2⟩

theorem ascending_insert :
    ∀ {next : Nat} {r : Range}, Ascending next ranges → next ≤ r.low →
    r.low ≤ r.high → Ascending next (r.insert ranges) := by
  induction ranges with
  | nil => exact fun _ hlow hle => ⟨hlow, hle, trivial⟩
  | cons s rest ih =>
    intro next r h hlow hle
    obtain ⟨hs, hsle, hrest⟩ := h
    rw [insert]
    split
    · rename_i hclear
      exact ⟨hlow, hle, of_decide_eq_true hclear, hsle, hrest⟩
    · split
      · rename_i hclear
        exact ⟨hs, hsle, ih hrest (of_decide_eq_true hclear) hle⟩
      · exact ih (hrest.from_le (by omega)) (Nat.le_min.mpr ⟨hlow, hs⟩)
          (Nat.le_trans (Nat.min_le_left ..) (Nat.le_trans hle (Nat.le_max_left ..)))

theorem ascending_gaps : ∀ {next : Nat}, Ascending next ranges →
    Ascending next (gaps next ranges) := by
  induction ranges with
  | nil =>
    intro next _
    rw [gaps]
    split
    · exact ⟨Nat.le_refl _, ‹_›, trivial⟩
    · trivial
  | cons r rest ih =>
    intro next ⟨hlow, hle, hrest⟩
    have hmore : Ascending (r.high + 1) (gaps (r.high + 1) rest) :=
      ih (hrest.from_le (Nat.le_succ _))
    rw [gaps]
    split
    · refine ⟨Nat.le_refl _, show next ≤ r.low - 1 by omega, hmore.from_le ?_⟩
      show r.low - 1 + 2 ≤ r.high + 1
      omega
    · exact hmore.from_le (by omega)

/-- A range is put in front of ranges that lie above it. -/
theorem insert_eq_cons (h : Ascending (r.high + 2) ranges) :
    r.insert ranges = r :: ranges := by
  cases ranges with
  | nil => rfl
  | cons s rest =>
    rw [insert, if_pos]
    exact decide_eq_true h.1

theorem foldr_insert_eq_append {above : List Range}
    (h : Ascending next (ranges ++ above)) :
    ranges.foldr insert above = ranges ++ above := by
  induction ranges generalizing next with
  | nil => rfl
  | cons r rest ih =>
    rw [List.foldr_cons, ih h.2.2]
    exact insert_eq_cons h.2.2

end Range

namespace CharSet

open Range

/-- What the ranges of every set are like. -/
def Canonical (s : CharSet) : Prop :=
  Ascending 0 s.ranges

theorem canonical_range (low high : Nat) : (range low high).Canonical := by
  unfold range
  dsimp only
  split
  · exact ⟨Nat.zero_le _, ‹_›, trivial⟩
  · trivial

theorem Canonical.union {a b : CharSet} (ha : a.Canonical) (hb : b.Canonical) :
    (a.union b).Canonical := by
  have hranges := Ascending.low_le_high ha
  show Ascending 0 (a.ranges.foldr Range.insert b.ranges)
  generalize a.ranges = ranges at hranges
  induction ranges with
  | nil => exact hb
  | cons r rest ih =>
    obtain ⟨hr, hrest⟩ := List.forall_mem_cons.mp hranges
    exact ascending_insert (ih hrest) (Nat.zero_le _) hr

theorem canonical_of (members : List Nat) : (of members).Canonical := by
  unfold Canonical of
  induction members with
  | nil => trivial
  | cons c rest ih => exact ascending_insert ih (Nat.zero_le _) (Nat.le_refl c)

theorem Canonical.negate {s : CharSet} (h : s.Canonical) : s.negate.Canonical :=
  ascending_gaps h

/-- A set that is read as it is printed: code points that exist, and no range of a
single one that is not visible. -/
structure Legible (s : CharSet) : Prop where
  canonical : s.Canonical
  within : ∀ r ∈ s.ranges, r.high ≤ maxCodePoint
  plain : ∀ r ∈ s.ranges, r.low = r.high → isPlain r.low = true

end CharSet

end RuleGraph
