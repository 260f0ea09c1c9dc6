import RuleGraph.Proofs.CharSet.Members
import RuleGraph.Proofs.CharSet.Ranges
import RuleGraph.Text.Ascii

/-!
# One list of ranges for every set

The ranges of a canonical set can be told from its members: the first one begins at the
least member, ends where the next number is none, and what lies above that is the rest.
So two canonical sets with the same members are equal, and a law about members becomes a
law about values as soon as both sides are canonical.

A complement is what lies between the ranges, and after the last of them as far as there
are code points. A range beyond the last code point has a gap in front of it like every
other, so the complement of such a set has members that are no code points.
-/

namespace RuleGraph

namespace Range

variable {next next' c : Nat} {r r' : Range} {ranges ranges' rest rest' : List Range}

theorem any_cons_iff : (r :: rest).any (·.holds c) = true ↔
    (r.low ≤ c ∧ c ≤ r.high) ∨ rest.any (·.holds c) = true := by
  rw [List.any_cons, Bool.or_eq_true, holds_iff]

/-! ## The first range -/

theorem Ascending.le_of_any (h : Ascending next ranges)
    (hc : ranges.any (·.holds c) = true) :
    next ≤ c := by
  induction ranges generalizing next with
  | nil => cases hc
  | cons r rest ih =>
    obtain ⟨hlow, hle, hrest⟩ := h
    rcases any_cons_iff.mp hc with hr | hc
    · omega
    · have := ih hrest hc
      omega

theorem Ascending.any_low (h : Ascending next (r :: rest)) :
    (r :: rest).any (·.holds r.low) = true :=
  any_cons_iff.mpr (.inl ⟨Nat.le_refl _, h.2.1⟩)

theorem Ascending.low_le_of_any (h : Ascending next (r :: rest))
    (hc : (r :: rest).any (·.holds c) = true) : r.low ≤ c := by
  have hfrom : Ascending r.low (r :: rest) := ⟨Nat.le_refl _, h.2⟩
  exact hfrom.le_of_any hc

theorem Ascending.not_any_behind (h : Ascending next (r :: rest)) :
    ¬(r :: rest).any (·.holds (r.high + 1)) = true := by
  intro hc
  rcases any_cons_iff.mp hc with hr | hc
  · omega
  · have := h.2.2.le_of_any hc
    omega

/-- The members of the other ranges are the members above the first one. -/
theorem Ascending.any_rest_iff (h : Ascending next (r :: rest)) :
    rest.any (·.holds c) = true ↔ r.high < c ∧ (r :: rest).any (·.holds c) = true := by
  rw [any_cons_iff]
  constructor
  · intro hc
    have := h.2.2.le_of_any hc
    exact ⟨by omega, .inr hc⟩
  · rintro ⟨hlt, hr | hc⟩
    · omega
    · exact hc

/-- Where two lists begin together and the second has no other members than the first,
its first range ends no later. -/
theorem Ascending.high_le_high (h : Ascending next (r :: rest)) (hlow : r'.low = r.low)
    (hsub : ∀ c, (r' :: rest').any (·.holds c) = true →
      (r :: rest).any (·.holds c) = true) :
    r'.high ≤ r.high := by
  have hle := h.2.1
  refine Nat.le_of_not_lt fun hlt =>
    h.not_any_behind (hsub _ (any_cons_iff.mpr (.inl ?_)))
  omega

/-- Lists with the same members are the same list. -/
theorem Ascending.ext (h : Ascending next ranges) (h' : Ascending next' ranges')
    (hany : ∀ c, ranges.any (·.holds c) = true ↔ ranges'.any (·.holds c) = true) :
    ranges = ranges' := by
  induction ranges generalizing next next' ranges' with
  | nil =>
    cases ranges' with
    | nil => rfl
    | cons r' rest' => cases (hany _).mpr h'.any_low
  | cons r rest ih =>
    cases ranges' with
    | nil => cases (hany _).mp h.any_low
    | cons r' rest' =>
      have hlow : r.low = r'.low :=
        Nat.le_antisymm (h.low_le_of_any ((hany _).mpr h'.any_low))
          (h'.low_le_of_any ((hany _).mp h.any_low))
      have hhigh : r.high = r'.high :=
        Nat.le_antisymm (h'.high_le_high hlow fun c => (hany c).mp)
          (h.high_le_high hlow.symm fun c => (hany c).mpr)
      have hrest : rest = rest' := ih h.2.2 h'.2.2 fun c => by
        rw [h.any_rest_iff, h'.any_rest_iff, hany, hhigh]
      obtain ⟨low, high⟩ := r
      obtain ⟨low', high'⟩ := r'
      cases hlow
      cases hhigh
      rw [hrest]

/-! ## Apart -/

/-- Ranges lie apart in ascending order, with a number between any two of them. -/
def Apart (ranges : List Range) : Prop :=
  (∀ r ∈ ranges, r.low ≤ r.high) ∧ ranges.Pairwise fun r r' => r.high + 1 < r'.low

theorem Ascending.le_low (h : Ascending next ranges) : ∀ r ∈ ranges, next ≤ r.low := by
  induction ranges generalizing next with
  | nil => exact List.forall_mem_nil _
  | cons r rest ih =>
    obtain ⟨hlow, hle, hrest⟩ := h
    exact List.forall_mem_cons.mpr ⟨hlow, ih (hrest.from_le (by omega))⟩

/-- What ascends, said of all ranges and of every two of them. -/
theorem Ascending.apart (h : Ascending next ranges) : Apart ranges := by
  refine ⟨h.low_le_high, ?_⟩
  induction ranges generalizing next with
  | nil => exact List.Pairwise.nil
  | cons r rest ih => exact List.pairwise_cons.mpr ⟨h.2.2.le_low, ih h.2.2⟩

/-! ## Gaps -/

theorem any_gaps_cons (hlow : next ≤ r.low) :
    (gaps next (r :: rest)).any (·.holds c) = true ↔
      next ≤ c ∧ c < r.low ∨ (gaps (r.high + 1) rest).any (·.holds c) = true := by
  rw [gaps]
  split
  · rw [any_cons_iff]
    refine or_congr_left ?_
    show next ≤ c ∧ c ≤ r.low - 1 ↔ next ≤ c ∧ c < r.low
    omega
  · refine (or_iff_right ?_).symm
    omega

/-- The gaps from some number on hold what the ranges do not, up to the last code point
or up to the last range, whichever comes later. -/
theorem any_gaps (h : Ascending next ranges) :
    (gaps next ranges).any (·.holds c) = true ↔
      next ≤ c ∧ ¬ranges.any (·.holds c) = true ∧
        (c ≤ maxCodePoint ∨ ∃ m, c < m ∧ ranges.any (·.holds m) = true) := by
  induction ranges generalizing next with
  | nil =>
    rw [gaps]
    split
    · simp [holds_iff]
    · simp only [List.any_nil, Bool.false_eq_true, and_false, exists_false, or_false,
        not_false_eq_true, true_and, false_iff]
      omega
  | cons r rest ih =>
    obtain ⟨hlow, hle, hrest⟩ := id h
    rw [any_gaps_cons hlow, ih (hrest.from_le (Nat.le_succ _))]
    constructor
    · rintro (⟨hnext, hlt⟩ | ⟨hlt, hnot, hroom⟩)
      · refine ⟨hnext, fun hc => ?_, .inr ⟨r.low, hlt, h.any_low⟩⟩
        have := h.low_le_of_any hc
        omega
      · refine ⟨by omega, fun hc => hnot (h.any_rest_iff.mpr ⟨hlt, hc⟩), ?_⟩
        exact hroom.imp_right
          (Exists.imp fun m hm => ⟨hm.1, any_cons_iff.mpr (.inr hm.2)⟩)
    · rintro ⟨hnext, hnot, hroom⟩
      rw [any_cons_iff, not_or] at hnot
      rcases Nat.lt_or_ge c r.low with hlt | hge
      · exact .inl ⟨hnext, hlt⟩
      · have hlt : r.high < c := by omega
        refine .inr ⟨hlt, hnot.2, hroom.imp_right (Exists.imp fun m hm => ⟨hm.1, ?_⟩)⟩
        exact h.any_rest_iff.mpr ⟨Nat.lt_trans hlt hm.1, hm.2⟩

end Range

namespace CharSet

open Range

variable {a b s : CharSet} {c : Nat}

theorem contains_iff : s.contains c = true ↔ ∃ r ∈ s.ranges, r.low ≤ c ∧ c ≤ r.high := by
  simp only [contains, List.any_eq_true, holds_iff]

theorem Canonical.ext (ha : a.Canonical) (hb : b.Canonical)
    (h : ∀ c, a.contains c = true ↔ b.contains c = true) : a = b :=
  congrArg CharSet.mk (Ascending.ext ha hb h)

theorem Canonical.apart (h : s.Canonical) : Apart s.ranges :=
  Ascending.apart h

/-- What a complement holds, wherever the members of the set lie. -/
theorem Canonical.contains_negate (h : s.Canonical) :
    s.negate.contains c = true ↔ ¬s.contains c = true ∧
      (c ≤ maxCodePoint ∨ ∃ m, c < m ∧ s.contains m = true) :=
  (any_gaps h).trans (and_iff_right (Nat.zero_le c))

/-! ## Limits of a set -/

/-- The members are numbers up to this one. -/
def Within (most : Nat) (s : CharSet) : Prop :=
  ∀ c, s.contains c = true → c ≤ most

theorem Canonical.high_le (h : s.Canonical) {most : Nat} (hwithin : s.Within most) :
    ∀ r ∈ s.ranges, r.high ≤ most :=
  fun r hr =>
    hwithin _ (contains_iff.mpr ⟨r, hr, Ascending.low_le_high h r hr, Nat.le_refl _⟩)

theorem Within.of_high_le {most : Nat} (h : ∀ r ∈ s.ranges, r.high ≤ most) :
    s.Within most := by
  intro c hc
  obtain ⟨r, hr, -, hle⟩ := contains_iff.mp hc
  exact Nat.le_trans hle (h r hr)

theorem Within.union {most : Nat} (ha : a.Within most) (hb : b.Within most) :
    (a.union b).Within most :=
  fun c hc => (contains_union.mp hc).elim (ha c) (hb c)

/-- A complement goes no further than the set does, unless it ends with the last code
point. -/
theorem Within.negate {most : Nat} (hcanonical : s.Canonical) (h : s.Within most) :
    s.negate.Within (max most maxCodePoint) := by
  intro c hc
  obtain ⟨-, hle | ⟨m, hlt, hm⟩⟩ := hcanonical.contains_negate.mp hc
  · exact Nat.le_trans hle (Nat.le_max_right _ _)
  · exact Nat.le_trans (Nat.le_of_lt hlt) (Nat.le_trans (h m hm) (Nat.le_max_left _ _))

end CharSet

end RuleGraph
