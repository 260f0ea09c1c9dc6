import RuleGraph.Proofs.CharSet.Construction

/-!
# Laws of complements

Of sets of code points, union and complement make a Boolean algebra. The laws are laws
about members, one or two steps of propositional logic each, and hold of the sets
themselves because sets with the same members are equal.

Nothing keeps a list of numbers from going beyond the last code point, and the complement
of such a set has too many members: a range up there has a gap in front of it like any
other, and only the gap behind the last range is cut off. So the complement is right
exactly if no number up there is missing below a member.
-/

namespace RuleGraph.CharSet

variable {a b c s : CharSet} {most : Nat}

/-! ## Unions -/

theorem Canonical.union_assoc (ha : a.Canonical) (hb : b.Canonical) (hc : c.Canonical) :
    (a.union b).union c = a.union (b.union c) :=
  ((ha.union hb).union hc).ext (ha.union (hb.union hc)) fun x => by
    rw [contains_union, contains_union, contains_union, contains_union, or_assoc]

theorem Canonical.union_comm (ha : a.Canonical) (hb : b.Canonical) :
    a.union b = b.union a :=
  (ha.union hb).ext (hb.union ha) fun x => by rw [contains_union, contains_union, or_comm]

theorem Canonical.union_self (h : s.Canonical) : s.union s = s :=
  (h.union h).ext h fun x => by rw [contains_union, or_self]

/-! ## Complements of sets of code points -/

theorem Canonical.contains_complement (h : s.Canonical)
    (hwithin : s.Within maxCodePoint) (x : Nat) :
    s.negate.contains x = true ↔ x ≤ maxCodePoint ∧ ¬s.contains x = true := by
  rw [h.contains_negate]
  constructor
  · rintro ⟨hnot, hle | ⟨m, hlt, hm⟩⟩
    · exact ⟨hle, hnot⟩
    · exact ⟨Nat.le_trans (Nat.le_of_lt hlt) (hwithin m hm), hnot⟩
  · exact fun ⟨hle, hnot⟩ => ⟨hnot, .inl hle⟩

theorem Canonical.complement_within (h : s.Canonical) (hwithin : s.Within maxCodePoint) :
    s.negate.Within maxCodePoint :=
  fun x hx => ((h.contains_complement hwithin x).mp hx).1

theorem Canonical.negate_negate (h : s.Canonical) (hwithin : s.Within maxCodePoint) :
    s.negate.negate = s :=
  h.negate.negate.ext h fun x => by
    rw [h.negate.contains_complement (h.complement_within hwithin),
      h.contains_complement hwithin]
    constructor
    · rintro ⟨hle, hnot⟩
      exact Decidable.byContradiction fun hx => hnot ⟨hle, hx⟩
    · exact fun hx => ⟨hwithin x hx, fun ⟨_, hnot⟩ => hnot hx⟩

/-- A set and its complement are everything. -/
theorem Canonical.union_negate (h : s.Canonical) (hwithin : s.Within maxCodePoint) :
    s.union s.negate = wildcard :=
  (h.union h.negate).ext (canonical_range _ _) fun x => by
    rw [contains_union, h.contains_complement hwithin, wildcard, contains_range]
    constructor
    · rintro (hx | ⟨hle, -⟩)
      · exact ⟨Nat.zero_le x, hwithin x hx, hwithin x hx⟩
      · exact ⟨Nat.zero_le x, hle, hle⟩
    · rintro ⟨-, hle, -⟩
      by_cases hx : s.contains x = true
      · exact .inl hx
      · exact .inr ⟨hle, hx⟩

/-- There is no operation for intersection, but De Morgan's law makes one of the
others. -/
theorem Canonical.contains_meet (ha : a.Canonical) (hb : b.Canonical)
    (hwithinA : a.Within maxCodePoint) (hwithinB : b.Within maxCodePoint) (x : Nat) :
    (a.negate.union b.negate).negate.contains x = true ↔
      a.contains x = true ∧ b.contains x = true := by
  have hwithin : (a.negate.union b.negate).Within maxCodePoint :=
    (ha.complement_within hwithinA).union (hb.complement_within hwithinB)
  rw [(ha.negate.union hb.negate).contains_complement hwithin, contains_union,
    ha.contains_complement hwithinA, hb.contains_complement hwithinB]
  constructor
  · rintro ⟨hle, hnot⟩
    exact ⟨Decidable.byContradiction fun hx => hnot (.inl ⟨hle, hx⟩),
      Decidable.byContradiction fun hx => hnot (.inr ⟨hle, hx⟩)⟩
  · rintro ⟨hxa, hxb⟩
    refine ⟨hwithinA x hxa, ?_⟩
    rintro (⟨-, hnot⟩ | ⟨-, hnot⟩)
    · exact hnot hxa
    · exact hnot hxb

theorem Built.boolean_algebra (ha : Built maxWord a) (hb : Built maxWord b)
    (hc : Built maxWord c) (hwithinA : a.Within maxCodePoint)
    (hwithinB : b.Within maxCodePoint) :
    (∀ x, a.negate.contains x = true ↔ x ≤ maxCodePoint ∧ ¬a.contains x = true) ∧
      a.negate.Within maxCodePoint ∧
      a.negate.negate = a ∧
      (a.union b).union c = a.union (b.union c) ∧
      a.union b = b.union a ∧
      a.union a = a ∧
      a.union a.negate = wildcard ∧
      ∀ x, (a.negate.union b.negate).negate.contains x = true ↔
        a.contains x = true ∧ b.contains x = true :=
  ⟨ha.canonical.contains_complement hwithinA, ha.canonical.complement_within hwithinA,
    ha.canonical.negate_negate hwithinA,
    ha.canonical.union_assoc hb.canonical hc.canonical,
    ha.canonical.union_comm hb.canonical, ha.canonical.union_self,
    ha.canonical.union_negate hwithinA,
    ha.canonical.contains_meet hb.canonical hwithinA hwithinB⟩

/-- At both ends, and with ranges that touch. -/
theorem boolean_algebra_edges :
    (of [maxCodePoint, 0]).negate.negate = of [maxCodePoint, 0] ∧
      (of [maxCodePoint, 0]).union (range 1 maxCodePoint) =
        (range 1 maxCodePoint).union (of [maxCodePoint, 0]) ∧
      ((of [maxCodePoint, 0]).negate.union (range 1 maxCodePoint).negate).negate.contains
        maxCodePoint = true := by
  have hends : (of [maxCodePoint, 0]).Within maxCodePoint :=
    fun c hc =>
      (by decide : ∀ c ∈ [maxCodePoint, 0], c ≤ maxCodePoint) c (contains_of.mp hc)
  have hrange : (range 1 maxCodePoint).Within maxCodePoint :=
    fun c hc => (contains_range.mp hc).2.2
  obtain ⟨-, -, htwice, -, hcomm, -, -, hmeet⟩ :=
    Built.boolean_algebra (.of (by decide)) (.range 1 maxCodePoint) (.range 97 122)
      hends hrange
  exact ⟨htwice, hcomm, (hmeet maxCodePoint).mpr (by decide)⟩

/-! ## Beyond the last code point -/

/-- Without the greatest word among the numbers there is a complement of every set. -/
theorem Built.not_contains_maxWord (h : Built most s) (hmost : most < maxWord) :
    s.contains maxWord = false := by
  refine Bool.eq_false_iff.mpr fun hc => ?_
  have hle := h.within maxWord hc
  have hlast : maxCodePoint < maxWord := by decide
  omega

theorem Built.negate_of_lt (h : Built most s) (hmost : most < maxWord) :
    Built most s.negate :=
  h.negate (h.not_contains_maxWord hmost)

/-- What the complement of a built set holds, and that it is the complement among the code
points exactly if no number beyond them is missing below a member. -/
theorem Built.complement_law (h : Built most s) (hmost : most < maxWord) :
    Built most s.negate ∧
      (∀ x, s.negate.contains x = true ↔ ¬s.contains x = true ∧
        (x ≤ maxCodePoint ∨ ∃ m, x < m ∧ s.contains m = true)) ∧
      ((∀ x, s.negate.contains x = true ↔ x ≤ maxCodePoint ∧ ¬s.contains x = true) ↔
        ∀ m, s.contains m = true → ∀ x, maxCodePoint < x → x < m →
          s.contains x = true) := by
  have hnegate : ∀ x, s.negate.contains x = true ↔ ¬s.contains x = true ∧
      (x ≤ maxCodePoint ∨ ∃ m, x < m ∧ s.contains m = true) :=
    fun x => h.canonical.contains_negate
  refine ⟨h.negate_of_lt hmost, hnegate, fun hlaw m hm x hbeyond hlt => ?_,
    fun hfilled x => ?_⟩
  · refine Decidable.byContradiction fun hx => ?_
    have hle := ((hlaw x).mp ((hnegate x).mpr ⟨hx, .inr ⟨m, hlt, hm⟩⟩)).1
    omega
  · rw [hnegate]
    constructor
    · rintro ⟨hnot, hle | ⟨m, hlt, hm⟩⟩
      · exact ⟨hle, hnot⟩
      · exact ⟨Nat.le_of_not_lt fun hbeyond => hnot (hfilled m hm x hbeyond hlt), hnot⟩
    · exact fun ⟨hle, hnot⟩ => ⟨hnot, .inl hle⟩

/-- The numbers next to the last code point leave nothing out below them. -/
theorem complement_law_next :
    Built 0x110001 (of [0x110000, 0x110001]).negate ∧
      ∀ x, (of [0x110000, 0x110001]).negate.contains x = true ↔
        x ≤ maxCodePoint ∧ ¬(of [0x110000, 0x110001]).contains x = true := by
  obtain ⟨hbuilt, -, hlaw⟩ := Built.complement_law
    (s := of [0x110000, 0x110001]) (.of (by decide)) (by decide : 0x110001 < maxWord)
  refine ⟨hbuilt, hlaw.mpr fun m hm x hbeyond hlt => ?_⟩
  rw [contains_of] at hm ⊢
  simp only [List.mem_cons, List.not_mem_nil, or_false, maxCodePoint] at hm hbeyond ⊢
  omega

/-- The complement of a number beyond the code points holds the numbers between. -/
theorem negate_beyond_code_points : Built 0x110005 (of [0x110005]) ∧ 0x110005 < maxWord ∧
    (of [0x110005]).negate.contains 0x110000 = true ∧
    ¬((of [0x110005]).negate.contains 0x110000 = true ↔
      0x110000 ≤ maxCodePoint ∧ ¬(of [0x110005]).contains 0x110000 = true) :=
  ⟨.of (by decide), by decide, by decide, by decide⟩

end RuleGraph.CharSet
