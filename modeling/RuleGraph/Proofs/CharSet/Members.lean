import RuleGraph.CharSet.Basic
import RuleGraph.Proofs.Text.Utf8

/-!
# Members of sets

A set holds what one of its ranges holds. Putting a range into a list may make one range
of several, but they meet or touch, so nothing lies between them that would become a
member. That needs no order in the list and no range that holds something.
-/

namespace RuleGraph

namespace Range

theorem holds_iff {r : Range} {c : Nat} : r.holds c = true ↔ r.low ≤ c ∧ c ≤ r.high := by
  rw [holds, Bool.and_eq_true, decide_eq_true_eq, decide_eq_true_eq]

/-- What lies in the hull of two ranges that are not clear of each other lies in one of
them. -/
theorem holds_hull_iff {r s : Range} (h : r.clearOf s = false)
    (h' : s.clearOf r = false) (c : Nat) :
    (r.hull s).holds c = true ↔ r.holds c = true ∨ s.holds c = true := by
  have hr : ¬r.high + 1 < s.low := of_decide_eq_false h
  have hs : ¬s.high + 1 < r.low := of_decide_eq_false h'
  simp only [holds_iff, hull]
  omega

theorem any_insert (ranges : List Range) (c : Nat) : ∀ r : Range,
    (r.insert ranges).any (·.holds c) = true ↔
      r.holds c = true ∨ ranges.any (·.holds c) = true := by
  induction ranges with
  | nil => simp [insert]
  | cons s rest ih =>
    intro r
    rw [insert]
    split
    · rw [List.any_cons, Bool.or_eq_true]
    · rename_i hclear
      split
      · rw [List.any_cons, List.any_cons, Bool.or_eq_true, Bool.or_eq_true, ih,
          or_left_comm]
      · rename_i hclear'
        rw [ih, holds_hull_iff (Bool.not_eq_true _ ▸ hclear)
            (Bool.not_eq_true _ ▸ hclear'), List.any_cons, Bool.or_eq_true, or_assoc]

end Range

namespace CharSet

variable {c : Nat}

theorem contains_union {a b : CharSet} :
    (a.union b).contains c = true ↔ a.contains c = true ∨ b.contains c = true := by
  unfold contains union
  dsimp only
  generalize a.ranges = ranges
  induction ranges with
  | nil => simp
  | cons r rest ih =>
    rw [List.foldr_cons, Range.any_insert, ih, List.any_cons, Bool.or_eq_true, or_assoc]

theorem contains_range {low high : Nat} :
    (range low high).contains c = true ↔ low ≤ c ∧ c ≤ high ∧ c ≤ maxCodePoint := by
  unfold range
  dsimp only
  split
  · simp only [contains, List.any_cons, List.any_nil, Bool.or_false,
      Range.holds_iff, Nat.le_min]
  · simp only [contains, empty, List.any_nil, Bool.false_eq_true, false_iff]
    omega

theorem contains_of {members : List Nat} :
    (of members).contains c = true ↔ c ∈ members := by
  unfold contains of
  dsimp only
  induction members with
  | nil => simp
  | cons m rest ih =>
    rw [List.foldr_cons, Range.any_insert, ih, List.mem_cons, Range.holds_iff]
    exact or_congr_left (show m ≤ c ∧ c ≤ m ↔ c = m by omega)

/-! ## Sets of characters -/

theorem toNat_le_maxCodePoint (c : Char) : c.toNat ≤ maxCodePoint := by
  have := Utf8.toNat_valid c
  rw [maxCodePoint]
  omega

theorem contains_character {d : Char} :
    (character d.toNat).contains c = true ↔ c = d.toNat := by
  have := toNat_le_maxCodePoint d
  rw [character, contains_range]
  omega

/-- A literal that is a text has its characters for members. -/
theorem contains_ofLiteral {text : List Char} {d : Char} :
    (ofLiteral (utf8 text)).contains d.toNat = true ↔ d ∈ text := by
  rw [ofLiteral, Utf8.scalars?_utf8, Option.getD_some, contains_of, List.mem_map]
  constructor
  · rintro ⟨e, he, heq⟩
    rwa [← Char.toNat_inj.mp heq]
  · exact fun hd => ⟨d, hd, rfl⟩

end CharSet

end RuleGraph
