import RuleGraph.Proofs.Text.Utf8
import RuleGraph.Text.Ascii

/-!
# Numerals and what they are worth

A numeral is digits, one at least, together with the number that they write. The
number may be any. Where a notation takes no numerals but those of a word, it says
so in addition to this.
-/

namespace RuleGraph

theorem readDigits_append {base : Nat} (first second : List Char) :
    ∀ value : Nat, readDigits base value (first ++ second) =
      (readDigits base value first).bind (readDigits base · second) := by
  induction first with
  | nil => exact fun _ => rfl
  | cons c rest ih =>
    intro value
    rw [List.cons_append, readDigits, readDigits]
    cases digit? base c with
    | none => rfl
    | some d => exact ih _

/-- The digits of a number are read as the number, in any shape that keeps their
values. -/
theorem readDigits_toDigits {base : Nat} (hbase : 1 < base) (shape : Char → Char)
    (hshape : ∀ d < base, digit? base (shape d.digitChar) = some d) (n : Nat) :
    readDigits base 0 ((Nat.toDigits base n).map shape) = some n := by
  induction n using Nat.strongRecOn with
  | ind n ih =>
    rcases Nat.lt_or_ge n base with hlt | hge
    · rw [Nat.toDigits_of_lt_base hlt, List.map_singleton, readDigits, hshape n hlt]
      exact congrArg some (by omega)
    · have hpos : 0 < n / base := Nat.div_pos hge (Nat.lt_of_succ_lt hbase)
      have hmod : n % base < base := Nat.mod_lt _ (Nat.lt_of_succ_lt hbase)
      have hdigits := Nat.toDigits_append_toDigits hbase hpos hmod
      rw [Nat.div_add_mod, Nat.toDigits_of_lt_base hmod] at hdigits
      rw [← hdigits, List.map_append, readDigits_append,
        ih (n / base) (Nat.div_lt_self (by omega) hbase), List.map_singleton,
        Option.bind_some, readDigits, hshape _ hmod]
      exact congrArg some (Nat.div_add_mod' n base)

/-- A number never falls when digits are added to it. -/
theorem le_of_readDigits {base : Nat} (hbase : 0 < base) {digits : List Char} :
    ∀ {value total : Nat}, readDigits base value digits = some total → value ≤ total := by
  induction digits with
  | nil =>
    intro value total h
    cases h
    exact Nat.le_refl _
  | cons c rest ih =>
    intro value total h
    rw [readDigits] at h
    split at h
    · cases h
    · rename_i d _
      have hmul : value ≤ value * base := Nat.le_mul_of_pos_right value hbase
      have := ih h
      omega

/-- Digits, one at least, and the number that they write. It may be any number. -/
structure Numeral (base : Nat) where
  digits : List Char
  value : Nat
  nonempty : digits ≠ []
  reads : readDigits base 0 digits = some value

namespace Numeral

variable {base : Nat}

def bytes (n : Numeral base) : Bytes := utf8 n.digits

theorem bytes_ne_nil (n : Numeral base) : n.bytes ≠ [] := by
  obtain ⟨digits, value, hne, hreads⟩ := n
  cases digits with
  | nil => exact absurd rfl hne
  | cons c digits =>
    rw [bytes, utf8_cons]
    exact List.append_ne_nil_of_left_ne_nil String.utf8EncodeChar_ne_nil _

/-- A whole text is read as the number, if that fits a word. -/
theorem readWord_digits (n : Numeral base) :
    readWord base n.digits = if n.value ≤ maxWord then some n.value else none := by
  have hreads := n.reads
  have hunsigned : unsigned n.digits = n.digits := by
    unfold unsigned
    split
    · rename_i digits heq
      rw [heq, readDigits, show digit? base '+' = none from rfl] at hreads
      cases hreads
    · rfl
  rw [readWord, hunsigned]
  split
  · rename_i heq
    exact absurd heq n.nonempty
  · rw [hreads, Option.filter_some]
    simp only [decide_eq_true_eq]

end Numeral

end RuleGraph
