import RuleGraph.Proofs.Terse.Reading
import RuleGraph.Proofs.Text.Utf8

/-!
# Putting a source together

The other direction of reading: from the parts of a source to what is written. A
source is put together from its end. White space and comments may come in front
of whatever is there, and a token may if it is spelled in front of that. Only
names and numbers look at what follows them, and white space ends a name as well
as a sign does.

Bytes that are given otherwise than by their signs, as white space or as the text
of a name, have to be turned into this alphabet. That is what the first lemmas
are for.
-/

namespace RuleGraph.Terse

/-! ## Bytes and their signs -/

theorem eq_of_ofUInt8 {b : UInt8} {c : Char} (h : Char.ofUInt8 b = c) :
    b = c.toUInt8 := by
  rw [← h]
  exact (UInt8.toUInt8_toUInt32 b).symm

/-- The character with this sign, if there is just one. -/
def Sign.char? : Sign → Option Char
  | .dash => '-'
  | .percent => '%'
  | .equals => '='
  | .quote => '\''
  | .openBracket => '['
  | .closeBracket => ']'
  | .backslash => '\\'
  | .openBrace => '\x7b'
  | .closeBrace => '\x7d'
  | .atSign => '@'
  | .question => '?'
  | .star => '*'
  | .plus => '+'
  | .openGroup => '('
  | .closeGroup => ')'
  | .tilde => '~'
  | .less => '<'
  | .greater => '>'
  | .bar => '|'
  | .caret => '^'
  | .ampersand => '&'
  | .hash => '#'
  | .spacing contract => contract.sign
  | .blank | .word | .other => none

theorem char_of_sign {c d : Char} (h : (Sign.ofChar c).char? = some d) : c = d := by
  unfold Sign.ofChar at h
  split at h
  all_goals first
    | exact Option.some.inj h
    | cases h
    | (split at h <;> cases h)

theorem eq_of_sign {b : UInt8} {sign : Sign} {c : Char} (h : Sign.of b = sign)
    (hchar : sign.char? = some c) : b = c.toUInt8 := by
  subst h
  exact eq_of_ofUInt8 (char_of_sign hchar)

theorem sign_of_isBlank {b : UInt8} (h : isBlank b = true) : Sign.of b = .blank := by
  simp only [isBlank, isIndent, Bool.or_eq_true, beq_iff_eq] at h
  rcases h with ((rfl | rfl) | rfl) | rfl <;> rfl

theorem ascii_eq_utf8 {text : List Char} (h : ∀ c ∈ text, isWordChar c = true) :
    ascii text = utf8 text := by
  induction text with
  | nil => rfl
  | cons c rest ih =>
    obtain ⟨hc, hrest⟩ := List.forall_mem_cons.mp h
    rw [utf8_cons, ← ih hrest, Utf8.encode_of_lt (toNat_lt_of_isWordChar hc)]
    rfl

theorem isWordChar_of_readDigits {base : Nat} {digits : List Char} :
    ∀ {value total : Nat}, readDigits base value digits = some total →
      ∀ c ∈ digits, isWordChar c = true := by
  induction digits with
  | nil => nofun
  | cons c rest ih =>
    intro value total h
    rw [readDigits] at h
    split at h
    · cases h
    · rename_i d hd
      exact List.forall_mem_cons.mpr ⟨isWordChar_of_digit? hd, ih h⟩

theorem Numeral.bytes_eq {base : Nat} (n : Numeral base) : n.bytes = utf8 n.digits :=
  ascii_eq_utf8 (isWordChar_of_readDigits n.reads)

/-! ## Gaps and items -/

variable {rest : Bytes}

theorem Gap.append {g g' : Bytes} (hg : Gap g) (hg' : Gap g') : Gap (g ++ g') := by
  induction hg with
  | nothing => exact hg'
  | blank hb _ ih => exact .blank hb ih
  | comment htext _ ih =>
    rw [List.append_assoc, List.append_assoc, List.append_assoc]
    exact .comment htext ih

theorem Gap.blanks {g : Bytes} (h : ∀ b ∈ g, isBlank b = true) : Gap g := by
  induction g with
  | nil => exact .nothing
  | cons b rest ih =>
    obtain ⟨hb, hrest⟩ := List.forall_mem_cons.mp h
    exact .blank (sign_of_isBlank hb) (ih hrest)

theorem Closed.blanks {g : Bytes} (h : ∀ b ∈ g, isBlank b = true)
    (hrest : g = [] → Closed rest) : Closed (g ++ rest) := by
  cases g with
  | nil => exact hrest rfl
  | cons b more =>
    rintro _ ⟨⟩
    rw [sign_of_isBlank (h b List.mem_cons_self)]
    decide

/-- What may stand in front of a gap may stand in front of what is laid out. -/
theorem Laid.behind {α : Type} {gap : Bytes → Prop} {spelled : α → Bytes → Bytes → Prop}
    {last g : Bytes} {items : List α} (hgap : ∀ {g'}, gap g' → gap (g ++ g'))
    (h : Laid gap spelled last items rest) : Laid gap spelled last items (g ++ rest) := by
  cases h with
  | done hnext =>
    rw [← List.append_assoc]
    exact .done (hgap hnext)
  | item hnext hspelled hlaid =>
    rw [← List.append_assoc]
    exact .item (hgap hnext) hspelled hlaid

/-- An item with nothing in front of it. -/
theorem Laid.tight {α : Type} {gap : Bytes → Prop} {spelled : α → Bytes → Bytes → Prop}
    {last bytes : Bytes} {a : α} {items : List α} (h : Laid gap spelled last items rest)
    (hgap : gap []) (ha : spelled a bytes rest) :
    Laid gap spelled last (a :: items) (bytes ++ rest) :=
  .item (g := []) hgap ha h

theorem Laid.decimal {last : Bytes} {marks : List Mark}
    (h : Laid Blanks Mark.Spelled last marks rest) (n : Numeral 10)
    (hrest : Ended 10 rest) :
    Laid Blanks Mark.Spelled last (.decimal n :: marks) (utf8 n.digits ++ rest) := by
  rw [← n.bytes_eq]
  exact h.tight (List.forall_mem_nil _) ⟨rfl, hrest⟩

/-- Nothing in front of the closing brace. -/
theorem laid_nothing : Laid Blanks Mark.Spelled (ascii ['\x7d']) [] (ascii ['\x7d']) :=
  .done (g := []) (List.forall_mem_nil _)

/-- Two numbers with a dash between them, of which each may look at what follows it. -/
theorem laid_dash {first last : Mark} {low high : Bytes}
    (hlow : ∀ rest, first.Spelled low (ascii ['-'] ++ rest))
    (hhigh : last.Spelled high (ascii ['\x7d'])) :
    Laid Blanks Mark.Spelled (ascii ['\x7d']) [first, .dash, last]
      (low ++ (ascii ['-'] ++ (high ++ ascii ['\x7d']))) := by
  have hlast := laid_nothing.tight (List.forall_mem_nil _) hhigh
  have hdash : Laid Blanks Mark.Spelled (ascii ['\x7d']) [.dash, last]
      (ascii ['-'] ++ (high ++ ascii ['\x7d'])) := hlast.tight (List.forall_mem_nil _) rfl
  exact hdash.tight (List.forall_mem_nil _) (hlow _)

theorem ended_dash {base : Nat} (hbase : digitOf? base 0x2D = none) (rest : Bytes) :
    Ended base (ascii ['-'] ++ rest) := by
  rintro _ ⟨⟩
  exact hbase

/-- Tokens as they are written one after the other, with gaps between them. -/
def Spells (tokens : List Token) (source : Bytes) : Prop :=
  Laid Gap Token.Spelled [] tokens source

namespace Spells

variable {tokens : List Token}

theorem gap {g : Bytes} (h : Spells tokens rest) (hg : Gap g) :
    Spells tokens (g ++ rest) :=
  Laid.behind hg.append h

theorem token {t : Token} {bytes : Bytes} (h : Spells tokens rest)
    (ht : t.Spelled bytes rest) : Spells (t :: tokens) (bytes ++ rest) :=
  Laid.tight h .nothing ht

end Spells

end RuleGraph.Terse
