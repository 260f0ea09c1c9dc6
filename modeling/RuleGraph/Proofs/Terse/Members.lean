import RuleGraph.Proofs.CharSet.Members
import RuleGraph.Proofs.Terse.Declarations
import RuleGraph.Proofs.Terse.Keeping
import RuleGraph.Proofs.Terse.Printing

/-!
# What a bracket class lists

A class is usually written as a list of members with white space between them: characters
and ranges of them in braces, texts in quotes, letters, and the names of rules that were
declared before. `Item` has just these, and says of each which characters it stands for
without a word about sets, states or how the reader goes about it.

The reader is known to be right about any parts, however they are laid out. So an item is
made a part, and what is left to see is that it is spelled as one, and that the set of the
part holds the characters of the item.
-/

namespace RuleGraph.Terse

/-! ## Items -/

/-- A number in braces, given as a character or as a numeral. -/
inductive Value
  | character (c : Char) (unquoted : c ≠ '\'')
  | hexadecimal (n : Numeral 16)
  | decimal (n : Numeral 10)

namespace Value

def code : Value → Nat
  | character c _ => c.toNat
  | hexadecimal n => n.value
  | decimal n => n.value

def text : Value → List Char
  | character c _ => ['\'', c, '\'']
  | hexadecimal n => '#' :: n.digits
  | decimal n => n.digits

def Fits (limits : Limits) : Value → Prop
  | character c _ => (String.utf8EncodeChar c).length ≤ limits.text
  | hexadecimal _ | decimal _ => True

end Value

inductive Item
  | range (low high : Value)
  | single (value : Value)
  | literal (text : List Char) (unquoted : ∀ c ∈ text, c ≠ '\'')
  | letter (c : Char) (admitted : isWordChar c = true)
  | inclusion (w : Word)

namespace Item

def text : Item → List Char
  | range low high => "\x7b".toList ++ (low.text ++ '-' :: high.text) ++ "\x7d".toList
  | single value => "\x7b".toList ++ value.text ++ "\x7d".toList
  | literal text _ => '\'' :: (text ++ ['\''])
  | letter c _ => [c]
  | inclusion w => '\\' :: w.letters

/-- The texts in an item keep to the limit. -/
def Fits (limits : Limits) : Item → Prop
  | range low high => low.Fits limits ∧ high.Fits limits
  | single value => value.Fits limits
  | literal text _ => (utf8 text).length ≤ limits.text
  | letter _ _ => True
  | inclusion w => w.Fits limits

/-- A name is that of a rule with a character set. -/
def Known (filed : List Rule) : Item → Prop
  | inclusion w => ∃ r set, find? filed w.name = some r ∧ r.charSet? = some set
  | range _ _ | single _ | literal _ _ | letter _ _ => True

/-- The character is one that the item stands for. -/
def Holds (filed : List Rule) (c : Char) : Item → Prop
  | range low high => low.code ≤ c.toNat ∧ c.toNat ≤ max low.code high.code
  | single value => c.toNat = value.code
  | literal text _ => c ∈ text
  | letter l _ => c = l
  | inclusion w => ∃ r set, find? filed w.name = some r ∧ r.charSet? = some set ∧
      set.contains c.toNat = true

end Item

def White (text : List Char) : Prop :=
  ∀ c ∈ text, c ∈ [' ', '\t', '\n', '\r']

instance (text : List Char) : Decidable (White text) :=
  List.decidableBAll (· ∈ [' ', '\t', '\n', '\r']) text

/-- Items with white space between them, and perhaps in front and behind. -/
inductive Spaced : List Item → List Char → Prop
  | nothing {blanks : List Char} : White blanks → Spaced [] blanks
  | item {blanks text : List Char} {item : Item} {items : List Item} : White blanks →
      Spaced items text → (items = [] ∨ ∃ c ∈ text.head?, White [c]) →
      Spaced (item :: items) (blanks ++ (item.text ++ text))

/-! ## Items as parts -/

theorem unquoted_utf8 {text : List Char} (h : ∀ c ∈ text, c ≠ '\'') :
    ∀ b ∈ utf8 text, Sign.of b ≠ .quote := by
  intro b hb hquote
  obtain ⟨c, hc, hbc⟩ := List.mem_flatMap.mp hb
  have hnat : b.toNat = 0x27 := congrArg UInt8.toNat (eq_of_sign hquote rfl)
  rcases Utf8.encode_plain_or_high c with ⟨hlt, hplain⟩ | ⟨-, hhigh⟩
  · rw [hplain, List.mem_singleton] at hbc
    rw [hbc, Utf8.toNat_ofNat (by omega)] at hnat
    exact h c hc (Char.toNat_inj.mp hnat)
  · have := hhigh b hbc
    omega

def Quote.ofText (text : List Char) (h : ∀ c ∈ text, c ≠ '\'') : Quote :=
  ⟨utf8 text, unquoted_utf8 h⟩

theorem Quote.bytes_ofText {text : List Char} (h : ∀ c ∈ text, c ≠ '\'') :
    (Quote.ofText text h).bytes = utf8 ('\'' :: (text ++ ['\''])) := by
  rw [utf8_cons, utf8_append]
  rfl

theorem firstCodePoint_utf8 (c : Char) : firstCodePoint (utf8 [c]) = some c.toNat := by
  rw [firstCodePoint, Utf8.scalars?_utf8]
  rfl

def Value.mark : Value → Mark
  | character c h => .character (.ofText [c] (List.forall_mem_singleton.mpr h)) c.toNat
      (firstCodePoint_utf8 c)
  | hexadecimal n => .hexadecimal n
  | decimal n => .decimal n

theorem Value.spelled (value : Value) {rest : Bytes} (h : Ended 10 rest)
    (h' : Ended 16 rest) : value.mark.Spelled (utf8 value.text) rest := by
  cases value with
  | character c h => exact (Quote.bytes_ofText (List.forall_mem_singleton.mpr h)).symm
  | hexadecimal n =>
    refine ⟨?_, h'⟩
    rw [text, utf8_cons, n.bytes_eq]
    rfl
  | decimal n => exact ⟨n.bytes_eq.symm, h⟩

theorem Value.take_mark (value : Value) (p : Places) :
    p.take value.mark = p.fill value.code := by
  cases value <;> rfl

theorem Value.Fits.mark {value : Value} {limits : Limits} (h : value.Fits limits) :
    value.mark.Fits limits := by
  cases value with
  | character c _ =>
    show (utf8 [c]).length ≤ limits.text
    rw [utf8_cons, utf8_nil, List.append_nil]
    exact h
  | hexadecimal _ | decimal _ => trivial

/-- Of the numbers between two, all that characters have are in the set. -/
theorem Places.contains_set (p : Places) (c : Char) :
    p.set.contains c.toNat = true ↔ p.low ≤ c.toNat ∧ c.toNat ≤ max p.low p.high := by
  rw [set, CharSet.contains_range, Nat.max_comm]
  exact and_congr_right' (and_iff_left (CharSet.toNat_le_maxCodePoint c))

namespace Item

def part : Item → Part
  | range low high => .range [low.mark, .dash, high.mark]
  | single value => .range [value.mark]
  | literal text h => .literal (.ofText text h)
  | letter c h => .letter c h
  | inclusion w => .inclusion w

theorem spelled (item : Item) {rest : Bytes} (h : Closed rest) :
    item.part.Spelled (utf8 item.text) rest := by
  cases item with
  | range low high =>
    exact braced (laid_printed
      (fun rest =>
        low.spelled (ended_dash (by decide) rest) (ended_dash (by decide) rest))
      (high.spelled (by decide) (by decide)))
  | single value =>
    exact braced (laid_nothing.tight (List.forall_mem_nil _)
      (value.spelled (by decide) (by decide)))
  | literal text h => exact (Quote.bytes_ofText h).symm
  | letter c hc => exact (ascii_eq_utf8 (List.forall_mem_singleton.mpr hc)).symm
  | inclusion w =>
    refine ⟨?_, h⟩
    rw [text, utf8_cons, Word.bytes, ascii_eq_utf8 w.admitted]
    rfl

theorem Fits.part {item : Item} {limits : Limits} (h : item.Fits limits) :
    item.part.Fits limits := by
  cases item with
  | range low high =>
    exact List.forall_mem_cons.mpr
      ⟨h.1.mark,
        List.forall_mem_cons.mpr ⟨trivial, List.forall_mem_singleton.mpr h.2.mark⟩⟩
  | single value => exact List.forall_mem_singleton.mpr (Value.Fits.mark h)
  | literal text _ => exact h
  | letter _ _ => trivial
  | inclusion w => exact h

/-- The set of a part holds the characters of the item. -/
theorem exists_set {item : Item} {filed : List Rule} (h : item.Known filed) :
    ∃ set, item.part.set? filed = some set ∧
      ∀ c : Char, set.contains c.toNat = true ↔ item.Holds filed c := by
  cases item with
  | range low high =>
    have hplaces : Places.of [low.mark, .dash, high.mark] =
        ⟨low.code, high.code, true⟩ := by
      simp only [Places.of, List.foldl_cons, List.foldl_nil, Value.take_mark]
      rfl
    refine ⟨_, rfl, fun c => ?_⟩
    rw [hplaces, Places.contains_set]
    exact Iff.rfl
  | single value =>
    have hplaces : Places.of [value.mark] = ⟨value.code, 0, false⟩ := by
      simp only [Places.of, List.foldl_cons, List.foldl_nil, Value.take_mark]
      rfl
    refine ⟨_, rfl, fun c => ?_⟩
    rw [hplaces, Places.contains_set, Holds, Nat.max_zero, eq_comm, Nat.eq_iff_le_and_ge]
  | literal text h => exact ⟨_, rfl, fun c => CharSet.contains_ofLiteral⟩
  | letter l _ => exact ⟨_, rfl, fun c => CharSet.contains_character.trans Char.toNat_inj⟩
  | inclusion w =>
    obtain ⟨r, set, hr, hset⟩ := h
    refine ⟨set, ?_, fun c => ⟨fun hc => ⟨r, set, hr, hset, hc⟩, ?_⟩⟩
    · rw [part, Part.set?, hr]
      exact hset
    · rintro ⟨r', set', hr', hset', hc⟩
      cases hr.symm.trans hr'
      cases hset.symm.trans hset'
      exact hc

/-- The union of the parts holds the characters of all items. -/
theorem exists_union {items : List Item} {filed : List Rule} :
    (∀ item ∈ items, item.Known filed) → ∀ set : CharSet,
      ∃ total, unionOf? filed set (items.map part) = some total ∧
        ∀ c : Char, total.contains c.toNat = true ↔
          set.contains c.toNat = true ∨ ∃ item ∈ items, item.Holds filed c := by
  induction items with
  | nil => exact fun _ set => ⟨set, rfl, by simp⟩
  | cons item items ih =>
    intro h set
    obtain ⟨hitem, hitems⟩ := List.forall_mem_cons.mp h
    obtain ⟨added, hadded, hholds⟩ := exists_set hitem
    obtain ⟨total, htotal, hcontains⟩ := ih hitems (set.union added)
    refine ⟨total, ?_, fun c => ?_⟩
    · rw [List.map_cons, unionOf?, hadded]
      exact htotal
    · rw [hcontains, CharSet.contains_union, hholds, or_assoc]
      simp only [List.mem_cons, or_and_right, exists_or, exists_eq_left]

end Item

/-! ## Lists of items -/

theorem blanks_of_white {text : List Char} (h : White text) :
    ∀ b ∈ utf8 text, isBlank b = true := by
  intro b hb
  obtain ⟨c, hc, hbc⟩ := List.mem_flatMap.mp hb
  have hc := h c hc
  simp only [List.mem_cons, List.not_mem_nil, or_false] at hc
  rcases hc with rfl | rfl | rfl | rfl <;> exact List.mem_singleton.mp hbc ▸ rfl

theorem closed_of_white {c : Char} {text : List Char} {rest : Bytes} (hc : c ∈ text.head?)
    (h : White [c]) : Closed (utf8 text ++ rest) := by
  obtain ⟨more, rfl⟩ := List.head?_eq_some_iff.mp hc
  have hblanks := blanks_of_white h
  rw [utf8_cons, utf8_nil, List.append_nil] at hblanks
  rw [utf8_cons, List.append_assoc]
  exact Closed.blanks hblanks fun hnil => absurd hnil String.utf8EncodeChar_ne_nil

variable {items : List Item} {text : List Char}

theorem Spaced.closed (h : Spaced items text)
    (hnext : items = [] ∨ ∃ c ∈ text.head?, White [c]) :
    Closed (utf8 text ++ ascii [']']) := by
  rcases hnext with rfl | ⟨c, hc, hwhite⟩
  · cases h with
    | nothing hblanks => exact Closed.blanks (blanks_of_white hblanks) fun _ => by decide
  · exact closed_of_white hc hwhite

/-- Items are parts that are laid out with gaps between them. -/
theorem Spaced.laid (h : Spaced items text) :
    Laid Gap Part.Spelled (ascii [']']) (items.map Item.part)
      (utf8 text ++ ascii [']']) := by
  induction h with
  | nothing hblanks => exact .done (.blanks (blanks_of_white hblanks))
  | @item blanks text item items hblanks hspaced hnext ih =>
    rw [utf8_append, utf8_append, List.append_assoc, List.append_assoc]
    exact .item (.blanks (blanks_of_white hblanks))
      (item.spelled (hspaced.closed hnext)) ih

/-! ## The declaration of a class -/

/-- A declaration with nothing but a class of these parts. -/
def classDeclaration (w : Word) (parts : List Part) : Declaration :=
  ⟨w, [.atom (.brackets parts) []], []⟩

theorem classDeclaration_rule? {filed : List Rule} {parts : List Part} {total : CharSet}
    (h : unionOf? filed CharSet.empty parts = some total) (w : Word) :
    (classDeclaration w parts).rule? filed =
      some ((Rule.terminal total).named w.name) := by
  have hatom : (Atom.brackets parts).rule? filed = some (Rule.terminal total) := by
    rw [Atom.rule?, h]
    rfl
  rw [classDeclaration, Declaration.rule?, elements?, elements?, others?,
    Phrase.elements?, hatom]
  rfl

theorem written_class {parts : List Part} (w : Word)
    (hlaid : Laid Gap Part.Spelled (ascii [']']) parts (utf8 text ++ ascii [']'])) :
    Written [classDeclaration w parts]
      (utf8 (w.letters ++ (" = [".toList ++ (text ++ [']'])))) := by
  have hsource : utf8 (w.letters ++ (" = [".toList ++ (text ++ [']']))) =
      (w.bytes ++ ([0x20] ++ ascii ['='])) ++
        ([0x20] ++ ((ascii ['['] ++ (utf8 text ++ ascii [']'])) ++ [])) := by
    rw [utf8_append, utf8_append, utf8_append, Word.bytes, ascii_eq_utf8 w.admitted,
      List.append_nil]
    simp only [List.append_assoc]
    rfl
  have hblank : Gap [0x20] := .blank (by decide) .nothing
  have hclass : Bracketed parts (ascii ['['] ++ (utf8 text ++ ascii [']'])) :=
    ⟨_, rfl, hlaid⟩
  rw [hsource]
  exact .item (g := []) .nothing ⟨[0x20], by decide, rfl⟩
    (.item hblank hclass (.done (g := []) .nothing))

/-- A class of any parts, alone in a declaration, becomes a rule with their union. -/
theorem compile_parts {limits : Limits} {filed : List Rule} {total : CharSet}
    {parts : List Part} (w : Word)
    (hlaid : Laid Gap Part.Spelled (ascii [']']) parts (utf8 text ++ ascii [']']))
    (hw : w.Fits limits) (hfits : ∀ p ∈ parts, p.Fits limits)
    (hsequence : 0 < limits.sequence) (halternatives : 0 < limits.alternatives)
    (hrules : filed.length < limits.rules)
    (htotal : unionOf? filed CharSet.empty parts = some total) :
    compile limits filed (utf8 (w.letters ++ (" = [".toList ++ (text ++ [']'])))) =
      .ok (filed ++ [Rule.capture w.name (Rule.terminal total)]) := by
  have hrule : (classDeclaration w parts).rule? filed =
      some (Rule.capture w.name (Rule.terminal total)) := by
    rw [classDeclaration_rule? htotal, Rule.named, w.isQuiet_name]
    rfl
  have hdeclaration : (classDeclaration w parts).Fits limits := by
    refine ⟨hw, halternatives, hsequence, ?_, ?_⟩
    · show Terse.Fits limits 0 [.atom (.brackets parts) []]
      rw [Terse.Fits, Terse.Fits, Phrase.Fits]
      exact ⟨⟨hfits, List.forall_mem_nil _⟩, trivial⟩
    · show OthersFit limits 0 []
      rw [OthersFit]
      trivial
  have hrules? : rules? filed [classDeclaration w parts] =
      some [Rule.capture w.name (Rule.terminal total)] := by
    rw [rules?, hrule]
    rfl
  exact Resting.declarations (List.forall_mem_singleton.mpr hdeclaration) hrules? hrules
    (written_class w hlaid) .between

theorem compile_class {limits : Limits} {filed : List Rule} {total : CharSet} (w : Word)
    (h : Spaced items text) (hw : w.Fits limits)
    (hfits : ∀ item ∈ items, item.Fits limits) (hsequence : 0 < limits.sequence)
    (halternatives : 0 < limits.alternatives) (hrules : filed.length < limits.rules)
    (htotal : unionOf? filed CharSet.empty (items.map Item.part) = some total) :
    compile limits filed (utf8 (w.letters ++ (" = [".toList ++ (text ++ [']'])))) =
      .ok (filed ++ [Rule.capture w.name (Rule.terminal total)]) := by
  have hparts : ∀ p ∈ items.map Item.part, p.Fits limits :=
    List.forall_mem_map.mpr fun item hitem => (hfits item hitem).part
  exact compile_parts w h.laid hw hparts hsequence halternatives hrules htotal

end RuleGraph.Terse
