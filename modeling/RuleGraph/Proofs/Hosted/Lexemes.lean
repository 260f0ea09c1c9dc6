import RuleGraph.Proofs.Hosted.MetaRules
import RuleGraph.Proofs.Hosted.Notation

/-!
# The lexemes of the hosted notation

White space, names, numerals and quoted characters: what the grammar takes for
one of them is one of them, and each of them is taken, as long as nothing
follows that would make it longer. Both directions rest on the same
correspondence between the sets of the grammar, which speak of bytes, and the
notation, which speaks of characters.
-/

namespace RuleGraph.Hosted

open Matching

variable {offset : Nat} {bytes rest : Bytes} {found : List (Stretch String)}

/-! ## Stretches that are found -/

theorem spelled_cons (label : Label) (bytes : Bytes) (inner more : List (Stretch Label)) :
    spelled (around label offset bytes inner :: more) =
      .node label.text offset (offset + bytes.length) (spelled inner) :: spelled more :=
  rfl

/-- The rule of a label takes bytes and finds a stretch around them. -/
def Finds (l : Label) (offset : Nat) (bytes rest : Bytes) (inner : List (Stretch Label)) :
    Prop :=
  Takes metaGrammar (.rule (part l)) offset bytes rest
    (spelled [around l offset bytes inner])

theorem finds_of_takes {l : Label} {inner : List (Stretch Label)}
    (h : Takes metaGrammar (.rule ⟨"", metaShape l⟩) offset bytes rest (spelled inner)) :
    Finds l offset bytes rest inner :=
  takes_part_iff.mpr ⟨_, h, rfl⟩

theorem takes_sign_iff {l : Label} {sign : Bytes} (h : metaShape l = .literal sign) :
    Takes metaGrammar (.rule (part l)) offset bytes rest found ↔
      bytes = sign ∧ found = spelled [around l offset sign []] := by
  rw [takes_part_iff, h]
  constructor
  · rintro ⟨inner, htakes, rfl⟩
    obtain ⟨rfl, rfl⟩ := takes_literal_iff.mp htakes
    exact ⟨rfl, rfl⟩
  · rintro ⟨rfl, rfl⟩
    exact ⟨[], takes_literal, rfl⟩

/-! ## White space -/

theorem takeWhile_length_iff {kind : UInt8 → Bool} :
    ((bytes ++ rest).takeWhile kind).length = bytes.length ↔
      (∀ b ∈ bytes, kind b = true) ∧ ∀ b ∈ rest.head?, kind b = false := by
  induction bytes with
  | nil =>
    cases rest with
    | nil => simp
    | cons b rest =>
      cases hb : kind b <;> simp [hb]
  | cons b bytes ih =>
    cases hb : kind b
    · simp [hb]
    · simp [hb, ih]

theorem takes_indent_iff :
    Takes metaGrammar (.rule (space .mayIndent)) offset bytes rest found ↔
      ((∀ b ∈ bytes, isIndent b = true) ∧ ∀ b ∈ rest.head?, isIndent b = false) ∧
      found = [] := by
  rw [takes_spacing_iff, ← takeWhile_length_iff]
  exact and_congr_left' ⟨Option.some.inj, congrArg some⟩

theorem takes_pad_iff :
    Takes metaGrammar (.rule (space .mayBreak)) offset bytes rest found ↔
      ((∀ b ∈ bytes, isBlank b = true) ∧ ∀ b ∈ rest.head?, isBlank b = false) ∧
      found = [] := by
  rw [takes_spacing_iff, ← takeWhile_length_iff]
  exact and_congr_left' ⟨Option.some.inj, congrArg some⟩

theorem exists_indent
    (h : Takes metaGrammar (.rule (space .mayIndent)) offset bytes rest found) :
    ∃ gap : Indent, bytes = gap.bytes ∧ found = [] := by
  obtain ⟨⟨hbytes, -⟩, rfl⟩ := takes_indent_iff.mp h
  exact ⟨⟨bytes, hbytes⟩, rfl, rfl⟩

theorem exists_pad
    (h : Takes metaGrammar (.rule (space .mayBreak)) offset bytes rest found) :
    ∃ pad : Pad, bytes = pad.bytes ∧ found = [] := by
  obtain ⟨⟨hbytes, -⟩, rfl⟩ := takes_pad_iff.mp h
  exact ⟨⟨bytes, hbytes⟩, rfl, rfl⟩

/-! ## Characters of one byte -/

theorem char_le_iff {a b : Char} : a ≤ b ↔ a.toNat ≤ b.toNat := Iff.rfl

theorem char_eq_iff {a b : Char} : a = b ↔ a.toNat = b.toNat := Char.toNat_inj.symm

theorem isLetter_eq (c : Char) : isLetter c = letterSet.contains c.toNat := by
  rw [Bool.eq_iff_iff]
  simp only [isLetter, CharSet.contains, letterSet, List.any_cons, List.any_nil,
    Range.holds, Bool.or_eq_true, Bool.and_eq_true, decide_eq_true_eq, beq_iff_eq,
    char_le_iff, char_eq_iff,
    show 'A'.toNat = 65 from rfl, show 'Z'.toNat = 90 from rfl,
      show '_'.toNat = 95 from rfl,
    show 'a'.toNat = 97 from rfl, show 'z'.toNat = 122 from rfl,
      Bool.false_eq_true, or_false]
  omega

theorem isLetterOrDigit_eq (c : Char) : isLetterOrDigit c = wordSet.contains c.toNat := by
  rw [isLetterOrDigit, isLetter_eq, Bool.eq_iff_iff]
  simp only [CharSet.contains, letterSet, wordSet, List.any_cons, List.any_nil,
    Range.holds, Bool.or_eq_true, Bool.and_eq_true, decide_eq_true_eq, char_le_iff,
    show '0'.toNat = 48 from rfl, show '9'.toNat = 57 from rfl,
      Bool.false_eq_true, or_false]
  omega

/-- The characters of a set are the digits in a base. -/
def Digital (base : Nat) (set : CharSet) : Prop :=
  ∀ c : Char, set.contains c.toNat = true ↔ ∃ d, digit? base c = some d

theorem exists_digit?_iff {base : Nat} {c : Char} : (∃ d, digit? base c = some d) ↔
    48 ≤ c.toNat ∧ c.toNat ≤ 57 ∧ c.toNat - 48 < base ∨
      97 ≤ c.toNat ∧ c.toNat ≤ 122 ∧ c.toNat - 97 + 10 < base ∨
      65 ≤ c.toNat ∧ c.toNat ≤ 90 ∧ c.toNat - 65 + 10 < base := by
  simp only [digit?, char_le_iff, show '0'.toNat = 48 from rfl,
    show '9'.toNat = 57 from rfl,
    show 'a'.toNat = 97 from rfl, show 'z'.toNat = 122 from rfl,
      show 'A'.toNat = 65 from rfl,
    show 'Z'.toNat = 90 from rfl]
  split
  · simp
    omega
  · split
    · simp
      omega
    · split
      · simp
        omega
      · simp
        omega

theorem digital_decimal : Digital 10 decimalSet := by
  intro c
  rw [exists_digit?_iff]
  simp only [CharSet.contains, decimalSet, List.any_cons, List.any_nil, Range.holds,
    Bool.or_eq_true, Bool.and_eq_true, decide_eq_true_eq, Bool.false_eq_true, or_false]
  omega

theorem digital_hex : Digital 16 hexSet := by
  intro c
  rw [exists_digit?_iff]
  simp only [CharSet.contains, hexSet, List.any_cons, List.any_nil, Range.holds,
    Bool.or_eq_true, Bool.and_eq_true, decide_eq_true_eq, Bool.false_eq_true, or_false]
  omega

theorem toNat_plainChar {b : UInt8} : (Char.ofNat b.toNat).toNat = b.toNat := by
  have hlt := b.toNat_lt
  rw [Char.ofNat, dif_pos (.inl (by omega))]
  rfl

variable {set : CharSet}

theorem exists_char_of_plain (hset : Plain set) {b : UInt8}
    (h : set.contains b.toNat = true) :
    ∃ c, String.utf8EncodeChar c = [b] ∧ set.contains c.toNat = true := by
  have hlt : (Char.ofNat b.toNat).toNat < 0x80 := by
    rw [toNat_plainChar]
    exact hset.lt h
  refine ⟨Char.ofNat b.toNat, ?_, by rwa [toNat_plainChar]⟩
  rw [Utf8.encode_of_lt hlt, toNat_plainChar, UInt8.ofNat_toNat]

theorem exists_text_of_plain (hset : Plain set)
    (h : ∀ b ∈ bytes, set.contains b.toNat = true) :
    ∃ text, bytes = utf8 text ∧ ∀ c ∈ text, set.contains c.toNat = true := by
  induction bytes with
  | nil => exact ⟨[], rfl, List.forall_mem_nil _⟩
  | cons b bytes ih =>
    obtain ⟨hb, hbytes⟩ := List.forall_mem_cons.mp h
    obtain ⟨text, rfl, htext⟩ := ih hbytes
    obtain ⟨c, hc, hcontains⟩ := exists_char_of_plain hset hb
    exact ⟨c :: text, by rw [utf8_cons, hc, List.singleton_append],
      List.forall_mem_cons.mpr ⟨hcontains, htext⟩⟩

theorem exists_byte_of_plain (hset : Plain set) {c : Char}
    (h : set.contains c.toNat = true) :
    ∃ b, String.utf8EncodeChar c = [b] ∧ set.contains b.toNat = true := by
  have hlt := hset.lt h
  exact ⟨_, Utf8.encode_of_lt hlt, by rwa [Utf8.toNat_ofNat (by omega)]⟩

theorem plain_utf8 (hset : Plain set) {text : List Char}
    (h : ∀ c ∈ text, set.contains c.toNat = true) : ∀ b ∈ utf8 text,
    set.contains b.toNat = true := by
  induction text with
  | nil => nofun
  | cons c text ih =>
    obtain ⟨hc, htext⟩ := List.forall_mem_cons.mp h
    obtain ⟨b, hb, hcontains⟩ := exists_byte_of_plain hset hc
    rw [utf8_cons, hb, List.singleton_append]
    exact List.forall_mem_cons.mpr ⟨hcontains, ih htext⟩

theorem plain_letterSet : Plain letterSet := by decide

theorem plain_wordSet : Plain wordSet := by decide

theorem plain_decimalSet : Plain decimalSet := by decide

theorem plain_hexSet : Plain hexSet := by decide

theorem plain_quoteSet : Plain quoteSet := by decide

/-! ## Names -/

theorem exists_name (h : Takes metaGrammar (.rule (part .name)) offset bytes rest found) :
    ∃ n : Name, bytes = n.bytes ∧ found = spelled [n.stretch offset] := by
  obtain ⟨inner, hshape, rfl⟩ := takes_part_iff.mp h
  obtain ⟨_, _, _, _, rfl, rfl, hsign, hletters⟩ :=
    (takes_element_iff (by simp)).mp (takes_sequence_iff.mp hshape)
  obtain ⟨_, _, _, _, rfl, rfl, hfirst, hlater⟩ :=
    (takes_element_iff (by simp)).mp hletters
  obtain ⟨⟨b, rfl, hb⟩, rfl⟩ := (takes_plain_iff plain_letterSet).mp hfirst
  rw [takes_lastElement_iff (by simp), takes_iteration_iff] at hlater
  obtain ⟨hothers, rfl⟩ := run_of_takes_plain_rounds plain_wordSet hlater
  obtain ⟨c, hc, hletter⟩ := exists_char_of_plain plain_letterSet hb
  obtain ⟨text, rfl, htext⟩ := exists_text_of_plain plain_wordSet hothers
  have hname : ∀ quiet : Bool, ∃ n : Name,
      n.bytes = sign quiet 0x2D ++ ([b] ++ utf8 text) := by
    intro quiet
    refine ⟨⟨quiet, c, text, by rwa [isLetter_eq],
      fun c hc => by rw [isLetterOrDigit_eq]; exact htext c hc⟩, ?_⟩
    cases quiet with
    | false => rw [Name.bytes, Name.text, if_neg nofun, utf8_cons, hc]; rfl
    | true => rw [Name.bytes, Name.text, if_pos rfl, utf8_cons, utf8_cons, hc]; rfl
  rcases takes_optional_cases hsign with ⟨rfl, rfl⟩ | hsign
  · obtain ⟨n, hn⟩ := hname false
    exact ⟨n, hn.symm, by rw [Name.stretch, hn]; rfl⟩
  · obtain ⟨rfl, rfl⟩ := takes_literal_iff.mp hsign
    obtain ⟨n, hn⟩ := hname true
    exact ⟨n, hn.symm, by rw [Name.stretch, hn]; rfl⟩

theorem Name.exists_bytes (n : Name) :
    ∃ b others, n.bytes = sign n.quiet 0x2D ++ ([b] ++ others) ∧
    letterSet.contains b.toNat = true ∧ ∀ b ∈ others,
    wordSet.contains b.toNat = true := by
  obtain ⟨quiet, first, others, hfirst, hothers⟩ := n
  rw [isLetter_eq] at hfirst
  obtain ⟨b, hb, hletter⟩ := exists_byte_of_plain plain_letterSet hfirst
  refine ⟨b, utf8 others, ?_, hletter, plain_utf8 plain_wordSet fun c hc => ?_⟩
  · cases quiet with
    | false => rw [Name.bytes, Name.text, if_neg nofun, utf8_cons, hb]; rfl
    | true => rw [Name.bytes, Name.text, if_pos rfl, utf8_cons, utf8_cons, hb]; rfl
  · rw [← isLetterOrDigit_eq]
    exact hothers c hc

/-- A name is taken up to where no letter or digit follows. -/
theorem name_found {n : Name} (hrest : ∀ b ∈ rest.head?, wordSet.contains b.toNat = false)
    (hlength : n.bytes.length ≤ maxWord) :
    Takes metaGrammar (.rule (part .name)) offset n.bytes rest
      (spelled [n.stretch offset]) := by
  obtain ⟨b, others, hbytes, hb, hothers⟩ := n.exists_bytes
  refine finds_of_takes ?_
  rw [hbytes] at hlength ⊢
  rw [List.length_append, List.length_append] at hlength
  have hrounds : Takes metaGrammar (.rule (many (one wordSet) .star))
      (offset + (sign n.quiet 0x2D).length + 1) others rest [] :=
    takes_iteration_iff.mpr
      (takes_plain_rounds plain_wordSet hrest hothers (Nat.zero_le _)
        (show others.length ≤ maxWord by omega))
  have hletter : Takes metaGrammar (.rule (one letterSet))
      (offset + (sign n.quiet 0x2D).length) [b]
      (others ++ rest) [] := (takes_plain_iff plain_letterSet).mpr ⟨⟨b, rfl, hb⟩, rfl⟩
  have hsign : Takes metaGrammar (.rule (many (lit [0x2D]) .optional)) offset
      (sign n.quiet 0x2D) (([b] ++ others) ++ rest) [] := by
    cases n.quiet with
    | true => exact takes_optional_some nofun (takes_literal)
    | false =>
      refine takes_optional_none (refuses_literal fun hprefix => ?_)
      rw [List.append_assoc, List.singleton_append, List.cons_prefix_cons] at hprefix
      obtain ⟨rfl, -⟩ := hprefix
      exact absurd hb (by decide)
  exact takes_sequence_iff.mpr (hsign.element (by simp)
    (hletter.element (by simp) (hrounds.alone (by simp))))

/-! ## Numerals -/

variable {base : Nat}

theorem exists_numeral (hdigital : Digital base set) (hset : Plain set) (hne : bytes ≠ [])
    (h : ∀ b ∈ bytes, set.contains b.toNat = true) : ∃ n : Numeral base,
    bytes = n.bytes := by
  obtain ⟨text, rfl, htext⟩ := exists_text_of_plain hset h
  have hreads : ∀ text value, (∀ c ∈ text, set.contains c.toNat = true) →
      ∃ result, readDigits base value text = some result := by
    intro text
    induction text with
    | nil => exact fun value _ => ⟨value, rfl⟩
    | cons c text ih =>
      intro value h
      obtain ⟨hc, htext⟩ := List.forall_mem_cons.mp h
      obtain ⟨d, hd⟩ := (hdigital c).mp hc
      rw [readDigits, hd]
      exact ih _ htext
  obtain ⟨value, hvalue⟩ := hreads text 0 htext
  refine ⟨⟨text, value, ?_, hvalue⟩, rfl⟩
  rintro rfl
  exact hne rfl

theorem plain_numeral (hdigital : Digital base set) (hset : Plain set)
    (n : Numeral base) : ∀ b ∈ n.bytes, set.contains b.toNat = true := by
  have hdigits : ∀ text value result, readDigits base value text = some result →
      ∀ c ∈ text, set.contains c.toNat = true := by
    intro text
    induction text with
    | nil => nofun
    | cons c text ih =>
      intro value result h
      rw [readDigits] at h
      split at h
      · cases h
      · rename_i d hd
        exact List.forall_mem_cons.mpr ⟨(hdigital c).mpr ⟨d, hd⟩, ih _ _ h⟩
  exact plain_utf8 hset (hdigits n.digits 0 n.value n.reads)

theorem exists_digits (hdigital : Digital base set) (hset : Plain set)
    (h : Takes metaGrammar (.rule (many (one set) .plus)) offset bytes rest found) :
    ∃ n : Numeral base, bytes = n.bytes ∧ found = [] := by
  rw [takes_iteration_iff] at h
  obtain ⟨hbytes, rfl⟩ := run_of_takes_plain_rounds hset h
  obtain ⟨n, hn⟩ :=
    exists_numeral hdigital hset (ne_nil_of_takes_plain_rounds hset (by decide) h) hbytes
  exact ⟨n, hn, rfl⟩

theorem digits_found (hdigital : Digital base set) (hset : Plain set) {n : Numeral base}
    (hrest : ∀ b ∈ rest.head?, set.contains b.toNat = false)
    (hlength : n.bytes.length ≤ maxWord) :
    Takes metaGrammar (.rule (many (one set) .plus)) offset n.bytes rest [] :=
  takes_iteration_iff.mpr (takes_plain_rounds hset hrest (plain_numeral hdigital hset n)
    (List.length_pos_iff.mpr n.bytes_ne_nil) hlength)

/-! ## Quoted characters -/

theorem exists_glyph
    (h : Takes metaGrammar (.rule (one unquotedSet)) offset bytes rest found) :
    ∃ g : Utf8.Glyph, g.code ≠ 0x27 ∧ bytes = g.bytes ∧ found = [] := by
  obtain ⟨hwidth, rfl⟩ := takes_terminal_iff.mp h
  obtain ⟨g, rest', hcode, heq, hlength⟩ := exists_glyph_of_terminalWidth hwidth
  refine ⟨g, ?_, (List.append_inj heq hlength).1, rfl⟩
  intro hquote
  rw [hquote] at hcode
  exact absurd hcode (by decide)

theorem unquotedSet_contains {g : Utf8.Glyph} (h : g.code ≠ 0x27) :
    unquotedSet.contains g.code = true := by
  have hle := g.code_le
  simp [unquotedSet, CharSet.contains, Range.holds]
  omega

theorem glyph_found {g : Utf8.Glyph} (h : g.code ≠ 0x27)
    (hrest : ∀ b ∈ rest.head?, b.toNat < 0x80) :
    Takes metaGrammar (.rule (one unquotedSet)) offset g.bytes rest [] := by
  rw [takes_terminal_iff, terminalWidth_glyph _ _ hrest, if_pos (unquotedSet_contains h)]
  exact ⟨rfl, rfl⟩

theorem quoteSet_contains_iff {b : UInt8} :
    quoteSet.contains b.toNat = true ↔ b = 0x27 := by
  simp only [quoteSet, CharSet.contains, List.any_cons, List.any_nil, Range.holds,
    Bool.and_eq_true, decide_eq_true_eq, Bool.or_false, ← UInt8.toNat_inj,
    show (0x27 : UInt8).toNat = 39 from rfl]
  omega

theorem takes_quote_iff :
    Takes metaGrammar (.rule (one quoteSet)) offset bytes rest found ↔
      bytes = [0x27] ∧ found = [] := by
  rw [takes_plain_iff plain_quoteSet]
  refine and_congr_left' ⟨?_, ?_⟩
  · rintro ⟨b, rfl, hb⟩
    rw [quoteSet_contains_iff.mp hb]
  · rintro rfl
    exact ⟨0x27, rfl, quoteSet_contains_iff.mpr rfl⟩

/-- A quote is in no glyph but its own. -/
theorem quote_not_mem_glyph {g : Utf8.Glyph} (h : g.code ≠ 0x27) :
    ∀ b ∈ g.bytes, b ≠ 0x27 := by
  rintro b hb rfl
  rcases g.bytes_plain_or_high with ⟨hlt, hbytes⟩ | ⟨hge, hhigh⟩
  · rw [hbytes, List.mem_singleton] at hb
    exact h (by rw [← Utf8.toNat_ofNat (n := g.code) (by omega), ← hb]; rfl)
  · exact absurd (hhigh _ hb) (by decide)

end RuleGraph.Hosted
