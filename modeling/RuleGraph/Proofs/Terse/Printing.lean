import RuleGraph.Grammar.Printed
import RuleGraph.Proofs.CharSet.Ranges
import RuleGraph.Proofs.Terse.Writing

/-!
# Printed numbers, texts, sets and bounds

What rules are made of prints as the notation has it: a number as a numeral, a
literal between quotes, a set as a class of ranges, a bound as a suffix. For each of
them there is something to be written that means it and that is spelled as it is
printed.

Three things keep this from being true of everything. Only what is visible stands for
itself in a literal. A code point outside of quotes can stand in braces only, and there
have to be two of them, so a range of one code point has to be a character. And no word
holds a number above the greatest one.
-/

namespace RuleGraph

namespace Terse

/-! ## Numerals -/

/-- A number as it is printed in base ten. -/
def Numeral.ofCount (n : Nat) (h : n ≤ maxWord) : Numeral 10 where
  digits := RuleGraph.decimal n
  value := n
  nonempty := Nat.toDigits_ne_nil
  reads := by
    have hread := readDigits_toDigits (show 1 < 10 by decide) id (by decide) n
    rwa [List.map_id] at hread
  fits := h

/-- A number as a code point is printed in base sixteen. -/
def Numeral.ofCode (n : Nat) (h : n ≤ maxWord) : Numeral 16 where
  digits := (RuleGraph.hexadecimal n).map Char.toUpper
  value := n
  nonempty := fun hnil => Nat.toDigits_ne_nil (List.map_eq_nil_iff.mp hnil)
  reads := readDigits_toDigits (by decide) Char.toUpper (by decide) n
  fits := h

/-! ## Braces -/

/-- Two printed numbers with a dash between them. -/
theorem laid_printed {first last : Mark} {low high : List Char}
    (hlow : ∀ rest, first.Spelled (utf8 low) (ascii ['-'] ++ rest))
    (hhigh : last.Spelled (utf8 high) (ascii ['\x7d'])) :
    Laid Blanks Mark.Spelled (ascii ['\x7d']) [first, .dash, last]
      (utf8 (low ++ '-' :: high) ++ ascii ['\x7d']) := by
  rw [utf8_append, utf8_cons, List.append_assoc, List.append_assoc]
  exact laid_dash hlow hhigh

theorem braced {marks : List Mark} {text : List Char}
    (h : Laid Blanks Mark.Spelled (ascii ['\x7d']) marks (utf8 text ++ ascii ['\x7d'])) :
    Braced marks (utf8 ("\x7b".toList ++ text ++ "\x7d".toList)) := by
  refine ⟨_, ?_, h⟩
  rw [utf8_append, utf8_append, List.append_assoc]
  rfl

/-! ## Code points -/

open CharSet (isPlain codePointText rangeText)

theorem plain_character : ∀ c < 0x7F, isPlain c = true →
    Sign.of (UInt8.ofNat c) ≠ .quote ∧ firstCodePoint [UInt8.ofNat c] = some c ∧
      CharSet.ofLiteral [UInt8.ofNat c] = ⟨[⟨c, c⟩]⟩ ∧
      utf8 [Char.ofNat c] = [UInt8.ofNat c] := by
  decide +kernel

theorem lt_of_isPlain {c : Nat} (h : isPlain c = true) : c < 0x7F := by
  simp only [isPlain, Bool.and_eq_true, decide_eq_true_eq] at h
  omega

/-- A visible character between quotes. -/
def Quote.ofPlain (c : Nat) (h : isPlain c = true) : Quote :=
  ⟨[UInt8.ofNat c],
    List.forall_mem_singleton.mpr (plain_character c (lt_of_isPlain h) h).1⟩

theorem Quote.bytes_ofPlain {c : Nat} (h : isPlain c = true) :
    (Quote.ofPlain c h).bytes = utf8 (codePointText c) := by
  have hbytes := (plain_character c (lt_of_isPlain h) h).2.2.2
  rw [codePointText, if_pos h]
  show utf8 ['\''] ++ ([UInt8.ofNat c] ++ utf8 ['\'']) =
    utf8 (['\''] ++ ([Char.ofNat c] ++ ['\'']))
  rw [utf8_append, utf8_append, hbytes]

/-- A code point in braces is written as it is printed. -/
theorem exists_mark_of_codePoint {c : Nat} (h : c ≤ maxCodePoint) : ∃ m : Mark,
    (∀ p : Places, p.take m = p.fill c) ∧
      (∀ rest, Ended 16 rest → m.Spelled (utf8 (codePointText c)) rest) ∧
      ∀ limits : Limits, 0 < limits.text → m.Fits limits := by
  by_cases hplain : isPlain c = true
  · have hfirst := (plain_character c (lt_of_isPlain hplain) hplain).2.1
    exact ⟨.character (.ofPlain c hplain) c hfirst, fun _ => rfl,
      fun _ _ => (Quote.bytes_ofPlain hplain).symm, fun _ hroom => hroom⟩
  · have hword : c ≤ maxWord := Nat.le_trans h (by decide)
    refine ⟨.hexadecimal (.ofCode c hword), fun _ => rfl, fun _ hrest => ⟨?_, hrest⟩,
      fun _ _ => trivial⟩
    rw [codePointText, if_neg hplain, Numeral.bytes_eq]
    rfl

/-! ## Sets -/

/-- A range in a class is written as it is printed. -/
theorem exists_part_of_range {r : Range} (hle : r.low ≤ r.high)
    (hhigh : r.high ≤ maxCodePoint) (hplain : r.low = r.high → isPlain r.low = true) :
    ∃ p : Part,
    (∀ filed, p.set? filed = some ⟨[r]⟩) ∧ (∀ rest, p.Spelled (utf8 (rangeText r)) rest) ∧
      ∀ limits : Limits, 0 < limits.text → p.Fits limits := by
  obtain ⟨low, high⟩ := r
  by_cases hone : low = high
  · subst hone
    have hlow := hplain rfl
    refine ⟨.literal (.ofPlain low hlow), fun _ => ?_, fun _ => ?_, fun _ hroom => hroom⟩
    · exact congrArg some (plain_character low (lt_of_isPlain hlow) hlow).2.2.1
    · rw [rangeText, if_pos rfl]
      exact (Quote.bytes_ofPlain hlow).symm
  · obtain ⟨first, hfirst, hspelled, hfits⟩ :=
      exists_mark_of_codePoint (Nat.le_trans hle hhigh)
    obtain ⟨last, hlast, hspelled', hfits'⟩ := exists_mark_of_codePoint hhigh
    refine ⟨.range [first, .dash, last], fun _ => ?_, fun _ => ?_, fun limits hroom => ?_⟩
    · have hplaces : Places.of [first, .dash, last] = ⟨low, high, true⟩ := by
        show (((⟨0, 0, false⟩ : Places).take first).take .dash).take last = _
        rw [hfirst, hlast]
        rfl
      rw [Part.set?, hplaces]
      show some (CharSet.range low (max high low)) = _
      rw [Nat.max_eq_left hle, CharSet.range, Nat.min_eq_left hhigh, if_pos hle]
    · rw [rangeText, if_neg hone, List.append_assoc "\x7b".toList]
      exact braced (laid_printed (fun rest => hspelled _ (ended_dash rfl rest))
        (hspelled' _ (by decide)))
    · exact List.forall_mem_cons.mpr
        ⟨hfits limits hroom, List.forall_mem_cons.mpr ⟨trivial,
          List.forall_mem_singleton.mpr (hfits' limits hroom)⟩⟩

/-- The ranges of a set, one after the other, are written as they are printed. Each is put
in behind the ones before. -/
theorem exists_parts_of_ranges {ranges : List Range} :
    ∀ before : List Range, (⟨before ++ ranges⟩ : CharSet).Legible → ∃ parts : List Part,
      (∀ filed, unionOf? filed ⟨before⟩ parts = some ⟨before ++ ranges⟩) ∧
        Laid Gap Part.Spelled (ascii [']']) parts
          (utf8 (ranges.flatMap rangeText) ++ ascii [']']) ∧
        ∀ limits : Limits, 0 < limits.text → ∀ p ∈ parts, p.Fits limits := by
  induction ranges with
  | nil =>
    intro before _
    rw [List.append_nil]
    exact ⟨[], fun _ => rfl, .done (g := []) .nothing, fun _ _ => List.forall_mem_nil _⟩
  | cons r rest ih =>
    intro before h
    have hr : r ∈ before ++ r :: rest := List.mem_append_right _ List.mem_cons_self
    have hcanonical := h.canonical
    obtain ⟨p, hset, hspelled, hfits⟩ :=
      exists_part_of_range (hcanonical.low_le_high r hr) (h.within r hr) (h.plain r hr)
    rw [List.append_cons] at h hcanonical ⊢
    obtain ⟨parts, hparts, hlaid, hfitsParts⟩ := ih _ h
    have hunion : (⟨before⟩ : CharSet).union ⟨[r]⟩ = ⟨before ++ [r]⟩ :=
      congrArg CharSet.mk (Range.foldr_insert_eq_append hcanonical.of_append)
    refine ⟨p :: parts, fun filed => ?_, ?_, fun limits hroom =>
      List.forall_mem_cons.mpr ⟨hfits limits hroom, hfitsParts limits hroom⟩⟩
    · rw [unionOf?, hset, Option.bind_some, hunion, hparts]
    · rw [List.flatMap_cons, utf8_append, List.append_assoc]
      exact hlaid.tight .nothing (hspelled _)

/-- A set is written as the class that it is printed as. -/
theorem exists_atom_of_set {s : CharSet} (h : s.Legible) : ∃ a : Atom,
    (∀ filed, a.rule? filed = some (Rule.terminal s)) ∧
    (∀ rest, a.Spelled (utf8 s.text) rest) ∧
      ∀ limits : Limits, 0 < limits.text → a.Fits limits := by
  obtain ⟨parts, hparts, hlaid, hfits⟩ := exists_parts_of_ranges [] h
  refine ⟨.brackets parts, fun filed => ?_, fun rest => ⟨_, ?_, hlaid⟩, hfits⟩
  · exact congrArg (Option.map Rule.terminal) (hparts filed)
  · rw [CharSet.text, List.cons_append, utf8_cons, utf8_append]
    rfl

/-! ## Suffixes -/

/-- A suffix that does this to every element and is spelled like this in front of
everything. It needs no room. -/
structure Suffix.Prints (s : Suffix) (text : List Char) (change : Rule → Rule) :
    Prop where
  applied : ∀ filed r, s.applied? filed r = some (change r)
  spelled : ∀ rest, s.Spelled (utf8 text) rest
  closed : ∀ rest, Closed (utf8 text ++ rest)
  fits : ∀ limits, s.Fits limits

/-- A suffix that is a sign. -/
theorem Suffix.Prints.sign {s : Suffix} {c : Char} {change : Rule → Rule}
    (happlied : ∀ filed r, s.applied? filed r = some (change r))
    (hspelled : ∀ rest, s.Spelled (ascii [c]) rest) (hfits : ∀ limits, s.Fits limits)
    (hutf8 : utf8 [c] = ascii [c]) (hsign : Sign.of c.toUInt8 ≠ .word) :
    s.Prints [c] change where
  applied := happlied
  spelled rest := by
    rw [hutf8]
    exact hspelled rest
  closed rest := by
    rw [hutf8]
    rintro _ ⟨⟩
    exact hsign
  fits := hfits

theorem ahead_prints : Suffix.ahead.Prints ['>'] Rule.lookahead :=
  .sign (fun _ _ => rfl) (fun _ => rfl) (fun _ => trivial) rfl (by decide)

/-- A suffix in braces. -/
theorem Suffix.Prints.braces {marks : List Mark} {text : List Char} {b : Bound}
    (hbound : (Places.of marks).bound = b)
    (hlaid :
      Laid Blanks Mark.Spelled (ascii ['\x7d']) marks (utf8 text ++ ascii ['\x7d']))
    (hfits : ∀ limits, ∀ m ∈ marks, m.Fits limits) :
    (Suffix.between marks).Prints ("\x7b".toList ++ text ++ "\x7d".toList)
    (·.repeated b) where
  applied _ r := congrArg (fun b => some (r.repeated b)) hbound
  spelled _ := braced hlaid
  closed rest := by
    obtain ⟨inner, hbytes, -⟩ := braced hlaid
    rw [hbytes]
    rintro _ ⟨⟩
    decide
  fits := hfits

/-- A bound is written as the suffix that it is printed as, except that nothing is
printed for "once". -/
theorem exists_suffix_of_bound {b : Bound} (hle : b.least ≤ b.most)
    (hmost : b.most ≤ maxWord) (honce : b ≠ Bound.once) : ∃ s : Suffix,
    s.Prints b.text (·.repeated b) := by
  obtain ⟨least, most⟩ := b
  have hleast : least ≤ maxWord := Nat.le_trans hle hmost
  have hbound : max most least = most := Nat.max_eq_left hle
  rw [Bound.text, if_neg honce]
  split
  · rename_i h
    rw [h]
    exact ⟨.optional,
      .sign (fun _ _ => rfl) (fun _ => rfl) (fun _ => trivial) rfl (by decide)⟩
  split
  · rename_i h
    rw [h]
    exact ⟨.star,
      .sign (fun _ _ => rfl) (fun _ => rfl) (fun _ => trivial) rfl (by decide)⟩
  split
  · rename_i h
    rw [h]
    exact ⟨.plus,
      .sign (fun _ _ => rfl) (fun _ => rfl) (fun _ => trivial) rfl (by decide)⟩
  have hfirst (rest : Bytes) : (Mark.decimal (.ofCount least hleast)).Spelled
      (utf8 (RuleGraph.decimal least)) (ascii ['-'] ++ rest) :=
    ⟨(Numeral.ofCount least hleast).bytes_eq.symm, ended_dash rfl rest⟩
  dsimp only
  split
  · rename_i h
    obtain rfl : least = most := h
    refine ⟨.between [.decimal (.ofCount least hleast)], .braces ?_ ?_ fun _ =>
      List.forall_mem_singleton.mpr trivial⟩
    · exact congrArg (Bound.mk least) (Nat.zero_max least)
    · exact laid_nothing.decimal (.ofCount least hleast) (by decide)
  split
  · rename_i h
    obtain rfl : most = Bound.unlimited := eq_of_beq h
    exact ⟨.between [.decimal (.ofCount least hleast), .dash, .star],
      .braces (congrArg (Bound.mk least) hbound) (laid_printed hfirst rfl) fun _ => by
        simp [Mark.Fits]⟩
  · exact ⟨.between
      [.decimal (.ofCount least hleast), .dash, .decimal (.ofCount most hmost)],
      .braces (congrArg (Bound.mk least) hbound)
        (laid_printed hfirst ⟨(Numeral.ofCount most hmost).bytes_eq.symm, by decide⟩)
          fun _ => by
        simp [Mark.Fits]⟩

/-! ## Literals -/

/-- Whether a byte is a character that stands for itself in a printed literal. -/
def isLegible (b : UInt8) : Bool :=
  0x20 ≤ b && b ≤ 0x7E && b != 0x27 && b != 0x22 && b != 0x5C

theorem legible_character : ∀ n < 0x7F, isLegible (UInt8.ofNat n) = true →
    (Char.ofNat n).toNat < 128 ∧ (Char.ofNat n).toUInt8 = UInt8.ofNat n ∧
      escapeChar (Char.ofNat n) = [Char.ofNat n] ∧
      String.utf8EncodeChar (Char.ofNat n) = [UInt8.ofNat n] ∧
      Sign.of (UInt8.ofNat n) ≠ .quote := by
  decide +kernel

theorem lt_of_isLegible {b : UInt8} (h : isLegible b = true) : b.toNat < 0x7F := by
  simp only [isLegible, Bool.and_eq_true, decide_eq_true_eq, UInt8.le_iff_toNat_le] at h
  exact Nat.lt_succ_of_le h.1.1.1.2

/-- Such bytes are the letters of a text that is printed as it is. -/
theorem exists_letters {bytes : Bytes} (h : ∀ b ∈ bytes, isLegible b = true) :
    ∃ letters : List Char, (∀ c ∈ letters, c.toNat < 128) ∧ ascii letters = bytes ∧
      escape letters = letters ∧ utf8 letters = bytes ∧ ∀ b ∈ bytes,
      Sign.of b ≠ .quote := by
  induction bytes with
  | nil => exact ⟨[], List.forall_mem_nil _, rfl, rfl, rfl, List.forall_mem_nil _⟩
  | cons b rest ih =>
    obtain ⟨hb, hrest⟩ := List.forall_mem_cons.mp h
    obtain ⟨letters, hsmall, hascii, hescape, hutf8, hquote⟩ := ih hrest
    have hlegible := legible_character b.toNat (lt_of_isLegible hb)
    rw [UInt8.ofNat_toNat] at hlegible
    obtain ⟨hsmallB, hasciiB, hescapeB, hutf8B, hquoteB⟩ := hlegible hb
    refine ⟨Char.ofNat b.toNat :: letters,
      List.forall_mem_cons.mpr ⟨hsmallB, hsmall⟩, ?_, ?_, ?_,
      List.forall_mem_cons.mpr ⟨hquoteB, hquote⟩⟩
    · rw [ascii, List.map_cons, hasciiB]
      exact congrArg (b :: ·) hascii
    · rw [escape, List.flatMap_cons, hescapeB]
      exact congrArg (_ :: ·) hescape
    · rw [utf8_cons, hutf8B, hutf8]
      rfl

/-- A literal of such bytes is written as it is printed. -/
theorem exists_quote_of_bytes {bytes : Bytes} (h : ∀ b ∈ bytes, isLegible b = true) :
    ∃ q : Quote, q.text = bytes ∧ q.bytes = utf8 (Rule.literalText bytes) := by
  obtain ⟨letters, hsmall, hascii, hescape, hutf8, hquote⟩ := exists_letters h
  have hlossy := lossy_ascii letters hsmall
  rw [hascii] at hlossy
  refine ⟨⟨bytes, hquote⟩, rfl, ?_⟩
  rw [Rule.literalText, hlossy, hescape, List.cons_append, utf8_cons, utf8_append, hutf8]
  rfl

end Terse

end RuleGraph
