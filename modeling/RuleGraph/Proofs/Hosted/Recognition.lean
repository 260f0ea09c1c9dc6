import RuleGraph.Proofs.Hosted.Lexemes

/-!
# What is written is recognised

The parts of a document that hold no selection, each with the bytes that the
notation gives it: the grammar takes these bytes for this part, and the
stretches it finds are those of the part.

The grammar tries one alternative after the other, so the work is in what does
not match. A look at the next byte settles nearly all of it: `first` says what a
part may begin with, and `openings_first` that the grammar agrees. What is left
are parts that begin alike. A range begins with a character, a name may begin
like the number of a character, and a string like a character in quotes. There
it is what comes later that tells, and it may come behind the part, so a part is
always read in front of a rest.
-/

namespace RuleGraph.Hosted

open Matching

variable {offset : Nat} {bytes input rest : Bytes} {found : List (Stretch String)}

/-! ## White space -/

def indents : List Range :=
  [⟨0x09, 0x09⟩, ⟨0x20, 0x20⟩]

def blanks : List Range :=
  [⟨0x09, 0x0A⟩, ⟨0x0D, 0x0D⟩, ⟨0x20, 0x20⟩]

theorem isIndent_eq (b : UInt8) : isIndent b = indents.any (·.holds b.toNat) := by
  rw [Bool.eq_iff_iff]
  simp only [isIndent, indents, List.any_cons, List.any_nil, Range.holds, Bool.or_eq_true,
    Bool.and_eq_true, decide_eq_true_eq, beq_iff_eq, ← UInt8.toNat_inj,
    Bool.false_eq_true, or_false,
    show (0x20 : UInt8).toNat = 32 from rfl, show (0x09 : UInt8).toNat = 9 from rfl]
  omega

theorem isBlank_eq (b : UInt8) : isBlank b = blanks.any (·.holds b.toNat) := by
  rw [Bool.eq_iff_iff]
  simp only [isBlank, isIndent_eq, indents, blanks, List.any_cons, List.any_nil,
    Range.holds, Bool.or_eq_true, Bool.and_eq_true, decide_eq_true_eq, beq_iff_eq,
    ← UInt8.toNat_inj, Bool.false_eq_true, or_false,
    show (0x0A : UInt8).toNat = 10 from rfl,
    show (0x0D : UInt8).toNat = 13 from rfl]
  omega

theorem indent_found {gap : Indent} (h : Avoids indents rest) :
    Takes metaGrammar (.rule (space .mayIndent)) offset gap.bytes rest [] := by
  refine takes_indent_iff.mpr ⟨⟨gap.all_kind, fun b hb => ?_⟩, rfl⟩
  rw [isIndent_eq]
  exact List.any_eq_false.mpr fun r hr => by simp [h b hb r hr]

theorem pad_found {pad : Pad} (h : Avoids blanks rest) :
    Takes metaGrammar (.rule (space .mayBreak)) offset pad.bytes rest [] := by
  refine takes_pad_iff.mpr ⟨⟨pad.all_kind, fun b hb => ?_⟩, rfl⟩
  rw [isBlank_eq]
  exact List.any_eq_false.mpr fun r hr => by simp [h b hb r hr]

theorem next_run {kind : UInt8 → Bool} {ranges : List Range} (run : Run kind)
    (hkind : ∀ b, kind b = true → ranges.any (·.holds b.toNat) = true)
    (h : run.bytes = [] → Next ranges rest) : Next ranges (run.bytes ++ rest) := by
  obtain ⟨bytes, hall⟩ := run
  cases bytes with
  | nil => exact h rfl
  | cons b bytes => exact next_cons.mpr (hkind b (hall b List.mem_cons_self))

theorem next_indent {gap : Indent} {ranges : List Range}
    (hcovered : covered indents ranges = true) (h : gap.bytes = [] → Next ranges rest) :
    Next ranges (gap.bytes ++ rest) :=
  next_run gap (fun b hb => any_of_covered hcovered (isIndent_eq b ▸ hb)) h

theorem next_pad {pad : Pad} {ranges : List Range}
    (hcovered : covered blanks ranges = true) (h : pad.bytes = [] → Next ranges rest) :
    Next ranges (pad.bytes ++ rest) :=
  next_run pad (fun b hb => any_of_covered hcovered (isBlank_eq b ▸ hb)) h

/-! ## First bytes -/

/-- What may have to be told from other parts by more than a byte. -/
inductive Lookalike
  | symbol
  | codePoint

def Lookalike.label : Lookalike → Label
  | symbol => .symbol
  | codePoint => .codePoint

def only (bytes : List Nat) : List Range :=
  bytes.map fun b => ⟨b, b⟩

def characterFirst : Option Lookalike → List Range
  | none => only [0x27, 0x55]
  | some .symbol => only [0x55]
  | some .codePoint => only [0x27]

def rangesFirst (aside : Option Lookalike) : List Range :=
  only [0x24, 0x5C, 0x5E] ++ characterFirst aside

def patternFirst : List Range :=
  only [0x21, 0x2C, 0x2E, 0x3A, 0x3B]

def terminalFirst (aside : Option Lookalike) : List Range :=
  ⟨0x7B, 0x7B⟩ :: rangesFirst aside ++ patternFirst

def nameFirst : List Range :=
  ⟨0x2D, 0x2D⟩ :: letterSet.ranges

def formFirst : List Range :=
  only [0x28, 0x3C, 0x5B, 0x7E] ++ terminalFirst none ++ nameFirst

/-- The bytes that a part may begin with, as far as anybody asks. A lookalike
may be set aside, which counts for a part only if it may be one. -/
def first (aside : Option Lookalike) : Label → Option (List Range)
  | .member => some (⟨0x25, 0x25⟩ :: nameFirst)
  | .comment => some (only [0x25])
  | .name => some nameFirst
  | .element => some formFirst
  | .distinction => some (only [0x3C])
  | .completion => some (only [0x7E])
  | .group => some (only [0x28])
  | .option => some (only [0x5B])
  | .terminal => some (terminalFirst aside)
  | .ranges => some (rangesFirst aside)
  | .not => some (only [0x5E])
  | .range | .literal => some (characterFirst aside)
  | .symbol | .string => some (only [0x27])
  | .figures => some (only [0x7B])
  | .occurrence => some (only [0x2A, 0x2B, 0x3F, 0x7B])
  | .plus => some (only [0x2B])
  | .star => some (only [0x2A])
  | .qmark => some (only [0x3F])
  | .upTo => some (only [0x2D])
  | .most => some decimalSet.ranges
  | _ => none

theorem refuses_part {l : Label}
    (h : Refuses metaGrammar (.rule ⟨"", metaShape l⟩) offset input) {name : String} :
    Refuses metaGrammar (.rule ⟨name, .reference l.text⟩) offset input :=
  refuses_reference (resolve?_text l) (refuses_capture h)

theorem mem_all (l : Label) : l ∈ Label.all := by
  cases l <;> simp [Label.all]

/-- What the grammar lets a part begin with is among its first bytes. -/
theorem openings_first : ∀ aside ∈ [none, some .symbol, some .codePoint], ∀ l ∈ Label.all,
    (match first aside l,
      openings ⟨metaTable⟩ (aside.toList.map fun a => a.label.text) 24 (part l) with
      | none, _ => true
      | some _, none => false
      | some ranges, some found => covered found ranges) = true := by
  decide +kernel

/-- A part that does not come next is refused. -/
theorem refuses_of_first {aside : Option Lookalike} {l : Label} {ranges : List Range}
    (hfirst : first aside l = some ranges) (havoids : Avoids ranges input)
    (haside : ∀ a ∈ aside,
      Refuses metaGrammar (.rule ⟨"", metaShape a.label⟩) offset input) :
    Refuses metaGrammar (.rule (part l)) offset input := by
  have haside' : aside ∈ [none, some .symbol, some .codePoint] := by
    cases aside with
    | none => simp
    | some a => cases a <;> simp
  have hcovered := openings_first aside haside' l (mem_all l)
  rw [hfirst] at hcovered
  split at hcovered
  · contradiction
  · cases hcovered
  · rename_i _ _ ranges' found heq hopenings
    cases heq
    rw [← metaGrammar_eq] at hopenings
    refine refuses_of_avoids (fun target htarget name => ?_) 24 _ _ hopenings
      (havoids.mono hcovered)
    obtain ⟨a, ha, rfl⟩ := List.mem_map.mp htarget
    exact refuses_part (haside a (Option.mem_toList.mp ha))

theorem refuses_of_next {ranges : List Range} {l : Label} (hnext : Next ranges input)
    (hdisjoint : (first none l).any (disjoint ranges) = true) :
    Refuses metaGrammar (.rule (part l)) offset input := by
  obtain ⟨others, hothers, hdisjoint⟩ := (Option.any_eq_true _ _).mp hdisjoint
  exact refuses_of_first hothers (hnext.avoids hdisjoint) nofun

/-- The alternatives in front do not begin with what comes next. -/
theorem takes_choice_of_first {rules : List Rule} {name : String} {r : Rule}
    (aside : Option Lookalike) (next : List Range) (front : List Label) {back : List Rule}
    (hrules : rules = front.map (fun l => part l) ++ r :: back)
    (hfront : front.all (fun l => (first aside l).any (disjoint next)) = true)
    (hnext : Next next (bytes ++ rest))
    (haside : ∀ a ∈ aside,
      Refuses metaGrammar (.rule ⟨"", metaShape a.label⟩) offset (bytes ++ rest))
    (h : Takes metaGrammar (.rule r) offset bytes rest found) :
    Takes metaGrammar (.rule ⟨name, .selection rules⟩) offset bytes rest found := by
  refine takes_choice _ hrules (fun r' hr' => ?_) h
  obtain ⟨l, hl, rfl⟩ := List.mem_map.mp hr'
  obtain ⟨others, hothers, hdisjoint⟩ :=
    (Option.any_eq_true _ _).mp (List.all_eq_true.mp hfront l hl)
  exact refuses_of_first hothers (hnext.avoids hdisjoint) haside

/-! ## Signs -/

section Signs

variable {α : Type} {label : α → Label} {sign : α → Bytes}

theorem refuses_sign (hshape : ∀ a, metaShape (label a) = .literal (sign a)) {a : α}
    (h : ¬sign a <+: input) :
    Refuses metaGrammar (.rule (part (label a))) offset input := by
  refine refuses_part ?_
  rw [hshape]
  exact refuses_literal h

theorem sign_found (hshape : ∀ a, metaShape (label a) = .literal (sign a)) (a : α) :
    Finds (label a) offset (sign a) rest [] :=
  (takes_sign_iff (hshape a)).mpr ⟨rfl, rfl⟩

/-- One of several signs of which none begins with another. -/
theorem takes_one_sign (hshape : ∀ a, metaShape (label a) = .literal (sign a))
    (hdistinct : ∀ a b, a ≠ b → ∀ rest, ¬sign a <+: sign b ++ rest) {all : List α}
    {others : List Rule} {a : α} (ha : a ∈ all) {name : String} :
    Takes metaGrammar
      (.rule ⟨name, .selection (all.map (fun a => part (label a)) ++ others)⟩)
      offset (sign a) rest (spelled [around (label a) offset (sign a) []]) := by
  obtain ⟨front, back, rfl, hfront⟩ := List.eq_append_cons_of_mem ha
  have hrules : (front ++ a :: back).map (fun a => part (label a)) ++ others =
      front.map (fun a => part (label a)) ++
        part (label a) :: (back.map (fun a => part (label a)) ++ others) := by
    rw [List.map_append, List.map_cons, List.append_assoc, List.cons_append]
  refine takes_choice _ hrules (fun r hr => ?_) (sign_found hshape a)
  obtain ⟨b, hb, rfl⟩ := List.mem_map.mp hr
  exact refuses_sign hshape (hdistinct b a (fun heq => hfront (heq ▸ hb)) rest)

end Signs

/-! ## What may follow -/

/-- What would go on with a name, a range or a capture. -/
def attached : List Range :=
  [⟨0x2D, 0x2D⟩, ⟨0x30, 0x39⟩, ⟨0x40, 0x5A⟩, ⟨0x5F, 0x5F⟩, ⟨0x61, 0x7A⟩]

/-- With the rest, a name cannot become the number of a character. -/
def Unpointed (rest : Bytes) : Prop :=
  ∀ tail, rest = 0x2B :: tail → Avoids hexSet.ranges tail

/-- The rest is nothing that a part could still take in. -/
structure Trailing (rest : Bytes) : Prop where
  detached : Avoids attached rest
  unpointed : Unpointed rest

theorem hexSet_of_detached (h : Avoids attached rest) :
    ∀ b ∈ rest.head?, hexSet.contains b.toNat = false :=
  Avoids.contains (h.mono (by decide))

theorem unpointed_of_next {ranges : List Range} (h : Next ranges rest)
    (hranges : ranges.any (·.holds 0x2B) = false) : Unpointed rest := by
  rintro tail rfl
  have := next_cons.mp h
  rw [show (0x2B : UInt8).toNat = 0x2B from rfl, hranges] at this
  cases this

/-! ## Names and captures -/

theorem Name.bytes_ne_nil (n : Name) : n.bytes ≠ [] := by
  obtain ⟨b, others, hbytes, -, -⟩ := n.exists_bytes
  rw [hbytes]
  cases n.quiet <;> simp [sign]

theorem Name.next (n : Name) : Next nameFirst (n.bytes ++ rest) := by
  obtain ⟨b, others, hbytes, hb, -⟩ := n.exists_bytes
  rw [next_append n.bytes_ne_nil, hbytes]
  cases n.quiet with
  | true => exact next_cons.mpr rfl
  | false =>
    refine next_cons.mpr ?_
    rw [nameFirst, List.any_cons, ← CharSet.contains, hb, Bool.or_true]

/-- A name is not the number of a character, not even one that begins with the
same letter. -/
theorem codePoint_refused {n : Name} (hrest : Unpointed rest) :
    Refuses metaGrammar (.rule ⟨"", metaShape .codePoint⟩) offset (n.bytes ++ rest) := by
  by_cases hprefix : [0x55, 0x2B] <+: n.bytes ++ rest
  · obtain ⟨tail, htail⟩ := hprefix
    have hdigits : Avoids hexSet.ranges tail := by
      obtain ⟨b, others, hbytes, hb, hothers⟩ := n.exists_bytes
      rw [hbytes] at htail
      cases hquiet : n.quiet with
      | true => rw [hquiet] at htail; cases htail
      | false =>
        rw [hquiet] at htail
        -- No name has a plus in it, so the letter is the whole name.
        cases others with
        | nil =>
          injection htail with _ htail
          exact hrest tail htail.symm
        | cons o others =>
          injection htail with _ htail
          injection htail with ho _
          have hword := hothers o List.mem_cons_self
          rw [← ho] at hword
          exact absurd hword (by decide)
    rw [← htail]
    have hsign : Takes metaGrammar (.rule (lit [0x55, 0x2B])) offset
        [0x55, 0x2B] tail [] :=
      takes_literal
    exact .sequence (refuses_later (by simp) hsign (.stuck (by simp) (refuses_iteration
      (refuses_terminal (plain_hexSet.terminalWidth_eq_none hdigits.contains)))))
  · exact refuses_first (by simp) (refuses_literal hprefix)

theorem capture_found {c : Capture} (hrest : Avoids attached rest)
    (hlength : c.bytes.length ≤ maxWord) :
    Takes metaGrammar (.rule (many (part .capture) .optional)) offset c.bytes rest
      (spelled (c.stretches offset)) := by
  cases c with
  | none =>
    exact takes_optional_none (refuses_part (refuses_first (by simp)
      (refuses_literal (hrest.not_prefix rfl []))))
  | some n =>
    have hname : Takes metaGrammar (.rule (part .name)) (offset + 1) n.bytes rest
        (spelled [n.stretch (offset + 1)]) :=
      name_found (Avoids.contains (hrest.mono (by decide))) (Nat.le_of_succ_le hlength)
    have hsign : Takes metaGrammar (.rule (lit [0x40])) offset [0x40]
        (n.bytes ++ rest) [] :=
      takes_literal
    have hcapture : Finds .capture offset (0x40 :: n.bytes) rest
        [n.stretch (offset + 1)] :=
      finds_of_takes (takes_sequence_iff.mpr (hsign.element (by simp)
        (hname.alone (by simp))))
    exact takes_optional_some nofun hcapture

/-! ## Characters -/

theorem symbol_found {g : Utf8.Glyph} (hg : g.code ≠ 0x27) :
    Finds .symbol offset (Code.quoted g hg).bytes rest [] := by
  have hclose : Takes metaGrammar (.rule (one quoteSet)) (offset + 1 + g.bytes.length)
      [0x27] rest [] :=
    takes_quote_iff.mpr ⟨rfl, rfl⟩
  have hglyph : Takes metaGrammar (.rule (one unquotedSet)) (offset + 1) g.bytes
      ([0x27] ++ rest) [] :=
    glyph_found hg (by simp)
  have hopen : Takes metaGrammar (.rule (one quoteSet)) offset [0x27]
      ((g.bytes ++ [0x27]) ++ rest) [] := takes_quote_iff.mpr ⟨rfl, rfl⟩
  exact finds_of_takes
    (takes_sequence_iff.mpr (hopen.element (by simp) (hglyph.element (by simp)
      (hclose.alone (by simp)))))

theorem codePoint_found {n : Numeral 16}
    (hrest : ∀ b ∈ rest.head?, hexSet.contains b.toNat = false)
    (hlength : (Code.point n).bytes.length ≤ maxWord) :
    Finds .codePoint offset (Code.point n).bytes rest [] := by
  have hdigits : Takes metaGrammar (.rule (many (one hexSet) .plus)) (offset + 2)
      n.bytes rest [] :=
    digits_found digital_hex plain_hexSet hrest
      (Nat.le_trans (Nat.le_add_right n.bytes.length 2) hlength)
  have hsign : Takes metaGrammar (.rule (lit [0x55, 0x2B])) offset [0x55, 0x2B]
      (n.bytes ++ rest) [] := takes_literal
  exact finds_of_takes (takes_sequence_iff.mpr (hsign.element (by simp)
    (hdigits.alone (by simp))))

theorem code_found {c : Code} (hrest : ∀ b ∈ rest.head?, hexSet.contains b.toNat = false)
    (hlength : c.bytes.length ≤ maxWord) :
    Finds .literal offset c.bytes rest [around c.label offset c.bytes []] := by
  refine finds_of_takes ?_
  cases c with
  | quoted g hg => exact takes_choice [] rfl nofun (symbol_found hg)
  | point n =>
    exact takes_choice_of_first none (only [0x55]) [.symbol] rfl (by decide)
      (next_cons.mpr rfl)
      nofun (codePoint_found hrest hlength)

/-! ## Classes -/

theorem Common.metaShape_label (k : Common) : metaShape k.label = .literal k.sign := by
  cases k <;> rfl

theorem Common.sign_not_prefix (k l : Common) (h : k ≠ l) (rest : Bytes) :
    ¬k.sign <+: l.sign ++ rest := by
  cases k <;> cases l <;> first | exact absurd rfl h | simp [Common.sign]

theorem Code.sign_not_prefix (k : Common) (c : Code) (rest : Bytes) :
    ¬k.sign <+: c.bytes ++ rest := by
  cases k <;> cases c <;> simp [Common.sign, Code.bytes]

theorem Hidden.sign_not_prefix (k : Common) (h : Hidden) (rest : Bytes) :
    ¬k.sign <+: 0x5C :: h.sign :: rest := by
  cases k <;> cases h <;> simp [Common.sign, Hidden.sign]

/-- The classes that are tried before ranges and characters. -/
def earlySigns : List Common :=
  [.wildcard, .letter, .upper, .lower, .hex, .octal, .binary, .digit]

abbrev classRules : List Rule :=
  [part .wildcard, part .letter, part .upper, part .lower, part .hex, part .octal,
    part .binary, part .digit, part .range, part .literal, part .whitespace,
    part .shortname]

theorem escape_found (h : Hidden) : Finds .shortname offset [0x5C, h.sign] rest [] := by
  have hsign : Takes metaGrammar (.rule (one escapeSet)) (offset + 1) [h.sign] rest [] :=
    (takes_plain_iff (by decide)).mpr ⟨⟨h.sign, rfl, by cases h <;> rfl⟩, rfl⟩
  have hopen : Takes metaGrammar (.rule (lit [0x5C])) offset [0x5C]
      ([h.sign] ++ rest) [] :=
    takes_literal
  exact finds_of_takes (takes_sequence_iff.mpr (hopen.element (by simp)
    (hsign.alone (by simp))))

theorem range_found {low high : Code}
    (hrest : ∀ b ∈ rest.head?, hexSet.contains b.toNat = false)
    (hlength : (Class.range low high).bytes.length ≤ maxWord) :
    Finds .range offset (Class.range low high).bytes rest
      ((Class.range low high).inner offset) := by
  simp only [Class.bytes, List.length_append, List.length_cons] at hlength
  have hhigh : Takes metaGrammar (.rule (part .literal))
      (offset + low.bytes.length + 1) high.bytes
      rest (spelled [high.stretch (offset + low.bytes.length + 1)]) :=
    code_found hrest (by omega)
  have hsign : Takes metaGrammar (.rule (lit [0x2D])) (offset + low.bytes.length) [0x2D]
      (high.bytes ++ rest) [] := takes_literal
  have hlow : Takes metaGrammar (.rule (part .literal)) offset low.bytes
      (([0x2D] ++ high.bytes) ++ rest) (spelled [low.stretch offset]) :=
    code_found (by simp; decide) (by omega)
  exact finds_of_takes
    (takes_sequence_iff.mpr (hlow.element (by simp) (hsign.element (by simp)
      (hhigh.alone (by simp)))))

/-- A character that no hyphen follows is not the beginning of a range. -/
theorem range_refused {c : Code} (hrest : Avoids attached rest)
    (hlength : c.bytes.length ≤ maxWord) :
    Refuses metaGrammar (.rule (part .range)) offset (c.bytes ++ rest) := by
  have hlow : Takes metaGrammar (.rule (part .literal)) offset c.bytes rest
      (spelled [c.stretch offset]) := code_found (hexSet_of_detached hrest) hlength
  have hsign : Refuses metaGrammar (.rule (lit [0x2D])) (offset + c.bytes.length) rest :=
    refuses_literal (hrest.not_prefix rfl [])
  have hshape : Refuses metaGrammar (.rule ⟨"", metaShape .range⟩) offset
      (c.bytes ++ rest) :=
    .sequence (refuses_later (by simp) hlow (.stuck (by simp) hsign))
  exact refuses_part hshape

theorem early_refused {rest : Bytes} (h : ∀ k ∈ earlySigns, ¬k.sign <+: rest) :
    ∀ r ∈ earlySigns.map (fun k => part k.label),
      Refuses metaGrammar (.rule r) offset rest := by
  intro r hr
  obtain ⟨k, hk, rfl⟩ := List.mem_map.mp hr
  exact refuses_sign Common.metaShape_label (h k hk)

/-- The alternatives in front of what begins with an escape. -/
theorem unescaped_refused (h : ∀ k ∈ earlySigns, ¬k.sign <+: 0x5C :: rest) :
    ∀ r ∈ earlySigns.map (fun k => part k.label) ++ [part .range, part .literal],
      Refuses metaGrammar (.rule r) offset (0x5C :: rest) := by
  have hnext : Next (only [0x5C]) (0x5C :: rest) := next_cons.mpr rfl
  rw [List.forall_mem_append, List.forall_mem_cons, List.forall_mem_singleton]
  exact ⟨early_refused h, refuses_of_next hnext (by decide),
    refuses_of_next hnext (by decide)⟩

theorem class_found {c : Class} (hrest : Avoids attached rest)
    (hlength : c.bytes.length ≤ maxWord) :
    Takes metaGrammar (.rule (oneOf classRules)) offset c.bytes rest
      (spelled [c.stretch offset]) := by
  cases c with
  | common k =>
    by_cases hk : k ∈ earlySigns
    · exact takes_one_sign Common.metaShape_label Common.sign_not_prefix hk
    · obtain rfl : k = .whitespace := by
        cases k <;> first | rfl | exact absurd (by simp [earlySigns]) hk
      refine takes_choice _ rfl (unescaped_refused fun l hl => ?_)
        (sign_found Common.metaShape_label Common.whitespace)
      exact l.sign_not_prefix .whitespace (fun heq => hk (heq ▸ hl)) rest
  | hidden h =>
    refine takes_choice
      (earlySigns.map (fun k => part k.label) ++ [part .range, part .literal] ++
        [part .whitespace]) rfl ?_ (escape_found h)
    rw [List.forall_mem_append, List.forall_mem_singleton]
    exact ⟨unescaped_refused fun k _ => h.sign_not_prefix k rest,
      refuses_sign Common.metaShape_label (h.sign_not_prefix .whitespace rest)⟩
  | range low high =>
    exact takes_choice (earlySigns.map fun k => part k.label) rfl
      (early_refused
        fun k _ => by rw [Class.bytes, List.append_assoc]; exact low.sign_not_prefix k _)
      (range_found (hexSet_of_detached hrest) hlength)
  | single c =>
    refine takes_choice (earlySigns.map (fun k => part k.label) ++ [part .range]) rfl ?_
      (code_found (hexSet_of_detached hrest) hlength)
    rw [List.forall_mem_append, List.forall_mem_singleton]
    exact ⟨early_refused fun k _ => c.sign_not_prefix k rest, range_refused hrest hlength⟩

theorem Class.next (c : Class) :
    Next (only [0x24, 0x27, 0x55, 0x5C]) (c.bytes ++ rest) := by
  cases c with
  | common k => cases k <;> exact next_cons.mpr rfl
  | hidden h => exact next_cons.mpr rfl
  | range low high => cases low <;> exact next_cons.mpr rfl
  | single c => cases c <;> exact next_cons.mpr rfl

theorem Class.bytes_ne_nil (c : Class) : c.bytes ≠ [] := by
  cases c with
  | common k => cases k <;> nofun
  | hidden h => nofun
  | range low high => cases low <;> nofun
  | single c => cases c <;> nofun

theorem Ranges.next (r : Ranges) : Next (rangesFirst none) (r.bytes ++ rest) := by
  obtain ⟨negated, cls⟩ := r
  cases negated with
  | true => exact next_cons.mpr rfl
  | false => exact cls.next.mono (by decide)

theorem ranges_found {r : Ranges} (hrest : Avoids attached rest)
    (hlength : r.bytes.length ≤ maxWord) :
    Finds .ranges offset r.bytes rest (r.inner offset) := by
  obtain ⟨negated, cls⟩ := r
  have hclass : Takes metaGrammar (.rule (oneOf classRules))
      (offset + (sign negated 0x5E).length)
      cls.bytes rest (spelled [cls.stretch (offset + (sign negated 0x5E).length)]) := by
    rw [Ranges.bytes, List.length_append] at hlength
    exact class_found hrest (Nat.le_trans (Nat.le_add_left _ _) hlength)
  refine finds_of_takes (takes_sequence_iff.mpr ?_)
  rw [Ranges.inner, spelled_append]
  refine Takes.element ?_ (by simp) (hclass.alone (by simp))
  cases negated with
  | true => exact takes_optional_some nofun ((takes_sign_iff rfl).mpr ⟨rfl, rfl⟩)
  | false => exact takes_optional_none (refuses_of_next cls.next (by decide))

/-! ## Figures -/

/-- Rounds of an item and a pad take items with pads behind them. A list that
fits begins with an item that is taken in front of the others, and these fit. -/
theorem padded_found {α : Type} {item : Rule} {itemBytes : α → Bytes}
    {stretch : Nat → α → Stretch Label} (hshape : item.shape ≠ .decision)
    (fits : List (α × Pad) → Prop)
    (hnext : ∀ a rest, Avoids blanks (itemBytes a ++ rest))
    (hne : ∀ a, itemBytes a ≠ [])
    (hitem : ∀ {a pad more}, fits ((a, pad) :: more) → fits more ∧ ∀ offset,
      Takes metaGrammar (.rule item) offset (itemBytes a)
        (pad.bytes ++ (paddedBytes itemBytes more ++ rest)) (spelled [stretch offset a]))
    (hend : ∀ offset, Refuses metaGrammar (.rule item) offset rest)
    (hrest : Avoids blanks rest) :
    ∀ {items : List (α × Pad)} {offset room : Nat}, fits items →
      (paddedBytes itemBytes items).length ≤ room →
      Takes metaGrammar (.rounds (inTurn [item, space .mayBreak]) 0 room) offset
        (paddedBytes itemBytes items) rest
        (spelled (paddedStretches itemBytes stretch offset items))
  | [], _, _, _, _ => takes_no_round (refuses_first hshape (hend _))
  | (a, pad) :: more, offset, room, hfits, hroom => by
    obtain ⟨hmore, htakes⟩ := hitem hfits
    have hpad : Takes metaGrammar (.rule (space .mayBreak))
        (offset + (itemBytes a).length) pad.bytes
        (paddedBytes itemBytes more ++ rest) [] := by
      refine pad_found ?_
      rcases more with _ | ⟨⟨b, pad'⟩, more⟩
      · exact hrest
      · rw [paddedBytes, List.append_assoc]
        exact hnext b _
    rw [paddedBytes, List.length_append, List.length_append] at hroom
    have hpos := List.length_pos_iff.mpr (hne a)
    obtain ⟨room, rfl⟩ : ∃ room', room = room' + 1 := ⟨room - 1, by omega⟩
    have hround : Takes metaGrammar (.rule (inTurn [item, space .mayBreak])) offset
        (itemBytes a ++ pad.bytes) (paddedBytes itemBytes more ++ rest)
        (spelled [stretch offset a] ++ []) := by
      have hfirst := htakes offset
      exact takes_sequence_iff.mpr (hfirst.element hshape
        (hpad.alone (by simp)))
    have hlater : Takes metaGrammar (.rounds (inTurn [item, space .mayBreak]) 0 room)
        (offset + (itemBytes a ++ pad.bytes).length) (paddedBytes itemBytes more) rest
        (spelled
          (paddedStretches itemBytes stretch
            (offset + (itemBytes a).length + pad.bytes.length)
            more)) := by
      rw [List.length_append, ← Nat.add_assoc]
      exact padded_found hshape fits hnext hne hitem hend hrest hmore (by omega)
    have hrounds :
        Takes metaGrammar (.rounds (inTurn [item, space .mayBreak]) 0 (room + 1)) offset
          ((itemBytes a ++ pad.bytes) ++ paddedBytes itemBytes more) rest _ :=
      takes_round (List.append_ne_nil_of_left_ne_nil (hne a) pad.bytes) hround hlater
    rwa [List.append_assoc, List.append_nil] at hrounds

/-- Every figure but the last has white space behind it. -/
def Figures.Clear (f : Figures) : Prop :=
  ∀ item ∈ f.members.dropLast, item.2.bytes ≠ []

theorem figure_found {f : Figure} (hrest : Trailing rest)
    (hlength : f.bytes.length ≤ maxWord) :
    Takes metaGrammar (.rule (oneOf [part .ranges, part .name])) offset f.bytes rest
      (spelled [f.stretch offset]) := by
  cases f with
  | ranges r => exact takes_choice [] rfl nofun (ranges_found hrest.detached hlength)
  | name n =>
    refine takes_choice_of_first (some .codePoint) nameFirst [.ranges] rfl
      (by decide) n.next
      ?_ (name_found (Avoids.contains (hrest.detached.mono (by decide))) hlength)
    rintro _ ⟨⟩
    exact codePoint_refused hrest.unpointed

theorem Ranges.bytes_ne_nil (r : Ranges) : r.bytes ≠ [] := by
  obtain ⟨negated, cls⟩ := r
  cases negated with
  | true => nofun
  | false => exact cls.bytes_ne_nil

theorem Figure.bytes_ne_nil (f : Figure) : f.bytes ≠ [] := by
  cases f with
  | ranges r => exact r.bytes_ne_nil
  | name n => exact n.bytes_ne_nil

theorem Figure.next (f : Figure) :
    Next (rangesFirst none ++ nameFirst) (f.bytes ++ rest) := by
  cases f with
  | ranges r => exact r.next.mono (by decide)
  | name n => exact n.next.mono (by decide)

/-- What may follow a figure. -/
def figureEnd : List Range :=
  ⟨0x7D, 0x7D⟩ :: blanks

theorem trailing_of_figureEnd (h : Next figureEnd rest) : Trailing rest :=
  ⟨h.avoids (by decide), unpointed_of_next h rfl⟩

theorem figureItems_found {members : List (Figure × Pad)}
    (hclear : ∀ item ∈ members.dropLast, item.2.bytes ≠ [])
    (hlength : (paddedBytes Figure.bytes members).length ≤ maxWord) :
    Takes metaGrammar
      (.rule (many (inTurn [oneOf [part .ranges, part .name], space .mayBreak]) .star))
      offset (paddedBytes Figure.bytes members) (0x7D :: rest)
      (spelled (paddedStretches Figure.bytes Figure.stretch offset members)) := by
  have hend : Next (only [0x7D]) (0x7D :: rest) := next_cons.mpr rfl
  refine takes_iteration_iff.mpr (padded_found (by simp)
    (fun items => (∀ item ∈ items.dropLast, item.2.bytes ≠ []) ∧
      (paddedBytes Figure.bytes items).length ≤ maxWord)
    (fun f _ => f.next.avoids (by decide)) Figure.bytes_ne_nil ?_ ?_
      (hend.avoids (by decide))
    ⟨hclear, hlength⟩ hlength)
  · rintro f pad more ⟨hclear, hlength⟩
    rw [paddedBytes, List.length_append, List.length_append] at hlength
    refine ⟨⟨fun item hitem => hclear item ?_, by omega⟩,
      fun offset => figure_found (trailing_of_figureEnd ?_) (by omega)⟩
    · cases more with
      | nil => cases hitem
      | cons item more => exact List.mem_cons_of_mem _ hitem
    · refine next_pad (by decide) fun hpad => ?_
      cases more with
      | nil => exact next_cons.mpr rfl
      | cons item more => exact absurd hpad (hclear (f, pad) List.mem_cons_self)
  · intro offset
    refine .selection (.other (refuses_of_next hend (by decide)) ?_)
    exact .other (refuses_of_next hend (by decide)) .none

theorem figures_found {f : Figures} (hclear : f.Clear) (hrest : Avoids attached rest)
    (hlength : f.bytes.length ≤ maxWord) :
    Finds .figures offset f.bytes rest (f.inner offset) := by
  obtain ⟨before, members, capture⟩ := f
  simp only [Figures.bytes, List.length_cons, List.length_append] at hlength
  have hcapture : Takes metaGrammar (.rule (many (part .capture) .optional))
      (offset + 1 + before.bytes.length + (paddedBytes Figure.bytes members).length + 1)
      capture.bytes rest (spelled (capture.stretches _)) := capture_found hrest (by omega)
  have hclose : Takes metaGrammar (.rule (lit [0x7D]))
      (offset + 1 + before.bytes.length + (paddedBytes Figure.bytes members).length)
      [0x7D] (capture.bytes ++ rest) [] := takes_literal
  have hmembers : Takes metaGrammar
      (.rule (many (inTurn [oneOf [part .ranges, part .name], space .mayBreak]) .star))
      (offset + 1 + before.bytes.length) (paddedBytes Figure.bytes members)
      (([0x7D] ++ capture.bytes) ++ rest)
      (spelled (paddedStretches Figure.bytes Figure.stretch _ members)) :=
    figureItems_found hclear (by omega)
  have hbefore : Takes metaGrammar (.rule (space .mayBreak)) (offset + 1) before.bytes
      ((paddedBytes Figure.bytes members ++ ([0x7D] ++ capture.bytes)) ++ rest) [] := by
    refine pad_found ?_
    cases members with
    | nil => exact avoids_cons.mpr rfl
    | cons item members =>
      rw [paddedBytes, List.append_assoc, List.append_assoc]
      exact item.1.next.avoids (by decide)
  have hopen : Takes metaGrammar (.rule (lit [0x7B])) offset [0x7B]
      ((before.bytes ++
        (paddedBytes Figure.bytes members ++ ([0x7D] ++ capture.bytes))) ++ rest)
      [] := takes_literal
  refine finds_of_takes (takes_sequence_iff.mpr ?_)
  rw [Figures.inner, spelled_append]
  exact hopen.element (by simp) (hbefore.element (by simp) (hmembers.element (by simp)
    (hclose.element (by simp) (hcapture.alone (by simp)))))

/-! ## Terminals -/

theorem spacingLabel_shape (s : Spacing) :
    metaShape (spacingLabel s) = .literal (utf8 [s.sign]) := by
  cases s <;> rfl

theorem spacing_sign_not_prefix (s t : Spacing) (h : s ≠ t) (rest : Bytes) :
    ¬utf8 [s.sign] <+: utf8 [t.sign] ++ rest := by
  cases s <;> cases t <;>
    first | exact absurd rfl h | simp [Spacing.sign, utf8, String.utf8EncodeChar]

theorem spacing_next (s : Spacing) : Next patternFirst (utf8 [s.sign] ++ rest) := by
  cases s <;> exact next_cons.mpr rfl

theorem pattern_found (s : Spacing) : Finds .pattern offset (utf8 [s.sign]) rest
    [around (spacingLabel s) offset (utf8 [s.sign]) []] := by
  have hs : s ∈
      [Spacing.mayIndent, .mayBreak, .mustIndent, .mustSeparate, .mustWrap] := by
    cases s <;> simp
  exact finds_of_takes (takes_one_sign spacingLabel_shape spacing_sign_not_prefix hs)

def Terminal.Clear : Terminal → Prop
  | .ranges _ | .spacing _ => True
  | .figures f => f.Clear

theorem terminal_found {t : Terminal} (hclear : t.Clear) (hrest : Avoids attached rest)
    (hlength : t.bytes.length ≤ maxWord) :
    Finds .terminal offset t.bytes rest [t.inner offset] := by
  refine finds_of_takes ?_
  cases t with
  | ranges r => exact takes_choice [] rfl nofun (ranges_found hrest hlength)
  | figures f =>
    exact takes_choice_of_first none (only [0x7B]) [.ranges] rfl (by decide)
      (next_cons.mpr rfl) nofun (figures_found hclear hrest hlength)
  | spacing s =>
    exact takes_choice_of_first none patternFirst [.ranges, .figures] rfl (by decide)
      (spacing_next s) nofun (pattern_found s)

/-! ## Occurrences -/

theorem count_found {l : Label} (hl : metaShape l = .iteration (one decimalSet) .plus)
    {n : Numeral 10} (hrest : ∀ b ∈ rest.head?, decimalSet.contains b.toNat = false)
    (hlength : n.bytes.length ≤ maxWord) : Finds l offset n.bytes rest [] := by
  refine finds_of_takes ?_
  rw [hl]
  exact digits_found digital_decimal plain_decimalSet hrest hlength

/-- Behind the least number comes nothing, a hyphen, or a hyphen and a number. -/
theorem counts_found {n : Numeral 10} {upper : Bytes} {inner : List (Stretch Label)}
    (hleast : n.bytes.length ≤ maxWord)
    (hnext : Next (only [0x2D, 0x7D]) (upper ++ 0x7D :: rest))
    (hupper :
      Takes metaGrammar (.rule (many (inTurn [part .upTo, many (part .most) .optional])
        .optional)) (offset + 1 + n.bytes.length) upper (0x7D :: rest) (spelled inner)) :
    Takes metaGrammar (.rule (inTurn [lit [0x7B], part .least, many (inTurn [part .upTo,
        many (part .most) .optional]) .optional, lit [0x7D]])) offset
      (0x7B :: (n.bytes ++ (upper ++ [0x7D]))) rest
      (spelled (around .least (offset + 1) n.bytes [] :: inner)) := by
  have hclose : Takes metaGrammar (.rule (lit [0x7D]))
      (offset + 1 + n.bytes.length + upper.length) [0x7D] rest [] :=
    takes_literal
  have hn : Finds .least (offset + 1) n.bytes ((upper ++ [0x7D]) ++ rest) [] := by
    refine count_found rfl ?_ hleast
    rw [List.append_assoc]
    exact Avoids.contains (hnext.avoids (by decide))
  have hopen : Takes metaGrammar (.rule (lit [0x7B])) offset [0x7B]
      ((n.bytes ++ (upper ++ [0x7D])) ++ rest) [] := takes_literal
  rw [spelled_cons, ← List.append_nil (spelled inner)]
  exact takes_sequence_iff.mpr (hopen.element (by simp) (Takes.element hn (by simp)
    (Takes.element hupper (by simp) (hclose.alone (by simp)))))

theorem upTo_found {most : Bytes} {inner : List (Stretch Label)}
    (h : Takes metaGrammar (.rule (many (part .most) .optional)) (offset + 1) most rest
      (spelled inner)) :
    Takes metaGrammar
      (.rule (many (inTurn [part .upTo, many (part .most) .optional]) .optional))
      offset (0x2D :: most) rest (spelled (around .upTo offset [0x2D] [] :: inner)) := by
  have hsign : Takes metaGrammar (.rule (part .upTo)) offset [0x2D] (most ++ rest)
      (spelled [around .upTo offset [0x2D] []]) := (takes_sign_iff rfl).mpr ⟨rfl, rfl⟩
  have hboth :
      Takes metaGrammar (.rule (inTurn [part .upTo, many (part .most) .optional])) offset
        ([0x2D] ++ most) rest (spelled (around .upTo offset [0x2D] [] :: inner)) :=
    takes_sequence_iff.mpr (hsign.element (by simp) (h.alone (by simp)))
  exact takes_optional_some nofun hboth

theorem occurrence_found {o : Occurrence} (hlength : o.bytes.length ≤ maxWord) :
    Finds .occurrence offset o.bytes rest (o.inner offset) := by
  refine finds_of_takes ?_
  have hcounts : ∀ {tail : Bytes} {inner : List (Stretch Label)},
      Takes metaGrammar (.rule (inTurn [lit [0x7B], part .least, many (inTurn [part .upTo,
        many (part .most) .optional]) .optional, lit [0x7D]])) offset (0x7B :: tail) rest
        (spelled inner) →
      Takes metaGrammar (.rule ⟨"", metaShape .occurrence⟩) offset (0x7B :: tail) rest
        (spelled inner) :=
    fun h =>
      takes_choice_of_first none (only [0x7B]) [.plus, .star, .qmark] rfl (by decide)
        (next_cons.mpr rfl) nofun h
  have hclose : Next (only [0x7D]) (0x7D :: rest) := next_cons.mpr rfl
  cases o with
  | plus => exact takes_choice [] rfl nofun ((takes_sign_iff rfl).mpr ⟨rfl, rfl⟩)
  | star =>
    exact takes_choice_of_first none (only [0x2A]) [.plus] rfl (by decide)
      (next_cons.mpr rfl) nofun ((takes_sign_iff rfl).mpr ⟨rfl, rfl⟩)
  | qmark =>
    exact takes_choice_of_first none (only [0x3F]) [.plus, .star] rfl (by decide)
      (next_cons.mpr rfl) nofun ((takes_sign_iff rfl).mpr ⟨rfl, rfl⟩)
  | exactly n =>
    simp only [Occurrence.bytes, List.length_cons, List.length_append] at hlength
    have hn : n.bytes.length ≤ maxWord := by omega
    have hnone :
        Takes metaGrammar (.rule (many (inTurn [part .upTo, many (part .most) .optional])
          .optional)) (offset + 1 + n.bytes.length) [] (0x7D :: rest) (spelled []) :=
      takes_optional_none (refuses_first (by simp) (refuses_of_next hclose (by decide)))
    exact hcounts (counts_found hn (next_cons.mpr rfl) hnone)
  | atLeast n =>
    simp only [Occurrence.bytes, List.length_cons, List.length_append] at hlength
    have hn : n.bytes.length ≤ maxWord := by omega
    have hnone : Takes metaGrammar (.rule (many (part .most) .optional))
        (offset + 1 + n.bytes.length + 1) [] (0x7D :: rest) (spelled []) :=
      takes_optional_none (refuses_of_next hclose (by decide))
    exact hcounts (counts_found hn (next_cons.mpr rfl) (upTo_found hnone))
  | between n m =>
    simp only [Occurrence.bytes, List.length_cons, List.length_append] at hlength
    have hn : n.bytes.length ≤ maxWord := by omega
    have hm : Finds .most (offset + 1 + n.bytes.length + 1) m.bytes (0x7D :: rest) [] :=
      count_found rfl (Avoids.contains (hclose.avoids (by decide))) (by omega)
    have hupper := counts_found hn (next_cons.mpr rfl)
      (upTo_found (takes_optional_some m.bytes_ne_nil hm))
    rw [List.cons_append] at hupper
    exact hcounts hupper

end RuleGraph.Hosted
