import RuleGraph.Proofs.Terse.Brackets
import RuleGraph.Proofs.Terse.Keeping

/-!
# What has been read was written

The converse of reading braces and brackets as written: a stretch that a reader
takes to its end is one in which marks or parts are laid out, and they are the
ones that the reader has come to its result by. In the middle of a stretch what
is left of it is the rest of a mark or part and then others, and `Left` says this
for every state. One step of the reader puts one byte in front.
-/

namespace RuleGraph.Terse

variable {limits : Limits} {b : UInt8} {rest : Bytes} {offset : Nat}

/-- A state is followed by what it leaves to be read, a result by nothing. -/
def Reading.Leaves {σ ρ : Type} (left : σ → Bytes → Prop) (result : ρ) (rest : Bytes) :
    Reading σ ρ → Prop
  | .going s => left s rest
  | .done r => r = result ∧ rest = []

theorem Reads.left {σ ρ : Type}
    {step : σ → Nat → UInt8 → Except GrammarError (Reading σ ρ)} {left : σ → Bytes → Prop}
    {result : ρ} (hstep : ∀ {s offset b rest reading}, step s offset b = .ok reading →
      reading.Leaves left result rest → left s (b :: rest))
    {s : σ} {source : Bytes} (h : Reads step result s offset source) : left s source := by
  induction h with
  | last h => exact hstep h ⟨rfl, rfl⟩
  | going h _ ih => exact hstep h ih

theorem Laid.close {α : Type} {gap : Bytes → Prop} {spelled : α → Bytes → Bytes → Prop}
    {sign : Sign} {c : Char} (hgap : gap []) (h : Sign.of b = sign)
    (hchar : sign.char? = some c) : Laid gap spelled (ascii [c]) [] [b] := by
  rw [eq_of_sign h hchar]
  exact .done hgap

/-! ## Braces -/

def Braces.places (s : Braces) : Places :=
  ⟨s.low, s.high, s.second⟩

theorem Braces.places_set (s : Braces) (value : Nat) :
    (s.set value).places = s.places.fill value ∧ (s.set value).figure = .idle := by
  obtain ⟨opened, low, high, second, figure⟩ := s
  cases second <;> exact ⟨rfl, rfl⟩

/-- Marks that fill in the two numbers, up to the closing brace. -/
def Fills (result : Nat × Nat) (p : Places) (source : Bytes) : Prop :=
  ∃ marks, Laid Blanks Mark.Spelled (ascii ['\x7d']) marks source ∧
    result = ((marks.foldl Places.take p).low, (marks.foldl Places.take p).high)

/-- The digits with which a numeral goes on, and then marks. -/
def FillsDigits (base : Nat) (result : Nat × Nat) (p : Places) (value : Nat)
    (source : Bytes) : Prop :=
  ∃ digits rest total, source = ascii digits ++ rest ∧
    readDigits base value digits = some total ∧
    total ≤ maxWord ∧ Ended base rest ∧ Fills result (p.fill total) rest

def Figure.Left (result : Nat × Nat) (p : Places) : Figure → Bytes → Prop
  | .idle, source => Fills result p source
  | .literal _ text, source => ∃ more rest code, source = more ++ (ascii ['\''] ++ rest) ∧
      (∀ b ∈ more, Sign.of b ≠ .quote) ∧
      firstCodePoint (text.toList ++ more) = some code ∧ Fills result (p.fill code) rest
  | .hexadecimal none, source => ∃ (n : Numeral 16) (rest : Bytes),
      source = n.bytes ++ rest ∧ Ended 16 rest ∧ Fills result (p.fill n.value) rest
  | .hexadecimal (some value), source =>
    value ≤ maxWord → FillsDigits 16 result p value source
  | .decimal value, source => value ≤ maxWord → FillsDigits 10 result p value source

def Braces.Left (result : Nat × Nat) (s : Braces) (source : Bytes) : Prop :=
  s.figure.Left result s.places source

variable {result : Nat × Nat} {p : Places}

theorem Fills.mark {m : Mark} {bytes : Bytes} (h : Fills result (p.take m) rest)
    (hspelled : m.Spelled bytes rest) : Fills result p (bytes ++ rest) := by
  obtain ⟨marks, hlaid, hresult⟩ := h
  exact ⟨m :: marks, hlaid.tight (List.forall_mem_nil _) hspelled, hresult⟩

theorem FillsDigits.ended {base value : Nat} (h : Fills result (p.fill value) (b :: rest))
    (hvalue : value ≤ maxWord) (hb : digitOf? base b = none) :
    FillsDigits base result p value (b :: rest) :=
  ⟨[], b :: rest, value, rfl, rfl, hvalue, fun _ hc => Option.some.inj hc ▸ hb, h⟩

theorem ascii_ofUInt8 (b : UInt8) (letters : List Char) :
    ascii (Char.ofUInt8 b :: letters) = b :: ascii letters :=
  congrArg (· :: ascii letters) (eq_of_ofUInt8 rfl).symm

theorem readDigits_ofUInt8 {base value d : Nat} (hd : digitOf? base b = some d)
    (digits : List Char) :
    readDigits base value (Char.ofUInt8 b :: digits) =
      readDigits base (value * base + d) digits := by
  rw [digitOf?] at hd
  rw [readDigits, hd]

theorem FillsDigits.digit {base value d : Nat} (hd : digitOf? base b = some d)
    (h : FillsDigits base result p (value * base + d) rest) :
    FillsDigits base result p value (b :: rest) := by
  obtain ⟨digits, tail, total, rfl, hreads, hrest⟩ := h
  refine ⟨Char.ofUInt8 b :: digits, tail, total, ?_, ?_, hrest⟩
  · rw [ascii_ofUInt8]
    rfl
  · rw [readDigits_ofUInt8 hd, hreads]

/-- A numeral of which the first digit has been read. -/
theorem FillsDigits.numeral {base d : Nat} (hd : digitOf? base b = some d)
    (h : FillsDigits base result p (0 * base + d) rest) :
    ∃ (n : Numeral base) (tail : Bytes), b :: rest = n.bytes ++ tail ∧ Ended base tail ∧
      Fills result (p.fill n.value) tail := by
  obtain ⟨digits, tail, total, rfl, hreads, htotal, hended, hfills⟩ := h
  have hreads' : readDigits base 0 (Char.ofUInt8 b :: digits) = some total := by
    rw [readDigits_ofUInt8 hd, hreads]
  refine ⟨⟨⟨_, total, List.cons_ne_nil _ _, hreads'⟩, htotal⟩, tail, ?_, hended, hfills⟩
  rw [Numeral.bytes, ascii_ofUInt8]
  rfl

theorem lt_of_digitOf? {base d : Nat} (h : digitOf? base b = some d) : d < base := by
  rw [digitOf?, digit?, Option.filter_eq_some_iff] at h
  exact of_decide_eq_true h.2

theorem Braces.idle_left {s : Braces} {reading : Reading Braces (Nat × Nat)}
    (h : s.idle offset b = .ok reading)
    (hleft : reading.Leaves (Braces.Left result) result rest) :
    Fills result s.places (b :: rest) := by
  unfold idle at h
  split at h <;> try rename_i hsign
  · cases h
    obtain ⟨marks, hlaid, hresult⟩ := hleft
    exact ⟨marks, hlaid.behind (g := [b]) fun hg => List.forall_mem_cons.mpr ⟨hsign, hg⟩,
      hresult⟩
  · cases h
    obtain ⟨rfl, rfl⟩ := hleft
    exact ⟨[], .close (List.forall_mem_nil _) hsign rfl, rfl⟩
  · cases h
    obtain ⟨more, tail, code, rfl, hmore, hcode, hfills⟩ := hleft
    have hfills' := Fills.mark (m := .character ⟨more, hmore⟩ code hcode) hfills rfl
    rw [Quote.bytes, List.append_assoc, List.append_assoc] at hfills'
    rw [eq_of_sign hsign rfl]
    exact hfills'
  · cases h
    obtain ⟨n, tail, rfl, hended, hfills⟩ := hleft
    have hfills' := Fills.mark (m := .hexadecimal n) hfills ⟨rfl, hended⟩
    rw [eq_of_sign hsign rfl]
    exact hfills'
  · cases h
    obtain ⟨hplaces, hfigure⟩ := s.places_set (if s.second then Bound.unlimited else 0)
    rw [Reading.Leaves, Braces.Left, hplaces, hfigure] at hleft
    have hfills' := Fills.mark (m := .star) hleft rfl
    rw [eq_of_sign hsign rfl]
    exact hfills'
  · cases h
    have hfills' := Fills.mark (p := s.places) (m := .dash) hleft rfl
    rw [eq_of_sign hsign rfl]
    exact hfills'
  · split at h
    · rename_i d hd
      cases h
      have hdigits : FillsDigits 10 result s.places d rest :=
        hleft (Nat.le_trans (Nat.le_of_lt (lt_of_digitOf? hd)) (by decide))
      obtain ⟨n, tail, hsource, hended, hfills⟩ :=
        FillsDigits.numeral hd (show FillsDigits 10 result s.places (0 * 10 + d) rest by
          rwa [Nat.zero_mul, Nat.zero_add])
      rw [hsource]
      exact Fills.mark (m := .decimal n) hfills ⟨rfl, hended⟩
    · cases h

theorem Braces.extend_eq_ok {mode : Mode} {base value digit total : Nat}
    (h : extend mode base value digit offset b = .ok total) :
    total = value * base + digit ∧ total ≤ maxWord := by
  unfold extend at h
  split at h
  · cases h
    exact ⟨rfl, ‹_›⟩
  · cases h

theorem push_eq_ok {text text' : Text} (h : push limits text b = .ok text') :
    text.size < limits.text ∧ text' = text.push b := by
  unfold push at h
  split at h
  · cases h
    exact ⟨‹_›, rfl⟩
  · cases h

theorem Braces.step_left {s : Braces} {reading : Reading Braces (Nat × Nat)}
    (h : s.step limits offset b = .ok reading)
    (hleft : reading.Leaves (Braces.Left result) result rest) :
    s.Left result (b :: rest) := by
  obtain ⟨opened, low, high, second, figure⟩ := s
  unfold step at h
  cases figure with
  | idle => exact idle_left h hleft
  | literal start text =>
    dsimp only at h
    split at h
    · rename_i hquote
      split at h
      · rename_i code hcode
        cases h
        rw [Reading.Leaves, Braces.Left, (places_set _ _).1, (places_set _ _).2] at hleft
        refine ⟨[], rest, code, ?_, List.forall_mem_nil _, ?_, hleft⟩
        · rw [eq_of_sign hquote rfl]
          rfl
        · rw [List.append_nil, hcode]
      · cases h
    · rename_i hquote
      obtain ⟨text', hpush, hreading⟩ := bind_eq_ok h
      obtain ⟨-, rfl⟩ := push_eq_ok hpush
      cases hreading
      obtain ⟨more, tail, code, rfl, hmore, hcode, hfills⟩ := hleft
      refine ⟨b :: more, tail, code, rfl,
        List.forall_mem_cons.mpr ⟨hquote, hmore⟩, ?_, hfills⟩
      rw [← hcode, Array.toList_push, List.append_assoc]
      rfl
  | hexadecimal value =>
    dsimp only at h
    cases hd : digitOf? 16 b with
    | some d =>
      rw [hd] at h
      obtain ⟨total, hextend, hreading⟩ := bind_eq_ok h
      obtain ⟨rfl, htotal⟩ := extend_eq_ok hextend
      cases hreading
      have hdigits : FillsDigits 16 result ⟨low, high, second⟩
          (value.getD 0 * 16 + d) rest :=
        hleft htotal
      cases value with
      | none => exact hdigits.numeral hd
      | some value => exact fun _ => hdigits.digit hd
    | none =>
      rw [hd] at h
      cases value with
      | none => cases h
      | some value =>
        intro hvalue
        have hfills := idle_left h hleft
        rw [(places_set _ _).1] at hfills
        exact .ended hfills hvalue hd
  | decimal value =>
    dsimp only at h
    split at h
    · rename_i d hd
      intro _
      obtain ⟨total, hextend, hreading⟩ := bind_eq_ok h
      obtain ⟨rfl, htotal⟩ := extend_eq_ok hextend
      cases hreading
      exact .digit hd (hleft htotal)
    · rename_i hd
      intro hvalue
      have hfills := idle_left h hleft
      rw [(places_set _ _).1] at hfills
      exact .ended hfills hvalue hd

/-! ## Brackets -/

variable {filed : List Rule} {total set : CharSet}

/-- Parts that add up to the whole set, up to the closing bracket. -/
def Adds (filed : List Rule) (total set : CharSet) (source : Bytes) : Prop :=
  ∃ parts, Laid Gap Part.Spelled (ascii [']']) parts source ∧
    unionOf? filed set parts = some total

def Member.Left (filed : List Rule) (total set : CharSet) : Member → Bytes → Prop
  | .idle, source => Adds filed total set source
  | .comment _, source => ∃ text rest, source = text ++ (ascii ['%'] ++ rest) ∧
      (∀ b ∈ text, Sign.of b ≠ .percent) ∧ Adds filed total set rest
  | .literal _ text, source => ∃ more rest, source = more ++ (ascii ['\''] ++ rest) ∧
      (∀ b ∈ more, Sign.of b ≠ .quote) ∧
      Adds filed total (set.union (CharSet.ofLiteral (text.toList ++ more))) rest
  | .inclusion _ text, source => Worded text →
      ∃ (w : Word) (more rest : Bytes) (added : CharSet),
      source = more ++ rest ∧ w.bytes = text.toList ++ more ∧ Closed rest ∧
      (find? filed w.name).bind Rule.charSet? = some added ∧
      Adds filed total (set.union added) rest
  | .range inner, source => ∃ before rest bounds, source = before ++ rest ∧
      inner.Left bounds before ∧
      Adds filed total (set.union (CharSet.range bounds.1 (max bounds.2 bounds.1))) rest

def Brackets.Left (filed : List Rule) (total : CharSet) (s : Brackets) (source : Bytes) :
    Prop :=
  s.member.Left filed total s.set source

theorem Adds.part {bytes : Bytes} {added : CharSet}
    (h : Adds filed total (set.union added) rest) (part : Part)
    (hadded : part.set? filed = some added) (hspelled : part.Spelled bytes rest) :
    Adds filed total set (bytes ++ rest) := by
  obtain ⟨parts, hlaid, htotal⟩ := h
  refine ⟨part :: parts, hlaid.tight .nothing hspelled, ?_⟩
  rw [unionOf?, hadded]
  exact htotal

theorem Adds.gap {g : Bytes} (h : Adds filed total set rest) (hg : Gap g) :
    Adds filed total set (g ++ rest) := by
  obtain ⟨parts, hlaid, htotal⟩ := h
  exact ⟨parts, hlaid.behind hg.append, htotal⟩

theorem Brackets.idle_left {s : Brackets} {reading : Reading Brackets CharSet}
    (h : s.idle offset b = .ok reading)
    (hleft : reading.Leaves (Brackets.Left filed total) total rest) :
    Adds filed total s.set (b :: rest) := by
  unfold idle at h
  split at h <;> try rename_i hsign
  · cases h
    exact Adds.gap hleft (.blank hsign .nothing)
  · cases h
    obtain ⟨rfl, rfl⟩ := hleft
    exact ⟨[], .close .nothing hsign rfl, rfl⟩
  · cases h
    obtain ⟨text, tail, rfl, htext, hadds⟩ := hleft
    have hadds' := hadds.gap (.comment htext .nothing)
    rw [List.append_nil, List.append_assoc, List.append_assoc] at hadds'
    rw [eq_of_sign hsign rfl]
    exact hadds'
  · cases h
    obtain ⟨before, tail, bounds, rfl, ⟨marks, hlaid, hbounds⟩, hadds⟩ := hleft
    have hset : (Part.range marks).set? filed =
        some (CharSet.range bounds.1 (max bounds.2 bounds.1)) := by
      rw [hbounds]
      rfl
    have hadds' := hadds.part (.range marks) hset ⟨before, rfl, hlaid⟩
    rw [List.append_assoc] at hadds'
    rw [eq_of_sign hsign rfl]
    exact hadds'
  · cases h
    obtain ⟨w, more, tail, added, rfl, hbytes, hclosed, hadded, hadds⟩ :=
      hleft worded_empty
    have hadds' := hadds.part (.inclusion w) hadded ⟨rfl, hclosed⟩
    rw [List.append_assoc, hbytes] at hadds'
    rw [eq_of_sign hsign rfl]
    exact hadds'
  · cases h
    obtain ⟨more, tail, rfl, hmore, hadds⟩ := hleft
    have hadds' := hadds.part (.literal ⟨more, hmore⟩) rfl rfl
    rw [Quote.bytes, List.append_assoc, List.append_assoc] at hadds'
    rw [eq_of_sign hsign rfl]
    exact hadds'
  · cases h
    have hb : b = (Char.ofUInt8 b).toUInt8 := eq_of_ofUInt8 rfl
    have hword := isWordChar_of_sign hsign
    have hadded : (Part.letter (Char.ofUInt8 b) hword).set? filed =
        some (CharSet.character b.toNat) := by
      rw [Part.set?, ← toNat_toUInt8 (toNat_lt_of_isWordChar hword), ← hb]
    have hadds' := Adds.part hleft (.letter _ hword) hadded rfl
    rw [ascii_ofUInt8] at hadds'
    exact hadds'
  · cases h

theorem Brackets.adopt_eq_ok {s s' : Brackets} {opened : Nat} {text : Text}
    (h : s.adopt filed opened text = .ok s') :
    ∃ added, (find? filed (nameOf text)).bind Rule.charSet? = some added ∧
      s' = s.add added := by
  unfold adopt at h
  split at h
  · cases h
  · rename_i r hfind
    split at h
    · cases h
    · rename_i added hadded
      cases h
      exact ⟨added, by rw [hfind]; exact hadded, rfl⟩

theorem Brackets.step_left {s : Brackets} {reading : Reading Brackets CharSet}
    (h : s.step limits filed offset b = .ok reading)
    (hleft : reading.Leaves (Brackets.Left filed total) total rest) :
    s.Left filed total (b :: rest) := by
  obtain ⟨opened, set, member⟩ := s
  unfold step at h
  cases member with
  | idle => exact idle_left h hleft
  | comment start =>
    dsimp only at h
    split at h
    · rename_i hpercent
      cases h
      exact ⟨[], rest, by rw [eq_of_sign hpercent rfl]; rfl, List.forall_mem_nil _, hleft⟩
    · rename_i hpercent
      cases h
      obtain ⟨text, tail, rfl, htext, hadds⟩ := hleft
      exact ⟨b :: text, tail, rfl, List.forall_mem_cons.mpr ⟨hpercent, htext⟩, hadds⟩
  | literal start text =>
    dsimp only at h
    split at h
    · rename_i hquote
      cases h
      refine ⟨[], rest, by rw [eq_of_sign hquote rfl]; rfl, List.forall_mem_nil _, ?_⟩
      rw [List.append_nil]
      exact hleft
    · rename_i hquote
      obtain ⟨text', hpush, hreading⟩ := bind_eq_ok h
      obtain ⟨-, rfl⟩ := push_eq_ok hpush
      cases hreading
      obtain ⟨more, tail, rfl, hmore, hadds⟩ := hleft
      refine ⟨b :: more, tail, rfl, List.forall_mem_cons.mpr ⟨hquote, hmore⟩, ?_⟩
      rw [Array.toList_push, List.append_assoc] at hadds
      exact hadds
  | inclusion start text =>
    dsimp only at h
    intro hworded
    split at h
    · rename_i hword
      obtain ⟨text', hpush, hreading⟩ := bind_eq_ok h
      obtain ⟨hpushed, -⟩ := hworded.push hword text' hpush
      obtain ⟨-, rfl⟩ := push_eq_ok hpush
      cases hreading
      obtain ⟨w, more, tail, added, rfl, hbytes, hrest⟩ := hleft hpushed
      refine ⟨w, b :: more, tail, added, rfl, ?_, hrest⟩
      rw [hbytes, Array.toList_push, List.append_assoc]
      rfl
    · rename_i hword
      split at h
      · cases h
      · rename_i hne
        obtain ⟨w, hw⟩ := hworded.exists_bytes (Bool.eq_false_iff.mpr hne)
        obtain ⟨s', hadopt, hidle⟩ := bind_eq_ok h
        obtain ⟨added, hadded, rfl⟩ := adopt_eq_ok hadopt
        rw [Word.nameOf_of_bytes hw] at hadded
        refine ⟨w, [], b :: rest, added, rfl, by rw [hw, List.append_nil], ?_, hadded, ?_⟩
        · exact fun _ hc => Option.some.inj hc ▸ hword
        · exact idle_left hidle hleft
  | range inner =>
    obtain ⟨reading', hinner, hreading⟩ := bind_eq_ok h
    cases reading' with
    | going inner' =>
      cases hreading
      obtain ⟨before, tail, bounds, rfl, hbefore, hadds⟩ := hleft
      exact ⟨b :: before, tail, bounds, rfl, Braces.step_left hinner hbefore, hadds⟩
    | done bounds =>
      cases hreading
      exact ⟨[b], rest, bounds, rfl, Braces.step_left hinner ⟨rfl, rfl⟩, hleft⟩

/-- What a bracket class has been read from is what parts are written as, and the
class is the union of what it began with and of what the parts add. -/
theorem exists_parts {opened : Nat} {inner : Bytes}
    (h : Reads (Brackets.step limits filed) total (Brackets.start opened set)
      offset inner) :
    ∃ parts, Laid Gap Part.Spelled (ascii [']']) parts inner ∧
      unionOf? filed set parts = some total :=
  h.left Brackets.step_left

end RuleGraph.Terse
