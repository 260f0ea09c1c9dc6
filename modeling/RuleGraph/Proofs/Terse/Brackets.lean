import RuleGraph.Proofs.Terse.Reading

/-!
# Braces and brackets are read as written

Braces leave the two numbers that their marks fill in, brackets the union of
what their parts add. The states of the readers between two marks or two parts
are determined by what has been read: `Places` for braces, a character set for
brackets. A numeral and a name after a backslash end in the byte after them.
-/

namespace RuleGraph.Terse

variable {limits : Limits} {opened : Nat}

/-! ## Braces -/

/-- Braces whose places are filled, in the middle of a figure. -/
def Places.braces (p : Places) (opened : Nat) (figure : Figure) : Braces :=
  ⟨opened, p.low, p.high, p.second, figure⟩

theorem Places.set_braces (p : Places) (figure : Figure) (value : Nat) :
    (p.braces opened figure).set value = (p.fill value).braces opened .idle := by
  obtain ⟨low, high, second⟩ := p
  cases second <;> rfl

theorem extend_of_le {mode : Mode} {base value digit offset : Nat} {b : UInt8}
    (h : value * base + digit ≤ maxWord) :
    Braces.extend mode base value digit offset b = .ok (value * base + digit) :=
  if_pos h

theorem step_decimal_digit {p : Places} {value d offset : Nat} {b : UInt8}
    (hd : digitOf? 10 b = some d) (hle : value * 10 + d ≤ maxWord) :
    Braces.step limits (p.braces opened (.decimal value)) offset b =
      .ok (.going (p.braces opened (.decimal (value * 10 + d)))) := by
  unfold Braces.step
  dsimp only [Places.braces]
  rw [hd]
  dsimp only
  rw [extend_of_le hle]
  rfl

theorem step_decimal_end {p : Places} {value offset : Nat} {b : UInt8}
    (hd : digitOf? 10 b = none) :
    Braces.step limits (p.braces opened (.decimal value)) offset b =
      Braces.step limits ((p.fill value).braces opened .idle) offset b := by
  rw [← p.set_braces (.decimal value)]
  unfold Braces.step
  dsimp only [Places.braces]
  rw [hd]
  cases p.second <;> rfl

theorem step_hash {p : Places} {offset : Nat} :
    Braces.step limits (p.braces opened .idle) offset ('#').toUInt8 =
      .ok (.going (p.braces opened (.hexadecimal none))) := by
  have hsign : Sign.of ('#').toUInt8 = .hash := rfl
  unfold Braces.step Braces.idle
  dsimp only [Places.braces]
  rw [hsign]

theorem step_hexadecimal_first {p : Places} {d offset : Nat} {b : UInt8}
    (hd : digitOf? 16 b = some d) (hle : 0 * 16 + d ≤ maxWord) :
    Braces.step limits (p.braces opened (.hexadecimal none)) offset b =
      .ok (.going (p.braces opened (.hexadecimal (some (0 * 16 + d))))) := by
  unfold Braces.step
  dsimp only [Places.braces]
  rw [hd]
  dsimp only [Option.getD_none]
  rw [extend_of_le hle]
  rfl

theorem step_hexadecimal_digit {p : Places} {value d offset : Nat} {b : UInt8}
    (hd : digitOf? 16 b = some d) (hle : value * 16 + d ≤ maxWord) :
    Braces.step limits (p.braces opened (.hexadecimal (some value))) offset b =
      .ok (.going (p.braces opened (.hexadecimal (some (value * 16 + d))))) := by
  unfold Braces.step
  dsimp only [Places.braces]
  rw [hd]
  dsimp only [Option.getD_some]
  rw [extend_of_le hle]
  rfl

theorem step_hexadecimal_end {p : Places} {value offset : Nat} {b : UInt8}
    (hd : digitOf? 16 b = none) :
    Braces.step limits (p.braces opened (.hexadecimal (some value))) offset b =
      Braces.step limits ((p.fill value).braces opened .idle) offset b := by
  rw [← p.set_braces (.hexadecimal (some value))]
  unfold Braces.step
  dsimp only [Places.braces]
  rw [hd]
  cases p.second <;> rfl

theorem step_quoted_end {p : Places} {start code offset : Nat} {text : Text}
    (hcode : firstCodePoint text.toList = some code) :
    Braces.step limits (p.braces opened (.literal start text)) offset ('\'').toUInt8 =
      .ok (.going ((p.fill code).braces opened .idle)) := by
  rw [← p.set_braces (.literal start text)]
  unfold Braces.step
  dsimp only [Places.braces]
  rw [if_pos (by rfl), hcode]

/-- From this figure on, the rest leads to the two numbers, at any offset. -/
def Figures (limits : Limits) (opened : Nat) (result : Nat × Nat) (p : Places)
    (figure : Figure) (rest : Bytes) : Prop :=
  ∀ offset, Reads (Braces.step limits) result (p.braces opened figure) offset rest

variable {result : Nat × Nat} {p : Places} {rest : Bytes}

theorem Figures.blanks {g : Bytes} (hg : Blanks g)
    (h : Figures limits opened result p .idle rest) :
    Figures limits opened result p .idle (g ++ rest) := by
  induction g with
  | nil => exact h
  | cons b g ih =>
    intro offset
    refine .going ?_ (ih (fun c hc => hg c (List.mem_cons_of_mem _ hc)) (offset + 1))
    show Braces.idle _ _ _ = _
    rw [Braces.idle, hg b List.mem_cons_self]
    rfl

/-- The digits of a numeral, where `figure` is what is read while it has a
value. -/
theorem Figures.digits {base : Nat} (figure : Nat → Figure) (hbase : 0 < base)
    (hdigit : ∀ {value d offset b}, digitOf? base b = some d →
      value * base + d ≤ maxWord →
      Braces.step limits (p.braces opened (figure value)) offset b =
        .ok (.going (p.braces opened (figure (value * base + d)))))
    (hend : ∀ {value offset b}, digitOf? base b = none →
      Braces.step limits (p.braces opened (figure value)) offset b =
        Braces.step limits ((p.fill value).braces opened .idle) offset b)
    {total : Nat} (hfits : total ≤ maxWord) (hrest : Ended base rest)
    (h : Figures limits opened result (p.fill total) .idle rest) :
    ∀ {digits : List Char} {value : Nat}, readDigits base value digits = some total →
      Figures limits opened result p (figure value) (ascii digits ++ rest) := by
  intro digits
  induction digits with
  | nil =>
    intro value hreads offset
    cases hreads
    exact .of_head (fun b hb => hend (hrest b hb)) (h offset)
  | cons c digits ih =>
    intro value hreads offset
    rw [readDigits] at hreads
    split at hreads
    · cases hreads
    · rename_i d hd
      have hle := le_of_readDigits hbase hreads
      exact .going (hdigit (digitOf?_of_digit? hd) (Nat.le_trans hle hfits))
        (ih hreads (offset + 1))

theorem Figures.decimal (n : Numeral 10) (hrest : Ended 10 rest)
    (h : Figures limits opened result (p.fill n.value) .idle rest) :
    Figures limits opened result p .idle (n.bytes ++ rest) := by
  obtain ⟨⟨digits, value, hne, hreads⟩, hfits⟩ := n
  cases digits with
  | nil => exact absurd rfl hne
  | cons c digits =>
    rw [readDigits] at hreads
    split at hreads
    · cases hreads
    · rename_i d hd
      rw [Nat.zero_mul, Nat.zero_add] at hreads
      have hdigits : Figures limits opened result p (.decimal d) (ascii digits ++ rest) :=
        Figures.digits .decimal (by decide) step_decimal_digit step_decimal_end hfits
          hrest h hreads
      intro offset
      refine .going ?_ (hdigits (offset + 1))
      show Braces.idle _ _ _ = _
      rw [Braces.idle, sign_of_isWordChar (isWordChar_of_digit? hd)]
      dsimp only
      rw [digitOf?_of_digit? hd]
      rfl

theorem Figures.hexadecimal (n : Numeral 16) (hrest : Ended 16 rest)
    (h : Figures limits opened result (p.fill n.value) .idle rest) :
    Figures limits opened result p .idle (ascii ['#'] ++ (n.bytes ++ rest)) := by
  obtain ⟨⟨digits, value, hne, hreads⟩, hfits⟩ := n
  cases digits with
  | nil => exact absurd rfl hne
  | cons c digits =>
    rw [readDigits] at hreads
    split at hreads
    · cases hreads
    · rename_i d hd
      have hdigits : Figures limits opened result p (.hexadecimal (some (0 * 16 + d)))
          (ascii digits ++ rest) :=
        Figures.digits (fun value => .hexadecimal (some value)) (by decide)
          step_hexadecimal_digit step_hexadecimal_end hfits hrest h hreads
      have hle : 0 * 16 + d ≤ maxWord :=
        Nat.le_trans (le_of_readDigits (by decide) hreads) hfits
      have hfirst : Figures limits opened result p (.hexadecimal none)
          (c.toUInt8 :: (ascii digits ++ rest)) :=
        fun offset => .going (step_hexadecimal_first (digitOf?_of_digit? hd) hle)
          (hdigits (offset + 1))
      exact fun offset => .going step_hash (hfirst (offset + 1))

theorem Figures.character (q : Quote) (hfits : q.Fits limits) {code : Nat}
    (hcode : firstCodePoint q.text = some code)
    (h : Figures limits opened result (p.fill code) .idle rest) :
    Figures limits opened result p .idle (q.bytes ++ rest) := by
  refine Quote.read
    (fun text rest => ∀ start, Figures limits opened result p (.literal start text)
      rest) q hfits ?_ ?_ ?_ h
  · exact fun h offset => .going rfl (h offset (offset + 1))
  · intro text b rest hb hlt hrest start offset
    refine .going ?_ (hrest start (offset + 1))
    unfold Braces.step
    dsimp only [Places.braces]
    rw [if_neg hb, push_of_lt hlt]
    rfl
  · exact fun h start offset => .going (step_quoted_end hcode) (h (offset + 1))

theorem Figures.mark {m : Mark} {bytes : Bytes} (hfits : m.Fits limits)
    (hspelled : m.Spelled bytes rest)
    (h : Figures limits opened result (p.take m) .idle rest) :
    Figures limits opened result p .idle (bytes ++ rest) := by
  cases m with
  | dash =>
    cases hspelled
    exact fun offset => .going rfl (h (offset + 1))
  | star =>
    cases hspelled
    intro offset
    refine .going ?_ (h (offset + 1))
    rw [Places.take, ← p.set_braces .idle]
    rfl
  | decimal n =>
    obtain ⟨rfl, hrest⟩ := hspelled
    exact Figures.decimal n hrest h
  | hexadecimal n =>
    obtain ⟨rfl, hrest⟩ := hspelled
    exact Figures.hexadecimal n hrest h
  | character q code hcode =>
    cases hspelled
    exact Figures.character q hfits hcode h

/-- Braces are read as the numbers that their marks fill in. -/
theorem reads_braces {marks : List Mark} {inner : Bytes}
    (hfits : ∀ m ∈ marks, m.Fits limits)
    (hlaid : Laid Blanks Mark.Spelled (ascii ['\x7d']) marks inner) (offset : Nat) :
    Reads (Braces.step limits) ((Places.of marks).low, (Places.of marks).high)
      (Braces.start opened) offset inner := by
  have hpath (marks : List Mark) (hfits : ∀ m ∈ marks, m.Fits limits) (p : Places) :
      Path (fun p m p' => m.Fits limits ∧ p' = p.take m) p marks
        (marks.foldl Places.take p) := by
    induction marks generalizing p with
    | nil => exact .nil
    | cons m marks ih =>
      exact .cons ⟨hfits m List.mem_cons_self, rfl⟩
        (ih (fun m hm => hfits m (List.mem_cons_of_mem _ hm)) (p.take m))
  have hread : Figures limits opened ((Places.of marks).low, (Places.of marks).high)
      ⟨0, 0, false⟩ .idle inner := by
    refine Laid.read (fun p rest => Figures limits opened _ p .idle rest)
      Figures.blanks ?_ (hpath marks hfits _) ?_ ((List.append_nil marks).symm ▸ hlaid)
    · rintro p _ m bytes rest _ ⟨hfits, rfl⟩ hspelled _ h
      exact h.mark hfits hspelled
    · intro rest hrest
      cases hrest with
      | done hg => exact Figures.blanks hg fun offset => .last rfl
  exact hread offset

/-! ## Brackets -/

variable {filed : List Rule} {total : CharSet} {set : CharSet}

/-- From this member on, the rest leads to the whole class, at any offset. -/
def Members (limits : Limits) (filed : List Rule) (opened : Nat) (total set : CharSet)
    (member : Member) (rest : Bytes) : Prop :=
  ∀ offset, Reads (Brackets.step limits filed) total ⟨opened, set, member⟩ offset rest

theorem Members.gap {g : Bytes} (hg : Gap g)
    (h : Members limits filed opened total set .idle rest) :
    Members limits filed opened total set .idle (g ++ rest) := by
  refine Gap.read
    (fun rest => ∀ start, Members limits filed opened total set (.comment start) rest)
    ?_ ?_ ?_ ?_ hg h
  · intro b rest hb h offset
    refine .going ?_ (h (offset + 1))
    show Brackets.idle _ _ _ = _
    rw [Brackets.idle, hb]
  · exact fun h offset => .going rfl (h offset (offset + 1))
  · exact fun hb h start offset => .going (if_neg hb) (h start (offset + 1))
  · exact fun h start offset => .going rfl (h (offset + 1))

theorem Members.literal (q : Quote) (hfits : q.Fits limits)
    (h : Members limits filed opened total (set.union (CharSet.ofLiteral q.text))
      .idle rest) :
    Members limits filed opened total set .idle (q.bytes ++ rest) := by
  refine Quote.read (fun text rest => ∀ start, Members limits filed opened total set
    (.literal start text) rest) q hfits ?_ ?_ ?_ h
  · exact fun h offset => .going rfl (h offset (offset + 1))
  · intro text b rest hb hlt hrest start offset
    refine .going ?_ (hrest start (offset + 1))
    unfold Brackets.step
    dsimp only
    rw [if_neg hb, push_of_lt hlt]
    rfl
  · exact fun h start offset => .going rfl (h (offset + 1))

theorem Members.inclusion (w : Word) (hfits : w.Fits limits) {r : Rule} {more : CharSet}
    (hr : find? filed w.name = some r) (hmore : r.charSet? = some more)
    (hrest : Closed rest)
    (h : Members limits filed opened total (set.union more) .idle rest) :
    Members limits filed opened total set .idle (ascii ['\\'] ++ (w.bytes ++ rest)) := by
  intro offset
  have hclose : Members limits filed opened total set
      (.inclusion offset (#[] ++ w.bytes.toArray)) rest := by
    intro last
    refine .of_head (fun b hb => ?_) (h last)
    have hne : (#[] ++ w.bytes.toArray).isEmpty = false := by
      simpa using w.bytes_ne_nil
    unfold Brackets.step
    dsimp only
    rw [if_neg (hrest b hb), hne, Array.empty_append]
    unfold Brackets.adopt
    rw [w.nameOf_bytes, hr]
    dsimp only
    rw [hmore]
    rfl
  have htext : Members limits filed opened total set (.inclusion offset #[])
      (w.bytes ++ rest) := by
    refine collect
      (fun text rest => Members limits filed opened total set (.inclusion offset text)
        rest) ?_ w.sign_bytes (by simpa [Word.Fits, w.length_bytes] using hfits) hclose
    intro text b rest hb hlt hrest last
    refine .going ?_ (hrest (last + 1))
    unfold Brackets.step
    dsimp only
    rw [if_pos hb, push_of_lt hlt]
    rfl
  exact .going rfl (htext (offset + 1))

/-- Braces inside of brackets come to their end where they do by themselves. -/
theorem Members.range {braces : Braces} {low high offset : Nat} {inner : Bytes}
    (hinner : Reads (Braces.step limits) (low, high) braces offset inner)
    (h : Members limits filed opened total
      (set.union (CharSet.range low (max high low))) .idle rest) :
    Reads (Brackets.step limits filed) total ⟨opened, set, .range braces⟩ offset
      (inner ++ rest) := by
  induction hinner with
  | @last braces offset b hstep =>
    refine .going ?_ (h (offset + 1))
    unfold Brackets.step
    dsimp only
    rw [hstep]
    rfl
  | @going braces braces' offset b rest' hstep _ ih =>
    refine .going ?_ ih
    unfold Brackets.step
    dsimp only
    rw [hstep]
    rfl

theorem Members.part {p : Part} {more : CharSet} {bytes : Bytes} (hfits : p.Fits limits)
    (hmore : p.set? filed = some more) (hspelled : p.Spelled bytes rest)
    (h : Members limits filed opened total (set.union more) .idle rest) :
    Members limits filed opened total set .idle (bytes ++ rest) := by
  cases p with
  | letter c hc =>
    cases hspelled
    cases hmore
    intro offset
    refine .going ?_ (h (offset + 1))
    show Brackets.idle _ _ _ = _
    rw [Brackets.idle, sign_of_isWordChar hc, toNat_toUInt8 (toNat_lt_of_isWordChar hc)]
    rfl
  | literal q =>
    cases hspelled
    cases hmore
    exact Members.literal q hfits h
  | inclusion w =>
    obtain ⟨rfl, hrest⟩ := hspelled
    obtain ⟨r, hr, hset⟩ := Option.bind_eq_some_iff.mp hmore
    rw [List.append_assoc]
    exact Members.inclusion w hfits hr hset hrest h
  | range marks =>
    obtain ⟨inner, rfl, hlaid⟩ := hspelled
    cases hmore
    intro offset
    have hinner :
        Reads (Braces.step limits) ((Places.of marks).low, (Places.of marks).high)
          (Braces.start offset) (offset + 1) inner :=
      reads_braces hfits hlaid (offset + 1)
    rw [List.append_assoc]
    have hbraces := Members.range hinner h
    exact .going rfl hbraces

/-- Brackets are read as the union of what their parts add. -/
theorem reads_brackets {parts : List Part} {inner : Bytes}
    (hfits : ∀ p ∈ parts, p.Fits limits) (htotal : unionOf? filed set parts = some total)
    (hlaid : Laid Gap Part.Spelled (ascii [']']) parts inner) (offset : Nat) :
    Reads (Brackets.step limits filed) total (Brackets.start opened set)
      offset inner := by
  have hpath (parts : List Part) (hfits : ∀ p ∈ parts, p.Fits limits) (set : CharSet)
      (htotal : unionOf? filed set parts = some total) :
      Path (fun set p set' => p.Fits limits ∧ ∃ more, p.set? filed = some more ∧
        set' = set.union more) set parts total := by
    induction parts generalizing set with
    | nil =>
      cases htotal
      exact .nil
    | cons p parts ih =>
      obtain ⟨more, hmore, hrest⟩ := Option.bind_eq_some_iff.mp htotal
      exact .cons ⟨hfits p List.mem_cons_self, more, hmore, rfl⟩
        (ih (fun p hp => hfits p (List.mem_cons_of_mem _ hp)) _ hrest)
  have hread : Members limits filed opened total set .idle inner := by
    refine Laid.read (fun set rest => Members limits filed opened total set .idle rest)
      Members.gap
      ?_ (hpath parts hfits set htotal) ?_ ((List.append_nil parts).symm ▸ hlaid)
    · rintro set _ p bytes rest _ ⟨hfits, more, hmore, rfl⟩ hspelled _ h
      exact h.part hfits hmore hspelled
    · intro rest hrest
      cases hrest with
      | done hg => exact Members.gap hg fun offset => .last rfl
  exact hread offset

end RuleGraph.Terse
