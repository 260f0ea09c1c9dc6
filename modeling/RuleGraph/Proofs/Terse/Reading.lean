import RuleGraph.Proofs.Terse.Notation

/-!
# Reading what has been written

The reader goes byte by byte and forgets, so what is proved about it goes
backwards: if from the state after some bytes the rest of a source leads to a
result, then from the state before them the bytes and the rest do. A name or a
numeral fits into this although the reader only notices its end in the byte
after it. The state in the middle of it and the state after it do the same with
a byte that does not go on with it.

This file has what is shared. `Laid.read` is the argument for braces, brackets
and whole sources: what one item does and what a gap does is enough to know.
`collect` is the argument for texts, which are read byte by byte under a limit.
`Reads` is how a reader inside of another one comes to its end.
-/

namespace RuleGraph.Terse

/-! ## The alphabet -/

theorem isWordChar_iff {c : Char} : isWordChar c = true ↔
    ('A' ≤ c ∧ c ≤ 'Z' ∨ 'a' ≤ c ∧ c ≤ 'z') ∨ '0' ≤ c ∧ c ≤ '9' ∨ c = '_' := by
  delta isWordChar Char.isAlphanum Char.isAlpha Char.isUpper Char.isLower Char.isDigit
  simp only [Bool.or_eq_true, Bool.and_eq_true, decide_eq_true_eq, beq_iff_eq, or_assoc]
  rfl

theorem toNat_lt_of_isWordChar {c : Char} (h : isWordChar c = true) : c.toNat < 128 := by
  have hlast {last : Char} (hle : c ≤ last) : c.toNat ≤ last.toNat := hle
  rcases isWordChar_iff.mp h with (h | h) | h | rfl
  · exact Nat.lt_of_le_of_lt (hlast h.2) (by decide)
  · exact Nat.lt_of_le_of_lt (hlast h.2) (by decide)
  · exact Nat.lt_of_le_of_lt (hlast h.2) (by decide)
  · decide

theorem isWordChar_of_digit? {base d : Nat} {c : Char} (h : digit? base c = some d) :
    isWordChar c = true := by
  rw [digit?, Option.filter_eq_some_iff] at h
  obtain ⟨hvalue, -⟩ := h
  rw [isWordChar_iff]
  split at hvalue
  · rename_i hrange
    exact .inr (.inl hrange)
  · split at hvalue
    · rename_i hrange
      exact .inl (.inr hrange)
    · split at hvalue
      · rename_i hrange
        exact .inl (.inl hrange)
      · cases hvalue

theorem toNat_toUInt8 {c : Char} (h : c.toNat < 128) : c.toUInt8.toNat = c.toNat := by
  have hval : c.val.toNat < 128 := h
  show c.val.toUInt8.toNat = c.val.toNat
  rw [UInt32.toNat_toUInt8]
  omega

theorem ofUInt8_toUInt8 {c : Char} (h : c.toNat < 128) : Char.ofUInt8 c.toUInt8 = c := by
  apply Char.ext
  apply UInt32.toNat_inj.mp
  show c.val.toUInt8.toUInt32.toNat = c.val.toNat
  rw [UInt8.toNat_toUInt32]
  exact toNat_toUInt8 h

theorem sign_of_isWordChar {c : Char} (h : isWordChar c = true) :
    Sign.of c.toUInt8 = .word := by
  rw [Sign.of, ofUInt8_toUInt8 (toNat_lt_of_isWordChar h)]
  unfold Sign.ofChar
  split
  all_goals first | exact absurd h (by decide) | exact if_pos h

theorem digitOf?_of_digit? {base d : Nat} {c : Char} (h : digit? base c = some d) :
    digitOf? base c.toUInt8 = some d := by
  rw [digitOf?, ofUInt8_toUInt8 (toNat_lt_of_isWordChar (isWordChar_of_digit? h))]
  exact h

theorem lossy_ascii (letters : List Char) (h : ∀ c ∈ letters, c.toNat < 128) :
    Utf8.lossy (ascii letters) = letters := by
  induction letters with
  | nil => rfl
  | cons c rest ih =>
    have hc := h c List.mem_cons_self
    have hle : c.toUInt8 ≤ 0x7F := by
      rw [UInt8.le_iff_toNat_le, toNat_toUInt8 hc]
      exact Nat.le_of_lt_succ hc
    have hscalar : Utf8.scalar? (c.toUInt8 :: ascii rest) = some (c.toNat, 0) := by
      rw [Utf8.scalar?, Utf8.lead, if_pos hle, toNat_toUInt8 hc]
      rfl
    have hrest := ih fun d hd => h d (List.mem_cons_of_mem _ hd)
    show Utf8.lossyAfter 0 (c.toUInt8 :: ascii rest) = c :: rest
    rw [Utf8.lossyAfter, hscalar]
    show Char.ofNat c.toNat :: Utf8.lossy (ascii rest) = c :: rest
    rw [hrest, Char.ofNat_toNat]

namespace Word

theorem nameOf_bytes (w : Word) : nameOf w.bytes.toArray = w.name := by
  have hletters :=
    lossy_ascii w.letters fun c hc => toNat_lt_of_isWordChar (w.admitted c hc)
  show String.ofList (Utf8.lossy (ascii w.letters)) = String.ofList w.letters
  rw [hletters]

theorem sign_bytes (w : Word) : ∀ b ∈ w.bytes, Sign.of b = .word := by
  intro b hb
  obtain ⟨c, hc, rfl⟩ := List.mem_map.mp hb
  exact sign_of_isWordChar (w.admitted c hc)

theorem length_bytes (w : Word) : w.bytes.length = w.letters.length :=
  List.length_map _

theorem bytes_ne_nil (w : Word) : w.bytes ≠ [] := by
  intro h
  exact w.nonempty (List.map_eq_nil_iff.mp h)

end Word

/-- An operator finds the character set of an element, or there is none. -/
theorem charSetOf_eq (filed : List Rule) (offset : Nat) (r : Option Rule) :
    charSetOf filed offset r =
      match r.bind (setOf? filed) with
      | some set => .ok set
      | none => .error (.noCharSet offset) := by
  cases r with
  | none => rfl
  | some r =>
    unfold charSetOf setOf?
    dsimp only [Option.bind_some]
    cases r.shape <;> rfl

/-! ## Items and texts -/

/-- The states that a list of items leads through. -/
inductive Path {σ α : Type} (moves : σ → α → σ → Prop) : σ → List α → σ → Prop
  | nil {s : σ} : Path moves s [] s
  | cons {s s' last : σ} {a : α} {items : List α} : moves s a s' →
      Path moves s' items last → Path moves s (a :: items) last

theorem Path.append {σ α : Type} {moves : σ → α → σ → Prop} {s s' last : σ}
    {first second : List α} (hfirst : Path moves s first s')
    (hsecond : Path moves s' second last) : Path moves s (first ++ second) last := by
  induction hfirst with
  | nil => exact hsecond
  | cons hmove _ ih => exact .cons hmove (ih hsecond)

/-- Where gaps change nothing and every item does what it should, items that are
laid out do it one after the other. -/
theorem Laid.read {σ α : Type} {gap : Bytes → Prop} {spelled : α → Bytes → Bytes → Prop}
    {last : Bytes} {moves : σ → α → σ → Prop} (Out : σ → Bytes → Prop)
    (hgap : ∀ {s g rest}, gap g → Out s rest → Out s (g ++ rest))
    (hitem : ∀ {s s' a bytes rest items}, moves s a s' → spelled a bytes rest →
      Laid gap spelled last items rest → Out s' rest → Out s (bytes ++ rest))
    {s s' : σ} {items more : List α} (hpath : Path moves s items s')
    (hmore : ∀ rest, Laid gap spelled last more rest → Out s' rest) :
    ∀ {source : Bytes}, Laid gap spelled last (items ++ more) source → Out s source := by
  induction hpath with
  | nil => exact fun hlaid => hmore _ hlaid
  | cons hmove _ ih =>
    intro source hlaid
    cases hlaid with
    | item hg hspelled hrest =>
      exact hgap hg (hitem hmove hspelled hrest (ih hmore hrest))

/-- A text that fits is collected byte by byte. -/
theorem collect {limits : Limits} {ok : UInt8 → Prop} (Out : Text → Bytes → Prop)
    (hstep : ∀ {text b rest}, ok b → text.size < limits.text → Out (text.push b) rest →
      Out text (b :: rest)) {rest : Bytes} :
    ∀ {more : Bytes} {text : Text}, (∀ b ∈ more, ok b) →
      text.size + more.length ≤ limits.text →
      Out (text ++ more.toArray) rest → Out text (more ++ rest) := by
  intro more
  induction more with
  | nil =>
    intro text _ _ h
    simpa using h
  | cons b more ih =>
    intro text hok hfits h
    rw [List.length_cons] at hfits
    have hpush : (text.push b) ++ more.toArray = text ++ (b :: more).toArray := by simp
    refine hstep (hok b List.mem_cons_self) (by omega) ?_
    refine ih (fun c hc => hok c (List.mem_cons_of_mem _ hc)) ?_ (hpush ▸ h)
    rw [Array.size_push]
    omega

/-- A quoted text, where `Before` and `After` are about the states around it and
`Inside` about those in it. -/
theorem Quote.read {limits : Limits} {Before After : Bytes → Prop}
    (Inside : Text → Bytes → Prop) (q : Quote) (hfits : q.Fits limits)
    (hopen : ∀ {rest}, Inside #[] rest → Before (ascii ['\''] ++ rest))
    (hinside : ∀ {text b rest}, Sign.of b ≠ .quote → text.size < limits.text →
      Inside (text.push b) rest → Inside text (b :: rest))
    (hclose : ∀ {rest}, After rest → Inside q.text.toArray (ascii ['\''] ++ rest))
    {rest : Bytes} (h : After rest) : Before (q.bytes ++ rest) := by
  have hfits' : (#[] : Text).size + q.text.length ≤ limits.text := by
    simpa [Quote.Fits] using hfits
  rw [Quote.bytes, List.append_assoc, List.append_assoc]
  refine hopen (collect Inside hinside q.unquoted hfits' ?_)
  rw [Array.empty_append]
  exact hclose h

/-- A gap, where `Out` is about the state around it and `Inside` about the states
in a comment. -/
theorem Gap.read {Out : Bytes → Prop} (Inside : Bytes → Prop)
    (hblank : ∀ {b rest}, Sign.of b = .blank → Out rest → Out (b :: rest))
    (hopen : ∀ {rest}, Inside rest → Out (ascii ['%'] ++ rest))
    (hinside : ∀ {b rest}, Sign.of b ≠ .percent → Inside rest → Inside (b :: rest))
    (hclose : ∀ {rest}, Out rest → Inside (ascii ['%'] ++ rest)) {g : Bytes} (hg : Gap g)
    {rest : Bytes} (h : Out rest) : Out (g ++ rest) := by
  have htext {text after : Bytes} (htext : ∀ b ∈ text, Sign.of b ≠ .percent)
      (h : Inside after) : Inside (text ++ after) := by
    induction text with
    | nil => exact h
    | cons b text ih =>
      exact hinside (htext b List.mem_cons_self)
        (ih fun c hc => htext c (List.mem_cons_of_mem _ hc))
  induction hg with
  | nothing => exact h
  | blank hb _ ih => exact hblank hb ih
  | comment hcomment _ ih =>
    rw [List.append_assoc, List.append_assoc, List.append_assoc]
    exact hopen (htext hcomment (hclose ih))

theorem push_of_lt {limits : Limits} {text : Text} (h : text.size < limits.text)
    (b : UInt8) : push limits text b = .ok (text.push b) :=
  if_pos h

/-- The bytes of a word that fits, of which the first one is read before it is
known what the others belong to. -/
theorem Word.collect {limits : Limits} (Out : Text → Bytes → Prop) (w : Word)
    (hfits : w.Fits limits)
    (hstep : ∀ {text b rest}, Sign.of b = .word → text.size < limits.text →
      Out (text.push b) rest → Out text (b :: rest)) {rest : Bytes}
    (h : Out w.bytes.toArray rest) :
    ∃ b more, w.bytes = b :: more ∧ Sign.of b = .word ∧ push limits #[] b = .ok #[b] ∧
      Out #[b] (more ++ rest) := by
  have hword := w.sign_bytes
  have hlength : w.bytes.length ≤ limits.text := w.length_bytes ▸ hfits
  cases hbytes : w.bytes with
  | nil => exact absurd hbytes w.bytes_ne_nil
  | cons b more =>
    rw [hbytes] at h hword hlength
    rw [List.length_cons] at hlength
    have hfirst : (#[] : Text).size < limits.text :=
      Nat.lt_of_lt_of_le (Nat.succ_pos _) hlength
    have hothers : (#[b] : Text).size + more.length ≤ limits.text := by
      show 1 + more.length ≤ limits.text
      omega
    refine ⟨b, more, rfl, hword b List.mem_cons_self, push_of_lt hfirst b, ?_⟩
    exact Terse.collect Out hstep
      (fun c hc => hword c (List.mem_cons_of_mem _ hc)) hothers (by simpa using h)

/-! ## Readers inside of readers -/

/-- A source takes a reader from a state to its result, with the last byte. -/
inductive Reads {σ ρ : Type} (step : σ → Nat → UInt8 → Except GrammarError (Reading σ ρ))
    (result : ρ) : σ → Nat → Bytes → Prop
  | last {s : σ} {offset : Nat} {b : UInt8} : step s offset b = .ok (.done result) →
      Reads step result s offset [b]
  | going {s s' : σ} {offset : Nat} {b : UInt8} {rest : Bytes} :
      step s offset b = .ok (.going s') → Reads step result s' (offset + 1) rest →
      Reads step result s offset (b :: rest)

/-- Two states that do the same with the next byte do the same. -/
theorem Reads.of_head {σ ρ : Type}
    {step : σ → Nat → UInt8 → Except GrammarError (Reading σ ρ)} {result : ρ} {s s' : σ}
    {offset : Nat} {rest : Bytes}
    (hhead : ∀ b ∈ rest.head?, step s offset b = step s' offset b)
    (h : Reads step result s' offset rest) : Reads step result s offset rest := by
  cases h with
  | last hstep => exact .last ((hhead _ rfl).trans hstep)
  | going hstep hrest => exact .going ((hhead _ rfl).trans hstep) hrest

end RuleGraph.Terse
