import RuleGraph.Proofs.Terse.Scanner

/-!
# The scanner comes to what the reader comes to

The reader has one answer for a source, and the state that it has reached knows
where the rest of the source begins. So an answer can be followed through the
source: `State.Leads` says of a state that the answer is still the one that the
reader comes to from there. Each loop of the scanner is compared with the reader
along this answer. Where the loop has an error to tell, the answer is that
error; where it comes to an end, the reader leads to the answer from the place
of the cursor on. No case is left for a byte outside of the source or for a loop
that does not get on.

What holds of a loop holds wherever it is called from. A literal may stand in a
body, in a class or in braces, and for each of these it is enough to know what
the state in the middle of the literal does with a byte.
-/

namespace RuleGraph.Terse

variable {limits : Limits} {code : Bytes} {answer : Except GrammarError (List Rule)}
variable {α ρ σ : Type} {b : UInt8}

/-! ## Following the answer -/

/-- What has stopped the scanner is what the answer says. -/
def Stop.Says (answer : Except GrammarError (List Rule)) : Stop → Prop
  | .told e => answer = .error e
  | .outside | .endless => False

/-- The state at another place of a source. -/
def State.moved (s : State) (offset : Nat) : State :=
  { s with offset := offset }

/-- From the state on, with the bytes from its offset on, the reader comes to the
answer. -/
def State.Leads (limits : Limits) (code : Bytes)
    (answer : Except GrammarError (List Rule)) (s : State) : Prop :=
  s.complete limits (code.drop s.offset) = answer

/-- The state in a body in which this class is being read. -/
def State.inBrackets (s : State) (body : Body) (brackets : Brackets) : State :=
  s.toBody (body.reading (.brackets brackets))

theorem drop_of_getElem? {pos : Nat} (hb : code[pos]? = some b) :
    code.drop pos = b :: code.drop (pos + 1) := by
  obtain ⟨hlt, rfl⟩ := List.getElem?_eq_some_iff.mp hb
  exact List.drop_eq_getElem_cons hlt

theorem closed_of_getElem? {pos : Nat} (hb : code[pos]? = some b)
    (hword : Sign.of b ≠ .word) : Closed (code.drop pos) := by
  rw [drop_of_getElem? hb]
  rintro _ ⟨⟩
  exact hword

theorem ne_word_of_closed {pos : Nat} (h : Closed (code.drop pos))
    (hb : code[pos]? = some b) : Sign.of b ≠ .word := by
  refine h b ?_
  rw [List.head?_drop]
  exact hb

theorem closed_of_length_le {pos : Nat} (hend : code.length ≤ pos) :
    Closed (code.drop pos) := by
  rw [List.drop_eq_nil_of_le hend]
  exact nofun

namespace State.Leads

variable {s s' : State}

/-- What a byte leads to is on the way to the answer, and an error is the
answer. -/
theorem step {outcome : Except GrammarError α} {next : α → State}
    (h : s.Leads limits code answer) (hb : code[s.offset]? = some b)
    (hstep : s.stepPhase limits b = next <$> outcome) :
    Ends (told outcome)
      (fun a => ((next a).moved (s.offset + 1)).Leads limits code answer)
      (Stop.Says answer) := by
  rw [Leads, drop_of_getElem? hb, complete_step, hstep] at h
  cases outcome with
  | error e => exact h.symm
  | ok a => exact h

theorem next (h : s.Leads limits code answer) (hb : code[s.offset]? = some b)
    (hstep : s.stepPhase limits b = .ok s') :
    (s'.moved (s.offset + 1)).Leads limits code answer :=
  h.step hb (show s.stepPhase limits b = id <$> .ok s' from hstep)

theorem error (h : s.Leads limits code answer) (hb : code[s.offset]? = some b)
    {e : GrammarError} (hstep : s.stepPhase limits b = .error e) : answer = .error e :=
  h.step hb (show s.stepPhase limits b = id <$> .error e from hstep)

theorem finish (h : s.Leads limits code answer) (hend : code.length ≤ s.offset) :
    s.finish limits = answer := by
  rw [Leads, List.drop_eq_nil_of_le hend, complete_nil] at h
  exact h

/-- A state that does the same with what comes leads to the same. -/
theorem congr (h : s.Leads limits code answer) (hoffset : s.offset = s'.offset)
    (hfinish : code.length ≤ s.offset → s.finish limits = s'.finish limits)
    (hhead : ∀ b, code[s.offset]? = some b →
      s.stepPhase limits b = s'.stepPhase limits b) :
    s'.Leads limits code answer := by
  have heq : s.complete limits (code.drop s.offset) =
      s'.complete limits (code.drop s.offset) := by
    cases hrest : code[s.offset]? with
    | none =>
      have hend := List.getElem?_eq_none_iff.mp hrest
      rw [List.drop_eq_nil_of_le hend]
      exact hfinish hend
    | some b =>
      rw [drop_of_getElem? hrest, complete_step, complete_step, hhead b hrest, hoffset]
  rw [Leads, ← hoffset, ← heq]
  exact h

end State.Leads

namespace Scanner

variable {c : Scanner}

theorem byte_of_getElem? (hb : code[c.pos]? = some b) : c.byte code = .ok b := by
  rw [byte, hb]

theorem unexpected_ends {s : State} {mode : Mode} {Q : α → Prop}
    (h : s.Leads limits code answer) (hb : code[s.offset]? = some b)
    (hpos : s.offset = c.pos)
    (hstep : s.stepPhase limits b = .error (.unexpected mode s.offset b)) :
    Ends (c.unexpected code mode) Q (Stop.Says answer) := by
  rw [unexpected, byte_of_getElem? (hpos ▸ hb)]
  exact hpos ▸ h.error hb hstep

theorem missing_ends {s : State} {mode : Mode} {Q : α → Prop}
    (h : s.Leads limits code answer) (hpos : s.offset = c.pos)
    (hstep : ∀ b, code[s.offset]? = some b →
      s.stepPhase limits b = .error (.unexpected mode s.offset b))
    (hfinish : s.finish limits = .error (.unclosed mode s.offset)) :
    Ends (c.missing code mode) Q (Stop.Says answer) := by
  unfold missing
  split
  · rename_i hend
    exact hpos ▸ (h.finish (hpos ▸ hend)).symm.trans hfinish
  · rename_i hinside
    have hb :=
      List.getElem?_eq_getElem (hpos ▸ Nat.lt_of_not_le hinside : s.offset < code.length)
    exact unexpected_ends h hb hpos (hstep _ hb)

/-! ## Loops -/

/-- A turn keeps the invariant of its loop and moves the cursor on, or it leaves
the loop with a result of this kind. -/
def Keeps (Inv : Scanner → σ → Prop) (Q : ρ → Prop) (pos : Nat) : Turn σ ρ → Prop
  | .next c state => pos < c.pos ∧ Inv c state
  | .leave result => Q result

theorem loop_ends (Inv : Scanner → σ → Prop) {Q : ρ → Prop} {bad : Stop → Prop}
    {turn : Scanner → σ → UInt8 → Scan (Turn σ ρ)} {ending : Scanner → σ → Scan ρ}
    (hturn : ∀ c state b, Inv c state → code[c.pos]? = some b →
      Ends (turn c state b) (Keeps Inv Q c.pos) bad)
    (hending : ∀ c state, Inv c state → code.length ≤ c.pos → Ends (ending c state) Q bad)
    {c : Scanner} {state : σ} (h : Inv c state) :
    Ends (loop code turn ending c state) Q bad := by
  induction hleft :
    code.length - c.pos using Nat.strong_induction_on generalizing c state with
  | h left ih =>
    rw [loop]
    split
    · rename_i hinside
      have hb := List.getElem?_eq_getElem hinside
      rw [byte_of_getElem? hb]
      refine (hturn c state _ h hb).bind fun t ht => ?_
      cases t with
      | leave result => exact ht
      | next c' state' =>
        obtain ⟨hprogress, hinv⟩ := ht
        dsimp only
        rw [if_pos hprogress]
        exact ih _ (by omega) hinv rfl
    · rename_i hinside
      exact hending c state h (Nat.le_of_not_lt hinside)

/-! ## Comments and texts -/

/-- A comment is read to the percent sign that closes it, wherever it stands. -/
theorem comment_ends {s : State} (hin : ∀ pos b, Sign.of b ≠ .percent →
      (s.moved pos).stepPhase limits b = .ok (s.moved pos))
    (hend : ∀ pos, (s.moved pos).finish limits = .error (.unclosed .comment c.pos))
    (h : (s.moved (c.pos + 1)).Leads limits code answer) :
    Ends (c.comment code) (fun c' => ∃ pos b, c' = { c with pos := pos } ∧ c.pos < pos ∧
        code[pos]? = some b ∧ Sign.of b = .percent ∧
        (s.moved pos).Leads limits code answer)
      (Stop.Says answer) := by
  refine loop_ends (fun c' _ => ∃ pos, c' = { c with pos := pos } ∧ c.pos < pos ∧
    (s.moved pos).Leads limits code answer) ?_ ?_ ⟨_, rfl, Nat.lt_succ_self c.pos, h⟩
  · rintro _ ⟨⟩ b ⟨pos, rfl, hlt, h⟩ hb
    by_cases hpercent : Sign.of b = .percent
    · rw [if_pos hpercent]
      exact ⟨pos, b, rfl, hlt, hb, hpercent, h⟩
    · rw [if_neg hpercent]
      have hnext := h.next hb (hin pos b hpercent)
      exact ⟨Nat.lt_succ_self pos, _, rfl, Nat.lt_succ_of_lt hlt, hnext⟩
  · rintro _ ⟨⟩ ⟨pos, rfl, -, h⟩ hinside
    exact (h.finish hinside).symm.trans (hend pos)

theorem pushText_ends {Q : Text → Prop} {bad : Stop → Prop}
    (h : Ends (told (push limits c.text b)) Q bad) :
    Ends (c.pushText limits b) (fun c' => c' = { c with text := c.text.push b } ∧
      Q (c.text.push b)) bad := by
  unfold pushText
  unfold push at h ⊢
  by_cases hroom : c.text.size < limits.text
  · rw [if_pos hroom] at h ⊢
    exact ⟨rfl, h⟩
  · rw [if_neg hroom] at h ⊢
    exact h

/-- A literal is read to the quote that closes it. -/
theorem literal_ends {s : Text → State} (htext : c.text = #[])
    (hin : ∀ text pos b, Sign.of b ≠ .quote → ((s text).moved pos).stepPhase limits b =
      (fun text => (s text).moved pos) <$> push limits text b)
    (hend : ∀ text pos,
      ((s text).moved pos).finish limits = .error (.unclosed .literal c.pos))
    (h : ((s #[]).moved (c.pos + 1)).Leads limits code answer) :
    Ends (c.literal limits code) (fun c' => ∃ pos text b,
        c' = { c with pos := pos, text := text } ∧ c.pos < pos ∧ code[pos]? = some b ∧
        Sign.of b = .quote ∧ ((s text).moved pos).Leads limits code answer)
      (Stop.Says answer) := by
  refine loop_ends (fun c' _ => ∃ pos text, c' = { c with pos := pos, text := text } ∧
    c.pos < pos ∧ ((s text).moved pos).Leads limits code answer) ?_ ?_
    ⟨_, _, rfl, Nat.lt_succ_self c.pos, htext ▸ h⟩
  · rintro _ ⟨⟩ b ⟨pos, text, rfl, hlt, h⟩ hb
    by_cases hquote : Sign.of b = .quote
    · rw [if_pos hquote]
      exact ⟨pos, text, b, rfl, hlt, hb, hquote, h⟩
    · rw [if_neg hquote]
      refine (pushText_ends (h.step hb (hin text pos b hquote))).bind ?_
      rintro _ ⟨rfl, h⟩
      exact ⟨Nat.lt_succ_self pos, _, _, rfl, Nat.lt_succ_of_lt hlt, h⟩
  · rintro _ ⟨⟩ ⟨pos, text, rfl, -, h⟩ hinside
    exact (h.finish hinside).symm.trans (hend text pos)

/-- A name is read to the first byte that is not part of it. -/
theorem readText_ends {s : Text → State} (htext : c.text = #[])
    (hin : ∀ text pos b, Sign.of b = .word → ((s text).moved pos).stepPhase limits b =
      (fun text => (s text).moved pos) <$> push limits text b)
    (hnone : Closed (code.drop c.pos) →
      Ends (c.missing code .name : Scan Scanner) (fun _ => False) (Stop.Says answer))
    (h : ((s #[]).moved c.pos).Leads limits code answer) :
    Ends (c.readText limits code) (fun c' => ∃ pos text,
        c' = { c with pos := pos, text := text } ∧ c.pos ≤ pos ∧ pos < code.length ∧
        text ≠ #[] ∧
        Closed (code.drop (pos + 1)) ∧
        ((s text).moved (pos + 1)).Leads limits code answer)
      (Stop.Says answer) := by
  refine Ends.bind (loop_ends (Q := fun behind => ∃ pos text,
      behind = { c with pos := pos, text := text } ∧ c.pos ≤ pos ∧
        (pos ≠ c.pos → pos ≤ code.length ∧ text ≠ #[]) ∧ Closed (code.drop pos) ∧
          ((s text).moved pos).Leads limits code answer)
    (fun c' _ => ∃ pos text, c' = { c with pos := pos, text := text } ∧ c.pos ≤ pos ∧
      (pos ≠ c.pos → pos ≤ code.length ∧ text ≠ #[]) ∧
        ((s text).moved pos).Leads limits code answer) ?_ ?_
    ⟨_, _, rfl, Nat.le_refl c.pos, absurd rfl, htext ▸ h⟩) ?_
  · rintro _ ⟨⟩ b ⟨pos, text, rfl, hle, hmore, h⟩ hb
    by_cases hword : Sign.of b = .word
    · rw [if_pos hword]
      refine (pushText_ends (h.step hb (hin text pos b hword))).bind ?_
      rintro _ ⟨rfl, h⟩
      have hlt : pos < code.length := (List.getElem?_eq_some_iff.mp hb).1
      exact ⟨Nat.lt_succ_self pos, _, _, rfl, Nat.le_succ_of_le hle,
        fun _ => ⟨hlt, Array.push_ne_empty⟩, h⟩
    · rw [if_neg hword]
      exact ⟨pos, text, rfl, hle, hmore, closed_of_getElem? hb hword, h⟩
  · rintro _ ⟨⟩ ⟨pos, text, rfl, hle, hmore, h⟩ hinside
    exact ⟨pos, text, rfl, hle, hmore, closed_of_length_le hinside, h⟩
  · rintro _ ⟨pos, text, rfl, hle, hmore, hclosed, h⟩
    dsimp only
    split
    · rename_i hnothing
      cases hnothing
      exact (hnone hclosed).imp (fun _ => False.elim) fun _ => id
    · rename_i hsome
      obtain ⟨hlength, hne⟩ := hmore hsome
      obtain ⟨last, rfl⟩ := Nat.exists_eq_succ_of_ne_zero (n := pos) (by omega)
      exact ⟨last, text, rfl, by omega, hlength, hne, hclosed, h⟩

theorem name_ends {s : Text → State} (htext : c.text = #[])
    (hin : ∀ text pos b, Sign.of b = .word → ((s text).moved pos).stepPhase limits b =
      (fun text => (s text).moved pos) <$> push limits text b)
    (hnone : Closed (code.drop c.pos) →
      Ends (c.missing code .name : Scan Scanner) (fun _ => False) (Stop.Says answer))
    (h : ((s #[]).moved c.pos).Leads limits code answer) :
    Ends (c.name limits code) (fun r => ∃ pos text,
        r = (nameOf text, { c with pos := pos, text := #[] }) ∧ c.pos ≤ pos ∧
        pos < code.length ∧ text ≠ #[] ∧ Closed (code.drop (pos + 1)) ∧
        ((s text).moved (pos + 1)).Leads limits code answer)
      (Stop.Says answer) := by
  refine (readText_ends htext hin hnone h).bind ?_
  rintro _ ⟨pos, text, rfl, hread⟩
  exact ⟨pos, text, rfl, hread⟩

/-! ## Numbers in braces -/

section Braces

variable {s : State} {body : Body} {site : Site} {braces : Braces}

/-- As long as braces go on, so does what they stand in. -/
theorem stepPhase_going {outcome : Except GrammarError α} (next : α → Braces)
    (hstep : braces.step limits s.offset b = (fun a => .going (next a)) <$> outcome) :
    (s.inBraces body site braces).stepPhase limits b =
      (fun a => s.inBraces body site (next a)) <$> outcome := by
  rw [State.stepPhase_inBraces, hstep]
  cases outcome <;> rfl

/-- An error in braces is one of what they stand in. -/
theorem stepPhase_refused {e : GrammarError}
    (hstep : braces.step limits s.offset b = .error e) :
    (s.inBraces body site braces).stepPhase limits b = .error e := by
  rw [State.stepPhase_inBraces, hstep]
  rfl

theorem going {next : Braces} (h : (s.inBraces body site braces).Leads limits code answer)
    (hb : code[s.offset]? = some b)
    (hstep : braces.step limits s.offset b = .ok (.going next)) :
    ((s.inBraces body site next).moved (s.offset + 1)).Leads limits code answer := by
  refine h.next hb ?_
  rw [State.stepPhase_inBraces, hstep]
  rfl

theorem finish_inBraces :
    (s.inBraces body site braces).finish limits = .error (braces.unclosed s.offset) := by
  cases site <;> rfl

/-- Where a numeral has a sign in front and no digit, both report the place of the
digit. A numeral without a sign begins with one. -/
theorem missing_digits_ends {Q : α → Prop} (radix : Radix)
    (hfirst : radix = .ten → ∃ b, code[c.pos]? = some b ∧ worth b < radix.base)
    (hrest : ∀ b, code[c.pos]? = some b → radix.base ≤ worth b)
    (h : ((s.moved c.pos).inBraces body site
      { braces with figure := radix.figure none }).Leads limits code answer) :
    Ends (c.missing code radix.mode) Q (Stop.Says answer) := by
  cases radix with
  | ten =>
    obtain ⟨b, hb, hdigit⟩ := hfirst rfl
    exact absurd hdigit (Nat.not_lt_of_le (hrest b hb))
  | sixteen =>
    refine missing_ends h rfl (fun b hb => stepPhase_refused ?_) finish_inBraces
    have hdigit : digitOf? 16 b = none :=
      (Radix.sixteen.digitOf?_base b).trans (if_neg (Nat.not_lt_of_le (hrest b hb)))
    unfold Braces.step
    dsimp only [Radix.figure]
    rw [hdigit]
    rfl

/-- Some digits of a numeral that begins at a cursor have been read, up to this
place, or none have been and it is still the first. -/
structure InDigits (limits : Limits) (code : Bytes)
    (answer : Except GrammarError (List Rule)) (s : State) (body : Body) (site : Site)
    (braces : Braces) (radix : Radix) (c : Scanner) (pos : Nat) (value? : Option Nat) :
    Prop where
  after : c.pos ≤ pos
  none_iff : value? = none ↔ pos = c.pos
  leads : ((s.moved pos).inBraces body site
    { braces with figure := radix.figure value? }).Leads limits code answer

/-- The digits of a numeral are read to the last one. -/
theorem number_ends (radix : Radix) (hbraces : braces.figure = radix.figure none)
    (hfirst : radix = .ten → ∃ b, code[c.pos]? = some b ∧ worth b < radix.base)
    (h : ((s.moved c.pos).inBraces body site braces).Leads limits code answer) :
    Ends (c.number code radix) (fun r => ∃ value pos, r = (value, { c with pos := pos }) ∧
        c.pos ≤ pos ∧
        ((s.moved (pos + 1)).inBraces body site (braces.set value)).Leads limits
          code answer)
      (Stop.Says answer) := by
  have hstart : InDigits limits code answer s body site braces radix c c.pos none :=
    ⟨Nat.le_refl c.pos, by simp, hbraces ▸ h⟩
  refine Ends.bind (loop_ends (Q := fun r => ∃ pos value?,
      r = (value?.getD 0, { c with pos := pos }) ∧
      InDigits limits code answer s body site braces radix c pos value? ∧
      ∀ b, code[pos]? = some b → radix.base ≤ worth b)
    (fun c' value => ∃ pos value?, c' = { c with pos := pos } ∧ value = value?.getD 0 ∧
      InDigits limits code answer s body site braces radix c pos value?) ?_ ?_
    ⟨c.pos, none, rfl, rfl, hstart⟩) ?_
  · rintro _ _ b ⟨pos, value?, rfl, rfl, h⟩ hb
    rw [radix.digitOf?_base]
    by_cases hdigit : worth b < radix.base
    · have hstep : Braces.step limits { braces with figure := radix.figure value? }
          pos b = _ :=
        Braces.step_digit rfl hdigit
      rw [if_pos hdigit]
      dsimp only
      split at hstep
      · rename_i hfits
        rw [if_pos hfits]
        have hmore : some (value?.getD 0 * radix.base + worth b) = none ↔
            pos + 1 = c.pos := by
          have := h.after
          simp only [reduceCtorEq, false_iff]
          omega
        exact ⟨Nat.lt_succ_self pos, _, _, rfl, rfl, Nat.le_succ_of_le h.after, hmore,
          going h.leads hb hstep⟩
      · rename_i hexcess
        rw [if_neg hexcess]
        exact unexpected_ends h.leads hb rfl (stepPhase_refused hstep)
    · rw [if_neg hdigit]
      refine ⟨pos, value?, rfl, h, fun b' hb' => ?_⟩
      cases hb.symm.trans hb'
      exact Nat.le_of_not_lt hdigit
  · rintro _ _ ⟨pos, value?, rfl, rfl, h⟩ hend
    refine ⟨pos, value?, rfl, h, fun b hb => ?_⟩
    rw [List.getElem?_eq_none hend] at hb
    cases hb
  · rintro _ ⟨pos, value?, rfl, h, hrest⟩
    dsimp only
    split
    · rename_i hnothing
      cases h.none_iff.mpr hnothing
      cases hnothing
      exact missing_digits_ends radix hfirst hrest h.leads
    · rename_i hmore
      obtain ⟨value, rfl⟩ := Option.ne_none_iff_exists'.mp (hmore ∘ h.none_iff.mp)
      have hle := h.after
      obtain ⟨last, rfl⟩ := Nat.exists_eq_succ_of_ne_zero (n := pos) (by omega)
      refine ⟨value, last, rfl, by omega, ?_⟩
      have hset :
          ({ braces with figure := radix.figure (some value) } : Braces).set value =
            braces.set value := rfl
      have hhead : ∀ b ∈ (code.drop (last + 1)).head?, radix.base ≤ worth b := by
        rw [List.head?_drop]
        exact hrest
      rw [← hset]
      exact (State.complete_behind_digits rfl hhead).symm.trans h.leads

/-- What the number registers hold, as braces that were opened here. -/
def numbers (c : Scanner) (opened : Nat) : Braces :=
  ⟨opened, c.low, c.high, c.second, .idle⟩

/-- The place of one cursor is in braces, and of another one, the registers for
numbers apart, nothing has changed since. -/
structure InBraces (limits : Limits) (code : Bytes)
    (answer : Except GrammarError (List Rule))
    (s : State) (body : Body) (site : Site) (opened : Nat) (c c' : Scanner) : Prop where
  text : c'.text = #[]
  set : c'.set = c.set
  filed : c'.filed = c.filed
  leads :
    ((s.moved c'.pos).inBraces body site (c'.numbers opened)).Leads limits code answer

/-- Behind a number its place is filled, and braces go on. -/
theorem inBraces_setNumber {start : Scanner} {opened value pos : Nat}
    (hle : pos ≤ c.pos) (htext : c.text = #[]) (hset : c.set = start.set)
    (hfiled : c.filed = start.filed)
    (h : ((s.moved (c.pos + 1)).inBraces body site ((c.numbers opened).set value)).Leads
      limits code answer) :
    pos < (c.setNumber value).advance.pos ∧
      InBraces limits code answer s body site opened start
        (c.setNumber value).advance := by
  unfold setNumber
  unfold Braces.set numbers at h
  split at h
  · rename_i hsecond
    rw [if_pos hsecond]
    exact ⟨Nat.lt_succ_of_le hle, htext, hset, hfiled, h⟩
  · rename_i hfirst
    rw [if_neg hfirst]
    exact ⟨Nat.lt_succ_of_le hle, htext, hset, hfiled, h⟩

/-- The literal of a quoted character is read to the quote that closes it. -/
theorem literal_inBraces (htext : c.text = #[]) {opened : Nat}
    (h : (((s.moved c.pos).inBraces body site { c.numbers opened with
      figure := .literal c.pos #[] }).moved (c.pos + 1)).Leads limits code answer) :
    Ends (c.literal limits code) (fun c' => ∃ pos text b,
        c' = { c with pos := pos, text := text } ∧ c.pos < pos ∧ code[pos]? = some b ∧
        Sign.of b = .quote ∧ ((s.moved pos).inBraces body site { c.numbers opened with
          figure := .literal c.pos text }).Leads limits code answer)
      (Stop.Says answer) := by
  refine literal_ends (s := fun text => s.inBraces body site { c.numbers opened with
    figure := .literal c.pos text }) htext (fun text pos b hb => ?_)
      (fun text pos => ?_) h
  · show ((s.moved pos).inBraces body site _).stepPhase limits b = _
    refine (stepPhase_going (fun text => { c.numbers opened with
      figure := .literal c.pos text }) ?_).trans rfl
    show (if Sign.of b = .quote then _ else _) = _
    rw [if_neg hb]
    cases push limits text b <;> rfl
  · exact finish_inBraces (s := s.moved pos)

/-- A byte that has no meaning of its own in braces is the first digit of a number,
or it is an error. -/
theorem figure_ends {opened : Nat} {start : Scanner} {Q : Scanner → Prop}
    (h : InBraces limits code answer s body site opened start c)
    (hb : code[c.pos]? = some b) (hstep : (c.numbers opened).step limits c.pos b =
      match digitOf? 10 b with
      | some d => .ok (.going { c.numbers opened with figure := .decimal d })
      | none => .error (.unexpected .braces c.pos b)) :
    Ends (if (digitOf? 10 b).isSome then do
        let (value, c) ← c.number code .ten
        return .next (c.setNumber value).advance ()
      else c.unexpected code .braces)
      (Keeps (fun c' (_ : Unit) =>
        InBraces limits code answer s body site opened start c') Q c.pos)
      (Stop.Says answer) := by
  obtain ⟨htext, hset, hfiled, h⟩ := h
  have hten : digitOf? 10 b = if worth b < 10 then some (worth b) else none :=
    Radix.ten.digitOf?_base b
  by_cases hdigit : worth b < 10
  · rw [hten, if_pos hdigit]
    refine (number_ends .ten rfl (fun _ => ⟨b, hb, hdigit⟩) h).bind ?_
    rintro _ ⟨value, pos, rfl, hle, h⟩
    exact inBraces_setNumber hle htext hset hfiled h
  · rw [hten, if_neg hdigit] at hstep ⊢
    exact unexpected_ends h hb rfl (stepPhase_refused hstep)

theorem rangeTurn_ends {opened : Nat} {start : Scanner}
    (h : InBraces limits code answer s body site opened start c)
    (hb : code[c.pos]? = some b) :
    Ends (c.rangeTurn limits code b)
      (Keeps (fun c' _ => InBraces limits code answer s body site opened start c')
        (fun c' => c' = c ∧ Sign.of b = .closeBrace) c.pos)
      (Stop.Says answer) := by
  obtain ⟨htext, hset, hfiled, h⟩ := h
  have hstep : (c.numbers opened).step limits c.pos b = (c.numbers opened).idle c.pos b :=
    rfl
  rw [Braces.idle] at hstep
  unfold rangeTurn
  cases hsign : Sign.of b with
  | blank =>
    rw [hsign] at hstep
    exact ⟨Nat.lt_succ_self c.pos, htext, hset, hfiled, going h hb hstep⟩
  | closeBrace => exact ⟨rfl, rfl⟩
  | quote =>
    rw [hsign] at hstep
    refine (literal_inBraces htext (going h hb hstep)).bind ?_
    rintro _ ⟨pos, text, b', rfl, hlt, hb', hclosing, h⟩
    dsimp only
    cases hfirst : firstCodePoint text.toList with
    | some value =>
      have hstep : Braces.step limits
          { c.numbers opened with figure := .literal c.pos text } pos b' =
            .ok (.going ((c.numbers opened).set value)) := by
        unfold Braces.step
        dsimp only
        rw [if_pos hclosing, hfirst]
        rfl
      exact inBraces_setNumber (Nat.le_of_lt hlt) rfl hset hfiled (going h hb' hstep)
    | none =>
      have hstep : Braces.step limits
          { c.numbers opened with figure := .literal c.pos text } pos b' =
            .error (.unexpected .braces c.pos b') := by
        unfold Braces.step
        dsimp only
        rw [if_pos hclosing, hfirst]
      have hquote : b' = b := (eq_of_sign hclosing rfl).trans (eq_of_sign hsign rfl).symm
      exact hquote ▸ h.error hb' (stepPhase_refused hstep)
  | hash =>
    rw [hsign] at hstep
    refine (number_ends (c := c.advance) .sixteen rfl (by rintro ⟨⟩)
      (going h hb hstep)).bind ?_
    rintro _ ⟨value, pos, rfl, hle, h⟩
    exact inBraces_setNumber (Nat.le_of_succ_le hle) htext hset hfiled h
  | star =>
    rw [hsign] at hstep
    exact inBraces_setNumber (Nat.le_refl c.pos) htext hset hfiled (going h hb hstep)
  | dash =>
    rw [hsign] at hstep
    exact ⟨Nat.lt_succ_self c.pos, htext, hset, hfiled, going h hb hstep⟩
  | _ =>
    rw [hsign] at hstep
    exact figure_ends ⟨htext, hset, hfiled, h⟩ hb hstep

/-- At the closing brace the numbers are as they are in their registers. -/
theorem numbers_done (hb : Sign.of b = .closeBrace) (opened pos : Nat) :
    (c.numbers opened).step limits pos b = .ok (.done (c.low, c.high)) := by
  show Braces.idle _ pos b = _
  rw [Braces.idle, hb]
  rfl

/-- Braces are read to the one that closes them. -/
theorem range_ends (body : Body) (site : Site) (htext : c.text = #[])
    (h : (((s.moved c.pos).inBraces body site (Braces.start c.pos)).moved
      (c.pos + 1)).Leads limits code answer) :
    Ends (c.range limits code)
      (fun c' => InBraces limits code answer s body site c.pos c c' ∧ c.pos < c'.pos ∧
        ∃ b, code[c'.pos]? = some b ∧ Sign.of b = .closeBrace)
      (Stop.Says answer) := by
  refine loop_ends (fun c' _ => InBraces limits code answer s body site c.pos c c' ∧
    c.pos < c'.pos) ?_ ?_ ⟨⟨htext, rfl, rfl, h⟩, Nat.lt_succ_self c.pos⟩
  · rintro c' ⟨⟩ b ⟨hin, hlt⟩ hb
    refine (rangeTurn_ends hin hb).imp (fun t ht => ?_) fun _ => id
    cases t with
    | next c'' state => exact ⟨ht.1, ht.2, Nat.lt_trans hlt ht.1⟩
    | leave c'' =>
      obtain ⟨rfl, hclosing⟩ := ht
      exact ⟨hin, hlt, b, hb, hclosing⟩
  · rintro c' ⟨⟩ ⟨hin, -⟩ hend
    exact (hin.leads.finish hend).symm.trans finish_inBraces

end Braces

/-! ## Classes -/

section Brackets

variable {s : State} {body : Body} {brackets : Brackets}

theorem stepPhase_inBrackets {outcome : Except GrammarError α} (next : α → Brackets)
    (hstep : brackets.step limits s.filed s.offset b =
      (fun a => .going (next a)) <$> outcome) :
    (s.inBrackets body brackets).stepPhase limits b =
      (fun a => s.inBrackets body (next a)) <$> outcome := by
  show (brackets.step limits s.filed s.offset b >>= _) = _
  rw [hstep]
  cases outcome <;> rfl

theorem stepPhase_inBrackets_going {next : Brackets}
    (hstep : brackets.step limits s.filed s.offset b = .ok (.going next)) :
    (s.inBrackets body brackets).stepPhase limits b = .ok (s.inBrackets body next) := by
  show (brackets.step limits s.filed s.offset b >>= _) = _
  rw [hstep]
  rfl

theorem stepPhase_inBrackets_refused {e : GrammarError}
    (hstep : brackets.step limits s.filed s.offset b = .error e) :
    (s.inBrackets body brackets).stepPhase limits b = .error e := by
  show (brackets.step limits s.filed s.offset b >>= _) = _
  rw [hstep]
  rfl

theorem going_inBrackets {next : Brackets}
    (h : (s.inBrackets body brackets).Leads limits code answer)
    (hb : code[s.offset]? = some b)
    (hstep : brackets.step limits s.filed s.offset b = .ok (.going next)) :
    ((s.inBrackets body next).moved (s.offset + 1)).Leads limits code answer :=
  h.next hb (stepPhase_inBrackets_going hstep)

theorem finish_inBrackets : (s.inBrackets body brackets).finish limits =
    .error (brackets.unclosed s.filed s.offset) := rfl

/-- The place of a cursor is in a class that was opened here, between two of its
members. -/
structure InBrackets (limits : Limits) (code : Bytes)
    (answer : Except GrammarError (List Rule))
    (s : State) (body : Body) (opened : Nat) (c : Scanner) : Prop where
  text : c.text = #[]
  filed : c.filed = s.filed
  leads :
    ((s.moved c.pos).inBrackets body ⟨opened, c.set, .idle⟩).Leads limits code answer

/-- What becomes of a name in a class shows in the byte behind it, or at the end
of the source. -/
theorem adopt_ends {brackets : Brackets} {start pos : Nat} {text : Text}
    (htext : text ≠ #[]) (hmember : brackets.member = .inclusion start text)
    (hclosed : Closed (code.drop pos))
    (h : ((s.moved pos).inBrackets body brackets).Leads limits code answer) :
    Ends (told (brackets.adopt s.filed start text))
      (fun next => next.member = .idle →
        ((s.moved pos).inBrackets body next).Leads limits code answer)
      (Stop.Says answer) := by
  have hempty : text.isEmpty = false := by simpa using htext
  have hstep {b : UInt8} (hb : code[pos]? = some b) : brackets.step limits s.filed pos b =
      (brackets.adopt s.filed start text).bind fun next => next.idle pos b := by
    have hword : Sign.of b ≠ .word := ne_word_of_closed hclosed hb
    unfold Brackets.step
    rw [hmember]
    dsimp only
    rw [if_neg hword, hempty]
    rfl
  have hfinish : ((s.moved pos).inBrackets body brackets).finish limits =
      .error (brackets.unclosed s.filed pos) := rfl
  rw [Brackets.unclosed, hmember] at hfinish
  dsimp only at hfinish
  rw [hempty] at hfinish
  cases hadopt : brackets.adopt s.filed start text with
  | error e =>
    rw [hadopt] at hstep hfinish
    cases hrest : code[pos]? with
    | some b => exact h.error hrest (stepPhase_inBrackets_refused (hstep hrest))
    | none => exact (h.finish (List.getElem?_eq_none_iff.mp hrest)).symm.trans hfinish
  | ok next =>
    rw [hadopt] at hstep hfinish
    intro hnext
    obtain ⟨opened, set, member⟩ := next
    cases hnext
    refine h.congr rfl (fun _ => hfinish) fun b hb => ?_
    show (brackets.step limits s.filed pos b >>= _) = (Brackets.idle _ pos b >>= _)
    rw [hstep hb]
    rfl

/-- A turn of the loop through a class that does not leave it keeps up with the
reader. -/
def Adds (limits : Limits) (code : Bytes)
    (answer : Except GrammarError (List Rule)) (s : State) (body : Body)
    (opened pos : Nat) : Turn Unit Scanner → Prop :=
  Keeps (fun c _ => InBrackets limits code answer s body opened c) (fun _ => False) pos

section Members

variable {opened : Nat}

theorem comment_adds (htext : c.text = #[]) (hfiled : c.filed = s.filed)
    (h : ((s.inBrackets body ⟨opened, c.set, .comment c.pos⟩).moved (c.pos + 1)).Leads
      limits code answer) :
    Ends (do
        let c ← c.comment code
        return .next c.advance ())
      (Adds limits code answer s body opened c.pos) (Stop.Says answer) := by
  refine (comment_ends (s := s.inBrackets body ⟨opened, c.set, .comment c.pos⟩)
    (fun pos b hb => stepPhase_inBrackets_going (s := s.moved pos) (if_neg hb))
      (fun pos => rfl)
    h).bind ?_
  rintro _ ⟨pos, b, rfl, hlt, hb, hclosing, h⟩
  exact ⟨Nat.lt_succ_of_lt hlt, htext, hfiled,
    going_inBrackets (s := s.moved pos) h hb (if_pos hclosing)⟩

theorem range_adds (htext : c.text = #[]) (hfiled : c.filed = s.filed)
    (h : ((s.inBrackets body ⟨opened, c.set, .range (Braces.start c.pos)⟩).moved
      (c.pos + 1)).Leads limits code answer) :
    Ends (do
        let c ← c.range limits code
        return .next
          (c.withoutNumbers.unite (CharSet.range c.low (max c.high c.low))).advance ())
      (Adds limits code answer s body opened c.pos) (Stop.Says answer) := by
  refine (range_ends body (.range opened c.set) htext h).bind ?_
  rintro c' ⟨⟨htext', hset', hfiled', h⟩, hlt, b, hb, hclosing⟩
  refine ⟨Nat.lt_succ_of_lt hlt, htext', hfiled'.trans hfiled, ?_⟩
  have hadded :
      Brackets.step limits s.filed ⟨opened, c.set, .range (c'.numbers c.pos)⟩ c'.pos b =
        .ok (.going ⟨opened, c.set.union (CharSet.range c'.low (max c'.high c'.low)),
          .idle⟩) := by
    show (Braces.step limits (c'.numbers c.pos) c'.pos b >>= _) = _
    rw [numbers_done hclosing]
    rfl
  rw [← hset'] at hadded h
  exact going_inBrackets (s := s.moved c'.pos) h hb hadded

theorem inclusion_adds (htext : c.text = #[]) (hfiled : c.filed = s.filed)
    (h : ((s.inBrackets body ⟨opened, c.set, .inclusion c.pos #[]⟩).moved
      (c.pos + 1)).Leads limits code answer) :
    Ends (do
        let (name, behind) ← c.advance.name limits code
        match find? behind.filed name with
        | none => .error (.told (.undefined name))
        | some r =>
          match r.charSet? with
          | none => .error (.told (.noCharSet c.pos))
          | some set => return .next (behind.unite set).advance ())
      (Adds limits code answer s body opened c.pos) (Stop.Says answer) := by
  refine (name_ends (c := c.advance)
    (s := fun text => s.inBrackets body ⟨opened, c.set, .inclusion c.pos text⟩) htext
    (fun text pos b hb => ?_) (fun hclosed => ?_) h).bind ?_
  · refine stepPhase_inBrackets (s := s.moved pos)
      (fun text => ⟨opened, c.set, .inclusion c.pos text⟩) ?_
    show (if Sign.of b = .word then _ else _) = _
    rw [if_pos hb]
    cases push limits text b <;> rfl
  · refine missing_ends h rfl (fun b hb => ?_) rfl
    exact stepPhase_inBrackets_refused (s := s.moved (c.pos + 1))
      (if_neg (ne_word_of_closed hclosed hb))
  · rintro _ ⟨pos, text, rfl, hle, -, hne, hclosed, h⟩
    have hadopt := adopt_ends hne rfl hclosed h
    unfold Brackets.adopt at hadopt
    rw [← hfiled] at hadopt
    show Ends (match find? c.filed (nameOf text) with | none => _ | some r => _) _ _
    cases hfind : find? c.filed (nameOf text) with
    | none =>
      rw [hfind] at hadopt
      exact hadopt
    | some r =>
      rw [hfind] at hadopt
      dsimp only at hadopt ⊢
      cases hset : r.charSet? with
      | none =>
        rw [hset] at hadopt
        exact hadopt
      | some set =>
        rw [hset] at hadopt
        exact ⟨Nat.lt_succ_of_lt hle, rfl, hfiled, hadopt rfl⟩

theorem literal_adds (htext : c.text = #[]) (hfiled : c.filed = s.filed)
    (h : ((s.inBrackets body ⟨opened, c.set, .literal c.pos #[]⟩).moved (c.pos + 1)).Leads
      limits code answer) :
    Ends (do
        let c ← c.literal limits code
        return .next (c.withoutText.unite (CharSet.ofLiteral c.text.toList)).advance ())
      (Adds limits code answer s body opened c.pos) (Stop.Says answer) := by
  refine (literal_ends
    (s := fun text => s.inBrackets body ⟨opened, c.set, .literal c.pos text⟩)
    htext (fun text pos b hb => ?_) (fun text pos => rfl) h).bind ?_
  · refine stepPhase_inBrackets (s := s.moved pos)
      (fun text => ⟨opened, c.set, .literal c.pos text⟩) ?_
    show (if Sign.of b = .quote then _ else _) = _
    rw [if_neg hb]
    cases push limits text b <;> rfl
  · rintro _ ⟨pos, text, b, rfl, hlt, hb, hclosing, h⟩
    exact ⟨Nat.lt_succ_of_lt hlt, rfl, hfiled,
      going_inBrackets (s := s.moved pos) h hb (if_pos hclosing)⟩

end Members

theorem bracketsTurn_ends {opened : Nat}
    (h : InBrackets limits code answer s body opened c) (hb : code[c.pos]? = some b) :
    Ends (c.bracketsTurn limits code b)
      (Keeps (fun c' _ => InBrackets limits code answer s body opened c')
        (fun c' => c' = c ∧ Sign.of b = .closeBracket) c.pos)
      (Stop.Says answer) := by
  obtain ⟨htext, hfiled, h⟩ := h
  have hadds {turn : Scan (Turn Unit Scanner)}
      (hturn :
        Ends turn (Adds limits code answer s body opened c.pos) (Stop.Says answer)) :
      Ends turn (Keeps (fun c' _ => InBrackets limits code answer s body opened c')
        (fun c' => c' = c ∧ Sign.of b = .closeBracket) c.pos) (Stop.Says answer) := by
    refine hturn.imp (fun t ht => ?_) fun _ => id
    cases t with
    | next c' state => exact ht
    | leave c' => exact ht.elim
  have hstep : Brackets.step limits s.filed ⟨opened, c.set, .idle⟩ c.pos b =
    Brackets.idle ⟨opened, c.set, .idle⟩ c.pos b := rfl
  rw [Brackets.idle] at hstep
  unfold bracketsTurn
  cases hsign : Sign.of b with
  | blank =>
    rw [hsign] at hstep
    exact ⟨Nat.lt_succ_self c.pos, htext, hfiled, going_inBrackets h hb hstep⟩
  | closeBracket => exact ⟨rfl, rfl⟩
  | percent =>
    rw [hsign] at hstep hadds
    exact hadds (comment_adds htext hfiled (going_inBrackets h hb hstep))
  | openBrace =>
    rw [hsign] at hstep hadds
    exact hadds (range_adds htext hfiled (going_inBrackets h hb hstep))
  | backslash =>
    rw [hsign] at hstep hadds
    exact hadds (inclusion_adds htext hfiled (going_inBrackets h hb hstep))
  | quote =>
    rw [hsign] at hstep hadds
    exact hadds (literal_adds htext hfiled (going_inBrackets h hb hstep))
  | word =>
    rw [hsign] at hstep
    exact ⟨Nat.lt_succ_self c.pos, htext, hfiled, going_inBrackets h hb hstep⟩
  | _ =>
    rw [hsign] at hstep
    exact unexpected_ends h hb rfl (stepPhase_inBrackets_refused hstep)

/-- A class is read to the bracket that closes it. -/
theorem brackets_ends (body : Body) (htext : c.text = #[]) (hfiled : c.filed = s.filed)
    (h : ((s.inBrackets body (Brackets.start c.pos c.set)).moved (c.pos + 1)).Leads limits
      code answer) :
    Ends (c.brackets limits code)
      (fun c' => InBrackets limits code answer s body c.pos c' ∧ c.pos < c'.pos ∧
        ∃ b, code[c'.pos]? = some b ∧ Sign.of b = .closeBracket)
      (Stop.Says answer) := by
  refine loop_ends (fun c' _ => InBrackets limits code answer s body c.pos c' ∧
    c.pos < c'.pos) ?_ ?_ ⟨⟨htext, hfiled, h⟩, Nat.lt_succ_self c.pos⟩
  · rintro c' ⟨⟩ b ⟨hin, hlt⟩ hb
    refine (bracketsTurn_ends hin hb).imp (fun t ht => ?_) fun _ => id
    cases t with
    | next c'' state => exact ⟨ht.1, ht.2, Nat.lt_trans hlt ht.1⟩
    | leave c'' =>
      obtain ⟨rfl, hclosing⟩ := ht
      exact ⟨hin, hlt, b, hb, hclosing⟩
  · rintro c' ⟨⟩ ⟨hin, -⟩ hend
    exact (hin.leads.finish hend).symm.trans finish_inBrackets

end Brackets

end Scanner

end RuleGraph.Terse
