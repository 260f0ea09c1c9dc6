import RuleGraph.Proofs.Terse.Faults
import RuleGraph.Proofs.Terse.Scanning

/-!
# Bodies and sources under the cursor

The loop through a body is called again for every group in it, so what is said
about it is said for any stack of open groups: the loop ends where the innermost
of them is closed, or where the body ends if none is open. `Closes` says what
the answer is then.

A name at which the body ends has been read once, and the cursor goes back to its
first byte. That it is read as a title there needs no new argument. The loop that
collects a name is the same one for the reference that the name might have been,
and what has been shown of it holds of both.

The scanner can stop outside of the source, or stay in a loop for ever, and the
reader cannot. Since both come to the same, the scanner does neither, and what
is known of the offsets in the reader's errors holds of the scanner's.
-/

namespace RuleGraph.Terse

variable {limits : Limits} {code : Bytes} {answer : Except GrammarError (List Rule)}
variable {α : Type} {b : UInt8}

/-- A step of the answer either is an error, and then the answer is that error,
or the answer is what comes of its result. -/
theorem told_ends {outcome : Except GrammarError α}
    {next : α → Except GrammarError (List Rule)} (h : outcome.bind next = answer) :
    Ends (told outcome) (fun a => next a = answer) (Stop.Says answer) := by
  cases outcome with
  | error e => exact h.symm
  | ok a => exact h

theorem eq_of_told_ends {outcome : Except GrammarError α}
    {next : α → Except GrammarError (List Rule)}
    (h : Ends (told outcome) (fun a => next a = answer) (Stop.Says answer)) :
    outcome.bind next = answer := by
  cases outcome with
  | error e => exact Eq.symm h
  | ok a => exact h

theorem told_map {β : Type} {outcome : Except GrammarError α} {f : α → β} {Q : β → Prop}
    {bad : Stop → Prop} (h : Ends (told (f <$> outcome)) Q bad) :
    Ends (told outcome) (Q ∘ f) bad := by
  cases outcome with
  | error e => exact h
  | ok a => exact h

namespace State

/-- Ending a declaration is to fold its body and to file the rule. -/
theorem declare_bind (s : State) (body : Body) (phase : Phase)
    (next : State → Except GrammarError (List Rule)) :
    (s.declare limits body phase).bind next = (body.scope.fold limits).bind fun folded =>
      (file limits s.filed ((folded.getD (Rule.sequence [])).named body.title)).bind
        fun filed => next { s with filed := filed, phase := phase } := by
  unfold declare Body.rule
  cases body.scope.fold limits with
  | error e => rfl
  | ok folded =>
    show ((file _ _ _ >>= _) : Except _ _).bind _ = (file _ _ _).bind _
    cases file limits s.filed ((folded.getD (Rule.sequence [])).named body.title) <;> rfl

/-- In front of an equals sign a name ends the body that it stands in, and is
the title of the next one. -/
theorem complete_waiting_declared {rest : Bytes} (hrest : ¬Undeclared rest) (s : State)
    (title : String) (scope : Scope) (text : Text) (start : Nat) :
    (s.toBody ⟨title, [], scope, .waiting text⟩).complete limits rest =
      (scope.fold limits).bind fun folded =>
        (file limits s.filed ((folded.getD (Rule.sequence [])).named title)).bind
          fun filed =>
            ({ s with filed := filed }.inPhase
              (.between (some ⟨start, nameOf text⟩))).complete limits rest := by
  induction rest generalizing s with
  | nil => exact absurd trivial hrest
  | cons b rest ih =>
    rw [Undeclared] at hrest
    split at hrest
    · rename_i hblank
      have hwaiting : (s.toBody ⟨title, [], scope, .waiting text⟩).stepPhase limits b =
          .ok (s.toBody ⟨title, [], scope, .waiting text⟩) :=
        stepPhase_waiting s ⟨title, [], scope, .waiting text⟩ rfl text hblank
      rw [complete_step, hwaiting]
      refine (ih hrest (s.moved (s.offset + 1))).trans ?_
      refine congrArg _ (funext fun folded => congrArg _ (funext fun filed => ?_))
      rw [complete_step]
      show _ = (State.between _ _ _ b).bind _
      unfold State.between
      rw [hblank]
      rfl
    · have hequals : Sign.of b = .equals := Decidable.of_not_not hrest
      have hdeclared : (s.toBody ⟨title, [], scope, .waiting text⟩).stepPhase limits b =
          (s.toBody ⟨title, [], scope, .waiting text⟩).declare limits
            ⟨title, [], scope, .waiting text⟩ (.body (Body.start (nameOf text))) := by
        show State.afterName _ _ _ _ b = _
        unfold State.afterName
        rw [hequals]
        rfl
      rw [complete_step, hdeclared, declare_bind]
      refine congrArg _ (funext fun folded => congrArg _ (funext fun filed => ?_))
      rw [complete_step]
      show _ = (State.between _ _ _ b).bind _
      unfold State.between
      rw [hequals]
      rfl

/-- What becomes of a name that has a sign of its own shows in the byte behind it,
or at the end of the source. -/
theorem Leads.named {s : State} (body : Body) (lexeme : Text → Lexeme)
    (outcome : Except GrammarError Body) {text : Text} (htext : text ≠ #[])
    (hclosed : Closed (code.drop s.offset))
    (hstep : ∀ b, (s.toBody (body.reading (lexeme text))).stepPhase limits b =
      s.inName limits (body.reading (lexeme text)) text lexeme outcome b)
    (hend : (s.toBody (body.reading (lexeme text))).finish limits =
      if text.isEmpty then .error (.unclosed .name s.offset)
      else do s.closeBody limits (← outcome))
    (hidle : ∀ next, outcome = .ok next → next.lexeme = .idle)
    (h : (s.toBody (body.reading (lexeme text))).Leads limits code answer) :
    Ends (told outcome) (fun next => (s.toBody next).Leads limits code answer)
      (Stop.Says answer) := by
  have hempty : text.isEmpty = false := by simpa using htext
  rw [hempty] at hend
  have hnext {b : UInt8} (hb : code[s.offset]? = some b) :
      (s.toBody (body.reading (lexeme text))).stepPhase limits b =
        outcome.bind fun next => s.inBody limits next b := by
    have hword : Sign.of b ≠ .word := ne_word_of_closed hclosed hb
    rw [hstep, inName, if_neg hword, hempty]
    rfl
  cases outcome with
  | error e =>
    cases hrest : code[s.offset]? with
    | some b => exact h.error hrest (hnext hrest)
    | none => exact (h.finish (List.getElem?_eq_none_iff.mp hrest)).symm.trans hend
  | ok next =>
    refine h.congr rfl (fun _ => hend.trans ?_) fun b hb => (hnext hb).trans ?_
    · show _ = s.finishBody limits next
      unfold finishBody
      rw [hidle next rfl]
      rfl
    · exact (stepPhase_idle (hidle next rfl) s).symm

end State

namespace Scanner

variable {c : Scanner} {title : String} {groups : List Group} {scope : Scope}

/-! ## Bodies -/

/-- The state of the reader where a cursor stands in a body. -/
def reached (c : Scanner) (body : Body) : State :=
  ⟨c.filed, c.set, c.pos, .body body⟩

/-- The body around a group, once this has come of the group. -/
def closedGroup (limits : Limits) (title : String) (g : Group) (groups : List Group) :
    Option Rule → Except GrammarError Body
  | none => .ok ⟨title, groups, g.outer, .idle⟩
  | some r => do
    let scope ← g.outer.put limits r
    return ⟨title, groups, scope, .idle⟩

/-- Where the innermost group is closed, or the body ends, the answer is what
comes of the rule that has been read. -/
def Closes (limits : Limits) (code : Bytes) (answer : Except GrammarError (List Rule))
    (title : String) (groups : List Group) (r : Scanner × Option Rule) : Prop :=
  match groups with
  | [] => ((file limits r.1.filed ((r.2.getD (Rule.sequence [])).named title)).bind
      fun filed =>
      (⟨filed, r.1.set, r.1.pos, .between none⟩ : State).complete limits
        (code.drop r.1.pos)) = answer
  | g :: groups => ((closedGroup limits title g groups r.2).bind fun body =>
      (r.1.advance.reached body).complete limits (code.drop (r.1.pos + 1))) = answer

/-- The cursor stands in this scope, between two of its elements, and in front of
this place it has not gone back. -/
structure InScope (limits : Limits) (code : Bytes)
    (answer : Except GrammarError (List Rule))
    (title : String) (groups : List Group) (start : Nat) (c : Scanner) (scope : Scope) :
      Prop where
  after : start ≤ c.pos
  text : c.text = #[]
  leads : (c.reached ⟨title, groups, scope, .idle⟩).Leads limits code answer

/-- What the loop through the innermost group, or through the body, comes to. -/
def Read (limits : Limits) (code : Bytes) (answer : Except GrammarError (List Rule))
    (title : String) (groups : List Group) (start : Nat) (r : Scanner × Option Rule) :
    Prop :=
  start ≤ r.1.pos ∧ r.1.text = #[] ∧ Closes limits code answer title groups r

/-- A turn of this loop keeps up with the reader. -/
def Follows (limits : Limits) (code : Bytes) (answer : Except GrammarError (List Rule))
    (title : String) (groups : List Group) (start pos : Nat)
    (turn : Scan (Turn Scope (Scanner × Option Rule))) : Prop :=
  Ends turn (Keeps (InScope limits code answer title groups start)
    (Read limits code answer title groups start) pos) (Stop.Says answer)

theorem put_eq (lexeme : Lexeme) (r : Rule) :
    Body.put limits ⟨title, groups, scope, lexeme⟩ r =
      (fun scope => ⟨title, groups, scope, .idle⟩) <$> scope.put limits r := by
  unfold Body.put
  dsimp only
  cases scope.put limits r <;> rfl

theorem toBody_put (s : State) (lexeme : Lexeme) (r : Rule) :
    s.toBody <$> Body.put limits ⟨title, groups, scope, lexeme⟩ r =
      (fun scope => s.toBody ⟨title, groups, scope, .idle⟩) <$> scope.put limits r := by
  rw [put_eq]
  cases scope.put limits r <;> rfl

theorem operand_ends {body : Body} {offset : Nat} {f : Rule → Rule}
    {next : Body → Except GrammarError (List Rule)}
    (h : (body.suffix offset b f).bind next = answer) :
    Ends (operand body.scope offset b) (fun r => next (body.replace (f r)) = answer)
      (Stop.Says answer) := by
  unfold operand
  unfold Body.suffix at h
  cases hcurrent : body.scope.current with
  | none =>
    rw [hcurrent] at h
    exact h.symm
  | some r =>
    rw [hcurrent] at h
    exact h

/-- An element is put into the scope where it has been read to its end. -/
theorem follows_put {start pos : Nat} {r : Rule} (hstart : start ≤ c.pos)
    (hpos : pos ≤ c.pos) (htext : c.text = #[])
    (h : Ends (told (scope.put limits r))
      (fun scope =>
        (c.advance.reached ⟨title, groups, scope, .idle⟩).Leads limits code answer)
      (Stop.Says answer)) :
    Follows limits code answer title groups start pos (do
      let scope ← told (scope.put limits r)
      return .next c.advance scope) :=
  h.bind fun _ h => ⟨Nat.lt_succ_of_le hpos, Nat.le_succ_of_le hstart, htext, h⟩

/-- What the reader does at a single byte is done here at once, and the cursor gets
on by that byte. -/
theorem follows_step {start : Nat} {outcome : Except GrammarError α} (set : α → CharSet)
    (next : α → Scope) (h : InScope limits code answer title groups start c scope)
    (hb : code[c.pos]? = some b)
    (hstep : (c.reached ⟨title, groups, scope, .idle⟩).stepPhase limits b =
      (fun a => { c with set := set a }.reached ⟨title, groups, next a, .idle⟩) <$>
        outcome) :
    Follows limits code answer title groups start c.pos (do
      let a ← told outcome
      return .next { c with set := set a }.advance (next a)) :=
  (h.leads.step hb hstep).bind fun _ hleads =>
    ⟨Nat.lt_succ_self c.pos, Nat.le_succ_of_le h.after, h.text, hleads⟩

/-- A suffix is applied to the element read last, where it has been read to its
end. -/
theorem follows_suffix {start pos offset : Nat} {f : Rule → Rule} (hstart : start ≤ c.pos)
    (hpos : pos ≤ c.pos) (htext : c.text = #[]) {lexeme : Lexeme}
    (h : (Body.suffix ⟨title, groups, scope, lexeme⟩ offset b f).bind (fun body =>
      (c.advance.reached body).complete limits (code.drop (c.pos + 1))) = answer) :
    Follows limits code answer title groups start pos (do
      let r ← operand scope offset b
      return .next c.advance { scope with current := some (f r) }) :=
  (operand_ends h).bind fun _ h =>
    ⟨Nat.lt_succ_of_le hpos, Nat.le_succ_of_le hstart, htext, h⟩

/-- What the step of a suffix leads to. -/
theorem suffix_leads {s : State} {body : Body} {offset : Nat} {sign : UInt8}
    {f : Rule → Rule} (h : s.Leads limits code answer) (hb : code[s.offset]? = some b)
    (hstep : s.stepPhase limits b = s.toBody <$> body.suffix offset sign f) :
    (body.suffix offset sign f).bind (fun body =>
      ((s.toBody body).moved (s.offset + 1)).complete limits (code.drop (s.offset + 1))) =
        answer := by
  rw [State.Leads, drop_of_getElem? hb, State.complete_step, hstep] at h
  rw [← h]
  cases body.suffix offset sign f <;> rfl

/-- A dash outside of every group ends the body, and is read again behind it. -/
theorem closes_dash {start : Nat} (h : InScope limits code answer title [] start c scope)
    (hb : code[c.pos]? = some b) (hdash : Sign.of b = .dash) :
    Ends (told (scope.fold limits))
      (fun folded => Closes limits code answer title [] (c, folded))
      (Stop.Says answer) := by
  have hstep : (c.reached ⟨title, [], scope, .idle⟩).stepPhase limits b =
      (c.reached ⟨title, [], scope, .idle⟩).declare limits ⟨title, [], scope, .idle⟩
        (.between none) := by
    show State.inBody _ _ _ b = _
    unfold State.inBody
    rw [hdash]
    rfl
  have hleads := h.leads
  rw [State.Leads, show (c.reached ⟨title, [], scope, .idle⟩).offset = c.pos from rfl,
    drop_of_getElem? hb, State.complete_step, hstep, State.declare_bind] at hleads
  refine (told_ends hleads).imp (fun folded h => ?_) fun _ => id
  refine Eq.trans (congrArg _ (funext fun filed => ?_)) h
  rw [drop_of_getElem? hb, State.complete_step]
  show (State.between _ _ _ b).bind _ = _
  unfold State.between
  rw [hdash]
  rfl

theorem closeGroup_eq (g : Group) :
    Body.closeGroup limits ⟨title, g :: groups, scope, .idle⟩ g groups =
      (scope.fold limits).bind (closedGroup limits title g groups) := by
  unfold Body.closeGroup
  dsimp only
  cases scope.fold limits with
  | error e => rfl
  | ok folded => cases folded <;> rfl

/-- A parenthesis closes the innermost group. -/
theorem closes_group {start : Nat} {g : Group}
    (h : InScope limits code answer title (g :: groups) start c scope)
    (hb : code[c.pos]? = some b) (hclose : Sign.of b = .closeGroup) :
    Ends (told (scope.fold limits))
      (fun folded => Closes limits code answer title (g :: groups) (c, folded))
      (Stop.Says answer) := by
  have hstep : (c.reached ⟨title, g :: groups, scope, .idle⟩).stepPhase limits b =
      (c.reached ⟨title, g :: groups, scope, .idle⟩).toBody <$>
        (scope.fold limits).bind (closedGroup limits title g groups) := by
    rw [← closeGroup_eq]
    show State.inBody _ _ _ b = _
    unfold State.inBody
    rw [hclose]
  have hleads := h.leads
  rw [State.Leads, show (c.reached ⟨title, g :: groups, scope, .idle⟩).offset =
    c.pos from rfl, drop_of_getElem? hb, State.complete_step, hstep] at hleads
  refine told_ends (Eq.trans ?_ hleads)
  cases scope.fold limits with
  | error e => rfl
  | ok folded =>
    show (closedGroup limits title g groups folded).bind _ =
      (_ <$> closedGroup limits title g groups folded).bind _
    cases closedGroup limits title g groups folded <;> rfl

/-- Behind the source the body ends, unless a group is open. -/
theorem ending_ends {start opened : Nat} {c' : Scanner}
    (hopened : ∀ g ∈ groups.head?, g.opened = opened)
    (h : InScope limits code answer title groups start c' scope)
    (hend : code.length ≤ c'.pos) :
    Ends (if 0 < groups.length then .error (.told (.unclosed .group opened))
      else do
        let folded ← told (scope.fold limits)
        return (c', folded))
      (Read limits code answer title groups start) (Stop.Says answer) := by
  have hfinish := h.leads.finish hend
  cases groups with
  | nil =>
    have hrule : (c'.reached ⟨title, [], scope, .idle⟩).finish limits =
        (scope.fold limits).bind fun folded =>
          file limits c'.filed ((folded.getD (Rule.sequence [])).named title) := by
      show (Body.rule limits ⟨title, [], scope, .idle⟩ >>= _) = _
      unfold Body.rule
      dsimp only
      cases scope.fold limits <;> rfl
    refine (told_ends (hrule.symm.trans hfinish)).bind fun folded hfiled => ?_
    refine ⟨h.after, h.text, Eq.trans ?_ hfiled⟩
    rw [List.drop_eq_nil_of_le hend]
    cases file limits c'.filed ((folded.getD (Rule.sequence [])).named title) <;> rfl
  | cons g groups =>
    rw [← hopened g rfl]
    exact hfinish.symm

/-! ## The elements of a body -/

section Elements

variable {start : Nat}

theorem comment_follows (hstart : start ≤ c.pos) (htext : c.text = #[])
    (h : ((c.reached ⟨title, groups, scope, .comment c.pos⟩).moved (c.pos + 1)).Leads
      limits code answer) :
    Follows limits code answer title groups start c.pos (do
      let c ← c.comment code
      return .next c.advance scope) := by
  have hstep (pos : Nat) (b : UInt8) :
      ((c.reached ⟨title, groups, scope, .comment c.pos⟩).moved pos).stepPhase limits b =
        .ok ((c.reached ⟨title, groups, scope,
          if Sign.of b = .percent then .idle else .comment c.pos⟩).moved pos) := rfl
  refine (comment_ends (s := c.reached ⟨title, groups, scope, .comment c.pos⟩)
    (fun pos b hb => ?_) (fun pos => rfl) h).bind ?_
  · rw [hstep, if_neg hb]
  · rintro _ ⟨pos, b, rfl, hlt, hb, hclosing, h⟩
    have hstep := hstep pos b
    rw [if_pos hclosing] at hstep
    exact ⟨Nat.lt_succ_of_lt hlt,
      Nat.le_succ_of_le (Nat.le_trans hstart (Nat.le_of_lt hlt)), htext, h.next hb hstep⟩

theorem literal_follows (hstart : start ≤ c.pos) (htext : c.text = #[])
    (h : ((c.reached ⟨title, groups, scope, .literal c.pos #[]⟩).moved (c.pos + 1)).Leads
      limits code answer) :
    Follows limits code answer title groups start c.pos (do
      let c ← c.literal limits code
      let scope ← told (scope.put limits (Rule.literal c.text.toList))
      return .next c.withoutText.advance scope) := by
  refine (literal_ends
    (s := fun text => c.reached ⟨title, groups, scope, .literal c.pos text⟩)
    htext (fun text pos b hb => ?_) (fun text pos => rfl) h).bind ?_
  · show (if Sign.of b = .quote then _ else _) = _
    rw [if_neg hb]
    cases push limits text b <;> rfl
  · rintro _ ⟨pos, text, b, rfl, hlt, hb, hclosing, h⟩
    exact follows_put (Nat.le_trans hstart (Nat.le_of_lt hlt)) (Nat.le_of_lt hlt) rfl
      (h.step hb ((if_pos hclosing).trans (toBody_put ..)))

theorem class_follows (hstart : start ≤ c.pos) (htext : c.text = #[])
    (h : ((c.reached ⟨title, groups, scope, .brackets (Brackets.start c.pos c.set)⟩).moved
      (c.pos + 1)).Leads limits code answer) :
    Follows limits code answer title groups start c.pos (do
      let c ← c.brackets limits code
      let scope ← told (scope.put limits (Rule.terminal c.set))
      return .next { c with set := CharSet.empty }.advance scope) := by
  refine (brackets_ends (s := c.reached ⟨title, groups, scope, .idle⟩)
    ⟨title, groups, scope, .idle⟩ htext rfl h).bind ?_
  rintro ⟨pos, low, high, second, text, set, filed⟩ ⟨⟨rfl, rfl, h⟩, hlt, b, hb, hclosing⟩
  have hdone : Brackets.step limits c.filed ⟨c.pos, set, .idle⟩ pos b =
      .ok (.done set) := by
    show Brackets.idle _ pos b = _
    rw [Brackets.idle, hclosing]
  have hstep : (((c.reached ⟨title, groups, scope, .idle⟩).moved pos).inBrackets
      ⟨title, groups, scope, .idle⟩ ⟨c.pos, set, .idle⟩).stepPhase limits b =
      (fun scope =>
        (⟨c.filed, CharSet.empty, pos, .body ⟨title, groups, scope, .idle⟩⟩ : State)) <$>
        scope.put limits (Rule.terminal set) := by
    show (Brackets.step limits c.filed ⟨c.pos, set, .idle⟩ pos b >>= _) = _
    rw [hdone]
    show (Body.put limits ⟨title, groups, scope, _⟩ (Rule.terminal set) >>= _) = _
    rw [put_eq]
    cases scope.put limits (Rule.terminal set) <;> rfl
  exact follows_put (Nat.le_trans hstart (Nat.le_of_lt hlt)) (Nat.le_of_lt hlt) rfl
    (h.step hb hstep)

/-- A name that has a sign of its own is collected, and used where it ends. -/
theorem signed_name_ends (lexeme : Text → Lexeme) (use : Text → Except GrammarError Body)
    (htext : c.text = #[])
    (hstep : ∀ text pos b,
      ((c.reached ⟨title, groups, scope, lexeme text⟩).moved pos).stepPhase limits b =
        ((c.reached ⟨title, groups, scope, lexeme text⟩).moved pos).inName limits
          ⟨title, groups, scope, lexeme text⟩ text lexeme (use text) b)
    (hend : ∀ text pos,
      ((c.reached ⟨title, groups, scope, lexeme text⟩).moved pos).finish limits =
        if text.isEmpty then .error (.unclosed .name pos)
        else do
          ((c.reached ⟨title, groups, scope, lexeme text⟩).moved pos).closeBody limits
            (← use text))
    (hidle : ∀ text next, use text = .ok next → next.lexeme = .idle)
    (h : ((c.reached ⟨title, groups, scope, lexeme #[]⟩).moved (c.pos + 1)).Leads limits
      code answer) :
    Ends (c.advance.name limits code) (fun r => ∃ pos text,
        r = (nameOf text, { c with pos := pos, text := #[] }) ∧ c.pos ≤ pos ∧
        Ends (told (use text))
          (fun next => ((c.reached next).moved (pos + 1)).Leads limits code answer)
          (Stop.Says answer))
      (Stop.Says answer) := by
  refine (name_ends (c := c.advance)
    (s := fun text => c.reached ⟨title, groups, scope, lexeme text⟩) htext
    (fun text pos b hb => ?_) (fun hclosed => ?_) h).imp ?_ fun _ => id
  · rw [hstep, State.inName, if_pos hb]
    cases push limits text b <;> rfl
  · refine missing_ends h rfl (fun b hb => (hstep ..).trans ?_) (hend #[] (c.pos + 1))
    have hword : Sign.of b ≠ .word := ne_word_of_closed hclosed hb
    exact if_neg hword
  · rintro _ ⟨pos, text, rfl, hle, -, hne, hclosed, h⟩
    refine ⟨pos, text, rfl, Nat.le_of_succ_le hle, ?_⟩
    exact State.Leads.named
      (s := (c.reached ⟨title, groups, scope, lexeme text⟩).moved (pos + 1))
      ⟨title, groups, scope, .idle⟩ lexeme (use text) hne hclosed (hstep text (pos + 1))
      (hend text (pos + 1)) (hidle text) h

theorem inclusion_follows (hstart : start ≤ c.pos) (htext : c.text = #[])
    (h : ((c.reached ⟨title, groups, scope, .inclusion #[]⟩).moved (c.pos + 1)).Leads
      limits code answer) :
    Follows limits code answer title groups start c.pos (do
      let (name, c) ← c.advance.name limits code
      let scope ← told (scope.put limits (included c.filed name))
      return .next c.advance scope) := by
  refine (signed_name_ends .inclusion
    (fun text => Body.adopt limits c.filed ⟨title, groups, scope, .inclusion text⟩ text)
    htext (fun _ _ _ => rfl) (fun _ _ => rfl) (fun _ _ h => Body.lexeme_of_put h)
    h).bind ?_
  rintro _ ⟨pos, text, rfl, hle, hadopted⟩
  rw [Body.adopt, put_eq] at hadopted
  exact follows_put (Nat.le_trans hstart hle) hle rfl (told_map hadopted)

theorem bound_follows (hstart : start ≤ c.pos) (htext : c.text = #[])
    (hbrace : Sign.of b = .openBrace)
    (h : ((c.reached ⟨title, groups, scope, .braces (Braces.start c.pos)⟩).moved
      (c.pos + 1)).Leads limits code answer) :
    Follows limits code answer title groups start c.pos (do
      let behind ← c.range limits code
      let r ← operand scope c.pos b
      return .next behind.withoutNumbers.advance { scope with
        current := some (r.repeated (Bound.between behind.low behind.high)) }) := by
  cases eq_of_sign hbrace rfl
  refine (range_ends (s := c.reached ⟨title, groups, scope, .idle⟩)
    ⟨title, groups, scope, .idle⟩ .bound htext h).bind ?_
  rintro ⟨pos, low, high, second, text, set, filed⟩
    ⟨⟨rfl, rfl, rfl, h⟩, hlt, b', hb', hclosing⟩
  let behind : Scanner := ⟨pos, low, high, second, #[], c.set, c.filed⟩
  have hstep :
      ((behind.reached ⟨title, groups, scope, .idle⟩).inBraces
        ⟨title, groups, scope, .idle⟩
        .bound (behind.numbers c.pos)).stepPhase limits b' =
      (behind.reached ⟨title, groups, scope, .idle⟩).toBody <$>
        Body.suffix ⟨title, groups, scope, .idle⟩ c.pos 0x7B
          (·.repeated (Bound.between low high)) := by
    rw [State.stepPhase_inBraces, numbers_done hclosing]
    rfl
  have hle := Nat.le_of_lt hlt
  exact follows_suffix (Nat.le_trans hstart hle) hle rfl (suffix_leads h hb' hstep)

theorem label_follows (hstart : start ≤ c.pos) (htext : c.text = #[])
    (hsign : Sign.of b = .atSign)
    (h : ((c.reached ⟨title, groups, scope, .label c.pos #[]⟩).moved (c.pos + 1)).Leads
      limits code answer) :
    Follows limits code answer title groups start c.pos (do
      let (name, behind) ← c.advance.name limits code
      let r ← operand scope c.pos b
      return .next behind.advance { scope with current := some (r.named name) }) := by
  cases eq_of_sign hsign rfl
  have hidle (text : Text) (next : Body)
      (h : Body.attach ⟨title, groups, scope, .label c.pos text⟩ c.pos text = .ok next) :
      next.lexeme = .idle := by
    unfold Body.attach Body.suffix at h
    split at h <;> cases h
    rfl
  refine (signed_name_ends (.label c.pos)
    (fun text => Body.attach ⟨title, groups, scope, .label c.pos text⟩ c.pos text)
    htext (fun _ _ _ => rfl) (fun _ _ => rfl) hidle h).bind ?_
  rintro _ ⟨pos, text, rfl, hle, hattached⟩
  exact follows_suffix (Nat.le_trans hstart hle) hle rfl (eq_of_told_ends hattached)

theorem group_follows {group : Scanner → Scan (Scanner × Option Rule)}
    (hstart : start ≤ c.pos) (htext : c.text = #[])
    (hgroup : ∀ (c : Scanner) (g : Group), g.opened = c.pos - 1 →
      InScope limits code answer title (g :: groups) c.pos c Scope.empty →
      Ends (group c) (Read limits code answer title (g :: groups) c.pos)
        (Stop.Says answer))
    (h : Ends (told (scope.settle limits)) (fun outer =>
      (c.advance.reached ⟨title, ⟨c.pos, outer⟩ :: groups, Scope.empty, .idle⟩).Leads
      limits code
        answer) (Stop.Says answer)) :
    Follows limits code answer title groups start c.pos (do
      let outer ← told (scope.settle limits)
      match ← group c.advance with
      | (c, none) => return .next c.advance outer
      | (c, some r) => do
        let scope ← told (outer.put limits r)
        return .next c.advance scope) := by
  refine h.bind fun outer h => ?_
  refine (hgroup c.advance ⟨c.pos, outer⟩ rfl ⟨Nat.le_refl _, htext, h⟩).bind ?_
  rintro ⟨c', folded⟩ ⟨hlt, htext', hcloses⟩
  have hlt : c.pos < c'.pos := hlt
  have hle : start ≤ c'.pos := Nat.le_trans hstart (Nat.le_of_lt hlt)
  cases folded with
  | none => exact ⟨Nat.lt_succ_of_lt hlt, Nat.le_succ_of_le hle, htext', hcloses⟩
  | some r =>
    refine follows_put hle (Nat.le_of_lt hlt) htext' (told_ends (Eq.trans ?_ hcloses))
    show _ = ((outer.put limits r >>= _) : Except GrammarError Body).bind _
    cases outer.put limits r <;> rfl

/-- A name that stands in a body is collected. -/
theorem name_inBody (htext : c.text = #[]) (hb : code[c.pos]? = some b)
    (hword : Sign.of b = .word)
    (h : (c.reached ⟨title, groups, scope, .idle⟩).Leads limits code answer) :
    Ends (c.name limits code) (fun r => ∃ pos text,
        r = (nameOf text, { c with pos := pos, text := #[] }) ∧ c.pos ≤ pos ∧
        pos < code.length ∧ text ≠ #[] ∧ Closed (code.drop (pos + 1)) ∧
        ((c.reached ⟨title, groups, scope, .name text⟩).moved (pos + 1)).Leads limits
          code answer)
      (Stop.Says answer) := by
  refine name_ends (s := fun text => c.reached ⟨title, groups, scope, .name text⟩) htext
    (fun text pos b hb => ?_) (fun hclosed => ?_) ?_
  · show (if Sign.of b = .word then _ else _) = _
    rw [if_pos hb]
    cases push limits text b <;> rfl
  · exact absurd hword (ne_word_of_closed hclosed hb)
  · refine h.congr rfl (fun hend => ?_) fun b' hb' => ?_
    · have hinside := (List.getElem?_eq_some_iff.mp hb).1
      exact absurd hinside (Nat.not_lt_of_le hend)
    · cases hb.symm.trans hb'
      show State.inBody _ _ _ b = (if Sign.of b = .word then _ else _)
      rw [if_pos hword]
      unfold State.inBody
      rw [hword]
      rfl

/-- In front of a letter it is all the same whether a title has begun. -/
theorem leads_naming {filed : List Rule} {set : CharSet} {pos : Nat}
    (hb : code[pos]? = some b) (hword : Sign.of b = .word)
    (h : (⟨filed, set, pos, .between none⟩ : State).Leads limits code answer) :
    (⟨filed, set, pos, .naming pos #[]⟩ : State).Leads limits code answer := by
  refine h.congr rfl (fun hend => ?_) fun b' hb' => ?_
  · exact absurd (List.getElem?_eq_some_iff.mp hb).1 (Nat.not_lt_of_le hend)
  · cases hb.symm.trans hb'
    show State.between _ _ _ b = (if Sign.of b = .word then _ else _)
    rw [if_pos hword]
    unfold State.between
    rw [hword]
    rfl

/-- The same name is collected where it is a title. -/
theorem name_between (limits : Limits) (filed : List Rule) (htext : c.text = #[])
    (hb : code[c.pos]? = some b) (hword : Sign.of b = .word) :
    Ends (c.name limits code) (fun r => ∃ pos text,
        r = (nameOf text, { c with pos := pos, text := #[] }) ∧
        (⟨filed, c.set, pos + 1, .between (some ⟨c.pos, nameOf text⟩)⟩ : State).Leads
          limits code
          ((⟨filed, c.set, c.pos, .between none⟩ : State).complete limits
            (code.drop c.pos)))
      fun _ => True := by
  refine (name_ends (s := fun text => ⟨filed, c.set, c.pos, .naming c.pos text⟩) htext
    (fun text pos b hb => ?_) (fun hclosed => ?_) (leads_naming hb hword rfl)).imp ?_
      fun _ _ => trivial
  · show (if Sign.of b = .word then _ else _) = _
    rw [if_pos hb]
    cases push limits text b <;> rfl
  · exact absurd hword (ne_word_of_closed hclosed hb)
  · rintro _ ⟨pos, text, rfl, -, -, -, hclosed, h⟩
    refine ⟨pos, text, rfl, h.congr rfl (fun _ => rfl) fun b hb => ?_⟩
    exact if_neg (ne_word_of_closed hclosed hb)

theorem find?_any_iff (rest : Bytes) :
    (rest.find? (Sign.of · ≠ .blank)).any (Sign.of · = .equals) = true ↔
      ¬Undeclared rest := by
  induction rest with
  | nil => simp [Undeclared]
  | cons b rest ih =>
    rw [Undeclared, List.find?_cons]
    by_cases hblank : Sign.of b = .blank
    · rw [if_pos hblank, ← ih]
      simp [hblank]
    · rw [if_neg hblank]
      simp [hblank]

/-- A bare name is a reference, or it is the title of the next declaration and ends
the body. -/
theorem word_follows (h : InScope limits code answer title groups start c scope)
    (hb : code[c.pos]? = some b) (hword : Sign.of b = .word) :
    Follows limits code answer title groups start c.pos (do
      let (name, behind) ← c.name limits code
      let declared ← if groups.length = 0 then behind.declares code else .ok false
      if declared then do
        let folded ← told (scope.fold limits)
        return .leave ({ behind with pos := c.pos }, folded)
      else do
        let scope ← told (scope.put limits (Rule.reference name))
        return .next behind.advance scope) := by
  obtain ⟨hstart, htext, hleads⟩ := h
  have hname := name_inBody htext hb hword hleads
  have htitle (filed : List Rule) := name_between limits filed htext hb hword
  cases hread : c.name limits code with
  | error stop =>
    rw [hread] at hname
    exact hname
  | ok r =>
    rw [hread] at hname htitle
    obtain ⟨pos, text, rfl, hle, hlt, -, hclosed, h⟩ := hname
    have hwaiting :
        ((c.reached ⟨title, groups, scope, .waiting text⟩).moved (pos + 1)).Leads limits
        code answer :=
      h.congr rfl (fun _ => rfl) fun b hb => if_neg (ne_word_of_closed hclosed hb)
    have hreference (hrest : groups.isEmpty = true → Undeclared (code.drop (pos + 1))) :
        Follows limits code answer title groups start c.pos (do
          let scope ← told (scope.put limits (Rule.reference (nameOf text)))
          return .next (Scanner.advance { c with pos := pos, text := #[] }) scope) := by
      refine follows_put (Nat.le_trans hstart hle) hle rfl
        (told_ends (Eq.trans ?_ hwaiting))
      refine Eq.trans ?_
        (State.complete_waiting ((c.reached ⟨title, groups, scope, .idle⟩).moved
          (pos + 1)) ⟨title, groups, scope, .idle⟩ text hrest).symm
      rw [Body.refer, put_eq]
      cases scope.put limits (Rule.reference (nameOf text)) <;> rfl
    cases groups with
    | cons g groups => exact hreference fun hempty => absurd hempty Bool.false_ne_true
    | nil =>
      have hdeclares : declares code { c with pos := pos, text := #[] } =
          .ok (((code.drop (pos + 1)).find? (Sign.of · ≠ .blank)).any
            (Sign.of · = .equals)) :=
        if_pos hlt
      show Follows _ _ _ _ _ _ _ (declares code { c with pos := pos, text := #[] } >>= _)
      rw [hdeclares]
      by_cases hrest : Undeclared (code.drop (pos + 1))
      · rw [Bool.eq_false_iff.mpr fun h => (find?_any_iff _).mp h hrest]
        exact hreference fun _ => hrest
      · rw [(find?_any_iff _).mpr hrest]
        have hdeclared := (State.complete_waiting_declared hrest
          ((c.reached ⟨title, [], scope, .idle⟩).moved (pos + 1)) title scope text
            c.pos).symm.trans hwaiting
        refine (told_ends hdeclared).bind fun folded hfiled => ⟨hstart, rfl, ?_⟩
        refine Eq.trans (congrArg _ (funext fun filed => ?_)) hfiled
        obtain ⟨pos', text', hsame, htitle⟩ := htitle filed
        obtain ⟨hname, hcursor⟩ := Prod.mk.inj hsame
        cases congrArg Scanner.pos hcursor
        rw [← hname] at htitle
        exact htitle.symm

end Elements

theorem bodyTurn_ends {start : Nat}
    {group? : Option (Scanner → Scan (Scanner × Option Rule))}
    (hnone : group? = none → ¬groups.length < limits.nesting)
    (hsome : ∀ group, group? = some group → groups.length < limits.nesting ∧
      ∀ (c : Scanner) (g : Group), g.opened = c.pos - 1 →
        InScope limits code answer title (g :: groups) c.pos c Scope.empty →
        Ends (group c) (Read limits code answer title (g :: groups) c.pos)
          (Stop.Says answer))
    (h : InScope limits code answer title groups start c scope)
    (hb : code[c.pos]? = some b) :
    Follows limits code answer title groups start c.pos
      (c.bodyTurn limits code groups.length group? scope b) := by
  obtain ⟨hstart, htext, hleads⟩ := id h
  have hstep : (c.reached ⟨title, groups, scope, .idle⟩).stepPhase limits b =
    (c.reached ⟨title, groups, scope, .idle⟩).inBody limits
      ⟨title, groups, scope, .idle⟩ b := rfl
  unfold State.inBody at hstep
  unfold bodyTurn
  dsimp only
  cases hsign : Sign.of b with
  | blank =>
    rw [hsign] at hstep
    exact ⟨Nat.lt_succ_self c.pos, Nat.le_succ_of_le hstart, htext, hleads.next hb hstep⟩
  | dash =>
    rw [hsign] at hstep
    cases groups with
    | nil => exact (closes_dash h hb hsign).bind fun _ hcloses => ⟨hstart, htext, hcloses⟩
    | cons g groups => exact unexpected_ends hleads hb rfl hstep
  | percent =>
    rw [hsign] at hstep
    exact comment_follows hstart htext (hleads.next hb hstep)
  | quote =>
    rw [hsign] at hstep
    exact literal_follows hstart htext (hleads.next hb hstep)
  | openBracket =>
    rw [hsign] at hstep
    exact class_follows hstart htext (hleads.next hb hstep)
  | backslash =>
    rw [hsign] at hstep
    exact inclusion_follows hstart htext (hleads.next hb hstep)
  | openBrace =>
    rw [hsign] at hstep
    exact bound_follows hstart htext hsign (hleads.next hb hstep)
  | atSign =>
    rw [hsign] at hstep
    exact label_follows hstart htext hsign (hleads.next hb hstep)
  | question | star | plus | greater =>
    rw [hsign] at hstep
    exact follows_suffix hstart (Nat.le_refl c.pos) htext (suffix_leads hleads hb hstep)
  | spacing contract =>
    rw [hsign] at hstep
    exact follows_step (fun _ => c.set) id h hb (hstep.trans (toBody_put ..))
  | tilde | less =>
    rw [hsign] at hstep
    exact follows_step (fun _ => c.set) id h hb (hstep.trans (toBody_put ..))
  | openGroup =>
    rw [hsign] at hstep
    dsimp only [Body.openGroup] at hstep
    cases hgroup : group? with
    | none =>
      rw [if_neg (hnone hgroup)] at hstep
      exact hleads.error hb hstep
    | some group =>
      obtain ⟨hroom, hgroup⟩ := hsome group hgroup
      rw [if_pos hroom] at hstep
      have hopened : (c.reached ⟨title, groups, scope, .idle⟩).stepPhase limits b =
          (fun outer =>
            c.reached ⟨title, ⟨c.pos, outer⟩ :: groups, Scope.empty, .idle⟩) <$>
            scope.settle limits := by
        rw [hstep]
        cases scope.settle limits <;> rfl
      exact group_follows hstart htext hgroup (hleads.step hb hopened)
  | closeGroup =>
    rw [hsign] at hstep
    cases groups with
    | nil => exact unexpected_ends hleads hb rfl hstep
    | cons g groups =>
      exact (closes_group h hb hsign).bind fun _ hcloses => ⟨hstart, htext, hcloses⟩
  | bar =>
    rw [hsign] at hstep
    refine follows_step (fun _ => c.set) id h hb (hstep.trans ?_)
    cases scope.alternate limits <;> rfl
  | caret =>
    rw [hsign] at hstep
    refine follows_step (fun _ => c.set)
      (fun set : CharSet => { scope with current := some (Rule.terminal set.negate) })
      h hb (hstep.trans ?_)
    show (charSetOf c.filed c.pos scope.current >>= _) = _
    cases charSetOf c.filed c.pos scope.current <;> rfl
  | ampersand =>
    rw [hsign] at hstep
    refine follows_step id (fun _ => { scope with current := none }) h hb (hstep.trans ?_)
    show (charSetOf c.filed c.pos scope.current >>= _) = _
    cases charSetOf c.filed c.pos scope.current <;> rfl
  | word => exact word_follows h hb hsign
  | equals | closeBracket | closeBrace | hash | other =>
    rw [hsign] at hstep
    exact unexpected_ends hleads hb rfl hstep

/-- The loop through a group or a body keeps up with the reader, however deep the
group lies. -/
theorem body_ends {depth : Nat} (hdepth : groups.length = depth)
    (hopened : ∀ g ∈ groups.head?, g.opened = c.pos - 1) (htext : c.text = #[])
    (h : (c.reached ⟨title, groups, Scope.empty, .idle⟩).Leads limits code answer) :
    Ends (c.body limits code depth) (Read limits code answer title groups c.pos)
      (Stop.Says answer) := by
  induction hroom : limits.nesting - depth using Nat.strong_induction_on
    generalizing depth groups c with
  | h room ih =>
    subst hdepth
    rw [body]
    refine loop_ends (InScope limits code answer title groups c.pos)
      (fun c' scope b h hb => bodyTurn_ends ?_ ?_ h hb)
      (fun c' scope h hend => ending_ends hopened h hend) ⟨Nat.le_refl c.pos, htext, h⟩
    · intro hnone hlt
      rw [if_pos hlt] at hnone
      cases hnone
    · intro group hgroup
      split at hgroup
      · rename_i hlt
        cases hgroup
        refine ⟨hlt, fun c g hg hin => ih _ (by omega) rfl ?_ hin.text hin.leads rfl⟩
        rintro _ ⟨⟩
        exact hg
      · cases hgroup

/-! ## Sources -/

/-- What the reader has of a title whose first byte the scanner remembers. -/
def title? (c : Scanner) (start : Option Nat) : Option Title :=
  start.map fun offset => ⟨offset, nameOf c.text⟩

/-- The cursor stands outside of the bodies, perhaps behind a title. -/
structure InSource (limits : Limits) (code : Bytes)
    (answer : Except GrammarError (List Rule))
    (c : Scanner) (start : Option Nat) : Prop where
  text : start = none → c.text = #[]
  leads :
    (⟨c.filed, c.set, c.pos, .between (c.title? start)⟩ : State).Leads limits code answer

theorem sourceTurn_ends {start : Option Nat} (h : InSource limits code answer c start)
    (hb : code[c.pos]? = some b) :
    Ends (c.sourceTurn limits code start b)
      (Keeps (InSource limits code answer) (fun _ => False) c.pos)
      (Stop.Says answer) := by
  obtain ⟨htext, h⟩ := h
  have hstep :
      (⟨c.filed, c.set, c.pos, .between (c.title? start)⟩ : State).stepPhase limits b =
        State.between limits ⟨c.filed, c.set, c.pos, .between (c.title? start)⟩
          (c.title? start) b := rfl
  unfold State.between at hstep
  unfold sourceTurn
  cases hsign : Sign.of b with
  | blank | dash =>
    rw [hsign] at hstep
    exact ⟨Nat.lt_succ_self c.pos, htext, h.next hb hstep⟩
  | percent =>
    rw [hsign] at hstep
    refine (comment_ends (s := ⟨c.filed, c.set, c.pos, .comment c.pos (c.title? start)⟩)
      (fun pos b hb => ?_) (fun pos => rfl) (h.next hb hstep)).bind ?_
    · exact congrArg Except.ok (congrArg _ (if_neg hb))
    · rintro _ ⟨pos, b, rfl, hlt, hb, hclosing, h⟩
      have hended :
          (⟨c.filed, c.set, pos, .comment c.pos (c.title? start)⟩ : State).stepPhase
            limits b = .ok ⟨c.filed, c.set, pos, .between (c.title? start)⟩ :=
        congrArg Except.ok (congrArg _ (if_pos hclosing))
      exact ⟨Nat.lt_succ_of_lt hlt, htext, h.next hb hended⟩
  | equals =>
    rw [hsign] at hstep
    cases start with
    | none => exact unexpected_ends h hb rfl hstep
    | some offset =>
      have hbody := h.next hb hstep
      refine (body_ends (c := c.withoutText.advance) rfl ?_ rfl hbody).bind ?_
      · exact nofun
      · rintro ⟨c', folded⟩ ⟨hlt, htext', hcloses⟩
        exact (told_ends hcloses).bind fun filed h => ⟨hlt, fun _ => htext', h⟩
  | word =>
    rw [hsign] at hstep
    cases start with
    | none =>
      refine (readText_ends (s := fun text => ⟨c.filed, c.set, c.pos, .naming c.pos text⟩)
        (htext rfl) (fun text pos b hb => ?_) (fun hclosed => ?_)
          (leads_naming hb hsign h)).bind ?_
      · show (if Sign.of b = .word then _ else _) = _
        rw [if_pos hb]
        cases push limits text b <;> rfl
      · exact absurd hsign (ne_word_of_closed hclosed hb)
      · rintro _ ⟨pos, text, rfl, hle, -, -, hclosed, h⟩
        refine ⟨Nat.lt_succ_of_le hle, nofun, h.congr rfl (fun _ => rfl) fun b hb => ?_⟩
        exact if_neg (ne_word_of_closed hclosed hb)
    | some offset => exact unexpected_ends h hb rfl hstep
  | _ =>
    rw [hsign] at hstep
    cases start <;> exact unexpected_ends h hb rfl hstep

/-- Whatever an earlier source has left in its registers, the scanner comes to what
the reader comes to. It never asks for a byte where there is none, and none of its
loops goes round without getting on. -/
theorem source_eq (c : Scanner) :
    c.source limits code = told (compile limits c.filed code) := by
  have hends :
      Ends (c.source limits code) (fun rules => compile limits c.filed code = .ok rules)
        (Stop.Says (compile limits c.filed code)) := by
    refine Ends.bind
      (loop_ends (Q := fun c' => compile limits c.filed code = .ok c'.filed)
        (InSource limits code (compile limits c.filed code)) (fun c' start b h hb => ?_)
        (fun c' start h hend => ?_) ⟨fun _ => rfl, rfl⟩) ?_
    · refine (sourceTurn_ends h hb).imp (fun t ht => ?_) fun _ => id
      cases t with
      | next c'' start => exact ht
      | leave c'' => exact ht.elim
    · have hfinish := h.leads.finish hend
      cases start with
      | none => exact hfinish.symm
      | some offset => exact hfinish.symm
    · exact fun c' h => h
  cases hsource : c.source limits code with
  | ok rules =>
    rw [hsource] at hends
    rw [show compile limits c.filed code = .ok rules from hends]
    rfl
  | error stop =>
    rw [hsource] at hends
    cases stop with
    | told e =>
      rw [show compile limits c.filed code = .error e from hends]
      rfl
    | outside | endless => exact False.elim hends

end Scanner

/-- A source has rules or an error, and what the error says about its offset is
right. The byte that is read in a state is the one at the offset of the state, and
a scanner that goes through the source with a cursor comes to the same end. So no
byte outside of the source is ever asked for. -/
theorem compile_points (limits : Limits) (filed : List Rule) (source : Bytes) :
    (∀ c : Scanner, { c with filed := filed }.source limits source =
        told (compile limits filed source)) ∧
      (∀ before b after s, source = before ++ b :: after →
        (State.start filed).run limits before = .ok s → source[s.offset]? = some b) ∧
      ((∃ rules, compile limits filed source = .ok rules) ∨
        ∃ e, compile limits filed source = .error e ∧ Points source e) := by
  have hstart : (State.start filed).Placed [] := ⟨rfl, nofun⟩
  have hrun (before : Bytes) :
      Ends ((State.start filed).run limits before) (State.Placed before)
        (Settled before) :=
    State.run_ends hstart
  refine ⟨fun c => { c with filed := filed }.source_eq, ?_, ?_⟩
  · rintro before b after s rfl hbefore
    have hplaced := hrun before
    rw [hbefore] at hplaced
    rw [hplaced.offset, List.getElem?_append_right (Nat.le_refl _), Nat.sub_self]
    rfl
  · have hends : Ends (compile limits filed source) (fun _ => True) (Points source) :=
      ((hrun source).imp (fun _ => id) fun _ => Settled.points).bind fun _ =>
        State.finish_ends
    cases h : compile limits filed source with
    | ok rules => exact .inl ⟨rules, rfl⟩
    | error e =>
      rw [h] at hends
      exact .inr ⟨e, rfl, hends⟩

end RuleGraph.Terse
