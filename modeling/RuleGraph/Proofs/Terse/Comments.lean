import RuleGraph.Proofs.Terse.Offsets
import RuleGraph.Proofs.Terse.Quoting

/-!
# Comments in place of white space

A comment may stand wherever a blank may, and what has been read is the same
behind it as behind the blank. Outside of declarations, in bodies and in bracket
classes this takes a branch of each of them, and in the middle of a name the
comment ends the name as a blank does.

There is one place in which the two differ. A bare name outside of every group
may be that of the next declaration, and it waits for its equals sign behind
blanks, but not behind a comment. If the equals sign does follow, the comment
has made a reference of the name and the source is in error.
-/

namespace RuleGraph.Terse

/-! ## Where a comment may begin -/

def Member.admitsComment : Member → Bool
  | .idle | .inclusion _ _ => true
  | .comment _ | .literal _ _ | .range _ => false

def Lexeme.admitsComment : Lexeme → Bool
  | .idle | .inclusion _ | .label _ _ | .name _ | .waiting _ => true
  | .brackets inner => inner.member.admitsComment
  | .comment _ | .literal _ _ | .braces _ => false

/-- Nothing is being read to which a percent sign would belong: a comment, a
literal or a number in braces. -/
def Phase.admitsComment : Phase → Bool
  | .between _ | .naming _ _ => true
  | .comment _ _ => false
  | .body inner => inner.lexeme.admitsComment

def Lexeme.isName : Lexeme → Bool
  | .name _ | .waiting _ => true
  | .idle | .comment _ | .literal _ _ | .inclusion _ | .label _ _ | .braces _
  | .brackets _ => false

/-- A bare name stands here that may still turn out to be the name of the next
declaration. -/
def Phase.mayDeclare : Phase → Bool
  | .body inner => inner.groups.isEmpty && inner.lexeme.isName
  | .between _ | .comment _ _ | .naming _ _ => false

/-! ## Ending a comment -/

def Member.uncommented : Member → Member
  | .comment _ => .idle
  | .idle => .idle
  | .literal opened text => .literal opened text
  | .inclusion opened text => .inclusion opened text
  | .range inner => .range inner

def Brackets.uncommented (s : Brackets) : Brackets :=
  { s with member := s.member.uncommented }

def Lexeme.uncommented : Lexeme → Lexeme
  | .comment _ => .idle
  | .brackets inner => .brackets inner.uncommented
  | .idle => .idle
  | .literal opened text => .literal opened text
  | .inclusion text => .inclusion text
  | .label opened text => .label opened text
  | .name text => .name text
  | .waiting text => .waiting text
  | .braces inner => .braces inner

def Phase.uncommented : Phase → Phase
  | .comment _ title => .between title
  | .body inner => .body (inner.reading inner.lexeme.uncommented)
  | .between title => .between title
  | .naming start text => .naming start text

/-- The state at the end of the comment that is being read, if one is. -/
def State.uncommented (s : State) : State :=
  s.inPhase s.phase.uncommented

variable {limits : Limits} {filed : List Rule} {s : State} {body : Body}
  {text after : Bytes} {b : UInt8}

theorem Figure.quoting_ne_comment (figure : Figure) : figure.quoting ≠ .comment := by
  cases figure <;> exact nofun

theorem Phase.quoting_of_admitsComment {phase : Phase} (h : phase.admitsComment = true) :
    phase.quoting = .plain := by
  cases phase with
  | between _ | naming _ _ => rfl
  | comment _ _ => cases h
  | body inner =>
    obtain ⟨title, groups, scope, lexeme⟩ := inner
    cases lexeme with
    | idle | inclusion _ | label _ _ | name _ | waiting _ => rfl
    | brackets inner =>
      obtain ⟨opened, set, member⟩ := inner
      cases member with
      | idle | inclusion _ _ => rfl
      | comment _ | literal _ _ | range _ => cases h
    | comment _ | literal _ _ | braces _ => cases h

/-! ## The text of a comment -/

namespace State

/-- In a comment only a percent sign does anything. -/
theorem stepPhase_comment (hs : s.phase.quoting = .comment) (b : UInt8) :
    s.stepPhase limits b = .ok (if Sign.of b = .percent then s.uncommented else s) := by
  obtain ⟨filed, carried, offset, phase⟩ := s
  unfold stepPhase
  cases phase with
  | between title | naming start text => cases hs
  | comment opened title =>
    dsimp only
    split <;> rfl
  | body inner =>
    obtain ⟨title, groups, scope, lexeme⟩ := inner
    unfold stepBody
    cases lexeme with
    | comment opened =>
      dsimp only
      split <;> rfl
    | braces inner => exact absurd hs inner.figure.quoting_ne_comment
    | brackets inner =>
      obtain ⟨opened, set, member⟩ := inner
      unfold Brackets.step
      cases member with
      | comment opened =>
        dsimp only
        split <;> rfl
      | range inner => exact absurd hs inner.figure.quoting_ne_comment
      | _ => cases hs
    | _ => cases hs

/-- What stands behind a comment is read as if the comment had ended already. -/
theorem toOption_complete_comment (htext : ∀ b ∈ text, Sign.of b ≠ .percent)
    (hs : s.phase.quoting = .comment) :
    (s.complete limits (text ++ (ascii ['%'] ++ after))).toOption =
      (s.uncommented.complete limits after).toOption := by
  induction text generalizing s with
  | nil =>
    have hpercent : Sign.of ('%').toUInt8 = .percent := rfl
    show (s.complete limits (('%').toUInt8 :: after)).toOption = _
    rw [complete_cons, step, stepPhase_comment hs, if_pos hpercent]
    have hmoved : ({ s.uncommented with offset := s.offset + 1 } : State).unplaced =
        s.uncommented.unplaced := rfl
    exact toOption_complete_of_unplaced hmoved after
  | cons b text ih =>
    obtain ⟨hb, htext⟩ := List.forall_mem_cons.mp htext
    rw [List.cons_append, complete_cons, step, stepPhase_comment hs, if_neg hb]
    have hmoved : ({ s with offset := s.offset + 1 } : State).phase.quoting = .comment :=
      hs
    refine (ih htext hmoved).trans (toOption_complete_of_unplaced ?_ after)
    rfl

end State

/-! ## A percent sign and a blank -/

theorem percent_ne_word : Sign.of ('%').toUInt8 ≠ .word := by
  decide

theorem space_ne_word : Sign.of (' ').toUInt8 ≠ .word := by
  decide

theorem Brackets.step_uncommented {s : Brackets} (h : s.member.admitsComment = true)
    (offset : Nat) :
    Fades (Reading.map uncommented) (s.step limits filed offset ('%').toUInt8)
      (s.step limits filed offset (' ').toUInt8) := by
  obtain ⟨opened, set, member⟩ := s
  cases member with
  | idle => rfl
  | inclusion opened text =>
    unfold step
    dsimp only
    rw [if_neg percent_ne_word, if_neg space_ne_word]
    split
    · trivial
    · exact .along (adopt filed _ opened text) fun s => rfl
  | comment _ | literal _ _ | range _ => cases h

namespace State

theorem inBody_uncommented (s : State) (body : Body) :
    Fades uncommented (s.inBody limits body ('%').toUInt8)
      (s.inBody limits body (' ').toUInt8) :=
  rfl

theorem inName_uncommented (s : State) (body : Body) (text : Text)
    (lexeme : Text → Lexeme) (finish : Except GrammarError Body) :
    Fades uncommented (s.inName limits body text lexeme finish ('%').toUInt8)
      (s.inName limits body text lexeme finish (' ').toUInt8) := by
  unfold inName
  rw [if_neg percent_ne_word, if_neg space_ne_word]
  split
  · trivial
  · exact .along finish fun body => inBody_uncommented s body

theorem afterName_uncommented (s : State) (h : body.groups.isEmpty = false)
    (text : Text) :
    Fades uncommented (s.afterName limits body text ('%').toUInt8)
      (s.afterName limits body text (' ').toUInt8) := by
  have hnot {P : Prop} (hempty : body.groups.isEmpty = true) : P := by
    rw [h] at hempty
    cases hempty
  rw [afterName_of_ne hnot, afterName_of_ne hnot]
  exact .along (body.refer limits text) fun body => inBody_uncommented s body

/-- Where a comment may begin, a percent sign leads to the same state as a blank,
except that a comment has been opened. -/
theorem stepPhase_uncommented (hadmits : s.phase.admitsComment = true)
    (hname : s.phase.mayDeclare = false) :
    Fades uncommented (s.stepPhase limits ('%').toUInt8)
      (s.stepPhase limits (' ').toUInt8) := by
  obtain ⟨filed, carried, offset, phase⟩ := s
  cases phase with
  | between title | naming start text => rfl
  | comment opened title => cases hadmits
  | body inner =>
    obtain ⟨title, groups, scope, lexeme⟩ := inner
    cases lexeme with
    | idle => rfl
    | inclusion text =>
      exact inName_uncommented _ ⟨title, groups, scope, .inclusion text⟩ text .inclusion _
    | label opened text =>
      exact inName_uncommented _ ⟨title, groups, scope, .label opened text⟩ text
        (.label opened) _
    | name text | waiting text =>
      exact afterName_uncommented _ ((Bool.and_true _).symm.trans hname) text
    | brackets inner =>
      refine (Brackets.step_uncommented hadmits offset).bind fun reading => ?_
      cases reading with
      | going inner => rfl
      | done set =>
        unfold Body.put
        dsimp only [Reading.map]
        cases scope.put limits (Rule.terminal set) with
        | error e => trivial
        | ok scope => rfl
    | comment _ | literal _ _ | braces _ => cases hadmits

/-- A name that may declare ends at every byte that is not part of it. -/
theorem stepPhase_name (limits : Limits) (hname : s.phase.mayDeclare = true) :
    ∃ (body : Body) (name : Text), body.groups.isEmpty = true ∧
      ∀ b, Sign.of b ≠ .word → s.stepPhase limits b = s.afterName limits body name b := by
  obtain ⟨filed, carried, offset, phase⟩ := s
  cases phase with
  | between _ | comment _ _ | naming _ _ => cases hname
  | body inner =>
    obtain ⟨title, groups, scope, lexeme⟩ := inner
    obtain ⟨hempty, hlexeme⟩ := (Bool.and_eq_true _ _).mp hname
    cases lexeme with
    | name text => exact ⟨_, text, hempty, fun b hb => if_neg hb⟩
    | waiting text => exact ⟨_, text, hempty, fun b hb => rfl⟩
    | _ => cases hlexeme

/-- A comment makes a reference of a name that may declare. -/
theorem toOption_complete_named {name : Text} (htext : ∀ b ∈ text, Sign.of b ≠ .percent)
    (hstep : s.stepPhase limits ('%').toUInt8 =
      s.afterName limits body name ('%').toUInt8) :
    (s.complete limits (ascii ['%'] ++ (text ++ (ascii ['%'] ++ after)))).toOption =
      ((body.refer limits name).bind fun next =>
        (s.toBody next).complete limits after).toOption := by
  show (s.complete limits (('%').toUInt8 :: _)).toOption = _
  rw [complete_cons, step, hstep, afterName_of_ne fun _ => ⟨by decide, by decide⟩]
  cases hrefer : body.refer limits name with
  | error e => rfl
  | ok next =>
    have hidle := Body.lexeme_of_put hrefer
    obtain ⟨title, groups, scope, lexeme⟩ := next
    cases hidle
    refine (toOption_complete_comment htext ?_).trans
      (toOption_complete_of_unplaced ?_ after)
    · rfl
    · rfl

/-- In a body a bare equals sign is an error, also behind blanks. -/
theorem complete_declared (hlexeme : body.lexeme = .idle) (hafter : ¬Undeclared after)
    (s : State) : ((s.toBody body).complete limits after).toOption = none := by
  induction after generalizing s with
  | nil => exact absurd trivial hafter
  | cons b after ih =>
    rw [Undeclared] at hafter
    split at hafter
    · rename_i hblank
      rw [complete_idle_blank hlexeme hblank]
      exact ih hafter _
    · rw [complete_cons, step, stepPhase_idle hlexeme]
      unfold inBody
      rw [Decidable.of_not_not hafter]
      rfl

/-- From a state in which a comment may begin, what stands behind one is read as
if it stood behind a blank. -/
theorem toOption_complete_commented (htext : ∀ b ∈ text, Sign.of b ≠ .percent)
    (hadmits : s.phase.admitsComment = true)
    (hname : s.phase.mayDeclare = true → Undeclared after) :
    (s.complete limits (ascii ['%'] ++ (text ++ (ascii ['%'] ++ after)))).toOption =
      (s.complete limits (ascii [' '] ++ after)).toOption := by
  cases h : s.phase.mayDeclare with
  | false =>
    have hquoting := Phase.quoting_of_admitsComment hadmits
    have hcomment : (Quoting.plain.after ('%').toUInt8) = .comment := rfl
    refine (congrArg _ s.complete_step).trans
      (.trans ?_ (congrArg _ s.complete_step).symm)
    refine (stepPhase_uncommented hadmits h).toOption_bind fun next hnext => ?_
    have hstep : s.step limits ('%').toUInt8 =
        .ok { next with offset := s.offset + 1 } := by
      rw [step, hnext]
      rfl
    obtain ⟨hnext, -⟩ := step_stands s _ _ hstep
    rw [hquoting, hcomment] at hnext
    exact toOption_complete_comment htext hnext
  | true =>
    obtain ⟨body, name, hempty, hstep⟩ := stepPhase_name limits h
    have hspace : s.stepPhase limits (' ').toUInt8 =
        .ok (s.toBody (body.reading (.waiting name))) := by
      rw [hstep _ space_ne_word]
      unfold afterName
      rw [hempty]
      rfl
    have hwaiting : s.complete limits (ascii [' '] ++ after) =
        (body.refer limits name).bind fun next =>
          ({ s with offset := s.offset + 1 }.toBody next).complete limits after := by
      refine s.complete_step.trans ?_
      rw [hspace]
      exact complete_waiting { s with offset := s.offset + 1 } body name fun _ => hname h
    rw [toOption_complete_named htext (hstep _ percent_ne_word), hwaiting]
    refine (Fades.refl _).toOption_bind fun next _ =>
      toOption_complete_of_unplaced ?_ after
    rfl

end State

/-! ## Sources -/

/-- A comment in place of a blank makes no difference to the rules of a source,
or to whether it has any. The one exception is a bare name outside of every group
in front of an equals sign: with a comment behind the name the source has none. -/
theorem compile_commented {before text after : Bytes}
    (htext : ∀ b ∈ text, Sign.of b ≠ .percent)
    (hbefore : (State.start filed).run limits before = .ok s)
    (hadmits : s.phase.admitsComment = true) :
    let commented := compile limits filed
      (before ++ (ascii ['%'] ++ (text ++ (ascii ['%'] ++ after))))
    let spaced := compile limits filed (before ++ (ascii [' '] ++ after))
    ((s.phase.mayDeclare = true → Undeclared after) →
      commented.toOption = spaced.toOption) ∧
      (s.phase.mayDeclare = true → ¬Undeclared after → commented.toOption = none) := by
  dsimp only
  rw [compile_append hbefore, compile_append hbefore]
  refine ⟨State.toOption_complete_commented htext hadmits, fun hname hafter => ?_⟩
  obtain ⟨body, name, -, hstep⟩ := State.stepPhase_name limits hname
  rw [State.toOption_complete_named htext (hstep _ percent_ne_word)]
  cases hrefer : body.refer limits name with
  | error e => rfl
  | ok next => exact State.complete_declared (Body.lexeme_of_put hrefer) hafter s

/-- The comment stands behind a name that is not declared after all, in front of
one that is. -/
theorem compile_commented_reference :
    let s : State := ⟨[], CharSet.empty, 9, .body ⟨"r", [],
      ⟨some (Rule.string ['a']), [], []⟩, .name #[0x62]⟩⟩
    (State.start []).run Limits.usual (stringBytes "r = 'a' b") = .ok s ∧
      s.phase.admitsComment = true ∧ s.phase.mayDeclare = true ∧
      (compile Limits.usual [] (stringBytes "r = 'a' b% = %c = 'd'")).toOption =
        (compile Limits.usual [] (stringBytes "r = 'a' b c = 'd'")).toOption ∧
      (compile Limits.usual [] (stringBytes "r = 'a' b c = 'd'")).toOption =
        some [(Rule.sequence [Rule.string ['a'], Rule.reference "b"]).named "r",
          (Rule.string ['d']).named "c"] := by
  intro s
  have hbefore : (State.start []).run Limits.usual (stringBytes "r = 'a' b") = .ok s :=
    eq_ok_of_toOption (by decide +kernel)
  have hafter : Undeclared (stringBytes "c = 'd'") :=
    .of_sign (by decide +kernel) (by decide +kernel)
  have htext : ∀ b ∈ stringBytes " = ", Sign.of b ≠ .percent := by decide +kernel
  have hcommented : stringBytes "r = 'a' b% = %c = 'd'" = stringBytes "r = 'a' b" ++
      (ascii ['%'] ++ (stringBytes " = " ++ (ascii ['%'] ++ stringBytes "c = 'd'"))) := by
    decide +kernel
  have hspaced : stringBytes "r = 'a' b c = 'd'" =
      stringBytes "r = 'a' b" ++ (ascii [' '] ++ stringBytes "c = 'd'") := by
    decide +kernel
  refine ⟨hbefore, rfl, rfl, ?_, by decide +kernel⟩
  rw [hcommented, hspaced]
  exact (compile_commented htext hbefore rfl).1 fun _ => hafter

/-- Behind a bare name that an equals sign follows a comment is an error, and a
blank is not. -/
theorem compile_comment_before_equals :
    let s : State := ⟨[], CharSet.empty, 9, .body ⟨"a", [],
      ⟨some (Rule.string ['x']), [], []⟩, .name #[0x62]⟩⟩
    (State.start []).run Limits.usual (stringBytes "a = 'x' b") = .ok s ∧
      s.phase.admitsComment = true ∧
      compile Limits.usual [] (stringBytes "a = 'x' b%c%= 'y'") =
        .error (.unexpected .rule 12 0x3D) ∧
      compile Limits.usual [] (stringBytes "a = 'x' b = 'y'") =
        .ok [(Rule.string ['x']).named "a", (Rule.string ['y']).named "b"] := by
  exact ⟨rfl, rfl, rfl, rfl⟩

end RuleGraph.Terse
