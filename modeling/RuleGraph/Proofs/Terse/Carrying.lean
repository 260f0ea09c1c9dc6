import Mathlib.Data.List.Induction
import RuleGraph.Proofs.Terse.Bodies
import RuleGraph.Proofs.Terse.Classes
import RuleGraph.Proofs.Terse.Quoting

/-!
# Which set a bracket class begins with

There is one place for a set that is carried over, and a whole source shares it.
The operator that carries over puts the set of the element in front of it there,
and the next bracket class to end clears it, wherever that stands: behind other
elements, inside of a group or in a later declaration. Each class begins with
what it finds there, so its set is the union of that and of its own parts.

`Carries` tells from what has been read of a source which set that is.
-/

namespace RuleGraph.Terse

variable {limits : Limits} {filed : List Rule} {b : UInt8} {sign : Sign} {read : Bytes}

namespace Quoting

/-- How it is quoted what stands behind a stretch of a source. -/
def through (q : Quoting) (source : Bytes) : Quoting :=
  source.foldl after q

theorem through_append (q : Quoting) (first second : Bytes) :
    q.through (first ++ second) = (q.through first).through second :=
  List.foldl_append

theorem Lacks.append {second : Bytes} :
    ∀ {q : Quoting} {first : Bytes}, q.Lacks sign first →
    (q.through first).Lacks sign second → q.Lacks sign (first ++ second)
  | _, [], _, hsecond => hsecond
  | _, _ :: _, hfirst, hsecond => ⟨hfirst.1, hfirst.2.append hsecond⟩

end Quoting

theorem State.quoting_of_run {source : Bytes} : ∀ {s s' : State},
    s.run limits source = .ok s' → s'.phase.quoting = s.phase.quoting.through source := by
  induction source with
  | nil =>
    intro s s' h
    cases h
    rfl
  | cons b rest ih =>
    intro s s' h
    rw [run, List.foldlM_cons] at h
    obtain ⟨next, hstep, hrest⟩ := bind_eq_ok h
    exact (ih hrest).trans (congrArg (·.through rest) (step_stands s b next hstep).1)

/-! ## What is carried over -/

/-- The set that is carried over behind a stretch from the beginning of a source.
It is the set of the operand of the last operator that carries over, if no bracket
class has ended since. -/
inductive Carries (limits : Limits) (filed : List Rule) : Bytes → CharSet → Prop
  | never {between : Bytes} : Quoting.plain.Lacks .ampersand between →
      Carries limits filed between CharSet.empty
  | cleared {before between : Bytes} : Quoting.plain.through before = .plain →
      Quoting.plain.Lacks .ampersand between →
      Carries limits filed (before ++ (ascii [']'] ++ between)) CharSet.empty
  | carried {before between : Bytes} {s : State} {set : CharSet} :
      Quoting.plain.through before = .plain →
        (State.start filed).run limits before = .ok s →
      s.operand? = some set → Quoting.plain.Lacks .ampersand between →
      Quoting.plain.Lacks .closeBracket between →
      Carries limits filed (before ++ (ascii ['&'] ++ between)) set

theorem Quoting.Lacks.keep {sign : Sign} (hsign : sign.keeps = false)
    (h : plain.Lacks sign read)
    (hb : plain.through read = .plain → (Sign.of b).keeps = true) :
    plain.Lacks sign (read ++ [b]) := by
  refine h.append ⟨fun hplain hsame => ?_, trivial⟩
  have hkeep := hb hplain
  rw [hsame, hsign] at hkeep
  cases hkeep

/-- Behind an operator that stands by itself it is quoted as at the beginning. -/
theorem Quoting.through_behind {c : Char} {before : Bytes}
    (hbefore : plain.through before = .plain) (hc : plain.after c.toUInt8 = .plain)
    (between : Bytes) :
    plain.through (before ++ (ascii [c] ++ between)) = plain.through between := by
  rw [through_append, hbefore, through_append]
  exact congrArg (·.through between) hc

theorem Carries.keep {set : CharSet} (h : Carries limits filed read set)
    (hb : Quoting.plain.through read = .plain → (Sign.of b).keeps = true) :
    Carries limits filed (read ++ [b]) set := by
  cases h with
  | never hbetween => exact .never (hbetween.keep rfl hb)
  | cleared hbefore hbetween =>
    rw [Quoting.through_behind hbefore rfl] at hb
    rw [List.append_assoc, List.append_assoc]
    exact .cleared hbefore (hbetween.keep rfl hb)
  | carried hbefore hrun hoperand hbetween hbetween' =>
    rw [Quoting.through_behind hbefore rfl] at hb
    rw [List.append_assoc, List.append_assoc]
    exact .carried hbefore hrun hoperand (hbetween.keep rfl hb) (hbetween'.keep rfl hb)

/-- One byte more of a source. -/
theorem State.carries_step {s s' : State}
    (hread : (State.start filed).run limits read = .ok s)
    (h : Carries limits filed read s.carried) (hstep : s.step limits b = .ok s') :
    Carries limits filed (read ++ [b]) s'.carried := by
  obtain ⟨-, hcarried⟩ := step_stands s b s' hstep
  have hquoting : s.phase.quoting = Quoting.plain.through read := quoting_of_run hread
  by_cases hkeeps : s.phase.quoting = .plain → (Sign.of b).keeps = true
  · rw [carriedBehind_eq hkeeps] at hcarried
    rw [← Option.some.inj hcarried]
    exact h.keep (hquoting ▸ hkeeps)
  · obtain ⟨hplain, hsign⟩ := Classical.not_imp.mp hkeeps
    unfold carriedBehind at hcarried
    rw [hplain] at hcarried hquoting
    cases hb : Sign.of b with
    | ampersand =>
      rw [hb] at hcarried
      rw [eq_of_sign hb rfl]
      exact .carried hquoting.symm hread hcarried trivial trivial
    | closeBracket =>
      rw [hb] at hcarried
      rw [eq_of_sign hb rfl, ← Option.some.inj hcarried]
      exact .cleared hquoting.symm trivial
    | _ =>
      rw [hb] at hsign
      exact absurd rfl hsign

theorem carries_of_run {source : Bytes} {s : State}
    (h : (State.start filed).run limits source = .ok s) :
    Carries limits filed source s.carried := by
  -- The last operator counts, so bytes are added at the end.
  induction source using List.reverseRecOn generalizing s with
  | nil =>
    cases h
    exact .never trivial
  | append_singleton read b ih =>
    rw [State.run_append] at h
    obtain ⟨before, hbefore, hlast⟩ := bind_eq_ok h
    rw [State.run, List.foldlM_cons] at hlast
    obtain ⟨next, hstep, hnext⟩ := bind_eq_ok hlast
    cases hnext
    exact State.carries_step hbefore (ih hbefore) hstep

/-! ## A bracket class in a source -/

/-- A bracket class has just been opened at the offset of `s`. -/
def State.OpensBrackets (s next : State) : Prop :=
  next.filed = s.filed ∧ ∃ body, next.phase = .body body ∧
    body.lexeme = .brackets (Brackets.start s.offset s.carried)

theorem Braces.not_step_openBracket (s : Braces) (hplain : s.figure.quoting = .plain)
    (offset : Nat) :
    Ensures (s.step limits offset ('[').toUInt8) fun _ => False := by
  obtain ⟨opened, low, high, second, figure⟩ := s
  cases figure with
  | idle => exact .error
  | literal start text => cases hplain
  | decimal value => exact .error
  | hexadecimal value => cases value <;> exact .error

theorem Brackets.not_step_openBracket (filed : List Rule) (s : Brackets)
    (hplain : s.member.quoting = .plain) (offset : Nat) :
    Ensures (s.step limits filed offset ('[').toUInt8) fun _ => False := by
  obtain ⟨opened, set, member⟩ := s
  cases member with
  | idle => exact .error
  | comment start | literal start text => cases hplain
  | inclusion start text =>
    unfold step
    dsimp only
    split
    · rename_i hword
      cases hword
    · split
      · exact .error
      · exact .along fun _ _ => .error
  | range inner =>
    exact (Braces.not_step_openBracket inner hplain offset).bind fun _ h => absurd h id

namespace State

variable {s : State}

theorem inBody_openBracket (body : Body) :
    Ensures (s.inBody limits body ('[').toUInt8) s.OpensBrackets :=
  .ok ⟨rfl, _, rfl, rfl⟩

theorem afterName_openBracket (body : Body) (text : Text) :
    Ensures (s.afterName limits body text ('[').toUInt8) s.OpensBrackets := by
  rw [afterName_of_ne fun _ => ⟨by decide, by decide⟩]
  exact Ensures.along fun body _ => inBody_openBracket body

theorem inName_openBracket (body : Body) (text : Text) (lexeme : Text → Lexeme)
    (finish : Except GrammarError Body) :
    Ensures (s.inName limits body text lexeme finish ('[').toUInt8) s.OpensBrackets := by
  unfold inName
  split
  · rename_i hword
    cases hword
  · split
    · exact .error
    · exact .along fun body _ => inBody_openBracket body

/-- An opening bracket that is not quoted opens a bracket class, or is an
error. -/
theorem step_openBracket (hplain : s.phase.quoting = .plain) :
    Ensures (s.stepPhase limits ('[').toUInt8) s.OpensBrackets := by
  obtain ⟨filed, carried, offset, phase⟩ := s
  cases phase with
  | between title => cases title <;> exact .error
  | naming start text => exact .error
  | comment opened title => cases hplain
  | body inner =>
    obtain ⟨title, groups, scope, lexeme⟩ := inner
    cases lexeme with
    | idle => exact .ok ⟨rfl, _, rfl, rfl⟩
    | comment opened | literal opened text => cases hplain
    | inclusion text =>
      exact inName_openBracket ⟨title, groups, scope, .inclusion text⟩ text .inclusion _
    | label opened text =>
      exact inName_openBracket ⟨title, groups, scope, .label opened text⟩ text
        (.label opened) _
    | name text | waiting text => exact afterName_openBracket _ text
    | braces inner =>
      exact (inner.not_step_openBracket hplain offset).bind fun _ h => absurd h id
    | brackets inner =>
      exact (Brackets.not_step_openBracket filed inner hplain offset).bind fun _ h =>
        absurd h id

/-- The state behind a bracket class whose set is this. -/
def EndsClass (set : CharSet) (s : State) : Prop :=
  ∃ body, s.phase = .body body ∧ body.scope.current = some (Rule.terminal set)

/-- One byte in a bracket class that does not close it. -/
theorem stepPhase_brackets {body : Body} {c : Brackets} (hphase : s.phase = .body body)
    (hlexeme : body.lexeme = .brackets c) (b : UInt8) :
    s.stepPhase limits b = (c.step limits s.filed s.offset b).bind fun
      | .going c => .ok (s.toBody (body.reading (.brackets c)))
      | .done set => (body.put limits (Rule.terminal set)).bind fun body =>
        .ok { s with carried := CharSet.empty, phase := .body body } := by
  unfold stepPhase stepBody
  rw [hphase]
  dsimp only
  rw [hlexeme]
  rfl

/-- A bracket class is read up to the closing bracket. -/
theorem reads_of_run {inner : Bytes} : ∀ {s s' : State} {body : Body} {c : Brackets},
    s.phase = .body body → body.lexeme = .brackets c →
    c.member.quoting.through inner = .plain → c.member.quoting.Lacks .closeBracket inner →
    s.run limits (inner ++ ascii [']']) = .ok s' →
    ∃ set, Reads (Brackets.step limits s.filed) set c s.offset (inner ++ ascii [']']) ∧
      s'.EndsClass set := by
  induction inner with
  | nil =>
    intro s s' body c hphase hlexeme hplain _ h
    obtain ⟨next, hstep, hnext⟩ := run_cons_eq_ok h
    cases hnext
    rw [stepPhase_brackets hphase hlexeme] at hstep
    obtain ⟨reading, hreading, hstep⟩ := bind_eq_ok hstep
    have hquotes := Brackets.step_quotes s.filed c s.offset _ reading hreading
    cases reading with
    | going c' => cases hquotes.2 hplain
    | done set =>
      obtain ⟨body', hput, hstep⟩ := bind_eq_ok hstep
      cases hstep
      exact ⟨set, .last hreading, body', rfl, (Body.put_rests body' hput).1⟩
  | cons b inner ih =>
    intro s s' body c hphase hlexeme hplain hlacks h
    obtain ⟨next, hstep, hrest⟩ := run_cons_eq_ok h
    rw [stepPhase_brackets hphase hlexeme] at hstep
    obtain ⟨reading, hreading, hstep⟩ := bind_eq_ok hstep
    have hquotes := Brackets.step_quotes s.filed c s.offset _ reading hreading
    cases reading with
    | done set => exact absurd hquotes.2 (hlacks.1 hquotes.1)
    | going c' =>
      cases hstep
      rw [Quoting.through, List.foldl_cons, ← hquotes.1] at hplain
      rw [Quoting.Lacks, ← hquotes.1] at hlacks
      obtain ⟨set, hreads, hends⟩ := ih rfl rfl hplain hlacks.2 hrest
      exact ⟨set, .going hreading hreads, hends⟩

end State

/-- In a source that compiles, the set of a bracket class is the union of what
its parts add and of the set that is carried over in front of it. -/
theorem compile_class_set {before inner after : Bytes} {rules : List Rule}
    (hbefore : Quoting.plain.through before = .plain)
    (hinner : Quoting.plain.through inner = .plain)
    (hlacks : Quoting.plain.Lacks .closeBracket inner)
    (h : compile limits filed
      (before ++ ((ascii ['['] ++ (inner ++ ascii [']'])) ++ after)) = .ok rules) :
    ∃ s s' parts carried set, (State.start filed).run limits before = .ok s ∧
      s.run limits (ascii ['['] ++ (inner ++ ascii [']'])) = .ok s' ∧ s'.EndsClass set ∧
      Bracketed parts (ascii ['['] ++ (inner ++ ascii [']'])) ∧
      Carries limits filed before carried ∧
      unionOf? s.filed carried parts = some set := by
  obtain ⟨last, hrun, -⟩ := bind_eq_ok h
  rw [State.run_append] at hrun
  obtain ⟨s, hs, hrun⟩ := bind_eq_ok hrun
  rw [State.run_append] at hrun
  obtain ⟨s', hs', -⟩ := bind_eq_ok hrun
  obtain ⟨opened, hopens, hclass⟩ := State.run_cons_eq_ok hs'
  have hplain : s.phase.quoting = .plain := (State.quoting_of_run hs).trans hbefore
  obtain ⟨hfiled, body, hbody, hlexeme⟩ := State.step_openBracket hplain opened hopens
  have hbody' : ({ opened with offset := s.offset + 1 } : State).phase = .body body :=
    hbody
  obtain ⟨set, hreads, hends⟩ := State.reads_of_run hbody' hlexeme hinner hlacks hclass
  obtain ⟨parts, hlaid, hunion⟩ := exists_parts hreads
  exact ⟨s, s', parts, s.carried, set, hs, hs', hends, ⟨_, rfl, hlaid⟩, carries_of_run hs,
    hfiled ▸ hunion⟩

/-- The operator stands at the end of a declaration, and the class in the next
one. -/
theorem compile_class_set_next :
    let before := stringBytes "a = [x] &\nb = "
    let inner := stringBytes "y"
    let carried := CharSet.character 'x'.toNat
    let set := carried.union (CharSet.character 'y'.toNat)
    compile Limits.usual [] (before ++ ((ascii ['['] ++ (inner ++ ascii [']'])) ++ [])) =
        .ok [(Rule.sequence []).named "a", (Rule.terminal set).named "b"] ∧
      Carries Limits.usual [] before carried ∧
      ∃ s s' parts carried set, (State.start []).run Limits.usual before = .ok s ∧
        s.run Limits.usual (ascii ['['] ++ (inner ++ ascii [']'])) = .ok s' ∧
        s'.EndsClass set ∧ Bracketed parts (ascii ['['] ++ (inner ++ ascii [']'])) ∧
        Carries Limits.usual [] before carried ∧
        unionOf? s.filed carried parts = some set := by
  intro before inner carried set
  have hcompile : compile Limits.usual []
      (before ++ ((ascii ['['] ++ (inner ++ ascii [']'])) ++ [])) =
        .ok [(Rule.sequence []).named "a", (Rule.terminal set).named "b"] := rfl
  have hcarries : Carries Limits.usual [] before carried :=
    @Carries.carried Limits.usual [] (stringBytes "a = [x] ")
      (stringBytes "\nb = ") _ carried (by decide) rfl rfl (by decide) (by decide)
  exact ⟨hcompile, hcarries,
    compile_class_set (by decide) (by decide) (by decide) hcompile⟩

/-- A set is carried over to a class that does not stand behind the operator, but
in the next declaration, behind another element or outside of the group. -/
theorem compile_class_set_elsewhere :
    let x := CharSet.character 'x'.toNat
    let y := CharSet.character 'y'.toNat
    compile Limits.usual [] (stringBytes "a = [x] &\nb = [y]") =
        .ok [(Rule.sequence []).named "a", (Rule.terminal (x.union y)).named "b"] ∧
      compile Limits.usual [] (stringBytes "r = [x] & 'z' [y]") =
        .ok [(Rule.sequence [Rule.string ['z'], Rule.terminal (x.union y)]).named "r"] ∧
      compile Limits.usual [] (stringBytes "r = ([x] &) [y]") =
        .ok [(Rule.terminal (x.union y)).named "r"] ∧
      x.union y ≠ y := by
  exact ⟨rfl, rfl, rfl, by decide⟩

end RuleGraph.Terse
