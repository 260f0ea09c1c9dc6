import RuleGraph.Proofs.Chains
import RuleGraph.Proofs.Terse.Bodies

/-!
# Offsets are for errors only

A state counts the bytes that have been read and notes where things were opened.
All of this goes into errors and nowhere else, so a source that can be read from
one state can be read from every state that is the same without its offsets, and
with the same result. That is what makes a stretch of a source mean the same
wherever it stands.

`unplaced` takes the offsets away. `Fades` relates a step to the same step
without them, and there is one lemma per step as in the comparison of limits.
-/

namespace RuleGraph.Terse

/-! ## States without offsets -/

def Figure.unplaced : Figure → Figure
  | .literal _ text => .literal 0 text
  | .idle => .idle
  | .hexadecimal value => .hexadecimal value
  | .decimal value => .decimal value

def Braces.unplaced (s : Braces) : Braces :=
  ⟨0, s.low, s.high, s.second, s.figure.unplaced⟩

def Member.unplaced : Member → Member
  | .idle => .idle
  | .comment _ => .comment 0
  | .literal _ text => .literal 0 text
  | .inclusion _ text => .inclusion 0 text
  | .range inner => .range inner.unplaced

def Brackets.unplaced (s : Brackets) : Brackets :=
  ⟨0, s.set, s.member.unplaced⟩

def Lexeme.unplaced : Lexeme → Lexeme
  | .idle => .idle
  | .comment _ => .comment 0
  | .literal _ text => .literal 0 text
  | .inclusion text => .inclusion text
  | .label _ text => .label 0 text
  | .name text => .name text
  | .waiting text => .waiting text
  | .braces inner => .braces inner.unplaced
  | .brackets inner => .brackets inner.unplaced

def Group.unplaced (g : Group) : Group :=
  { g with opened := 0 }

def Body.unplaced (s : Body) : Body :=
  ⟨s.title, s.groups.map Group.unplaced, s.scope, s.lexeme.unplaced⟩

def Title.unplaced (t : Title) : Title :=
  { t with start := 0 }

def Phase.unplaced : Phase → Phase
  | .between title => .between (title.map Title.unplaced)
  | .comment _ title => .comment 0 (title.map Title.unplaced)
  | .naming _ text => .naming 0 text
  | .body inner => .body inner.unplaced

def State.unplaced (s : State) : State :=
  ⟨s.filed, s.carried, 0, s.phase.unplaced⟩

def Reading.map {σ σ' ρ : Type} (f : σ → σ') : Reading σ ρ → Reading σ' ρ
  | .going state => .going (f state)
  | .done result => .done result

/-! ## Outcomes without offsets -/

/-- Both outcomes are errors, or the second is what is left of the first. -/
def Fades {α β : Type} (left : α → β) :
    Except GrammarError α → Except GrammarError β → Prop
  | .ok a, .ok b => left a = b
  | .error _, .error _ => True
  | _, _ => False

namespace Fades

variable {α β α' β' : Type} {left : α → β} {left' : α' → β'}

theorem refl (outcome : Except GrammarError α) : Fades id outcome outcome := by
  cases outcome with
  | error e => trivial
  | ok a => rfl

theorem bind {first : Except GrammarError α} {first' : Except GrammarError β}
    {next : α → Except GrammarError α'} {next' : β → Except GrammarError β'}
    (hfirst : Fades left first first')
    (hnext : ∀ a, Fades left' (next a) (next' (left a))) :
    Fades left' (first >>= next) (first' >>= next') := by
  cases first with
  | error e =>
    cases first' with
    | error e' => trivial
    | ok b => cases hfirst
  | ok a =>
    cases first' with
    | error e' => cases hfirst
    | ok b =>
      cases hfirst
      exact hnext a

/-- Where no offset is at stake in the first step, the second one decides. -/
theorem along (first : Except GrammarError α) {next : α → Except GrammarError α'}
    {next' : α → Except GrammarError β'} (hnext : ∀ a, Fades left' (next a) (next' a)) :
    Fades left' (first >>= next) (first >>= next') :=
  (refl first).bind hnext

theorem map {first : Except GrammarError α} {first' : Except GrammarError β} {f : α → α'}
    {f' : β → β'} (hfirst : Fades left first first')
    (hf : ∀ a, left' (f a) = f' (left a)) :
    Fades left' (f <$> first) (f' <$> first') := by
  cases first with
  | error e =>
    cases first' with
    | error e' => trivial
    | ok b => cases hfirst
  | ok a =>
    cases first' with
    | error e' => cases hfirst
    | ok b =>
      cases hfirst
      exact hf a

/-- Of two outcomes that fade to the same, the second succeeds if the first
does. -/
theorem exists_ok {outcome outcome' : Except GrammarError α}
    {faded : Except GrammarError β} (h : Fades left outcome faded)
    (h' : Fades left outcome' faded) {a : α} (hok : outcome = .ok a) : ∃ a',
    outcome' = .ok a' ∧ left a = left a' := by
  subst hok
  cases faded with
  | error e => cases h
  | ok b =>
    cases outcome' with
    | error e => cases h'
    | ok a' => exact ⟨a', rfl, h.trans h'.symm⟩

theorem toOption_bind {outcome : Except GrammarError α} {faded : Except GrammarError β}
    {next : α → Except GrammarError α'} {next' : β → Except GrammarError α'}
    (h : Fades left outcome faded)
    (hnext : ∀ a, outcome = .ok a → (next a).toOption = (next' (left a)).toOption) :
    (outcome.bind next).toOption = (faded.bind next').toOption := by
  cases outcome with
  | error e =>
    cases faded with
    | error e' => rfl
    | ok b => cases h
  | ok a =>
    cases faded with
    | error e' => cases h
    | ok b =>
      cases h
      exact hnext a rfl

end Fades

/-! ## Steps -/

variable {limits : Limits}

theorem Braces.set_unplaced (s : Braces) (value : Nat) :
    (s.set value).unplaced = s.unplaced.set value := by
  unfold Braces.set
  show _ = if s.second then _ else _
  split <;> rfl

theorem Braces.idle_fades (s : Braces) (offset : Nat) (b : UInt8) :
    Fades (Reading.map Braces.unplaced) (s.idle offset b) (s.unplaced.idle 0 b) := by
  unfold Braces.idle
  cases Sign.of b with
  | blank | closeBrace | quote | hash | dash => rfl
  | star => exact congrArg Reading.going (s.set_unplaced _)
  | _ =>
    dsimp only
    cases digitOf? 10 b with
    | none => trivial
    | some d => rfl

theorem Braces.extend_fades (mode : Mode) (base value digit offset offset' : Nat)
    (b : UInt8) :
    Fades id (extend mode base value digit offset b)
      (extend mode base value digit offset' b) := by
  unfold Braces.extend
  split
  · rfl
  · trivial

theorem Braces.step_fades (s : Braces) (offset : Nat) (b : UInt8) :
    Fades (Reading.map Braces.unplaced) (s.step limits offset b)
      (s.unplaced.step limits 0 b) := by
  obtain ⟨opened, low, high, second, figure⟩ := s
  unfold Braces.step
  cases figure with
  | idle => exact idle_fades _ offset b
  | literal opened text =>
    dsimp only [Braces.unplaced, Figure.unplaced]
    split
    · split
      · exact congrArg Reading.going (set_unplaced _ _)
      · trivial
    · exact .along _ fun text => rfl
  | hexadecimal value =>
    dsimp only [Braces.unplaced, Figure.unplaced]
    split
    · exact (extend_fades ..).bind fun value => rfl
    · rename_i value _
      have hset :=
        set_unplaced ⟨opened, low, high, second, .hexadecimal (some value)⟩ value
      exact (congrArg (Braces.idle · 0 b) hset) ▸ idle_fades _ offset b
    · trivial
  | decimal value =>
    dsimp only [Braces.unplaced, Figure.unplaced]
    split
    · exact (extend_fades ..).bind fun value => rfl
    · have hset := set_unplaced ⟨opened, low, high, second, .decimal value⟩ value
      exact (congrArg (Braces.idle · 0 b) hset) ▸ idle_fades _ offset b

theorem Brackets.idle_fades (s : Brackets) (offset : Nat) (b : UInt8) :
    Fades (Reading.map Brackets.unplaced) (s.idle offset b) (s.unplaced.idle 0 b) := by
  unfold Brackets.idle
  cases Sign.of b with
  | blank | closeBracket | percent | openBrace | backslash | quote | word => rfl
  | _ => trivial

theorem Brackets.adopt_fades (filed : List Rule) (s : Brackets) (opened : Nat)
    (text : Text) :
    Fades Brackets.unplaced (s.adopt filed opened text)
      (s.unplaced.adopt filed 0 text) := by
  unfold Brackets.adopt
  cases find? filed (nameOf text) with
  | none => trivial
  | some r =>
    dsimp only
    cases r.charSet? with
    | none => trivial
    | some set => rfl

theorem Brackets.step_fades (filed : List Rule) (s : Brackets) (offset : Nat)
    (b : UInt8) :
    Fades (Reading.map Brackets.unplaced) (s.step limits filed offset b)
      (s.unplaced.step limits filed 0 b) := by
  obtain ⟨opened, set, member⟩ := s
  unfold Brackets.step
  cases member with
  | idle => exact idle_fades _ offset b
  | comment opened =>
    dsimp only [Brackets.unplaced, Member.unplaced]
    split <;> rfl
  | literal opened text =>
    dsimp only [Brackets.unplaced, Member.unplaced]
    split
    · rfl
    · exact .along _ fun text => rfl
  | inclusion opened text =>
    dsimp only [Brackets.unplaced, Member.unplaced]
    split
    · exact .along _ fun text => rfl
    · split
      · trivial
      · exact (adopt_fades filed _ _ text).bind fun s => idle_fades s offset b
  | range inner =>
    refine (Braces.step_fades inner offset b).bind fun reading => ?_
    cases reading <;> rfl

theorem charSetOf_fades (filed : List Rule) (offset offset' : Nat) (r : Option Rule) :
    Fades id (charSetOf filed offset r) (charSetOf filed offset' r) := by
  unfold charSetOf
  dsimp only
  split
  · rfl
  · trivial

namespace Body

theorem put_fades (s : Body) (r : Rule) :
    Fades unplaced (s.put limits r) (s.unplaced.put limits r) :=
  .along _ fun _ => rfl

theorem suffix_fades (s : Body) (offset offset' : Nat) (b : UInt8) (f : Rule → Rule) :
    Fades unplaced (s.suffix offset b f) (s.unplaced.suffix offset' b f) := by
  have hscope : s.unplaced.scope = s.scope := rfl
  unfold suffix
  rw [hscope]
  cases s.scope.current with
  | none => trivial
  | some r => rfl

theorem openGroup_fades (s : Body) (offset : Nat) :
    Fades unplaced (s.openGroup limits offset) (s.unplaced.openGroup limits 0) := by
  unfold openGroup
  have hlength : s.unplaced.groups.length = s.groups.length := List.length_map _
  rw [hlength]
  split
  · exact .along _ fun _ => rfl
  · trivial

theorem closeGroup_fades (s : Body) (g : Group) (groups : List Group) :
    Fades unplaced (s.closeGroup limits g groups)
      (s.unplaced.closeGroup limits g.unplaced (groups.map Group.unplaced)) := by
  refine .along _ fun folded => ?_
  cases folded with
  | none => rfl
  | some r => exact .along _ fun _ => rfl

end Body

namespace State

theorem declare_fades (s : State) (body : Body) {next next' : Phase}
    (hnext : next.unplaced = next') :
    Fades unplaced (s.declare limits body next)
      (s.unplaced.declare limits body.unplaced next') := by
  subst hnext
  exact .along (body.rule limits) fun r => .along (file limits s.filed r) fun _ => rfl

theorem between_fades (s : State) (title : Option Title) (b : UInt8) :
    Fades unplaced (s.between limits title b)
      (s.unplaced.between limits (title.map Title.unplaced) b) := by
  unfold between
  cases Sign.of b with
  | blank | dash | percent => rfl
  | equals => cases title <;> first | rfl | trivial
  | word =>
    cases title with
    | none => exact .along _ fun _ => rfl
    | some title => trivial
  | _ => cases title <;> trivial

theorem inBody_fades (s : State) (body : Body) (b : UInt8) :
    Fades unplaced (s.inBody limits body b)
      (s.unplaced.inBody limits body.unplaced b) := by
  unfold inBody
  dsimp only
  cases Sign.of b with
  | blank | percent | quote | openBracket | backslash | openBrace | atSign => rfl
  | dash =>
    have hempty : body.unplaced.groups.isEmpty = body.groups.isEmpty := List.isEmpty_map
    dsimp only
    rw [hempty]
    split
    · exact declare_fades s body rfl
    · trivial
  | question | star | plus | greater =>
    exact (Body.suffix_fades body _ _ _ _).map fun _ => rfl
  | spacing _ | tilde | less => exact (Body.put_fades body _).map fun _ => rfl
  | openGroup => exact (Body.openGroup_fades body s.offset).map fun _ => rfl
  | closeGroup =>
    obtain ⟨title, groups, scope, lexeme⟩ := body
    cases groups with
    | nil => trivial
    | cons g groups => exact (Body.closeGroup_fades _ g groups).map fun _ => rfl
  | bar => exact .along _ fun _ => rfl
  | caret | ampersand => exact (charSetOf_fades ..).bind fun _ => rfl
  | word => exact .along _ fun _ => rfl
  | _ => trivial

theorem afterName_fades (s : State) (body : Body) (text : Text) (b : UInt8) :
    Fades unplaced (s.afterName limits body text b)
      (s.unplaced.afterName limits body.unplaced text b) := by
  have hempty : body.unplaced.groups.isEmpty = body.groups.isEmpty := List.isEmpty_map
  unfold afterName
  rw [hempty]
  split
  · rfl
  · exact declare_fades s body rfl
  · exact (Body.put_fades body _).bind fun body => inBody_fades s body b

theorem inName_fades (s : State) (body : Body) (text : Text)
    (lexeme lexeme' : Text → Lexeme)
    (hlexeme : ∀ text, (lexeme text).unplaced = lexeme' text)
    {finish finish' : Except GrammarError Body}
    (hfinish : Fades Body.unplaced finish finish') (b : UInt8) :
    Fades unplaced (s.inName limits body text lexeme finish b)
      (s.unplaced.inName limits body.unplaced text lexeme' finish' b) := by
  unfold inName
  split
  · refine .along _ fun text => ?_
    exact congrArg (fun lexeme => s.unplaced.toBody (body.unplaced.reading lexeme))
      (hlexeme text)
  · split
    · trivial
    · exact hfinish.bind fun body => inBody_fades s body b

theorem stepBody_fades (s : State) (body : Body) (b : UInt8) :
    Fades unplaced (s.stepBody limits body b)
      (s.unplaced.stepBody limits body.unplaced b) := by
  obtain ⟨title, groups, scope, lexeme⟩ := body
  unfold stepBody
  cases lexeme with
  | idle => exact inBody_fades s _ b
  | comment opened =>
    show State.unplaced _ = _
    dsimp only [Body.unplaced, Lexeme.unplaced]
    split <;> rfl
  | literal opened text =>
    dsimp only [Body.unplaced, Lexeme.unplaced]
    split
    · exact (Body.put_fades _ _).map fun _ => rfl
    · exact .along _ fun _ => rfl
  | inclusion text =>
    exact inName_fades s _ text .inclusion .inclusion (fun _ => rfl)
      (Body.put_fades _ _) b
  | label opened text =>
    exact inName_fades s _ text _ (.label 0)
      (fun _ => rfl) (Body.suffix_fades _ _ _ _ _) b
  | name text =>
    dsimp only [Body.unplaced, Lexeme.unplaced]
    split
    · exact .along _ fun _ => rfl
    · exact afterName_fades s ⟨title, groups, scope, .name text⟩ text b
  | waiting text => exact afterName_fades s ⟨title, groups, scope, .waiting text⟩ text b
  | braces inner =>
    refine (Braces.step_fades inner s.offset b).bind fun reading => ?_
    cases reading with
    | going _ => rfl
    | done bounds => exact (Body.suffix_fades _ _ _ _ _).map fun _ => rfl
  | brackets inner =>
    refine (Brackets.step_fades s.filed inner s.offset b).bind fun reading => ?_
    cases reading with
    | going _ => rfl
    | done set => exact (Body.put_fades _ _).bind fun _ => rfl

theorem stepPhase_fades (s : State) (b : UInt8) :
    Fades unplaced (s.stepPhase limits b) (s.unplaced.stepPhase limits b) := by
  obtain ⟨filed, carried, offset, phase⟩ := s
  unfold stepPhase
  cases phase with
  | between title => exact between_fades _ title b
  | comment opened title =>
    show State.unplaced _ = _
    dsimp only [State.unplaced, Phase.unplaced]
    split <;> rfl
  | naming start text =>
    dsimp only [State.unplaced, Phase.unplaced]
    split
    · exact .along _ fun _ => rfl
    · exact between_fades ⟨filed, carried, offset, .naming start text⟩ _ b
  | body inner => exact stepBody_fades _ inner b

theorem closeBody_fades (s : State) (body : Body) :
    Fades id (s.closeBody limits body) (s.unplaced.closeBody limits body.unplaced) := by
  obtain ⟨title, groups, scope, lexeme⟩ := body
  cases groups with
  | cons g groups => trivial
  | nil => exact .refl _

theorem finishBody_fades (s : State) (body : Body) :
    Fades id (s.finishBody limits body) (s.unplaced.finishBody limits body.unplaced) := by
  obtain ⟨title, groups, scope, lexeme⟩ := body
  unfold finishBody
  cases lexeme with
  | idle => exact closeBody_fades s _
  | inclusion text =>
    dsimp only [Body.unplaced, Lexeme.unplaced]
    split
    · trivial
    · exact (Body.put_fades _ _).bind fun body => closeBody_fades s body
  | label opened text =>
    dsimp only [Body.unplaced, Lexeme.unplaced]
    split
    · trivial
    · exact (Body.suffix_fades _ _ _ _ _).bind fun body => closeBody_fades s body
  | name text | waiting text =>
    exact (Body.put_fades _ _).bind fun body => closeBody_fades s body
  | _ => trivial

theorem finish_fades (s : State) :
    Fades id (s.finish limits) (s.unplaced.finish limits) := by
  obtain ⟨filed, carried, offset, phase⟩ := s
  cases phase with
  | between title => cases title <;> first | rfl | trivial
  | body inner => exact finishBody_fades _ inner
  | _ => trivial

/-- States that are the same without their offsets come to the same rules. -/
theorem complete_of_unplaced {rules : List Rule} {source : Bytes} :
    ∀ {s s' : State}, s.unplaced = s'.unplaced → s.complete limits source = .ok rules →
      s'.complete limits source = .ok rules := by
  induction source with
  | nil =>
    intro s s' hsame h
    obtain ⟨rules', h', rfl⟩ := (finish_fades s).exists_ok (hsame ▸ finish_fades s') h
    exact h'
  | cons b source ih =>
    intro s s' hsame h
    rw [complete_cons] at h
    obtain ⟨next, hstep, hrest⟩ := bind_eq_ok h
    obtain ⟨placed, hphase, hnext⟩ := bind_eq_ok hstep
    cases hnext
    obtain ⟨placed', hphase', hplaced⟩ :=
      (stepPhase_fades s b).exists_ok (hsame ▸ stepPhase_fades s' b) hphase
    have hmoved : State.unplaced { placed with offset := s.offset + 1 } =
        State.unplaced { placed' with offset := s'.offset + 1 } := hplaced
    exact complete_of_step hphase' (ih hmoved hrest)

theorem toOption_complete_of_unplaced {s s' : State} (hsame : s.unplaced = s'.unplaced)
    (source : Bytes) :
    (s.complete limits source).toOption = (s'.complete limits source).toOption := by
  cases h : s.complete limits source with
  | ok rules => rw [complete_of_unplaced hsame h]
  | error e =>
    cases h' : s'.complete limits source with
    | error e' => rfl
    | ok rules =>
      rw [complete_of_unplaced hsame.symm h'] at h
      cases h

end State

end RuleGraph.Terse
