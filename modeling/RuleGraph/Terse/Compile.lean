import RuleGraph.Terse.Body

/-!
# Reading a terse source

A source is read byte by byte. What has been read is summed up in a `State`, and
a byte leads from one state to the next or to an error, so reading one source
after another is reading on from the state that the first has led to.

Two things outlast a declaration: the rules declared so far, which a later body
may include, and a character set that was carried over and not yet taken up by a
bracket class.

`step` never looks ahead. Where the end of something shows only in the byte
after it, that byte is read twice: it ends what was going on, and then it is
read in the state that this has led to.
-/

namespace RuleGraph.Terse

/-- A name that an equals sign has to follow. -/
structure Title where
  start : Nat
  name : String
deriving DecidableEq, Repr

/-- Where in a source reading stands. -/
inductive Phase
  /-- Outside of the bodies, perhaps after a name. -/
  | between (title : Option Title)
  | comment (opened : Nat) (title : Option Title)
  | naming (start : Nat) (text : Text)
  | body (body : Body)
deriving DecidableEq

structure State where
  filed : List Rule
  /-- A character set for the next bracket class. -/
  carried : CharSet
  offset : Nat
  phase : Phase
deriving DecidableEq

def file (limits : Limits) (filed : List Rule) (r : Rule) :
    Except GrammarError (List Rule) :=
  if filed.length < limits.rules then .ok (filed ++ [r])
  else .error (.exceeds .rules limits.rules)

namespace State

/-- The beginning of a source that comes after the declaration of some
rules. -/
def start (filed : List Rule) : State :=
  ⟨filed, CharSet.empty, 0, .between none⟩

def inPhase (s : State) (phase : Phase) : State :=
  { s with phase := phase }

def toBody (s : State) (body : Body) : State :=
  s.inPhase (.body body)

/-- Ends a declaration and goes on in another phase. -/
def declare (limits : Limits) (s : State) (body : Body) (next : Phase) :
    Except GrammarError State := do
  let r ← body.rule limits
  let filed ← file limits s.filed r
  return { s with filed := filed, phase := next }

def between (limits : Limits) (s : State) (title : Option Title) (b : UInt8) :
    Except GrammarError State :=
  match Sign.of b, title with
  | .blank, _ | .dash, _ => .ok (s.inPhase (.between title))
  | .percent, _ => .ok (s.inPhase (.comment s.offset title))
  | .equals, some title => .ok (s.toBody (Body.start title.name))
  | .word, none => do
    let text ← push limits #[] b
    return s.inPhase (.naming s.offset text)
  | _, _ => .error (.unexpected .topLevel s.offset b)

def inBody (limits : Limits) (s : State) (body : Body) (b : UInt8) :
    Except GrammarError State :=
  let unexpected := .error (.unexpected .rule s.offset b)
  let going := fun lexeme => .ok (s.toBody (body.reading lexeme))
  let put := fun r => s.toBody <$> body.put limits r
  let suffix := fun f => s.toBody <$> body.suffix s.offset b f
  match Sign.of b with
  | .blank => going .idle
  | .dash =>
    if body.groups.isEmpty then s.declare limits body (.between none) else unexpected
  | .percent => going (.comment s.offset)
  | .quote => going (.literal s.offset #[])
  | .openBracket => going (.brackets (Brackets.start s.offset s.carried))
  | .backslash => going (.inclusion #[])
  | .openBrace => going (.braces (Braces.start s.offset))
  | .atSign => going (.label s.offset #[])
  | .question => suffix (·.repeated Bound.optional)
  | .star => suffix (·.repeated Bound.star)
  | .plus => suffix (·.repeated Bound.plus)
  | .greater => suffix Rule.lookahead
  | .spacing contract => put (Rule.spacing contract)
  | .tilde => put Rule.completion
  | .less => put Rule.decision
  | .openGroup => s.toBody <$> body.openGroup limits s.offset
  | .closeGroup =>
    match body.groups with
    | [] => unexpected
    | g :: groups => s.toBody <$> body.closeGroup limits g groups
  | .bar => do
    let scope ← body.scope.alternate limits
    return s.toBody { body with scope := scope, lexeme := .idle }
  | .caret => do
    let set ← charSetOf s.filed s.offset body.scope.current
    return s.toBody (body.replace (Rule.terminal set.negate))
  | .ampersand => do
    let set ← charSetOf s.filed s.offset body.scope.current
    let scope := { body.scope with current := none }
    return { s with
      carried := set, phase := .body { body with scope := scope, lexeme := .idle } }
  | .word => do
    let text ← push limits #[] b
    going (.name text)
  | .equals | .closeBracket | .closeBrace | .hash | .other => unexpected

def afterName (limits : Limits) (s : State) (body : Body) (text : Text) (b : UInt8) :
    Except GrammarError State :=
  match body.groups.isEmpty, Sign.of b with
  | true, .blank => .ok (s.toBody (body.reading (.waiting text)))
  | true, .equals => s.declare limits body (.body (Body.start (nameOf text)))
  | _, _ => do
    let body ← body.refer limits text
    s.inBody limits body b

/-- Reads a byte after a backslash or an at sign, where `finish` is what to do
with the name. -/
def inName (limits : Limits) (s : State) (body : Body) (text : Text)
    (lexeme : Text → Lexeme) (finish : Except GrammarError Body) (b : UInt8) :
    Except GrammarError State :=
  if Sign.of b = .word then do
    let text ← push limits text b
    return s.toBody (body.reading (lexeme text))
  else if text.isEmpty then .error (.unexpected .name s.offset b)
  else do
    let body ← finish
    s.inBody limits body b

def stepBody (limits : Limits) (s : State) (body : Body) (b : UInt8) :
    Except GrammarError State :=
  match body.lexeme with
  | .idle => s.inBody limits body b
  | .comment opened =>
    .ok (s.toBody
      (body.reading (if Sign.of b = .percent then .idle else .comment opened)))
  | .literal opened text =>
    if Sign.of b = .quote then s.toBody <$> body.put limits (Rule.literal text.toList)
    else do
      let text ← push limits text b
      return s.toBody (body.reading (.literal opened text))
  | .inclusion text =>
    s.inName limits body text .inclusion (body.adopt limits s.filed text) b
  | .label opened text =>
    s.inName limits body text (.label opened) (body.attach opened text) b
  | .name text =>
    if Sign.of b = .word then do
      let text ← push limits text b
      return s.toBody (body.reading (.name text))
    else s.afterName limits body text b
  | .waiting text => s.afterName limits body text b
  | .braces braces => do
    match ← braces.step limits s.offset b with
    | .going braces => return s.toBody (body.reading (.braces braces))
    | .done (low, high) =>
      s.toBody <$> body.suffix braces.opened 0x7B (·.repeated (Bound.between low high))
  | .brackets brackets => do
    match ← brackets.step limits s.filed s.offset b with
    | .going brackets => return s.toBody (body.reading (.brackets brackets))
    | .done set =>
      let body ← body.put limits (Rule.terminal set)
      return { s with carried := CharSet.empty, phase := .body body }

/-- Reads a byte, without counting it. -/
def stepPhase (limits : Limits) (s : State) (b : UInt8) : Except GrammarError State :=
  match s.phase with
  | .between title => s.between limits title b
  | .comment opened title =>
    .ok (s.inPhase
      (if Sign.of b = .percent then .between title else .comment opened title))
  | .naming start text =>
    if Sign.of b = .word then do
      let text ← push limits text b
      return s.inPhase (.naming start text)
    else s.between limits (some ⟨start, nameOf text⟩) b
  | .body body => s.stepBody limits body b

def step (limits : Limits) (s : State) (b : UInt8) : Except GrammarError State := do
  let next ← s.stepPhase limits b
  return { next with offset := s.offset + 1 }

/-- Ends a source in a body that nothing is being read in. -/
def closeBody (limits : Limits) (s : State) (body : Body) :
    Except GrammarError (List Rule) :=
  match body.groups with
  | g :: _ => .error (.unclosed .group g.opened)
  | [] => do
    let r ← body.rule limits
    file limits s.filed r

def finishBody (limits : Limits) (s : State) (body : Body) :
    Except GrammarError (List Rule) :=
  match body.lexeme with
  | .idle => s.closeBody limits body
  | .comment opened => .error (.unclosed .comment opened)
  | .literal opened _ => .error (.unclosed .literal opened)
  | .inclusion text =>
    if text.isEmpty then .error (.unclosed .name s.offset)
    else do s.closeBody limits (← body.adopt limits s.filed text)
  | .label opened text =>
    if text.isEmpty then .error (.unclosed .name s.offset)
    else do s.closeBody limits (← body.attach opened text)
  | .name text | .waiting text => do s.closeBody limits (← body.refer limits text)
  | .braces braces => .error (braces.unclosed s.offset)
  | .brackets brackets => .error (brackets.unclosed s.filed s.offset)

/-- Ends a source: the declared rules, if nothing is left open. -/
def finish (limits : Limits) (s : State) : Except GrammarError (List Rule) :=
  match s.phase with
  | .between none => .ok s.filed
  | .between (some title) => .error (.unclosed .topLevel title.start)
  | .comment opened _ => .error (.unclosed .comment opened)
  | .naming start _ => .error (.unclosed .topLevel start)
  | .body body => s.finishBody limits body

def run (limits : Limits) (s : State) (source : Bytes) : Except GrammarError State :=
  source.foldlM (step limits) s

/-- Reading two stretches is reading the second where the first has ended. -/
theorem run_append (limits : Limits) (s : State) (first second : Bytes) :
    s.run limits (first ++ second) = (s.run limits first).bind (·.run limits second) := by
  simp only [run, List.foldlM_append]
  rfl

end State

/-- Adds the rules that a source declares to the ones declared before. -/
def compile (limits : Limits) (filed : List Rule) (source : Bytes) :
    Except GrammarError (List Rule) := do
  let s ← (State.start filed).run limits source
  s.finish limits

end RuleGraph.Terse
