import RuleGraph.Terse.Brackets
import RuleGraph.Terse.Scope

/-!
# Bodies of declarations

A body is read as a stack of scopes, the outermost for the body itself and one
more for every open parenthesis. At the top lies the scope that is growing, and
`lexeme` says which element or suffix is in the middle of being read.

A bare name is special. Outside of every group it may turn out to be the name of
the next declaration, namely if the next byte that is not blank is an equals
sign. So the name waits, and becomes a reference only when something else
follows.
-/

namespace RuleGraph.Terse

inductive Lexeme
  | idle
  | comment (opened : Nat)
  | literal (opened : Nat) (text : Text)
  | inclusion (text : Text)
  | label (opened : Nat) (text : Text)
  | name (text : Text)
  /-- A name with nothing but blanks after it so far. -/
  | waiting (text : Text)
  | braces (braces : Braces)
  | brackets (brackets : Brackets)
deriving DecidableEq, Repr

/-- A group that was opened at an offset, with the scope around it. -/
structure Group where
  opened : Nat
  outer : Scope
deriving DecidableEq

structure Body where
  title : String
  /-- The open groups, innermost first. -/
  groups : List Group
  scope : Scope
  lexeme : Lexeme
deriving DecidableEq

namespace Body

def start (title : String) : Body :=
  ⟨title, [], Scope.empty, .idle⟩

def reading (s : Body) (lexeme : Lexeme) : Body :=
  { s with lexeme := lexeme }

def put (limits : Limits) (s : Body) (r : Rule) : Except GrammarError Body := do
  let scope ← s.scope.put limits r
  return { s with scope := scope, lexeme := .idle }

def replace (s : Body) (r : Rule) : Body :=
  { s with scope := { s.scope with current := some r }, lexeme := .idle }

/-- Applies a suffix, written as the given byte at an offset, to the element
read last. -/
def suffix (s : Body) (offset : Nat) (b : UInt8) (f : Rule → Rule) :
    Except GrammarError Body :=
  match s.scope.current with
  | some r => .ok (s.replace (f r))
  | none => .error (.unexpected .rule offset b)

def openGroup (limits : Limits) (s : Body) (offset : Nat) : Except GrammarError Body :=
  if s.groups.length < limits.nesting then do
    let outer ← s.scope.settle limits
    return ⟨s.title, ⟨offset, outer⟩ :: s.groups, Scope.empty, .idle⟩
  else .error (.exceeds .nesting limits.nesting)

/-- Closes a group, which becomes one element of the scope around it. -/
def closeGroup (limits : Limits) (s : Body) (g : Group) (groups : List Group) :
    Except GrammarError Body := do
  match ← s.scope.fold limits with
  | none => return ⟨s.title, groups, g.outer, .idle⟩
  | some r =>
    let scope ← g.outer.put limits r
    return ⟨s.title, groups, scope, .idle⟩

/-- The declared rule. An empty body is an empty sequence. -/
def rule (limits : Limits) (s : Body) : Except GrammarError Rule := do
  let folded ← s.scope.fold limits
  return (folded.getD (Rule.sequence [])).named s.title

def adopt (limits : Limits) (filed : List Rule) (s : Body) (text : Text) :
    Except GrammarError Body :=
  s.put limits (included filed (nameOf text))

def attach (s : Body) (opened : Nat) (text : Text) : Except GrammarError Body :=
  s.suffix opened 0x40 (·.named (nameOf text))

def refer (limits : Limits) (s : Body) (text : Text) : Except GrammarError Body :=
  s.put limits (Rule.reference (nameOf text))

end Body

end RuleGraph.Terse
