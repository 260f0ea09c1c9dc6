import RuleGraph.Grammar.Error
import RuleGraph.Rule.Equality

/-!
# What a body has come to so far

A body, or a part of it in parentheses, is a list of alternatives, each a list
of elements. While it is read there are finished alternatives, the elements of
the alternative that is going on, and the element read last, which is kept apart
because a suffix may still change it.

Only finished elements and finished alternatives count against a limit.
-/

namespace RuleGraph.Terse

structure Scope where
  current : Option Rule
  sequence : List Rule
  alternatives : List Rule
deriving DecidableEq

namespace Scope

def empty : Scope := ⟨none, [], []⟩

/-- Counts the element read last among the finished ones. -/
def settle (limits : Limits) (s : Scope) : Except GrammarError Scope :=
  match s.current with
  | none => .ok s
  | some r =>
    if s.sequence.length < limits.sequence then
      .ok ⟨none, s.sequence ++ [r], s.alternatives⟩
    else .error (.exceeds .sequence limits.sequence)

def put (limits : Limits) (r : Rule) (s : Scope) : Except GrammarError Scope := do
  let s ← s.settle limits
  return { s with current := some r }

def alternate (limits : Limits) (s : Scope) : Except GrammarError Scope := do
  let s ← s.settle limits
  if s.alternatives.length < limits.alternatives then
    return ⟨none, [], s.alternatives ++ [Rule.chain s.sequence]⟩
  else .error (.exceeds .alternatives limits.alternatives)

/-- The body as one rule, unless there is nothing in it. -/
def fold (limits : Limits) (s : Scope) : Except GrammarError (Option Rule) := do
  let s ← s.settle limits
  if s.alternatives.isEmpty then
    return if s.sequence.isEmpty then none else some (Rule.chain s.sequence)
  else
    let s ← s.alternate limits
    return some (Rule.selection s.alternatives)

end Scope

end RuleGraph.Terse
