import RuleGraph.Rule.Equality
import RuleGraph.Rule.Walk

/-!
# Grammars

A grammar is a list of rules in the order of their declaration, and a name
means the first rule that carries it. Rules without a name can be listed but
not found.

A quiet name that no rule carries stands for the rule of the plain name without
its capture. That is decided at look-up, in two forms: `lookup?` hands out a
rule under the name it was asked for, `resolve?` gives what is to be matched and
does not care about its name.
-/

namespace RuleGraph

structure Grammar where
  rules : List Rule
deriving DecidableEq

namespace Grammar

def named? (g : Grammar) (name : String) : Option Rule :=
  if name = "" then none else g.rules.find? (·.name == name)

/-- The rule whose quiet form is asked for. -/
def loudRule? (g : Grammar) (name : String) : Option Rule :=
  (loud? name).bind g.named?

def resolve? (g : Grammar) (name : String) : Option Rule :=
  match g.named? name with
  | some r => some r
  | none => (g.loudRule? name).map Rule.body

/-- The rule of a name. Under the quiet form of a capture's name it is what the
capture holds, renamed. -/
def lookup? (g : Grammar) (name : String) : Option Rule :=
  match g.named? name with
  | some r => some r
  | none => (g.loudRule? name).map fun r => if r.isCapture then r.body.named name else r

/-- The names that the rules refer to, in the order in which they are met. -/
def targets (g : Grammar) : List String :=
  (g.rules.flatMap Rule.walk).filterMap fun r =>
    match r.shape with
    | .reference target => some target
    | _ => none

/-- The first of some names that stands for nothing. A name is resolved once:
`known` are the ones that have been. -/
def firstDangling? (g : Grammar) (known : List String) : List String → Option String
  | [] => none
  | target :: rest =>
    if target ∈ known then g.firstDangling? known rest
    else if (g.resolve? target).isNone then some target
    else g.firstDangling? (target :: known) rest

def dangling? (g : Grammar) : Option String :=
  g.firstDangling? [] g.targets

end Grammar

end RuleGraph
