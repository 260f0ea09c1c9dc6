import RuleGraph.Hosted.Parse

/-!
# From sources to grammars

A grammar can come from several sources. A draft collects their rules and keeps
the limits that apply to them. Sources share the rules, so a later one may
include what an earlier one declares, and may declare what an earlier one refers
to. Only a finished grammar has to be closed: then every name that is referred
to must stand for something.
-/

namespace RuleGraph

/-- A grammar in the making. -/
structure Draft where
  limits : Limits
  rules : List Rule

namespace Draft

def start : Draft := ⟨Limits.usual, []⟩

def within (d : Draft) (limits : Limits) : Draft :=
  { d with limits := limits }

/-- Adds the declarations of a source in terse notation. -/
def source (d : Draft) (source : Bytes) : Except GrammarError Draft := do
  let rules ← Terse.compile d.limits d.rules source
  return { d with rules := rules }

def add (d : Draft) (rules : List Rule) : Except GrammarError Draft := do
  let rules ← rules.foldlM (Terse.file d.limits) d.rules
  return { d with rules := rules }

def finish (d : Draft) : Except GrammarError Grammar :=
  let g : Grammar := ⟨d.rules⟩
  match g.dangling? with
  | some name => .error (.undefined name)
  | none => .ok g

end Draft

namespace Grammar

def ofTerse (source : Bytes) : Except GrammarError Grammar := do
  let d ← Draft.start.source source
  d.finish

def ofHosted (source : Bytes) : Except Error Grammar := do
  let rules ← Hosted.rules source
  let d ← (Draft.start.add rules).mapError .grammar
  d.finish.mapError .grammar

end Grammar

end RuleGraph
