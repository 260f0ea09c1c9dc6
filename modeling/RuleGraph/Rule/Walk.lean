import RuleGraph.Rule.Basic

/-!
# Every node of a rule

`walk` lists a rule and everything below it, parents before children. The
equation `walk_eq` is all that is needed to use it. The recursion behind it has
to follow the lists and options that hold the children, which is of no interest
to anyone else. `Rule.childInduction` hides the same detail in proofs.
-/

namespace RuleGraph.Rule

mutual

/-- A rule and all of its descendants. References are not followed. -/
def walk : Rule → List Rule
  | ⟨name, shape⟩ => ⟨name, shape⟩ :: walkShape shape

def walkShape : Shape Rule → List Rule
  | .iteration child _ | .lookahead child | .capture child => walk child
  | .sequence elements _ => walkList elements
  | .selection alternatives => walkList alternatives
  | .completion stop => walkOption stop
  | .literal _ | .terminal _ | .spacing _ | .decision | .reference _ => []

def walkList : List Rule → List Rule
  | [] => []
  | r :: rest => walk r ++ walkList rest

def walkOption : Option Rule → List Rule
  | none => []
  | some r => walk r

end

theorem walkList_eq (rules : List Rule) : walkList rules = rules.flatMap walk := by
  induction rules with
  | nil => rfl
  | cons r rest ih => simp [walkList, ih]

/-- A walk begins at the rule and goes through its children one by one. -/
theorem walk_eq (r : Rule) : r.walk = r :: r.children.flatMap walk := by
  obtain ⟨name, shape⟩ := r
  cases shape with
  | completion stop =>
    cases stop <;> simp [walk, walkShape, walkOption, children, Shape.parts]
  | _ => simp [walk, walkShape, walkList_eq, children, Shape.parts]

mutual

/-- To prove something of every rule, prove it of a rule whose children have
it. -/
theorem childInduction {motive : Rule → Prop}
    (step : ∀ r, (∀ c ∈ r.children, motive c) → motive r) : ∀ r, motive r
  | ⟨name, shape⟩ => step ⟨name, shape⟩ (childInductionShape step shape)

theorem childInductionShape {motive : Rule → Prop}
    (step : ∀ r, (∀ c ∈ r.children, motive c) → motive r) :
    ∀ shape : Shape Rule, ∀ c ∈ shape.parts, motive c
  | .iteration child _ | .lookahead child | .capture child => by
    simpa [Shape.parts] using childInduction step child
  | .sequence elements _ => by
    simpa [Shape.parts] using childInductionList step elements
  | .selection alternatives => by
    simpa [Shape.parts] using childInductionList step alternatives
  | .completion none => by simp [Shape.parts]
  | .completion (some r) => by
    simpa [Shape.parts] using childInduction step r
  | .literal _ | .terminal _ | .spacing _ | .decision | .reference _ => by
    simp [Shape.parts]

theorem childInductionList {motive : Rule → Prop}
    (step : ∀ r, (∀ c ∈ r.children, motive c) → motive r) :
    ∀ rules : List Rule, ∀ c ∈ rules, motive c
  | [] => by simp
  | r :: rest => by
    simpa using ⟨childInduction step r, childInductionList step rest⟩

end

end RuleGraph.Rule
