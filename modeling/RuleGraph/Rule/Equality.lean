import RuleGraph.Rule.Basic

/-!
# Equality of rules is decidable

Rules hold rules in lists and options, so the comparison is one function for
each of the four places where a rule can stand. All of them recurse on the left
operand alone, which is why they evaluate inside a proof.
-/

namespace RuleGraph.Rule

mutual

def same : Rule → Rule → Bool
  | ⟨name, shape⟩, ⟨name', shape'⟩ => name == name' && sameShape shape shape'
termination_by structural r => r

def sameShape : Shape Rule → Shape Rule → Bool
  | .literal bytes, .literal bytes' => bytes == bytes'
  | .terminal set, .terminal set' => set == set'
  | .spacing contract, .spacing contract' => contract == contract'
  | .iteration child bound, .iteration child' bound' =>
    bound == bound' && same child child'
  | .sequence elements cut, .sequence elements' cut' =>
    cut == cut' && sameList elements elements'
  | .selection alternatives, .selection alternatives' =>
    sameList alternatives alternatives'
  | .completion stop, .completion stop' => sameOption stop stop'
  | .lookahead child, .lookahead child' => same child child'
  | .capture child, .capture child' => same child child'
  | .decision, .decision => true
  | .reference target, .reference target' => target == target'
  | _, _ => false
termination_by structural s => s

def sameList : List Rule → List Rule → Bool
  | [], [] => true
  | r :: rest, r' :: rest' => same r r' && sameList rest rest'
  | _, _ => false
termination_by structural rs => rs

def sameOption : Option Rule → Option Rule → Bool
  | none, none => true
  | some r, some r' => same r r'
  | _, _ => false
termination_by structural o => o

end

mutual

theorem same_iff : ∀ a b, same a b = true ↔ a = b
  | ⟨_, shape⟩, ⟨_, _⟩ => by simp [same, sameShape_iff shape]
termination_by structural a => a

theorem sameShape_iff : ∀ a b, sameShape a b = true ↔ a = b
  | .literal _, b => by cases b <;> simp [sameShape]
  | .terminal _, b => by cases b <;> simp [sameShape]
  | .spacing _, b => by cases b <;> simp [sameShape]
  | .iteration child _, b => by cases b <;> simp [sameShape, same_iff child, and_comm]
  | .sequence elements _, b => by
    cases b <;> simp [sameShape, sameList_iff elements, and_comm]
  | .selection alternatives, b => by
    cases b <;> simp [sameShape, sameList_iff alternatives]
  | .completion stop, b => by cases b <;> simp [sameShape, sameOption_iff stop]
  | .lookahead child, b => by cases b <;> simp [sameShape, same_iff child]
  | .capture child, b => by cases b <;> simp [sameShape, same_iff child]
  | .decision, b => by cases b <;> simp [sameShape]
  | .reference _, b => by cases b <;> simp [sameShape]
termination_by structural a => a

theorem sameList_iff : ∀ a b, sameList a b = true ↔ a = b
  | [], b => by cases b <;> simp [sameList]
  | r :: rest, b => by cases b <;> simp [sameList, same_iff r, sameList_iff rest]
termination_by structural a => a

theorem sameOption_iff : ∀ a b, sameOption a b = true ↔ a = b
  | none, b => by cases b <;> simp [sameOption]
  | some r, b => by cases b <;> simp [sameOption, same_iff r]
termination_by structural a => a

end

instance : DecidableEq Rule := fun a b => decidable_of_iff _ (same_iff a b)

end RuleGraph.Rule
