import RuleGraph.Proofs.Matching.Refinement
import RuleGraph.Proofs.Rule.Splicing

/-!
# A rule in the place of a reference means the same

A reference means what it resolves to. So if two grammars resolve every name to
rules that are spliced one from the other, and the name that is spliced to the
rule that is put in its place, a derivation in the one grammar can be followed
step by step in the other. At a spliced reference, the step through the name is
left out.

This direction is enough. A meaning of the first rule is one of the second, and
no rule has two.
-/

namespace RuleGraph

/-- Every name stands for spliced rules, or for nothing in both grammars. -/
def Grammar.Spliced (g : Grammar) (target : String) (inserted : Rule) (g' : Grammar) :
    Prop :=
  ∀ name, Option.Rel (Rule.Spliced target inserted) (g.resolve? name) (g'.resolve? name)

namespace Matching

variable {target : String} {inserted : Rule} {g g' : Grammar}

/-- Tasks that are the same up to spliced rules. -/
inductive Task.Spliced (target : String) (inserted : Rule) : Task → Task → Prop
  | rule {r r'} : Rule.Spliced target inserted r r' →
      Task.Spliced target inserted (.rule r) (.rule r')
  | rounds {child child' wanted room} : Rule.Spliced target inserted child child' →
      Task.Spliced target inserted (.rounds child wanted room)
        (.rounds child' wanted room)
  | elements {passed rules rules'} :
      List.Forall₂ (Rule.Spliced target inserted) rules rules' →
      rules.map Rule.isDecision = rules'.map Rule.isDecision →
      Task.Spliced target inserted (.elements passed rules) (.elements passed rules')
  | alternatives {rules rules'} :
      List.Forall₂ (Rule.Spliced target inserted) rules rules' →
      Task.Spliced target inserted (.alternatives rules) (.alternatives rules')
  | search {stop stop'} : Rule.Spliced target inserted stop stop' →
      Task.Spliced target inserted (.search stop) (.search stop')

/-- Whatever a task means in a grammar where the name stands for the rule, the
spliced task means too. -/
theorem Means.spliced (hresolve : g.resolve? target = some inserted)
    (hnames : g.Spliced target inserted g') {task task' : Task} {here : Cursor}
    {m : Meaning} (h : Means g task here m) (htask : task.Spliced target inserted task') :
    Means g' task' here m := by
  induction h generalizing task' with
  | literal => cases htask with | rule hr => cases hr with | literal => exact .literal
  | terminal => cases htask with | rule hr => cases hr with | terminal => exact .terminal
  | spacing => cases htask with | rule hr => cases hr with | spacing => exact .spacing
  | iteration _ ih =>
    cases htask with | rule hr => cases hr with | iteration hr =>
      exact .iteration (ih (.rounds hr))
  | sequence _ ih =>
    cases htask with | rule hr =>
      cases hr with | sequence hr hsame => exact .sequence (ih (.elements hr hsame))
  | selection _ ih =>
    cases htask with | rule hr =>
      cases hr with | selection hr => exact .selection (ih (.alternatives hr))
  | toEnd => cases htask with | rule hr => cases hr with | toEnd => exact .toEnd
  | completion _ ih =>
    cases htask with | rule hr =>
      cases hr with | completion hr => exact .completion (ih (.search hr))
  | lookahead _ ih =>
    cases htask with | rule hr => cases hr with | lookahead hr =>
      exact .lookahead (ih (.rule hr))
  | capture _ ih =>
    cases htask with | rule hr => cases hr with | capture hr =>
      exact .capture (ih (.rule hr))
  | decision => cases htask with | rule hr => cases hr with | decision => exact .decision
  | @reference _ other _ _ _ hother _ ih =>
    cases htask with | rule hr =>
      cases hr with
      | here =>
        cases hother.symm.trans hresolve
        exact ih (.rule (.refl target inserted _))
      | reference =>
        have hname := hnames other
        rw [hother] at hname
        generalize hother' : g'.resolve? other = found at hname
        cases hname with
        | some hr => exact .reference hother' (ih (.rule hr))
  | @missing _ other _ hother =>
    cases htask with | rule hr =>
      cases hr with
      | here => cases hother.symm.trans hresolve
      | reference =>
        have hname := hnames other
        rw [hother] at hname
        generalize hother' : g'.resolve? other = found at hname
        cases hname with
        | none => exact .missing hother'
  | full => cases htask with | rounds _ => exact .full
  | last _ ih => cases htask with | rounds hr => exact .last (ih (.rule hr))
  | idle _ heq ih => cases htask with | rounds hr => exact .idle (ih (.rule hr)) heq
  | round _ hne _ ih ihRest =>
    cases htask with | rounds hr => exact .round (ih (.rule hr)) hne (ihRest (.rounds hr))
  | broken _ hne ih => cases htask with | rounds hr => exact .broken (ih (.rule hr)) hne
  | done => cases htask with | elements hrules _ => cases hrules with | nil => exact .done
  | pass hdecision _ ih =>
    cases htask with | elements hrules hsame =>
      cases hrules with | cons hr hrest =>
        obtain ⟨hfirst, hsame⟩ := List.cons.inj hsame
        exact .pass ((Rule.decision_congr hfirst).mp hdecision)
          (ih (.elements hrest hsame))
  | element hdecision _ _ ih ihRest =>
    cases htask with | elements hrules hsame =>
      cases hrules with | cons hr hrest =>
        obtain ⟨hfirst, hsame⟩ := List.cons.inj hsame
        exact .element (mt (Rule.decision_congr hfirst).mpr hdecision) (ih (.rule hr))
          (ihRest (.elements hrest hsame))
  | stuck hdecision _ ih =>
    cases htask with | elements hrules hsame =>
      cases hrules with | cons hr hrest =>
        obtain ⟨hfirst, -⟩ := List.cons.inj hsame
        exact .stuck (mt (Rule.decision_congr hfirst).mpr hdecision) (ih (.rule hr))
  | none => cases htask with | alternatives hrules =>
    cases hrules with | nil => exact .none
  | chosen _ hne ih =>
    cases htask with | alternatives hrules =>
      cases hrules with | cons hr _ => exact .chosen (ih (.rule hr)) hne
  | other _ _ ih ihRest =>
    cases htask with | alternatives hrules =>
      cases hrules with | cons hr hrest =>
        exact .other (ih (.rule hr)) (ihRest (.alternatives hrest))
  | found _ ih => cases htask with | search hr => exact .found (ih (.rule hr))
  | further _ hlocal _ ih ihRest =>
    cases htask with | search hr =>
      exact .further (ih (.rule hr)) hlocal (ihRest (.search hr))
  | nowhere _ hlocal ih =>
    cases htask with | search hr => exact .nowhere (ih (.rule hr)) hlocal
  | astray _ hstray ih =>
    cases htask with | search hr => exact .astray (ih (.rule hr)) hstray

/-- The answers that two such grammars give are those of one meaning, where
neither match is cut off. -/
theorem reports_spliced (hresolve : g.resolve? target = some inserted)
    (hnames : g.Spliced target inserted g') {start : String} {input : Bytes}
    {limit limit' : Nat} (hroom : g.matchWith limit start input ≠ .error (.tooDeep limit))
    (hroom' : g'.matchWith limit' start input ≠ .error (.tooDeep limit')) :
    ∃ m, Denotes g start input m ∧ Denotes g' start input m ∧
      Reports input m (g.matchWith limit start input) ∧
      Reports input m (g'.matchWith limit' start input) := by
  obtain ⟨m, hmeans, hreports⟩ := matchWith_reports g limit start input hroom
  obtain ⟨m', hmeans', hreports'⟩ := matchWith_reports g' limit' start input hroom'
  have hspliced : Denotes g' start input m :=
    hmeans.spliced hresolve hnames (.rule .reference)
  cases hspliced.unique hmeans'
  exact ⟨m, hmeans, hmeans', hreports, hreports'⟩

end Matching

end RuleGraph
