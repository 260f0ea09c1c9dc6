import RuleGraph.Proofs.Grammar.References
import RuleGraph.Proofs.Matching.Refinement
import RuleGraph.Proofs.Rule.Nodes

/-!
# Where the labels of tokens come from

Only a capture leaves a token, and the token carries its name. What a match goes
through is below the rules that it has been given, or below a rule of the
grammar, since that is where references lead. So every label is the name of a
capture that stands in the grammar.
-/

namespace RuleGraph

namespace Matching

open Stretch

variable {g : Grammar} {fit : String → Prop}

/-- All stretches that were found have labels like this. -/
def Meaning.Labelled (fit : String → Prop) (m : Meaning) : Prop :=
  ∀ stop forest, m = .arrives stop forest → ∀ depth,
    ∀ t ∈ listing depth forest, fit t.label

namespace Meaning.Labelled

variable {m : Meaning}

theorem misses (reason : Reason) : (Meaning.misses reason).Labelled fit := nofun

theorem empty (stop : Cursor) : (Meaning.arrives stop []).Labelled fit := by
  rintro _ _ ⟨⟩ depth t ht
  rw [listing_nil] at ht
  cases ht

theorem taking (here : Cursor) (width : Option Nat) :
    (Meaning.taking here width).Labelled fit := by
  cases width with
  | none => exact misses _
  | some n => exact empty _

theorem ending (here : Cursor) (wanted : Nat) :
    (Meaning.ending here wanted).Labelled fit := by
  cases wanted with
  | zero => exact empty _
  | succ n => exact misses _

theorem after {stop : Cursor} {found : List (Stretch String)}
    (hfound : (Meaning.arrives stop found).Labelled fit) (h : m.Labelled fit) :
    (m.after found).Labelled fit := by
  cases m with
  | misses reason => exact h
  | arrives last forest =>
    rintro _ _ ⟨⟩ depth t ht
    rw [listing_append] at ht
    rcases List.mem_append.mp ht with ht | ht
    · exact hfound _ _ rfl depth t ht
    · exact h _ _ rfl depth t ht

theorem captured {name : String} (hname : fit name) (start : Nat) (h : m.Labelled fit) :
    (m.captured name start).Labelled fit := by
  cases m with
  | misses reason => exact h
  | arrives last forest =>
    rintro _ _ ⟨⟩ depth t ht
    rw [listing_cons, List.mem_cons, listing_nil, List.append_nil] at ht
    rcases ht with rfl | ht
    · exact hname
    · exact h _ _ rfl _ t ht

end Meaning.Labelled

/-- Where the captures of a grammar have such names, everything that captures
with such names find has such labels. -/
theorem Means.labelled (hg : ∀ r ∈ g.rules, r.Labelled fit) {task : Task} {here : Cursor}
    {m : Meaning} (h : Means g task here m) (hrules : ∀ r ∈ task.rules, r.Labelled fit) :
    m.Labelled fit := by
  induction h with
  | literal | terminal | spacing => exact .taking _ _
  | toEnd | decision | done | found => exact .empty _
  | missing | none | nowhere | broken | stuck | astray => exact .misses _
  | full | last => exact .ending _ _
  | iteration _ ih | sequence _ ih | selection _ ih | completion _ ih =>
    exact ih fun s hs => (List.forall_mem_singleton.mp hrules).child hs
  | @lookahead _ _ _ m _ _ =>
    cases m with
    | arrives _ _ => exact .empty _
    | misses _ => exact .misses _
  | capture _ ih =>
    have hr := List.forall_mem_singleton.mp hrules
    exact (ih fun s hs => hr.child hs).captured (hr.name rfl) _
  | reference hr _ ih =>
    obtain ⟨rule, hrule, rfl | rfl⟩ := Grammar.exists_rule_of_resolve? hr
    · exact ih (List.forall_mem_singleton.mpr (hg _ hrule))
    · exact ih (List.forall_mem_singleton.mpr (hg _ hrule).body)
  | idle _ _ ih =>
    rintro _ _ ⟨⟩
    exact ih hrules _ _ rfl
  | round _ _ _ ih ihRest => exact (ih hrules).after (ihRest hrules)
  | pass _ _ ih => exact ih (List.forall_mem_cons.mp hrules).2
  | element _ _ _ ih ihRest =>
    obtain ⟨hr, hrest⟩ := List.forall_mem_cons.mp hrules
    exact (ih (List.forall_mem_singleton.mpr hr)).after (ihRest hrest)
  | chosen _ _ ih =>
    exact ih (List.forall_mem_singleton.mpr (List.forall_mem_cons.mp hrules).1)
  | other _ _ _ ih => exact ih (List.forall_mem_cons.mp hrules).2
  | further _ _ _ _ ih => exact ih hrules

end Matching

/-- Every token of a match has the name of a capture for a label. -/
theorem Grammar.labels_of_matchWith {g : Grammar} {fit : String → Prop}
    (hg : ∀ r ∈ g.rules, r.Labelled fit) {limit : Nat} {start : String} {input : Bytes}
    {p : Parse String} (h : g.matchWith limit start input = .ok p) :
    ∀ t ∈ p.overlay.tokens, fit t.label := by
  obtain ⟨stop, forest, hmeans, rfl⟩ := Matching.exists_forest_of_match h
  have hstart : (Rule.reference start).Labelled fit := .of_children rfl nofun
  have hlabelled := hmeans.labelled hg (List.forall_mem_singleton.mpr hstart)
  intro t ht
  exact hlabelled stop forest rfl 0 t (List.mem_toArray.mp ht)

end RuleGraph
