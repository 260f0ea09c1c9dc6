import RuleGraph.Proofs.Grammar.Capacity
import RuleGraph.Proofs.Grammar.References
import RuleGraph.Proofs.Hosted.Keeping
import RuleGraph.Proofs.Matching.Completions

/-!
# Completions in compiled grammars

Neither notation can write what a completion runs up to. It is bound where a sequence is
made, and both readers make their rules with the same combinators, which bind as they
should. So in a grammar that comes of sources, whichever they are and in whatever order
they were put into a draft, a completion is bound to the very element behind it. A match
of the one ends where a match of the other begins.
-/

namespace RuleGraph

theorem Terse.kept_aimed {limits : Limits} : Kept limits Rule.Aimed where
  toKeepsSets := .of_any fun _ => .leaf rfl rfl
  literal _ := .leaf rfl rfl
  spacing _ := .leaf rfl rfl
  completion := .completion
  decision := .leaf rfl rfl
  reference _ := .leaf rfl rfl
  quiet _ := .leaf rfl rfl
  chain _ hrules := .chain hrules
  selection _ hrules := .selection hrules
  repeated bound h := h.repeated bound
  lookahead h := h.lookahead
  named _ h := h.named _
  body h := h.body

theorem Hosted.kept_aimed : Kept Rule.Aimed where
  literal _ := .leaf rfl rfl
  terminal _ := .leaf rfl rfl
  spacing _ := .leaf rfl rfl
  completion := .completion
  reference _ := .leaf rfl rfl
  sequence cut hrules := .sequenceCut hrules cut
  selection hrules := .selection hrules
  repeated bound h := h.repeated bound
  named name h := h.named name

namespace Draft

theorem follow_alone {d d' : Draft} {step : Step} (h : d.follow step = .ok d') :
    [step].foldlM follow d = .ok d' := by
  rw [List.foldlM_cons, h]
  rfl

/-- What is put into a draft is a source in terse notation, or the rules of one in hosted
notation. -/
def Step.Compiled (step : Step) : Prop :=
  ∀ rules, step = .added rules → ∃ source, Hosted.rules source = .ok rules

/-- What both readers keep holds of all rules of a draft that sources are put into. -/
theorem compiled_hold {limits : Limits} {kind : Rule → Prop}
    (hterse : Terse.Kept limits kind) (hhosted : Hosted.Kept kind) {steps : List Step}
    (hsteps : ∀ step ∈ steps, step.Compiled) :
    Ensures (steps.foldlM follow (start.within limits)) fun d => ∀ r ∈ d.rules,
      kind r := by
  have hgiven : ∀ r ∈ steps.flatMap Step.given, kind r := by
    intro r hr
    obtain ⟨step, hstep, hr⟩ := List.mem_flatMap.mp hr
    cases step with
    | source _ => cases hr
    | added rules =>
      obtain ⟨source, hsource⟩ := hsteps _ hstep rules rfl
      exact Hosted.rules_keep hhosted source rules hsource r hr
  exact fun d hd => (steps_hold hterse hgiven d hd).filed.each

end Draft

namespace Grammar

/-- A grammar that comes of sources. -/
inductive Compiled : Grammar → Prop
  | terse {source : Bytes} {g : Grammar} : ofTerse source = .ok g → Compiled g
  | hosted {source : Bytes} {g : Grammar} : ofHosted source = .ok g → Compiled g
  | drafted {limits : Limits} {steps : List Draft.Step} {d : Draft} {g : Grammar} :
      (∀ step ∈ steps, step.Compiled) →
      steps.foldlM Draft.follow (Draft.start.within limits) = .ok d → d.finish = .ok g →
      Compiled g

theorem Compiled.exists_draft {g : Grammar} (h : g.Compiled) :
    ∃ (limits : Limits) (steps : List Draft.Step) (d : Draft),
      (∀ step ∈ steps, step.Compiled) ∧
      steps.foldlM Draft.follow (Draft.start.within limits) = .ok d ∧
      g.rules = d.rules := by
  cases h with
  | @terse source _ hg =>
    obtain ⟨d, hd, hfinish⟩ := bind_eq_ok hg
    obtain ⟨rfl, -⟩ := Draft.finish_eq_ok_iff.mp hfinish
    exact ⟨Limits.usual, [.source source], d, List.forall_mem_singleton.mpr nofun,
      Draft.follow_alone hd, rfl⟩
  | @hosted source _ hg =>
    obtain ⟨rules, hrules, hg⟩ := bind_eq_ok hg
    obtain ⟨d, hd, hfinish⟩ := bind_eq_ok hg
    obtain ⟨rfl, -⟩ := Draft.finish_eq_ok_iff.mp (mapError_eq_ok hfinish)
    refine ⟨Limits.usual, [.added rules], d, List.forall_mem_singleton.mpr ?_,
      Draft.follow_alone (mapError_eq_ok hd), rfl⟩
    rintro _ ⟨⟩
    exact ⟨source, hrules⟩
  | drafted hsteps hd hfinish =>
    obtain ⟨rfl, -⟩ := Draft.finish_eq_ok_iff.mp hfinish
    exact ⟨_, _, _, hsteps, hd, rfl⟩

/-- Completions are bound in compiled grammars. -/
theorem Compiled.aimed {g : Grammar} (h : g.Compiled) : ∀ r ∈ g.rules, r.Aimed := by
  obtain ⟨limits, steps, d, hsteps, hd, hrules⟩ := h.exists_draft
  exact hrules ▸ Draft.compiled_hold Terse.kept_aimed Hosted.kept_aimed hsteps d hd

end Grammar

open Matching in
/-- In a compiled grammar, a completion with an element behind it in a sequence runs up to
that element, and every other one that is not part of a copy to the end of the input. In
whatever run such a completion has ended at a place, the element behind it matches
there. -/
theorem Grammar.completion_ends_at_match {g : Grammar} (h : g.Compiled) :
    (∀ r ∈ g.rules, r.Aimed) ∧
      ∀ r ∈ g.rules, ∀ s ∈ r.walk, ∀ elements cut, s.shape = .sequence elements cut →
        ∀ i c next, elements[i]? = some c → c.aim?.isSome → elements[i + 1]? = some next →
          c.aim? = some (some next) ∧
            ∀ room here t stop t', attempt g room c here t = (.ok stop, t') →
              ∃ last t'', attempt g room next stop t' = (.ok last, t'') := by
  refine ⟨h.aimed, fun r hr s hs elements cut hshape i c next hc hsome hnext => ?_⟩
  obtain ⟨aim, haim⟩ := Option.isSome_iff_exists.mp hsome
  have hbound : c.aim? = some (some next) := by
    have hnone : s.aim? = none := by
      obtain ⟨name, shape⟩ := s
      cases hshape
      rfl
    have hbehind : aim = s.behind? i := by
      refine (h.aimed r hr).inside s hs hnone i c aim ?_ haim
      rw [Rule.children, hshape]
      exact hc
    rw [haim, hbehind, Rule.behind?, hshape]
    exact congrArg some hnext
  exact ⟨hbound, fun room here t stop t' => exists_arrival_of_aim? hbound⟩

open Matching in
/-- A captured completion runs up to another one, which runs up to a literal. -/
theorem Grammar.completion_ends_at_match_captured :
    let x := Rule.symbol 'x'
    let before : Rule := ⟨"", .completion (some x)⟩
    let first := Rule.capture "a" ⟨"", .completion (some before)⟩
    let elements := [Rule.symbol 'w', first, before, x, Rule.completion]
    let g : Grammar := ⟨[Rule.capture "r" ⟨"", .sequence elements none⟩]⟩
    let here : Cursor := (Cursor.atStart (stringBytes "wvx")).advance 1
    g.Compiled ∧ first.aim? = some (some before) ∧ before.aim? = some (some x) ∧
      ∃ stop t', attempt g 4 first here .start = (.ok stop, t') ∧
        ∃ last t'', attempt g 4 before stop t' = (.ok last, t'') := by
  intro x before first elements g here
  have hg : g.Compiled := by
    have hsource : Grammar.ofTerse (stringBytes "r = 'w' ~@a ~ 'x' ~") = .ok g :=
      eq_ok_of_toOption (by decide +kernel)
    exact .terse hsource
  have h := (completion_ends_at_match hg).2 _ (List.mem_singleton_self _)
    ⟨"", .sequence elements none⟩ (List.mem_cons_of_mem _ (List.mem_cons_self ..))
      elements none rfl
  obtain ⟨hfirst, hends⟩ := h 1 first before rfl rfl rfl
  obtain ⟨hbefore, -⟩ := h 2 before x rfl rfl rfl
  obtain ⟨stop, t', hstop⟩ : ∃ stop t', attempt g 4 first here .start = (.ok stop, t') :=
    ⟨_, _, rfl⟩
  exact ⟨hg, hfirst, hbefore, stop, t', hstop, hends 4 here .start stop t' hstop⟩

end RuleGraph
