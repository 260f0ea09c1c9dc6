import RuleGraph.Proofs.Grammar.Names
import RuleGraph.Proofs.Matching.Blindness
import RuleGraph.Proofs.Matching.Refinement

/-!
# A quiet name is the same match without its token

The quiet form of a capture's name enters what the capture holds. So a match of
the one is a match of the other with a token pending around it and one rule more
entered. Neither is visible to the match inside, and the furthest offset is the
same.

What the two matches add to their overlays is then the same forest, since
matching records what a rule means. It is listed at two depths, which are one
apart.
-/

namespace RuleGraph

open Stretch

/-! ## One token more -/

/-- A parse with a token of a name around everything that was read. -/
def Parse.inside (name : String) (p : Parse String) : Parse String :=
  ⟨p.source, ⟨(⟨name, 0, p.stop, 0⟩ :: p.overlay.tokens.toList.map Token.deeper).toArray,
    p.overlay.pending⟩, p.stop⟩

namespace Matching

/-- A capture answers what its child answers with one rule less to enter. -/
theorem attempt_capture_alike (g : Grammar) (room : Nat) (name : String) (child : Rule)
    (here : Cursor) (t : Track) :
    Alike Eq (attempt g room child here t)
      (attempt g (room + 1) ⟨name, .capture child⟩ here t) := by
  rw [attempt, step]
  dsimp only
  obtain ⟨result, u, u', hout, hout', h⟩ :=
    (attempt_alike g room child here
      (show t.furthest =
        (t.enter.begin name here.offset).furthest from rfl)).exists_result
  rw [hout, hout']
  cases result with
  | ok next => exact .arrives next h
  | error miss => exact .misses (.refl (fun _ => rfl) miss) h

/-- What a capture has found is a stretch around what its child has found. -/
theorem Means.captured_forest {g : Grammar} {name : String} {child : Rule}
    {here stop : Cursor} {forest inner : List (Stretch String)}
    (h : Means g (.rule ⟨name, .capture child⟩) here (.arrives stop forest))
    (hinner : Means g (.rule child) here (.arrives stop inner)) :
    forest = [.node name here.offset stop.offset inner] :=
  (Meaning.arrives.inj (h.unique (.capture hinner))).2

end Matching

/-- A capture's name is matched as its quiet form, with one rule more to enter
and one token more, from the beginning to the end, that every other token lies
inside. The failures are the same, with the same position. -/
theorem Grammar.matchWith_quiet (g : Grammar) (limit : Nat) (name : String) (r : Rule)
    (input : Bytes) (hfound : g.named? name = some r) (hcapture : r.isCapture = true)
    (hquiet : ∀ r ∈ g.rules, r.name ≠ quiet name) :
    g.matchWith (limit + 1) name input =
      match g.matchWith limit (quiet name) input with
      | .ok p => .ok (p.inside name)
      | .error (.tooDeep _) => .error (.tooDeep (limit + 1))
      | .error failure => .error failure := by
  have hresolve := resolve?_of_named? hfound
  have hresolve' := resolve?_quiet hfound hquiet
  obtain rfl := name_of_named? hfound
  obtain ⟨name, shape⟩ := r
  cases shape with
  | capture child =>
    rw [matchWith, matchWith, hresolve, hresolve']
    have halike :=
      Matching.attempt_capture_alike g limit name child (.atStart input) .start
    have htells := Matching.attempt_tells g limit child (.atStart input) .start nofun
    have htells' :=
      Matching.attempt_tells g (limit + 1) ⟨name, .capture child⟩ (.atStart input)
        .start nofun
    obtain ⟨result, t, t', hout, hout', hfurthest⟩ := halike.exists_result
    rw [hout] at htells
    rw [hout'] at htells'
    dsimp only [Matching.within, Track.start, Rule.body, Nat.sub_zero] at hout hout' ⊢
    rw [hout, hout']
    cases result with
    | ok stop =>
      obtain ⟨inner, hmeans, hgrow, -⟩ := htells
      obtain ⟨forest, hmeans', hgrow', -⟩ := htells'
      rw [hmeans'.captured_forest hmeans, listing_cons, listing_succ] at hgrow'
      simp [Parse.inside, hgrow, hgrow', Overlay.grow, Track.start, Overlay.empty,
        Cursor.atStart]
    | error miss => cases miss <;> simp [Matching.failure, hfurthest]
  | _ => cases hcapture

/-- Two alternatives, of which the first leaves a token before it misses. -/
theorem Grammar.matchWith_quiet_rewound :
    let x := Rule.capture "x" (.symbol 'a')
    let r := Rule.capture "n"
      (.selection [.sequence [x, .symbol 'c'], .sequence [x, .symbol 'b']])
    let g : Grammar := ⟨[r]⟩
    g.named? "n" = some r ∧ r.isCapture = true ∧ (∀ r ∈ g.rules, r.name ≠ quiet "n") ∧
      g.matchWith 4 "-n" (stringBytes "ab") =
        .ok ⟨stringBytes "ab", ⟨#[⟨"x", 0, 1, 0⟩], []⟩, 2⟩ ∧
      g.matchWith 5 "n" (stringBytes "ab") =
        .ok ⟨stringBytes "ab", ⟨#[⟨"n", 0, 2, 0⟩, ⟨"x", 0, 1, 1⟩], []⟩, 2⟩ := by
  intro x r g
  have hquiet : ∀ r ∈ g.rules, r.name ≠ quiet "n" := by decide
  have hinner : g.matchWith 4 (quiet "n") (stringBytes "ab") =
      .ok ⟨stringBytes "ab", ⟨#[⟨"x", 0, 1, 0⟩], []⟩, 2⟩ := by
    rfl
  have h := Grammar.matchWith_quiet g 4 "n" r (stringBytes "ab") rfl rfl hquiet
  rw [hinner] at h
  exact ⟨rfl, rfl, hquiet, hinner, h⟩

end RuleGraph
