import RuleGraph.Proofs.Matching.Agreement
import RuleGraph.Proofs.Matching.Refinement

/-!
# A match is all or nothing

Whatever a rule is made of and however it fails, a miss leaves the overlay and
the count of entered rules as they were, and a match only adds finished tokens.
`within_atomic` says so for every record that a matcher can be in: any overlay
that its operations lead to, with any tokens pending, and any number of rules
entered already.

The overlay half is read off `attempt_tells`, which knows more, namely which
tokens are added. What is left is that the count is the one that limits:
`within_eq` is the matcher as one recursive equation, in which every rule is
checked against the limit, counted, matched and counted off again.
-/

namespace RuleGraph.Matching

variable {g : Grammar}

/-- In the middle of a match, rules are entered with one count and one stack of
pending tokens that are there. -/
theorem steady_attempt (g : Grammar) (room depth : Nat) :
    Steady (attempt g room) fun _ t => t.depth = depth ∧ t.overlay.InRange where
  arrives := by
    intro r here t next t' ⟨hdepth, ht⟩ hout
    have h := attempt_tells g room r here t ht
    rw [hout] at h
    obtain ⟨forest, -, hgrow, hsame⟩ := h
    exact ⟨hsame.trans hdepth, hgrow ▸ ht.grow _⟩
  misses := by
    intro r here t miss t' ⟨hdepth, ht⟩ hout
    have h := attempt_tells g room r here t ht
    rw [hout] at h
    obtain ⟨-, hoverlay, hsame⟩ := h
    exact ⟨hsame.trans hdepth, hoverlay ▸ ht⟩
  begins := fun name ⟨hdepth, ht⟩ => ⟨hdepth, ht.begin name _⟩
  advances := fun h => h

/-- The matcher as one equation: a rule is refused at the limit, and otherwise
counted while it is matched. -/
theorem within_eq (limit : Nat) (r : Rule) (here : Cursor) (t : Track)
    (ht : t.overlay.InRange) :
    within g limit r here t =
      if limit ≤ t.depth then (.error .tooDeep, t)
      else
        let (result, t') := step g (within g limit) r here t.enter
        (result, t'.leave) := by
  split
  · rename_i hle
    rw [within, Nat.sub_eq_zero_of_le hle, attempt]
  · rename_i hlt
    obtain ⟨room, hroom⟩ : ∃ room, limit - t.depth = room + 1 :=
      ⟨limit - t.depth - 1, by omega⟩
    have hinner (r : Rule) (here : Cursor) (t' : Track)
        (h : t'.depth = t.depth + 1 ∧ t'.overlay.InRange) :
        within g limit r here t' = attempt g room r here t' := by
      have : limit - t'.depth = room := by omega
      rw [within, this]
    have hstep :=
      step_eq (g := g) (steady_attempt g room (t.depth + 1)) hinner r here t.enter
        ⟨rfl, ht⟩
    rw [within, hroom, attempt, hstep]

/-- A miss of any kind leaves the overlay and the count of entered rules as they
were. A match keeps the old tokens in front of the new ones, keeps the stack of
pending tokens and the count, and has finished every token it has added. -/
theorem within_atomic (g : Grammar) (limit : Nat) (r : Rule) (here : Cursor) (t : Track)
    (h : t.overlay.Reachable) :
    match within g limit r here t with
    | (.error _, t') => t'.overlay = t.overlay ∧ t'.depth = t.depth
    | (.ok _, t') =>
      (∃ added, t'.overlay.tokens = t.overlay.tokens ++ added) ∧
        t'.overlay.pending = t.overlay.pending ∧ t'.depth = t.depth ∧
        ∀ index, t.overlay.count ≤ index → index < t'.overlay.count →
          t'.overlay.isPending index = false := by
  have htells := attempt_tells g (limit - t.depth) r here t h.inRange
  rw [within]
  generalize attempt g (limit - t.depth) r here t = outcome at htells ⊢
  obtain ⟨result, t'⟩ := outcome
  cases result with
  | error miss => exact htells.2
  | ok next =>
    obtain ⟨forest, -, hgrow, hdepth⟩ := htells
    dsimp only
    rw [hgrow]
    refine ⟨⟨_, rfl⟩, rfl, hdepth, fun index hle _ => ?_⟩
    exact Overlay.isPending_grow h.inRange _ index hle

/-- With a token pending and three rules entered, a sequence that has left a
token and passed a decision misses without a trace. -/
theorem within_atomic_committed :
    (Overlay.empty.begin "outer" 0 : Overlay String).Reachable ∧
      (within ⟨[]⟩ 9 (.sequence [.capture "x" (.symbol 'a'), .decision, .symbol 'b'])
          (.atStart (stringBytes "ac")) ⟨Overlay.empty.begin "outer" 0, 0, 3⟩).1 =
        .error (.committed 1) ∧
      (within ⟨[]⟩ 9 (.sequence [.capture "x" (.symbol 'a'), .decision, .symbol 'b'])
          (.atStart (stringBytes "ac")) ⟨Overlay.empty.begin "outer" 0, 0, 3⟩).2.overlay =
        Overlay.empty.begin "outer" 0 := by
  have hreachable : (Overlay.empty.begin "outer" 0 : Overlay String).Reachable :=
    .begin _ _ .empty
  have h :=
    within_atomic ⟨[]⟩ 9 (.sequence [.capture "x" (.symbol 'a'), .decision, .symbol 'b'])
      (.atStart (stringBytes "ac")) ⟨Overlay.empty.begin "outer" 0, 0, 3⟩ hreachable
  exact ⟨hreachable, rfl, h.1⟩

end RuleGraph.Matching
