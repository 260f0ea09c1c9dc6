import RuleGraph.Proofs.Matching.Blindness
import RuleGraph.Proofs.Matching.Limit
import RuleGraph.Proofs.Rule.Completions

/-!
# Where a completion ends, the next element matches

A completion looks for the first place where the rule matches that it runs up to. It
forgets what the match there recorded, and the rule is matched once more when its turn
comes. The two matches are not the same run. The first one is inside the completion and
inside the captures around it, so it has less room, and it follows the misses of all
places before. It has arrived all the same, so the second one does: less room is enough
(`attempt_of_le`), and the record is not looked at (`attempt_arrives`).
-/

namespace RuleGraph.Matching

variable {g : Grammar} {room : Nat} {r c : Rule} {here stop : Cursor} {t t' : Track}

/-- Where an attempt arrives, it arrives with more room, having recorded the same. -/
theorem attempt_of_le (h : attempt g room r here t = (.ok stop, t')) {higher : Nat}
    (hle : room ≤ higher) : attempt g higher r here t = (.ok stop, t') := by
  obtain ⟨more, rfl⟩ := Nat.exists_eq_add_of_le hle
  rw [attempt_add]
  rcases attemptBeyond_agree (attempt g more) room r here t with ⟨miss, -, hmiss⟩ | heq
  · rw [h] at hmiss
    cases hmiss
  · rw [heq, h]

/-- A search ends where an attempt has arrived. -/
theorem exists_attempt_of_seek {once : Attempt} {mark : Nat} {origin : Cursor} :
    ∀ {rest : Bytes} {offset : Nat} {t : Track},
      seek once mark origin offset rest t = (.ok stop, t') →
        ∃ u last u', once stop u = (.ok last, u') := by
  intro rest
  induction rest with
  | nil =>
    intro offset t h
    rw [seek] at h
    split at h
    · rename_i last u hout
      cases h
      exact ⟨t, last, u, hout⟩
    · split at h
      · cases h
      · cases h
  | cons b rest ih =>
    intro offset t h
    rw [seek] at h
    split at h
    · rename_i last u hout
      cases h
      exact ⟨t, last, u, hout⟩
    · split at h
      · exact ih h
      · cases h

/-- What has arrived, a step in it has. -/
theorem exists_step_of_attempt (h : attempt g (room + 1) r here t = (.ok stop, t')) :
    ∃ u, step g (attempt g room) r here t.enter = (.ok stop, u) := by
  rw [attempt] at h
  have hresult : (step g (attempt g room) r here t.enter).1 = .ok stop :=
    congrArg Prod.fst h
  exact ⟨_, Prod.ext hresult rfl⟩

/-- Where a completion ends, the rule matches that it runs up to, with less room. -/
theorem exists_attempt_of_aim? {next : Rule} (haim : c.aim? = some (some next))
    (h : attempt g room c here t = (.ok stop, t')) :
    ∃ fewer ≤ room, ∃ u last u', attempt g fewer next stop u = (.ok last, u') := by
  induction room generalizing c t t' with
  | zero => cases h
  | succ room ih =>
    obtain ⟨v, hstep⟩ := exists_step_of_attempt h
    obtain ⟨name, shape⟩ := c
    cases shape with
    | completion aim =>
      cases haim
      obtain ⟨u, last, u', hout⟩ := exists_attempt_of_seek hstep
      exact ⟨room, Nat.le_succ room, u, last, u', hout⟩
    | capture child =>
      unfold step at hstep
      dsimp only at hstep
      split at hstep
      · rename_i hout
        cases hstep
        obtain ⟨fewer, hle, harrives⟩ := ih (c := child) haim hout
        exact ⟨fewer, Nat.le_succ_of_le hle, harrives⟩
      · cases hstep
    | _ => cases haim

/-- Where a completion has ended, with whatever record, the rule that it runs up to
arrives. -/
theorem exists_arrival_of_aim? {next : Rule} (haim : c.aim? = some (some next))
    (h : attempt g room c here t = (.ok stop, t')) :
    ∃ last t'', attempt g room next stop t' = (.ok last, t'') := by
  obtain ⟨fewer, hle, u, last, u', hout⟩ := exists_attempt_of_aim? haim h
  obtain ⟨t'', harrives⟩ := attempt_arrives (attempt_of_le hout hle) t'
  exact ⟨last, t'', harrives⟩

end RuleGraph.Matching
