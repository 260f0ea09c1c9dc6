import RuleGraph.Proofs.Matching.Agreement

/-!
# The limit is transparent

A limit that is hit ends the whole match. No repetition takes it for an end, no
selection goes on to another alternative, no lookahead and no search lets it
pass for a miss of its own. So an answer that is not the limit was found without
ever coming to the limit, and a higher one cannot change it.

That a run never comes to its limit is said through what might happen there.
`attemptBeyond` is the matcher with a replacement for what is too deep, which
may answer anything and record anything, in the furthest offset too, which
nothing takes back. If the matcher does not answer with its limit, every
replacement leaves the outcome as it is, so none was ever asked.
-/

namespace RuleGraph.Matching

/-- Matches a rule in which at most `room` rules are entered one inside the
other, and leaves what is deeper to `beyond`. -/
def attemptBeyond (g : Grammar) (beyond : Rule → Attempt) : Nat → Rule → Attempt
  | 0, r, here, t => beyond r here t
  | room + 1, r, here, t =>
    let (result, t) := step g (attemptBeyond g beyond room) r here t.enter
    (result, t.leave)

variable {g : Grammar}

theorem steady_true (enter : Rule → Attempt) : Steady enter fun _ _ => True where
  arrives := fun _ _ => trivial
  misses := fun _ _ => trivial
  begins := fun _ _ => trivial
  advances := fun _ => trivial

/-- An attempt misses by its limit, or nothing depends on what is beyond. -/
theorem attemptBeyond_agree (beyond : Rule → Attempt) (room : Nat) :
    ∀ (r : Rule) (here : Cursor) (t : Track),
      Lost (· = .tooDeep) (attempt g room r here t) ∨
        attemptBeyond g beyond room r here t = attempt g room r here t := by
  induction room with
  | zero => exact fun _ _ _ => .inl ⟨_, rfl, rfl⟩
  | succ room ih =>
    intro r here t
    rw [attempt, attemptBeyond]
    rcases step_agree (g := g) (steady_true _) (fun _ h => h)
      (fun r here t _ => ih r here t) r here t.enter trivial with hlost | heq
    · exact .inl hlost
    · exact .inr (by rw [heq])

/-- More room is a matcher that goes on where the other one ends. -/
theorem attempt_add (room more : Nat) (r : Rule) (here : Cursor) (t : Track) :
    attempt g (room + more) r here t =
      attemptBeyond g (attempt g more) room r here t := by
  induction room generalizing r here t with
  | zero => rw [Nat.zero_add, attemptBeyond]
  | succ room ih =>
    have hinner : attempt g (room + more) = attemptBeyond g (attempt g more) room :=
      funext fun r => funext fun here => funext fun t => ih r here t
    rw [Nat.add_right_comm, attempt, attemptBeyond, hinner]

/-- A match that is not ended by its limit does not miss by it. -/
theorem attempt_ne_tooDeep {limit : Nat} {start : String} {input : Bytes} {r : Rule}
    (hstart : g.resolve? start = some r)
    (h : g.matchWith limit start input ≠ .error (.tooDeep limit)) :
    ¬Lost (· = .tooDeep) (attempt g limit r (.atStart input) .start) := by
  intro hlost
  obtain ⟨t, hout⟩ := hlost.eq_tooDeep fun _ hmiss => hmiss
  refine h ?_
  rw [Grammar.matchWith, hstart]
  dsimp only [within, Track.start, Nat.sub_zero] at hout ⊢
  rw [hout]
  rfl

/-- An answer other than the limit is the answer under every higher limit, with
the same end and tokens or the same failure and position. It was found without
coming to the limit, since the outcome is the same whatever else would have
happened there. -/
theorem matchWith_eq_of_le (g : Grammar) (limit : Nat) (start : String) (input : Bytes)
    (h : g.matchWith limit start input ≠ .error (.tooDeep limit)) :
    (∀ higher, limit ≤ higher →
      g.matchWith higher start input = g.matchWith limit start input) ∧
      ∀ r, g.resolve? start = some r → ∀ beyond : Rule → Attempt,
        attemptBeyond g beyond limit r (.atStart input) .start =
          within g limit r (.atStart input) .start := by
  have hbeyond (r : Rule) (hstart : g.resolve? start = some r) (beyond : Rule → Attempt) :
      attemptBeyond g beyond limit r (.atStart input) .start =
        attempt g limit r (.atStart input) .start :=
    (attemptBeyond_agree beyond limit r _ _).resolve_left (attempt_ne_tooDeep hstart h)
  refine ⟨fun higher hle => ?_, hbeyond⟩
  obtain ⟨more, rfl⟩ := Nat.exists_eq_add_of_le hle
  unfold Grammar.matchWith
  cases hstart : g.resolve? start with
  | none => rfl
  | some r =>
    have hsame : within g (limit + more) r (.atStart input) .start =
        within g limit r (.atStart input) .start :=
      (attempt_add limit more r _ _).trans (hbeyond r hstart _)
    dsimp only
    rw [hsame]
    -- only the limit itself would tell the two failures apart
    cases hout : within g limit r (.atStart input) .start with
    | mk result t =>
      cases result with
      | ok stop => rfl
      | error miss =>
        cases miss with
        | soft | committed _ | missing _ => rfl
        | tooDeep =>
          exact absurd ⟨_, rfl, congrArg Prod.fst hout⟩ (attempt_ne_tooDeep hstart h)

/-- Letters in parentheses, with an alternative that is abandoned one rule deeper
than the match goes. -/
theorem matchWith_eq_of_le_parentheses :
    let g : Grammar :=
      ⟨[(Rule.selection [.sequence [.symbol '(', .reference "r", .symbol ')'],
        .symbol 'a']).named "r"]⟩
    g.matchWith 11 "r" (stringBytes "((a))") = .error (.tooDeep 11) ∧
      g.matchWith 12 "r" (stringBytes "((a))") ≠ .error (.tooDeep 12) ∧
      ∀ limit, 12 ≤ limit → g.matchWith limit "r" (stringBytes "((a))") =
        .ok ⟨stringBytes "((a))",
          ⟨#[⟨"r", 0, 5, 0⟩, ⟨"r", 1, 4, 1⟩, ⟨"r", 2, 3, 2⟩], []⟩, 5⟩ := by
  intro g
  have hanswer : g.matchWith 12 "r" (stringBytes "((a))") =
      .ok ⟨stringBytes "((a))",
        ⟨#[⟨"r", 0, 5, 0⟩, ⟨"r", 1, 4, 1⟩, ⟨"r", 2, 3, 2⟩], []⟩, 5⟩ := by
    rfl
  have hroom : g.matchWith 12 "r" (stringBytes "((a))") ≠ .error (.tooDeep 12) := by
    rw [hanswer]
    exact nofun
  have h := (matchWith_eq_of_le g 12 "r" (stringBytes "((a))") hroom).1
  exact ⟨rfl, hroom, fun limit hle => (h limit hle).trans hanswer⟩

end RuleGraph.Matching
