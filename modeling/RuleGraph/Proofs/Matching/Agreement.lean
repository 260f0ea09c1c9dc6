import RuleGraph.Matching.Run

/-!
# When two matchers agree

A step enters other rules only through the attempt it is given, so two attempts
that answer alike make two steps that answer alike. This file proves that once,
in the form that the uses need: the attempts have to agree only where the step
can ask them, and up to misses that count as lost.

Where a step asks is described by an invariant of places and records. `Steady`
lists what a step does to these between two questions: it goes on from an
answer, it begins a token, and it moves one byte along. What is lost is a set of
misses that nothing absorbs, which leaves the recursion limit or nothing at all.

Nothing is lost where two attempts agree altogether, as the matcher does with a
matcher that checks its own steps. The limit is lost where one of them may enter
more rules than the other.
-/

namespace RuleGraph.Matching

/-- The outcome is one of the misses that count as lost. -/
def Lost (lost : Miss → Prop) (outcome : Outcome) : Prop :=
  ∃ miss, lost miss ∧ outcome.1 = .error miss

/-- What is lost is lost with the recursion limit. -/
theorem Lost.eq_tooDeep {lost : Miss → Prop} {outcome : Outcome} (h : Lost lost outcome)
    (hlost : ∀ miss, lost miss → miss = .tooDeep) : ∃ t,
    outcome = (.error .tooDeep, t) := by
  obtain ⟨miss, hmiss, hresult⟩ := h
  cases hlost miss hmiss
  exact ⟨outcome.2, Prod.ext hresult rfl⟩

theorem Lost.of_error {lost : Miss → Prop} {miss : Miss} {t t' : Track}
    (h : Lost lost (.error miss, t)) : Lost lost (.error miss, t') := h

/-- An invariant of the places and records at which a step enters a rule. -/
structure Steady (enter : Rule → Attempt) (P : Cursor → Track → Prop) : Prop where
  arrives : ∀ {r here t next t'}, P here t → enter r here t = (.ok next, t') → P next t'
  misses : ∀ {r here t miss t'}, P here t → enter r here t = (.error miss, t') → P here t'
  begins : ∀ {here t} (name : String), P here t → P here (t.begin name here.offset)
  advances : ∀ {offset b rest t}, P ⟨offset, b :: rest⟩ t → P ⟨offset + 1, rest⟩ t

variable {g : Grammar} {enter enter' : Rule → Attempt} {P : Cursor → Track → Prop}
  {lost : Miss → Prop}

section Loops

variable (hsteady : Steady enter P) (hlost : ∀ miss, lost miss → miss = .tooDeep)
  (hagree : ∀ r here t, P here t → Lost lost (enter r here t) ∨
    enter' r here t = enter r here t)

include hsteady hlost hagree

theorem iterate_agree (child : Rule) (least mark : Nat) :
    ∀ (room count : Nat) (here : Cursor) (t : Track), P here t →
      Lost lost (iterate (enter child) least mark room count here t) ∨
        iterate (enter' child) least mark room count here t =
          iterate (enter child) least mark room count here t := by
  intro room
  induction room with
  | zero =>
    intro count here t _
    exact .inr rfl
  | succ room ih =>
    intro count here t hp
    rw [iterate, iterate]
    rcases hagree child here t hp with h | heq
    · obtain ⟨t', hout⟩ := h.eq_tooDeep hlost
      rw [hout] at h ⊢
      exact .inl h.of_error
    · rw [heq]
      cases hout : enter child here t with
      | mk result t' =>
        cases result with
        | error miss => cases miss <;> exact .inr rfl
        | ok next =>
          dsimp only
          split
          · exact .inr rfl
          · exact ih (count + 1) next t' (hsteady.arrives hp hout)

theorem inOrder_agree (mark : Nat) :
    ∀ (rules : List Rule) (passed : Bool) (here : Cursor) (t : Track), P here t →
      Lost lost (inOrder enter mark passed rules here t) ∨
        inOrder enter' mark passed rules here t =
          inOrder enter mark passed rules here t := by
  intro rules
  induction rules with
  | nil =>
    intro passed here t _
    exact .inr rfl
  | cons r rest ih =>
    intro passed here t hp
    rw [inOrder, inOrder]
    split
    · exact ih true here t hp
    · rcases hagree r here t hp with h | heq
      · obtain ⟨t', hout⟩ := h.eq_tooDeep hlost
        rw [hout] at h ⊢
        exact .inl h.of_error
      · rw [heq]
        cases hout : enter r here t with
        | mk result t' =>
          cases result with
          | error miss => exact .inr rfl
          | ok next => exact ih passed next t' (hsteady.arrives hp hout)

theorem firstOf_agree :
    ∀ (rules : List Rule) (here : Cursor) (t : Track), P here t →
      Lost lost (firstOf enter rules here t) ∨
        firstOf enter' rules here t = firstOf enter rules here t := by
  intro rules
  induction rules with
  | nil =>
    intro here t _
    exact .inr rfl
  | cons r rest ih =>
    intro here t hp
    rw [firstOf, firstOf]
    rcases hagree r here t hp with h | heq
    · obtain ⟨t', hout⟩ := h.eq_tooDeep hlost
      rw [hout] at h ⊢
      exact .inl h.of_error
    · rw [heq]
      cases hout : enter r here t with
      | mk result t' =>
        cases result with
        | ok next => exact .inr rfl
        | error miss =>
          cases miss with
          | soft => exact ih here t' (hsteady.misses hp hout)
          | committed _ | tooDeep | missing _ => exact .inr rfl

theorem seek_agree (stop : Rule) (mark : Nat) (origin : Cursor) :
    ∀ (rest : Bytes) (offset : Nat) (t : Track), P ⟨offset, rest⟩ t →
      Lost lost (seek (enter stop) mark origin offset rest t) ∨
        seek (enter' stop) mark origin offset rest t =
          seek (enter stop) mark origin offset rest t := by
  intro rest
  induction rest with
  | nil =>
    intro offset t hp
    rw [seek, seek]
    rcases hagree stop ⟨offset, []⟩ t hp with h | heq
    · obtain ⟨t', hout⟩ := h.eq_tooDeep hlost
      rw [hout] at h ⊢
      exact .inl h.of_error
    · rw [heq]
      exact .inr rfl
  | cons b rest ih =>
    intro offset t hp
    rw [seek, seek]
    rcases hagree stop ⟨offset, b :: rest⟩ t hp with h | heq
    · obtain ⟨t', hout⟩ := h.eq_tooDeep hlost
      rw [hout] at h ⊢
      exact .inl h.of_error
    · rw [heq]
      cases hout : enter stop ⟨offset, b :: rest⟩ t with
      | mk result t' =>
        cases result with
        | ok next => exact .inr rfl
        | error miss =>
          dsimp only
          split
          · exact ih (offset + 1) t' (hsteady.advances (hsteady.misses hp hout))
          · exact .inr rfl

/-- Steps agree wherever the attempts do that they are given. -/
theorem step_agree (r : Rule) (here : Cursor) (t : Track) (hp : P here t) :
    Lost lost (step g enter r here t) ∨
      step g enter' r here t = step g enter r here t := by
  obtain ⟨name, shape⟩ := r
  unfold step
  cases shape with
  | literal _ | terminal _ | spacing _ | decision => exact .inr rfl
  | iteration child bound =>
    exact iterate_agree hsteady hlost hagree child _ _ _ _ here t hp
  | sequence elements _ => exact inOrder_agree hsteady hlost hagree _ elements _ here t hp
  | selection alternatives =>
    exact firstOf_agree hsteady hlost hagree alternatives here t hp
  | completion stop =>
    cases stop with
    | none => exact .inr rfl
    | some stop =>
      exact seek_agree hsteady hlost hagree stop _ here here.rest here.offset t hp
  | lookahead child =>
    dsimp only
    rcases hagree child here t hp with h | heq
    · obtain ⟨t', hout⟩ := h.eq_tooDeep hlost
      rw [hout] at h ⊢
      exact .inl h
    · rw [heq]
      exact .inr rfl
  | capture child =>
    dsimp only
    rcases hagree child here _ (hsteady.begins name hp) with h | heq
    · obtain ⟨t', hout⟩ := h.eq_tooDeep hlost
      rw [hout] at h ⊢
      exact .inl h.of_error
    · rw [heq]
      exact .inr rfl
  | reference target =>
    dsimp only
    cases g.resolve? target with
    | none => exact .inr rfl
    | some rule => exact hagree rule here t hp

end Loops

theorem step_eq (hsteady : Steady enter P)
    (hagree : ∀ r here t, P here t → enter' r here t = enter r here t)
    (r : Rule) (here : Cursor) (t : Track) (hp : P here t) :
    step g enter' r here t = step g enter r here t := by
  let nothing : Miss → Prop := fun _ => False
  have hagree' (r : Rule) (here : Cursor) (t : Track) (h : P here t) :
      Lost nothing (enter r here t) ∨ enter' r here t = enter r here t :=
    .inr (hagree r here t h)
  rcases step_agree (g := g) hsteady nofun hagree' r here t hp with ⟨_, hfalse, _⟩ | heq
  · exact hfalse.elim
  · exact heq

end RuleGraph.Matching
