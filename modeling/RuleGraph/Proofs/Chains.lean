/-!
# Chains of steps that may fail

A chain has succeeded only if each step of it has. Proofs about chains take them
apart with these lemmas and do not unfold the monad. Two chains that are compared
have related results, or both have none.
-/

namespace RuleGraph

variable {ε ε' α β : Type}

theorem bind_eq_ok {first : Except ε α} {next : α → Except ε β} {b : β}
    (h : first >>= next = .ok b) : ∃ a, first = .ok a ∧ next a = .ok b := by
  cases first with
  | error e => cases h
  | ok a => exact ⟨a, rfl, h⟩

theorem mapError_eq_ok {f : ε → ε'} {e : Except ε α} {a : α} (h : e.mapError f = .ok a) :
    e = .ok a := by
  cases e with
  | error e => cases h
  | ok a => cases h; rfl

theorem eq_ok_of_toOption {e : Except ε α} {a : α} (h : e.toOption = some a) :
    e = .ok a := by
  cases e with
  | error e => cases h
  | ok a => cases h; rfl

/-! ## Related results -/

section Related

variable {α' β' : Type} {R : α → α' → Prop} {S : β → β' → Prop} {o : Option α}
  {o' : Option α'}

theorem rel_map {f : α → β} {f' : α' → β'} (h : Option.Rel R o o')
    (hf : ∀ a a', R a a' → S (f a) (f' a')) : Option.Rel S (o.map f) (o'.map f') := by
  cases h with
  | none => exact .none
  | some h => exact .some (hf _ _ h)

theorem rel_getD {a : α} {a' : α'} (h : Option.Rel R o o') (ha : R a a') :
    R (o.getD a) (o'.getD a') := by
  cases h with
  | none => exact ha
  | some h => exact h

theorem rel_or {p : Option α} {p' : Option α'} (h : Option.Rel R o o')
    (hp : Option.Rel R p p') : Option.Rel R (o.or p) (o'.or p') := by
  cases h with
  | none => exact hp
  | some h => exact .some h

theorem isSome_eq_of_rel (h : Option.Rel R o o') : o.isSome = o'.isSome := by
  cases h <;> rfl

end Related

/-! ## What a chain ensures -/

/-- A value that the chain succeeds with is of this kind. -/
def Ensures (outcome : Except ε α) (kind : α → Prop) : Prop :=
  ∀ a, outcome = .ok a → kind a

namespace Ensures

variable {outcome : Except ε α} {kind : α → Prop} {kind' : β → Prop}

theorem ok {a : α} (h : kind a) : Ensures (.ok a : Except ε α) kind := by
  intro a' ha'
  cases ha'
  exact h

theorem error {e : ε} : Ensures (.error e : Except ε α) kind := nofun

theorem bind {next : α → Except ε β} (h : Ensures outcome kind)
    (hnext : ∀ a, kind a → Ensures (next a) kind') :
    Ensures (outcome >>= next) kind' := by
  intro b hb
  obtain ⟨a, ha, hb⟩ := bind_eq_ok hb
  exact hnext a (h a ha) b hb

theorem along {next : α → Except ε β}
    (hnext : ∀ a, outcome = .ok a → Ensures (next a) kind') :
    Ensures (outcome >>= next) kind' :=
  bind (fun _ ha => ha) hnext

theorem map {f : α → β} (h : Ensures outcome (kind' ∘ f)) :
    Ensures (f <$> outcome) kind' := by
  cases outcome with
  | error e => exact error
  | ok a => exact ok (h a rfl)

/-- What each step keeps is there after all of them. -/
theorem foldlM {f : β → α → Except ε β} {steps : List α}
    (hstep : ∀ b, kind' b → ∀ a ∈ steps, Ensures (f b a) kind') :
    ∀ {b : β}, kind' b → Ensures (steps.foldlM f b) kind' := by
  induction steps with
  | nil => exact .ok
  | cons a rest ih =>
    intro b hb
    rw [List.foldlM_cons]
    exact (hstep b hb a List.mem_cons_self).bind fun _ hb' =>
      ih (fun b hb a ha => hstep b hb a (List.mem_cons_of_mem _ ha)) hb'

/-- What each of several chains ensures of its result holds of all of them. -/
theorem mapM {f : α → Except ε β} {items : List α}
    (h : ∀ a ∈ items, Ensures (f a) kind') :
    Ensures (items.mapM f) fun results => ∀ b ∈ results, kind' b := by
  induction items with
  | nil => exact .ok (List.forall_mem_nil _)
  | cons a rest ih =>
    obtain ⟨ha, hrest⟩ := List.forall_mem_cons.mp h
    rw [List.mapM_cons]
    exact ha.bind fun b hb => (ih hrest).bind fun results hresults =>
      .ok (List.forall_mem_cons.mpr ⟨hb, hresults⟩)

end Ensures

/-! ## How a chain ends -/

/-- A value that the chain succeeds with is of one kind, and an error of
another. -/
def Ends (outcome : Except ε α) (good : α → Prop) (bad : ε → Prop) : Prop :=
  match outcome with
  | .ok a => good a
  | .error e => bad e

namespace Ends

variable {outcome : Except ε α} {good : α → Prop} {good' : β → Prop} {bad bad' : ε → Prop}

theorem error {e : ε} (h : bad e) : Ends (.error e : Except ε α) good bad := h

theorem bind {next : α → Except ε β} (h : Ends outcome good bad)
    (hnext : ∀ a, good a → Ends (next a) good' bad) :
    Ends (outcome >>= next) good' bad := by
  cases outcome with
  | error e => exact h
  | ok a => exact hnext a h

theorem map {f : α → β} (h : Ends outcome (good' ∘ f) bad) :
    Ends (f <$> outcome) good' bad := by
  cases outcome with
  | error e => exact h
  | ok a => exact h

theorem imp {good' : α → Prop} (h : Ends outcome good bad) (hgood : ∀ a, good a → good' a)
    (hbad : ∀ e, bad e → bad' e) : Ends outcome good' bad' := by
  cases outcome with
  | error e => exact hbad e h
  | ok a => exact hgood a h

end Ends

end RuleGraph
