import RuleGraph.Overlay.Gaps

/-!
# Overlays that grow and go back

Everything a matcher does to an overlay comes down to one shape: while some
attempt runs, tokens are added behind the ones that are there and the stack of
pending tokens is what it was. `grow` is that shape. The lemmas below say how
the operations meet it: a rewind or an abandon takes exactly the growth back,
and a token that begins, is followed by growth and finishes is growth again.

Only one fact about the overlay itself is needed for this, `InRange`: what is
pending is there. Without it a rewind to the present count could drop entries
of the stack that lie beyond the tokens. Every overlay that the operations lead
to has it, because the pending indices ascend and stay below the count.
-/

namespace RuleGraph.Overlay

variable {α : Type}

/-- Overlays that some sequence of operations leads to, from an empty one. -/
inductive Reachable : {α : Type} → Overlay α → Prop
  | empty {α : Type} : Reachable (empty : Overlay α)
  | begin {α : Type} {o : Overlay α} (label : α) (start : Nat) :
      Reachable o → Reachable (o.begin label start)
  | finish {α : Type} {o : Overlay α} (stop : Nat) :
      Reachable o → Reachable (o.finish stop)
  | abandon {α : Type} {o : Overlay α} : Reachable o → Reachable o.abandon
  | rewind {α : Type} {o : Overlay α} (count : Nat) :
      Reachable o → Reachable (o.rewind count)
  | trim {α : Type} {o : Overlay α} (position : Nat) :
      Reachable o → Reachable (o.trim position)
  | map {α β : Type} {o : Overlay α} (f : α → β) : Reachable o → Reachable (o.map f)
  | filled {α : Type} {o : Overlay α} : Reachable o → Reachable o.filled

def InRange (o : Overlay α) : Prop :=
  ∀ index ∈ o.pending, index < o.count

instance (o : Overlay α) : Decidable o.InRange :=
  List.decidableBAll (· < o.count) o.pending

/-- The pending indices ascend towards the innermost, and the count lies above
them all. -/
def Stacked (o : Overlay α) : Prop :=
  (o.count :: o.pending).Pairwise (· > ·)

theorem Stacked.inRange {o : Overlay α} (h : o.Stacked) : o.InRange :=
  (List.pairwise_cons.mp h).1

/-! ## What the operations do to the count and the stack -/

@[simp] theorem count_begin (o : Overlay α) (label : α) (start : Nat) :
    (o.begin label start).count = o.count + 1 := by
  simp [begin, count]

@[simp] theorem pending_begin (o : Overlay α) (label : α) (start : Nat) :
    (o.begin label start).pending = o.count :: o.pending := rfl

theorem count_rewind (o : Overlay α) (count : Nat) :
    (o.rewind count).count = min count o.count := by
  unfold rewind
  split
  · rw [Overlay.count, Array.size_shrink]
    rfl
  · rename_i h
    exact (Nat.min_eq_right (Nat.le_of_not_lt h)).symm

theorem pending_rewind {o : Overlay α} (h : o.InRange) (count : Nat) :
    (o.rewind count).pending = o.pending.filter (· < count) := by
  unfold rewind
  split
  · rfl
  · rename_i hge
    refine (List.filter_eq_self.mpr fun index hmem => ?_).symm
    have := h index hmem
    exact decide_eq_true (by omega)

/-! ## Every reachable overlay is in range -/

theorem Stacked.begin {o : Overlay α} (h : o.Stacked) (label : α) (start : Nat) :
    (o.begin label start).Stacked := by
  rw [Stacked, count_begin, pending_begin]
  refine List.pairwise_cons.mpr ⟨?_, h⟩
  intro index hmem
  rcases List.mem_cons.mp hmem with rfl | hmem
  · exact Nat.lt_succ_self _
  · exact Nat.lt_succ_of_lt (h.inRange index hmem)

theorem Stacked.finish {o : Overlay α} (h : o.Stacked) (stop : Nat) :
    (o.finish stop).Stacked := by
  obtain ⟨tokens, pending⟩ := o
  cases pending with
  | nil => exact h
  | cons index rest =>
    obtain ⟨hcount, hrest⟩ := List.pairwise_cons.mp h
    refine List.pairwise_cons.mpr ⟨?_, (List.pairwise_cons.mp hrest).2⟩
    intro other hmem
    have := hcount other (List.mem_cons_of_mem _ hmem)
    simpa [Overlay.finish, count] using this

theorem Stacked.abandon {o : Overlay α} (h : o.Stacked) : o.abandon.Stacked := by
  obtain ⟨tokens, pending⟩ := o
  cases pending with
  | nil => exact h
  | cons index rest =>
    obtain ⟨hcount, hrest⟩ := List.pairwise_cons.mp h
    have hindex : index < tokens.size := hcount index List.mem_cons_self
    have hsize : (tokens.shrink index).size = index := by
      rw [Array.size_shrink]
      omega
    show ((tokens.shrink index).size :: rest).Pairwise (· > ·)
    rw [hsize]
    exact hrest

theorem Stacked.rewind {o : Overlay α} (h : o.Stacked) (count : Nat) :
    (o.rewind count).Stacked := by
  rw [Stacked, count_rewind, pending_rewind h.inRange]
  refine List.pairwise_cons.mpr ⟨?_, (List.pairwise_cons.mp h).2.filter _⟩
  intro index hmem
  obtain ⟨hmem, hlt⟩ := List.mem_filter.mp hmem
  have := h.inRange index hmem
  have := of_decide_eq_true hlt
  omega

theorem Reachable.stacked {o : Overlay α} (h : o.Reachable) : o.Stacked := by
  induction h with
  | empty => exact List.pairwise_singleton _ _
  | begin label start _ ih => exact ih.begin label start
  | finish stop _ ih => exact ih.finish stop
  | abandon _ ih => exact ih.abandon
  | rewind count _ ih => exact ih.rewind count
  | trim position _ ih => exact ih.rewind _
  | @map _ _ o f _ ih =>
    have hcount : (o.map f).count = o.count := by simp [Overlay.map, count]
    rw [Stacked, hcount]
    exact ih
  | filled _ _ => exact List.pairwise_singleton _ _

theorem Reachable.inRange {o : Overlay α} (h : o.Reachable) : o.InRange :=
  h.stacked.inRange

/-! ## Growth -/

/-- The overlay with finished tokens added behind it. -/
def grow (o : Overlay α) (added : List (Token α)) : Overlay α :=
  ⟨o.tokens ++ added.toArray, o.pending⟩

@[simp] theorem grow_nil (o : Overlay α) : o.grow [] = o := by
  simp [grow]

@[simp] theorem grow_grow (o : Overlay α) (first second : List (Token α)) :
    (o.grow first).grow second = o.grow (first ++ second) := by
  simp [grow, Array.append_assoc]

@[simp] theorem pending_grow (o : Overlay α) (added : List (Token α)) :
    (o.grow added).pending = o.pending := rfl

@[simp] theorem count_grow (o : Overlay α) (added : List (Token α)) :
    (o.grow added).count = o.count + added.length := by
  simp [grow, count]

theorem InRange.grow {o : Overlay α} (h : o.InRange) (added : List (Token α)) :
    (o.grow added).InRange := by
  intro index hmem
  rw [count_grow]
  exact Nat.lt_add_right _ (h index hmem)

theorem InRange.begin {o : Overlay α} (h : o.InRange) (label : α) (start : Nat) :
    (o.begin label start).InRange := by
  intro index hmem
  rw [count_begin]
  rcases List.mem_cons.mp hmem with rfl | hmem
  · exact Nat.lt_succ_self _
  · exact Nat.lt_succ_of_lt (h index hmem)

/-- Going back to a count takes back what has grown since. -/
theorem rewind_grow {o : Overlay α} (h : o.InRange) (added : List (Token α)) :
    (o.grow added).rewind o.count = o := by
  unfold rewind
  split
  · have hfilter : o.pending.filter (· < o.count) = o.pending :=
      List.filter_eq_self.mpr fun index hmem => decide_eq_true (h index hmem)
    rw [pending_grow, hfilter]
    simp [grow, count]
  · rename_i hlt
    have hnil : added = [] := by
      rw [count_grow] at hlt
      exact List.eq_nil_of_length_eq_zero (by omega)
    rw [hnil, grow_nil]

@[simp] theorem abandon_begin (o : Overlay α) (label : α) (start : Nat) :
    (o.begin label start).abandon = o := by
  simp [abandon, begin, count]

/-- A token that begins and finishes is growth, with what has grown in between
behind it. -/
theorem finish_grow_begin (o : Overlay α) (label : α) (start stop : Nat)
    (added : List (Token α)) :
    ((o.begin label start).grow added).finish stop =
      o.grow (⟨label, start, stop, o.pending.length⟩ :: added) := by
  obtain ⟨⟨tokens⟩, pending⟩ := o
  have hmodify (rest : List (Token α)) (f : Token α → Token α) :
      (tokens ++ rest).modify tokens.length f = tokens ++ rest.modify 0 f :=
    List.modifyTailIdx_add (List.modifyHead f) 0 tokens rest
  simp [grow, begin, finish, count, hmodify]

theorem isPending_grow {o : Overlay α} (h : o.InRange) (added : List (Token α))
    (index : Nat) (hle : o.count ≤ index) : (o.grow added).isPending index = false := by
  rw [isPending, pending_grow, Bool.eq_false_iff]
  intro hmem
  have := h index (List.contains_iff_mem.mp hmem)
  omega

end RuleGraph.Overlay
