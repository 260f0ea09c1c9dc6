import Mathlib.Data.List.TakeWhile
import RuleGraph.Proofs.Overlay.Forests

/-!
# Pending tokens are ancestors

The stack of pending tokens and the levels of the tokens are kept apart, and no
operation compares the two. `begin` takes the length of the stack for a level,
`abandon` and `rewind` cut the tokens at an index and the stack where it exceeds
this index, and `filled` drops the stack altogether. What keeps them in step is
that the stack is at all times a chain of ancestors: its entry number `k` from the
bottom has level `k`, and everything after it lies deeper.

This is a matter of the levels alone, so the operations are first looked at for
what they do to these. Two of them do nothing, three cut the list short, `begin`
puts the length of the stack at its end, and `filled` lists trees.
-/

namespace RuleGraph.Overlay

variable {α : Type}

/-! ## Levels -/

def levels (o : Overlay α) : List Int := o.tokens.toList.map Token.level

@[simp] theorem length_levels (o : Overlay α) : o.levels.length = o.count := by
  simp [levels, count]

theorem getElem?_levels (o : Overlay α) (i : Nat) :
    o.levels[i]? = (o.tokens[i]?).map Token.level := by
  rw [levels, List.getElem?_map, Array.getElem?_toList]

/-! ## What the operations do to the levels -/

theorem levels_begin (o : Overlay α) (label : α) (start : Nat) :
    (o.begin label start).levels = o.levels ++ [(o.pending.length : Int)] := by
  simp [levels, begin]

theorem levels_finish (o : Overlay α) (stop : Nat) :
    (o.finish stop).levels = o.levels := by
  obtain ⟨tokens, pending⟩ := o
  cases pending with
  | nil => rfl
  | cons index rest =>
    refine List.ext_getElem? fun i => ?_
    rw [getElem?_levels, getElem?_levels, finish, Array.getElem?_modify]
    split
    · cases tokens[i]? <;> rfl
    · rfl

theorem levels_map {β : Type} (o : Overlay α) (f : α → β) :
    (o.map f).levels = o.levels := by
  simp [levels, map, Function.comp_def]

theorem levels_shrink (tokens : Array (Token α)) (pending : List Nat) (count : Nat) :
    levels ⟨tokens.shrink count, pending⟩ = (levels ⟨tokens, pending⟩).take count := by
  simp [levels]

theorem levels_rewind (o : Overlay α) (count : Nat) :
    (o.rewind count).levels = o.levels.take count := by
  unfold rewind
  split
  · exact levels_shrink ..
  · rename_i h
    exact (List.take_of_length_le (by rw [length_levels]; omega)).symm

/-! ## Chains of ancestors -/

/-- Each of the indices, innermost first, has as many below it in the stack as its
level says, and only deeper levels after it. -/
def Anchored (levels : List Int) : List Nat → Prop
  | [] => True
  | index :: rest =>
    levels[index]? = some (rest.length : Int) ∧
      (∀ level ∈ levels.drop (index + 1), rest.length < level.natAbs) ∧
      Anchored levels rest

namespace Anchored

variable {levels : List Int} {pending : List Nat}

theorem snoc {level : Int} (h : Anchored levels pending)
    (hlevel : pending.length ≤ level.natAbs) : Anchored (levels ++ [level]) pending := by
  induction pending with
  | nil => trivial
  | cons index rest ih =>
    obtain ⟨hindex, hlater, hrest⟩ := h
    rw [List.length_cons] at hlevel
    have hlt : index < levels.length := (List.getElem?_eq_some_iff.mp hindex).1
    refine ⟨?_, ?_, ih hrest (by omega)⟩
    · rw [List.getElem?_append_left hlt]
      exact hindex
    · rw [List.drop_append_of_le_length hlt]
      exact List.forall_mem_append.mpr ⟨hlater, List.forall_mem_singleton.mpr (by omega)⟩

theorem take {count : Nat} (h : Anchored levels pending)
    (hcount : ∀ index ∈ pending, index < count) :
    Anchored (levels.take count) pending := by
  induction pending with
  | nil => trivial
  | cons index rest ih =>
    obtain ⟨hindex, hlater, hrest⟩ := h
    obtain ⟨hlt, hcount⟩ := List.forall_mem_cons.mp hcount
    refine ⟨?_, fun level hlevel => ?_, ih hrest hcount⟩
    · rw [List.getElem?_take_of_lt hlt]
      exact hindex
    · rw [List.drop_take] at hlevel
      exact hlater level (List.mem_of_mem_take hlevel)

/-- Cutting the levels at an index and the stack where it exceeds this index leaves a
chain, since a descending stack loses its first entries and no others. -/
theorem filter {count : Nat} (h : Anchored levels pending)
    (hdown : pending.Pairwise (· > ·)) :
    Anchored (levels.take count) (pending.filter (· < count)) := by
  induction pending with
  | nil => trivial
  | cons index rest ih =>
    obtain ⟨hfirst, hdown⟩ := List.pairwise_cons.mp hdown
    by_cases hlt : index < count
    · have hall : ∀ i ∈ index :: rest, i < count :=
        List.forall_mem_cons.mpr ⟨hlt, fun i hi => Nat.lt_trans (hfirst i hi) hlt⟩
      rw [List.filter_eq_self.mpr fun i hi => decide_eq_true (hall i hi)]
      exact h.take hall
    · rw [List.filter_cons_of_neg (by simpa using hlt)]
      exact ih h.2.2 hdown

/-- From the innermost pending token on, no token lies less deep than it does. -/
theorem length_le_of_last (h : Anchored levels pending) :
    ∀ level ∈ levels.getLast?, pending.length ≤ level.natAbs + 1 := by
  intro level hlevel
  cases pending with
  | nil => exact Nat.zero_le _
  | cons index rest =>
    obtain ⟨hindex, hlater, -⟩ := h
    have hlt : index < levels.length := (List.getElem?_eq_some_iff.mp hindex).1
    rw [List.length_cons]
    rw [List.getLast?_eq_getElem?] at hlevel
    rcases Nat.lt_or_ge index (levels.length - 1) with hbefore | hlast
    · have hmem : level ∈ levels.drop (index + 1) := by
        refine List.mem_of_getElem? (i := levels.length - 1 - (index + 1)) ?_
        rw [List.getElem?_drop, Nat.add_sub_cancel' hbefore]
        exact hlevel
      have := hlater level hmem
      omega
    · obtain rfl : index = levels.length - 1 := by omega
      cases hindex.symm.trans hlevel
      omega

/-- Counted from the bottom, the entries have their number for a level. -/
theorem getElem?_reverse (h : Anchored levels pending) {k index : Nat}
    (hindex : pending.reverse[k]? = some index) :
    levels[index]? = some (k : Int) ∧ ∀ level ∈ levels.drop (index + 1),
      k < level.natAbs := by
  induction pending with
  | nil => cases hindex
  | cons i rest ih =>
    rw [List.reverse_cons, List.getElem?_append, List.length_reverse] at hindex
    split at hindex
    · exact ih h.2.2 hindex
    · rename_i hge
      obtain ⟨hlt, rfl⟩ := List.getElem?_eq_some_iff.mp hindex
      rw [List.length_singleton] at hlt
      obtain rfl : k = rest.length := by omega
      simp only [Nat.sub_self, List.getElem_cons_zero]
      exact ⟨h.1, h.2.1⟩

end Anchored

/-! ## The levels of reachable overlays -/

theorem climbs_begin {o : Overlay α} (hclimbs : Climbs 0 o.levels)
    (hanchored : Anchored o.levels o.pending) (label : α) (start : Nat) :
    Climbs 0 (o.begin label start).levels := by
  rw [levels_begin]
  refine hclimbs.snoc hanchored.length_le_of_last fun hnil => ?_
  cases hpending : o.pending with
  | nil => exact Nat.le_refl 0
  | cons index rest =>
    rw [hpending, hnil] at hanchored
    cases hanchored.1

theorem anchored_begin {o : Overlay α} (h : Anchored o.levels o.pending) (label : α)
    (start : Nat) :
    Anchored (o.begin label start).levels (o.begin label start).pending := by
  rw [levels_begin, pending_begin]
  refine ⟨?_, ?_, h.snoc (Nat.le_refl _)⟩
  · rw [← length_levels, List.getElem?_concat_length]
  · rw [List.drop_of_length_le (by simp)]
    exact List.forall_mem_nil _

theorem climbs_filled {o : Overlay α} (h : Climbs 0 o.levels) :
    Climbs 0 o.filled.levels := by
  have hlevelled := (Tree.levelled_filled (Tree.levelled_forest h)).1
  have hclimbs : Climbs 0 (o.filled.levels ++ []) :=
    hlevelled.climbs (Nat.le_refl 0) fun _ _ => trivial
  rwa [List.append_nil] at hclimbs

/-- In a reachable overlay no depth is left out, and what is pending is a chain of
ancestors. -/
theorem Reachable.anchored {o : Overlay α} (h : o.Reachable) :
    Climbs 0 o.levels ∧ Anchored o.levels o.pending := by
  induction h with
  | empty => exact ⟨trivial, trivial⟩
  | begin label start _ ih =>
    exact ⟨climbs_begin ih.1 ih.2 label start, anchored_begin ih.2 label start⟩
  | @finish _ o stop _ ih =>
    rw [levels_finish]
    obtain ⟨tokens, pending⟩ := o
    cases pending with
    | nil => exact ih
    | cons index rest => exact ⟨ih.1, ih.2.2.2⟩
  | @abandon _ o hreach ih =>
    have hstacked := hreach.stacked
    obtain ⟨tokens, pending⟩ := o
    cases pending with
    | nil => exact ih
    | cons index rest =>
      rw [Overlay.abandon, levels_shrink]
      have hbelow := (List.pairwise_cons.mp (List.pairwise_cons.mp hstacked).2).1
      exact ⟨ih.1.take index, Anchored.take ih.2.2.2 hbelow⟩
  | rewind count hreach ih =>
    rw [levels_rewind, pending_rewind hreach.inRange]
    exact ⟨ih.1.take count, ih.2.filter (List.pairwise_cons.mp hreach.stacked).2⟩
  | trim position hreach ih =>
    rw [Overlay.trim, levels_rewind, pending_rewind hreach.inRange]
    exact ⟨ih.1.take _, ih.2.filter (List.pairwise_cons.mp hreach.stacked).2⟩
  | map f _ ih =>
    rw [levels_map]
    exact ih
  | filled _ ih => exact ⟨climbs_filled ih.1, trivial⟩

end RuleGraph.Overlay
