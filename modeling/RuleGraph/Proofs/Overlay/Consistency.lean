import RuleGraph.Proofs.Overlay.Columns

/-!
# Overlays are consistent

What the levels of an overlay and its stack have to do with each other was shown of
the list of levels as a whole. Here it is said of single tokens and of the entries
of the stack, together with what is known of the arrays when the tokens are kept in
columns.
-/

namespace RuleGraph.Overlay

variable {α : Type}

theorem Climbs.first {levels : List Int} {most : Nat} {level : Int}
    (h : Climbs most levels) (hlevel : levels[0]? = some level) :
    level.natAbs ≤ most := by
  cases levels with
  | nil => cases hlevel
  | cons l rest =>
    cases hlevel
    exact h.1

theorem Climbs.next {levels : List Int} : ∀ {most i : Nat} {level following : Int},
    Climbs most levels → levels[i]? = some level → levels[i + 1]? = some following →
      following.natAbs ≤ level.natAbs + 1 := by
  induction levels with
  | nil =>
    intro most i level following _ hlevel
    cases hlevel
  | cons l rest ih =>
    intro most i level following h hlevel hfollowing
    cases i with
    | zero =>
      cases hlevel
      exact Climbs.first h.2 hfollowing
    | succ i => exact ih h.2 hlevel hfollowing

/-- Everything after a pending token lies below it. -/
theorem after?_of_deeper {o : Overlay α} {i : Nat} {t : Token α}
    (ht : o.tokens[i]? = some t)
    (hdeeper : ∀ level ∈ o.levels.drop (i + 1), t.depth < level.natAbs) :
    o.after? i = some o.count := by
  have hlt : i < o.count := (Array.getElem?_eq_some_iff.mp ht).1
  have hall : below (o.tokens.toList.drop (i + 1)) t.depth =
      o.tokens.toList.drop (i + 1) := by
    refine List.takeWhile_eq_self_iff.mpr fun s hs => decide_eq_true (hdeeper s.level ?_)
    rw [levels, ← List.map_drop]
    exact List.mem_map_of_mem hs
  rw [after?, ht, Option.map_some, hall, List.length_drop, Array.length_toList]
  exact congrArg some (Nat.add_sub_cancel' hlt)

/-- What is pending is the last token or lies around it. -/
theorem Anchored.around {o : Overlay α} (h : Anchored o.levels o.pending) {index : Nat}
    (hmem : index ∈ o.pending) (hlt : index < o.count) :
    index + 1 = o.count ∨ o.Below index (o.count - 1) := by
  obtain ⟨k, hk⟩ := List.mem_iff_getElem?.mp (List.mem_reverse.mpr hmem)
  obtain ⟨hlevel, hdeeper⟩ := h.getElem?_reverse hk
  rw [getElem?_levels] at hlevel
  obtain ⟨t, ht, hk⟩ := Option.map_eq_some_iff.mp hlevel
  have hdepth : t.depth = k := by
    rw [Token.depth, hk]
    exact Int.natAbs_natCast k
  have hafter := after?_of_deeper ht (hdepth ▸ hdeeper)
  rcases Nat.lt_or_ge index (o.count - 1) with hbefore | hlast
  · exact .inr ⟨o.count, hafter, hbefore, by omega⟩
  · exact .inl (by omega)

def labels (o : Overlay α) : List α := o.tokens.toList.map Token.label

def starts (o : Overlay α) : List Nat := o.tokens.toList.map Token.start

def stops (o : Overlay α) : List Nat := o.tokens.toList.map Token.stop

/-- What the tokens of an overlay and its stack have to do with each other, at any
time. -/
structure Consistent (o : Overlay α) : Prop where
  /-- Every token has a label, a start, a stop and a level. -/
  columns : o.labels.length = o.count ∧ o.starts.length = o.count ∧
  o.stops.length = o.count ∧
    o.levels.length = o.count
  /-- The first token lies inside none. -/
  first : ∀ t, o.tokens[0]? = some t → t.depth = 0
  /-- Every token lies inside at most one more than the token before it. -/
  next : ∀ (i : Nat) (s t : Token α), o.tokens[i]? = some s → o.tokens[i + 1]? = some t →
    t.depth ≤ s.depth + 1
  /-- From the bottom of the stack to its top the indices ascend. -/
  ascending : o.pending.reverse.Pairwise (· < ·)
  /-- What is pending is there. -/
  present : ∀ index ∈ o.pending, index < o.count
  /-- Entry `k` from the bottom has level `k`. -/
  level : ∀ k index : Nat, o.pending.reverse[k]? = some index →
    ∃ t, o.tokens[index]? = some t ∧ t.level = k
  /-- Every token after entry `k` lies deeper than it. -/
  deeper : ∀ (k index j : Nat) (t : Token α),
  o.pending.reverse[k]? = some index → index < j →
    o.tokens[j]? = some t → k < t.depth
  /-- What is pending is the last token or lies around it. -/
  around : ∀ index ∈ o.pending, index + 1 = o.count ∨ o.Below index (o.count - 1)

/-- Whatever operations have led to an overlay, the tokens that are pending are the
last token or its ancestors. Each time such operations are done in columns, they come
to the columns of the overlay, which are of one length. -/
theorem Reachable.consistent {o : Overlay α} (h : o.Reachable) :
    o.Consistent ∧ (∃ run : History α, run.overlay = o) ∧
      ∀ run : History α, run.overlay = o →
        run.columns? = some o.columns ∧ o.columns.Aligned := by
  obtain ⟨hclimbs, hanchored⟩ := h.anchored
  obtain ⟨hpresent, hdown⟩ := List.pairwise_cons.mp h.stacked
  refine ⟨⟨by simp [labels, starts, stops, levels, count], ?_, ?_,
    List.pairwise_reverse.mpr hdown, hpresent, ?_, ?_,
    fun index hmem => hanchored.around hmem (hpresent index hmem)⟩, h.history, ?_⟩
  · intro t ht
    have hlevel : o.levels[0]? = some t.level := by rw [getElem?_levels, ht]; rfl
    exact Nat.le_zero.mp (Climbs.first hclimbs hlevel)
  · intro i s t hs ht
    have hlevel : o.levels[i]? = some s.level := by rw [getElem?_levels, hs]; rfl
    have hfollowing : o.levels[i + 1]? = some t.level := by rw [getElem?_levels, ht]; rfl
    exact Climbs.next hclimbs hlevel hfollowing
  · intro k index hindex
    have hlevel := (hanchored.getElem?_reverse hindex).1
    rw [getElem?_levels] at hlevel
    exact Option.map_eq_some_iff.mp hlevel
  · intro k index j t hindex hlt ht
    refine (hanchored.getElem?_reverse hindex).2 t.level ?_
    refine List.mem_of_getElem? (i := j - (index + 1)) ?_
    rw [List.getElem?_drop, Nat.add_sub_cancel' hlt, getElem?_levels, ht]
    rfl
  · rintro run rfl
    exact ⟨run.columns?_eq, aligned_columns _⟩

/-- Filling, then two more tokens and a third that is taken back. -/
theorem consistent_refilled :
    let root : History Char := .finish 2 <| .begin 'b' 1 <| .begin 'a' 0 .empty
    let run : History Char :=
      .abandon <| .begin 'e' 6 <| .begin 'd' 5 <| .begin 'c' 4 <| .filled <|
        .finish 4 root
    let o :=
      ((((root.overlay.finish 4).filled.begin 'c' 4).begin 'd' 5).begin 'e' 6).abandon
    o.Reachable ∧ o.levels = [0, -1, 1, -1, 0, 1] ∧ o.pending = [5, 4] ∧
      run.columns? = some o.columns ∧ o.columns.stops = #[4, 1, 2, 4, 4, 5] ∧
      o.Consistent := by
  intro root run o
  have h : o.Reachable :=
    .abandon <| .begin 'e' 6 <| .begin 'd' 5 <| .begin 'c' 4 <| .filled <| .finish 4 <|
      .finish 2 <| .begin 'b' 1 <| .begin 'a' 0 .empty
  obtain ⟨hconsistent, -, hrun⟩ := h.consistent
  exact ⟨h, by decide +kernel, by decide +kernel, (hrun run rfl).1, by decide +kernel,
    hconsistent⟩

end RuleGraph.Overlay
