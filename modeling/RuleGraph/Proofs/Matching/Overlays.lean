import RuleGraph.Proofs.Matching.Rollback

/-!
# What a match leaves is a well-formed overlay

Three things have to be seen to, and each has its own reason. The shape of the
overlay is the shape of the forest that the match means: `Means.orderly` is an
induction on derivations in which positions only move forward. That positions
stay inside the input is not a matter of meaning, because the furthest offset is
not part of it, so `Contained` follows the loops of the matcher once more. And
that nothing is looked up where nothing is needs a matcher in which a look-up
can fail: `guardedStep` has a guard in front of every access by index and leaves
open what happens behind it. That the guards change nothing, whatever is put
there, is what is proved.
-/

namespace RuleGraph

/-- A place of an input: not behind its end, with what follows there left. -/
def Cursor.In (input : Bytes) (c : Cursor) : Prop :=
  c.offset ≤ input.length ∧ c.rest = input.drop c.offset

instance (input : Bytes) (c : Cursor) : Decidable (c.In input) :=
  inferInstanceAs (Decidable (_ ∧ _))

theorem Cursor.In.atStart (input : Bytes) : (Cursor.atStart input).In input :=
  ⟨Nat.zero_le _, rfl⟩

theorem Cursor.In.length_rest {input : Bytes} {c : Cursor} (h : c.In input) :
    c.offset + c.rest.length = input.length := by
  rw [h.2, List.length_drop]
  exact Nat.add_sub_cancel' h.1

theorem Cursor.In.advance {input : Bytes} {c : Cursor} (h : c.In input) {width : Nat}
    (hwidth : width ≤ c.rest.length) : (c.advance width).In input := by
  have hlength := h.length_rest
  refine ⟨show c.offset + width ≤ input.length by omega, ?_⟩
  show c.rest.drop width = input.drop (c.offset + width)
  rw [h.2, List.drop_drop]

theorem Cursor.In.next {input : Bytes} {offset : Nat} {b : UInt8} {rest : Bytes}
    (h : Cursor.In input ⟨offset, b :: rest⟩) : Cursor.In input ⟨offset + 1, rest⟩ := by
  have hwidth : 1 ≤ (b :: rest).length := Nat.succ_le_succ (Nat.zero_le _)
  exact h.advance hwidth

theorem Spacing.length?_le {contract : Spacing} {rest : Bytes} {n : Nat}
    (h : contract.length? rest = some n) : n ≤ rest.length := by
  simp only [length?] at h
  split at h
  · cases h
    unfold run
    split <;> exact (List.takeWhile_sublist _).length_le
  · cases h

theorem Utf8.complete_le {value n : Nat} {spans : List Span} {rest : Bytes}
    (h : complete value spans rest = some n) : spans.length ≤ rest.length := by
  induction spans generalizing value rest with
  | nil => exact Nat.zero_le _
  | cons s spans ih =>
    cases rest with
    | nil => cases h
    | cons b rest =>
      rw [complete] at h
      split at h
      · exact Nat.succ_le_succ (ih h)
      · cases h

theorem Utf8.scalar?_le {b : UInt8} {rest : Bytes} {value tail : Nat}
    (h : scalar? (b :: rest) = some (value, tail)) : tail ≤ rest.length := by
  rw [scalar?] at h
  split at h
  · cases h
  · rename_i start spans _
    obtain ⟨_, hcomplete, heq⟩ := Option.map_eq_some_iff.mp h
    cases heq
    exact complete_le hcomplete

namespace Matching

open Stretch

/-! ## Stretches in order -/

namespace Meaning

/-- What was found lies between two places, in order. -/
def Orderly (here : Cursor) : Meaning → Prop
  | arrives stop forest => Stretch.Orderly here.offset stop.offset forest
  | misses _ => True

theorem orderly_of_le {here stop : Cursor} (h : here.offset ≤ stop.offset) :
    (arrives stop []).Orderly here := by
  rw [Orderly, Stretch.Orderly]
  exact h

theorem orderly_taking (here : Cursor) (width : Option Nat) :
    (taking here width).Orderly here := by
  cases width with
  | none => trivial
  | some width => exact orderly_of_le (Nat.le_add_right _ _)

theorem orderly_ending (here : Cursor) (wanted : Nat) :
    (ending here wanted).Orderly here := by
  cases wanted with
  | zero => exact orderly_of_le (Nat.le_refl _)
  | succ _ => trivial

theorem Orderly.after {here next : Cursor} {found : List (Stretch String)} {m : Meaning}
    (hfound : (arrives next found).Orderly here) (hrest : m.Orderly next) :
    (m.after found).Orderly here := by
  cases m with
  | arrives stop forest => exact Stretch.Orderly.append hfound hrest
  | misses _ => trivial

theorem Orderly.ahead {here : Cursor} {m : Meaning} : (m.ahead here).Orderly here := by
  cases m with
  | arrives _ _ => exact orderly_of_le (Nat.le_refl _)
  | misses _ => trivial

theorem Orderly.captured {here : Cursor} {m : Meaning} (name : String)
    (h : m.Orderly here) : (m.captured name here.offset).Orderly here := by
  cases m with
  | arrives stop forest =>
    rw [Meaning.captured, Orderly, Stretch.Orderly]
    exact ⟨Nat.le_refl _, h, orderly_of_le (Nat.le_refl _)⟩
  | misses _ => trivial

end Meaning

/-- Every stretch that a match finds lies between the place where it begins and
the place where it arrives, and all of them in order. -/
theorem Means.orderly {g : Grammar} {task : Task} {here : Cursor} {m : Meaning}
    (h : Means g task here m) : m.Orderly here := by
  induction h with
  | literal | terminal | spacing => exact Meaning.orderly_taking _ _
  | iteration _ ih | sequence _ ih | selection _ ih | completion _ ih | reference _ _ ih
  | pass _ _ ih | other _ _ _ ih | chosen _ _ ih => exact ih
  | toEnd => exact Meaning.orderly_of_le (Nat.le_add_right _ _)
  | lookahead _ _ => exact .ahead
  | capture _ ih => exact ih.captured _
  | decision | done | found _ _ => exact Meaning.orderly_of_le (Nat.le_refl _)
  | full | last _ _ => exact Meaning.orderly_ending _ _
  | idle _ heq ih =>
    rw [Meaning.Orderly, heq] at ih
    exact ih
  | round _ _ _ ih ihRest | element _ _ _ ih ihRest => exact ih.after ihRest
  | @further _ offset _ rest _ m _ _ _ _ ih =>
    have hstep : (Meaning.arrives ⟨offset + 1, rest⟩ []).Orderly ⟨offset, []⟩ :=
      Meaning.orderly_of_le (Nat.le_succ _)
    have h := hstep.after ih
    cases m <;> exact h
  | missing _ | broken _ _ _ | stuck _ _ _ | none | nowhere _ _ _
  | astray _ _ _ => trivial

/-! ## Places inside the input -/

theorem literalWidth_eq_some_iff {bytes input : Bytes} {n : Nat} :
    literalWidth bytes input = some n ↔ n = bytes.length ∧ bytes <+: input := by
  rw [literalWidth, Option.ite_none_right_eq_some, Option.some.injEq,
    List.isPrefixOf_iff_prefix, and_comm, eq_comm]

theorem literalWidth_le {bytes rest : Bytes} {n : Nat}
    (h : literalWidth bytes rest = some n) : n ≤ rest.length := by
  obtain ⟨rfl, hprefix⟩ := literalWidth_eq_some_iff.mp h
  exact hprefix.length_le

theorem unit?_le {b : UInt8} {rest : Bytes} {code tail : Nat}
    (h : Utf8.unit? (b :: rest) = some (code, tail)) : tail ≤ rest.length := by
  rw [Utf8.unit?, Option.some.injEq] at h
  cases hscalar : Utf8.scalar? (b :: rest) with
  | none =>
    -- a byte that begins no character is taken by itself
    rw [hscalar] at h
    cases h
    exact Nat.zero_le _
  | some unit =>
    rw [hscalar] at h
    cases h
    exact Utf8.scalar?_le hscalar

theorem terminalWidth_le {set : CharSet} {rest : Bytes} {n : Nat}
    (h : terminalWidth set rest = some n) : n ≤ rest.length := by
  cases rest with
  | nil => cases h
  | cons b rest =>
    cases hunit : Utf8.unit? (b :: rest) with
    | none =>
      rw [terminalWidth, hunit] at h
      cases h
    | some unit =>
      rw [terminalWidth, hunit] at h
      dsimp only at h
      split at h
      · cases h
        exact Nat.succ_le_succ (unit?_le hunit)
      · cases h

/-- An outcome speaks of places in the input only. -/
def Contained (input : Bytes) : Outcome → Prop
  | (.ok next, t) => next.In input ∧ t.furthest ≤ input.length
  | (.error miss, t) =>
    (∀ position, miss = .committed position → position ≤ input.length) ∧
      t.furthest ≤ input.length

/-- An attempt whose outcomes are contained in the input wherever it is made. -/
def Containing (input : Bytes) (a : Attempt) : Prop :=
  ∀ (here : Cursor) (t : Track), here.In input → t.furthest ≤ input.length →
    Contained input (a here t)

variable {input : Bytes} {g : Grammar} {enter : Rule → Attempt} {once : Attempt}

theorem contained_missAt {here : Cursor} {t : Track} (hin : here.In input)
    (ht : t.furthest ≤ input.length) : Contained input (missAt here t) :=
  ⟨nofun, Nat.max_le.mpr ⟨ht, hin.1⟩⟩

theorem containing_enough (least mark count : Nat) :
    Containing input (enough least mark count) := by
  intro here t hin ht
  unfold enough
  split
  · exact ⟨nofun, ht⟩
  · exact ⟨hin, ht⟩

theorem containing_take {width : Cursor → Option Nat}
    (hwidth : ∀ here n, width here = some n → n ≤ here.rest.length) :
    Containing input fun here => take (width here) here := by
  intro here t hin ht
  dsimp only [take]
  cases hn : width here with
  | none => exact contained_missAt hin ht
  | some n => exact ⟨hin.advance (hwidth here n hn), ht⟩

theorem containing_iterate (honce : Containing input once) (least mark : Nat) :
    ∀ room count, Containing input (iterate once least mark room count) := by
  intro room
  induction room with
  | zero =>
    intro count here t hin ht
    exact containing_enough least mark count here t hin ht
  | succ room ih =>
    intro count here t hin ht
    have h := honce here t hin ht
    rw [iterate]
    generalize once here t = outcome at h ⊢
    obtain ⟨result, t'⟩ := outcome
    cases result with
    | ok next =>
      dsimp only
      split
      · exact ⟨hin, h.2⟩
      · exact ih (count + 1) next t' h.1 h.2
    | error miss =>
      cases miss with
      | soft => exact containing_enough least mark count here t' hin h.2
      | committed _ | tooDeep | missing _ => exact h

theorem containing_inOrder (henter : ∀ r, Containing input (enter r)) (mark : Nat) :
    ∀ rules passed, Containing input (inOrder enter mark passed rules) := by
  intro rules
  induction rules with
  | nil =>
    intro passed here t hin ht
    exact ⟨hin, ht⟩
  | cons r rest ih =>
    intro passed here t hin ht
    rw [inOrder]
    split
    · exact ih true here t hin ht
    · have h := henter r here t hin ht
      generalize enter r here t = outcome at h ⊢
      obtain ⟨result, t'⟩ := outcome
      cases result with
      | ok next => exact ih passed next t' h.1 h.2
      | error miss =>
        refine ⟨fun position hposition => ?_, h.2⟩
        -- a soft miss behind a decision is given the furthest offset
        cases miss with
        | soft =>
          cases passed <;> cases hposition
          exact h.2
        | committed _ | tooDeep | missing _ => exact h.1 position hposition

theorem containing_firstOf (henter : ∀ r, Containing input (enter r)) :
    ∀ rules, Containing input (firstOf enter rules) := by
  intro rules
  induction rules with
  | nil =>
    intro here t _ ht
    exact ⟨nofun, ht⟩
  | cons r rest ih =>
    intro here t hin ht
    have h := henter r here t hin ht
    rw [firstOf]
    generalize enter r here t = outcome at h ⊢
    obtain ⟨result, t'⟩ := outcome
    cases result with
    | ok next => exact h
    | error miss =>
      cases miss with
      | soft => exact ih here t' hin h.2
      | committed _ | tooDeep | missing _ => exact h

theorem contained_seek (honce : Containing input once) (mark : Nat) {origin : Cursor}
    (horigin : origin.In input) (rest : Bytes) (offset : Nat) (t : Track)
    (hin : Cursor.In input ⟨offset, rest⟩) (ht : t.furthest ≤ input.length) :
    Contained input (seek once mark origin offset rest t) := by
  fun_induction seek once mark origin offset rest t with
  | case1 rest offset t next t' hout =>
    have h := honce ⟨offset, rest⟩ t hin ht
    rw [hout] at h
    exact ⟨hin, h.2⟩
  | case2 offset t miss t' hlocal hout =>
    have h := honce ⟨offset, []⟩ t hin ht
    rw [hout] at h
    exact contained_missAt horigin h.2
  | case3 offset t miss t' hlocal b rest hout ih =>
    have h := honce ⟨offset, b :: rest⟩ t hin ht
    rw [hout] at h
    exact ih hin.next h.2
  | case4 rest offset t miss t' hout hstray =>
    have h := honce ⟨offset, rest⟩ t hin ht
    rw [hout] at h
    exact h

theorem containing_step (henter : ∀ r, Containing input (enter r)) (r : Rule) :
    Containing input (step g enter r) := by
  obtain ⟨name, shape⟩ := r
  cases shape with
  | literal bytes => exact containing_take fun here n => literalWidth_le
  | terminal set => exact containing_take fun here n => terminalWidth_le
  | spacing contract => exact containing_take fun here n => contract.length?_le
  | iteration child bound =>
    intro here t hin ht
    exact containing_iterate (henter child) _ _ _ _ here t hin ht
  | sequence elements cut =>
    intro here t hin ht
    exact containing_inOrder henter _ elements _ here t hin ht
  | selection alternatives => exact containing_firstOf henter alternatives
  | completion stop =>
    intro here t hin ht
    cases stop with
    | none => exact ⟨hin.advance (Nat.le_refl _), ht⟩
    | some stop => exact contained_seek (henter stop) _ hin here.rest here.offset t hin ht
  | lookahead child =>
    intro here t hin ht
    have h := henter child here t hin ht
    unfold step
    dsimp only
    generalize enter child here t = outcome at h ⊢
    obtain ⟨result, t'⟩ := outcome
    cases result with
    | ok next => exact ⟨hin, h.2⟩
    | error miss => exact h
  | capture child =>
    intro here t hin ht
    have h := henter child here (t.begin name here.offset) hin ht
    unfold step
    dsimp only
    generalize enter child here (t.begin name here.offset) = outcome at h ⊢
    obtain ⟨result, t'⟩ := outcome
    cases result with
    | ok next => exact h
    | error miss => exact h
  | decision =>
    intro here t hin ht
    exact ⟨hin, ht⟩
  | reference target =>
    intro here t hin ht
    unfold step
    dsimp only
    cases g.resolve? target with
    | none => exact ⟨nofun, ht⟩
    | some rule => exact henter rule here t hin ht

theorem containing_attempt (g : Grammar) (input : Bytes) (room : Nat) :
    ∀ r, Containing input (attempt g room r) := by
  induction room with
  | zero =>
    intro r here t _ ht
    exact ⟨nofun, ht⟩
  | succ room ih =>
    intro r here t hin ht
    have h := containing_step (g := g) ih r here t.enter hin ht
    rw [attempt]
    generalize step g (attempt g room) r here t.enter = outcome at h ⊢
    obtain ⟨result, t'⟩ := outcome
    cases result with
    | ok next => exact h
    | error miss => exact h

/-! ## Guarded accesses -/

/-- A step that looks before every access by index: whether the input has the
place at which something is read, and whether the overlay has the token that is
finished. What happens where it has not is left open. -/
def guardedStep (g : Grammar) (input : Bytes) (outside : Attempt) (enter : Rule → Attempt)
    (r : Rule) : Attempt := fun here t =>
  match r.shape with
  | .literal _ | .terminal _ | .spacing _ =>
    if here.In input then step g enter r here t else outside here t
  | .capture child =>
    match enter child here (t.begin r.name here.offset) with
    | (.ok next, t) =>
      if t.overlay.InRange then (.ok next, t.finish next.offset) else outside next t
    | (.error miss, t) => (.error miss, t.abandon)
  | _ => step g enter r here t

def guarded (g : Grammar) (input : Bytes) (outside : Attempt) : Nat → Rule → Attempt
  | 0, _, _, t => (.error .tooDeep, t)
  | room + 1, r, here, t =>
    let (result, t) :=
      guardedStep g input outside (guarded g input outside room) r here t.enter
    (result, t.leave)

def matchGuarded (g : Grammar) (outside : Attempt) (limit : Nat) (start : String)
    (input : Bytes) : Except Failure (Parse String) :=
  match g.resolve? start with
  | none => .error (.notFound start)
  | some r =>
    match guarded g input outside limit r (.atStart input) .start with
    | (.ok stop, t) => .ok ⟨input, t.overlay, stop.offset⟩
    | (.error miss, t) => .error (failure limit t.furthest miss)

/-- Where everything is that may be accessed. -/
def Inside (input : Bytes) (here : Cursor) (t : Track) : Prop :=
  here.In input ∧ t.overlay.InRange ∧ t.furthest ≤ input.length

theorem steady_inside (g : Grammar) (input : Bytes) (room : Nat) :
    Steady (attempt g room) (Inside input) where
  arrives := by
    intro r here t next t' ⟨hin, hrange, hfurthest⟩ hout
    have htells := attempt_tells g room r here t hrange
    have hcontained := containing_attempt g input room r here t hin hfurthest
    rw [hout] at htells hcontained
    obtain ⟨forest, -, hgrow, -⟩ := htells
    exact ⟨hcontained.1, hgrow ▸ hrange.grow _, hcontained.2⟩
  misses := by
    intro r here t miss t' ⟨hin, hrange, hfurthest⟩ hout
    have htells := attempt_tells g room r here t hrange
    have hcontained := containing_attempt g input room r here t hin hfurthest
    rw [hout] at htells hcontained
    exact ⟨hin, htells.2.1 ▸ hrange, hcontained.2⟩
  begins := fun name ⟨hin, hrange, hfurthest⟩ => ⟨hin, hrange.begin name _, hfurthest⟩
  advances := fun ⟨hin, hrest⟩ => ⟨hin.next, hrest⟩

/-- A guarded step does what the step does, if the guarded attempts in it do
what the attempts do. -/
theorem guardedStep_eq {outside : Attempt} (hsteady : Steady enter (Inside input))
    {enter' : Rule → Attempt}
    (hagree : ∀ r here t, Inside input here t → enter' r here t = enter r here t)
    (r : Rule) (here : Cursor) (t : Track) (ht : Inside input here t) :
    guardedStep g input outside enter' r here t = step g enter r here t := by
  have hstep := step_eq (g := g) hsteady hagree r here t ht
  obtain ⟨name, shape⟩ := r
  unfold guardedStep
  cases shape with
  | literal _ | terminal _ | spacing _ =>
    dsimp only
    rw [if_pos ht.1]
    exact hstep
  | capture child =>
    have hbegun := hsteady.begins name ht
    unfold step
    dsimp only
    rw [hagree child here _ hbegun]
    cases hout : enter child here (t.begin name here.offset) with
    | mk result t' =>
      cases result with
      | error miss => rfl
      | ok next => exact if_pos (hsteady.arrives hbegun hout).2.1
  | iteration _ _ | sequence _ _ | selection _ | completion _ | lookahead _ | decision
  | reference _ => exact hstep

theorem guarded_eq (g : Grammar) (input : Bytes) (outside : Attempt) (room : Nat) :
    ∀ r here t, Inside input here t →
      guarded g input outside room r here t = attempt g room r here t := by
  induction room with
  | zero =>
    intro r here t _
    rfl
  | succ room ih =>
    intro r here t ht
    rw [guarded, attempt,
      guardedStep_eq (steady_inside g input room) ih r here t.enter ht]

theorem matchGuarded_eq (g : Grammar) (outside : Attempt) (limit : Nat) (start : String)
    (input : Bytes) :
    matchGuarded g outside limit start input = g.matchWith limit start input := by
  unfold matchGuarded Grammar.matchWith
  cases g.resolve? start with
  | none => rfl
  | some r =>
    have hstart : Inside input (.atStart input) .start :=
      ⟨.atStart input, nofun, Nat.zero_le _⟩
    dsimp only [within, Track.start, Nat.sub_zero] at hstart ⊢
    have heq := guarded_eq g input outside limit r _ _ hstart
    exact heq ▸ rfl

/-! ## Whole matches -/

/-- No access is out of range, the position of a failure is in the input, and
what a success leaves is a well-formed overlay up to where reading stopped, which
is in the input too. -/
theorem matchWith_wellFormed (g : Grammar) (limit : Nat) (start : String)
    (input : Bytes) :
    (∀ outside,
      matchGuarded g outside limit start input = g.matchWith limit start input) ∧
      match g.matchWith limit start input with
      | .ok p => p.source = input ∧ p.overlay.WellFormed p.stop ∧ p.stop ≤ input.length
      | .error (.noMatch position) => position ≤ input.length
      | .error _ => True := by
  refine ⟨fun outside => matchGuarded_eq g outside limit start input, ?_⟩
  unfold Grammar.matchWith
  cases g.resolve? start with
  | none => trivial
  | some r =>
    have htells := attempt_tells g limit r (.atStart input) .start nofun
    have hcontained :=
      containing_attempt g input limit r (.atStart input) .start (.atStart input)
        (Nat.zero_le _)
    dsimp only [within, Track.start, Nat.sub_zero] at htells hcontained ⊢
    generalize attempt g limit r (.atStart input) ⟨.empty, 0, 0⟩ =
      outcome at htells hcontained ⊢
    obtain ⟨result, t⟩ := outcome
    cases result with
    | ok stop =>
      obtain ⟨forest, hmeans, hgrow, -⟩ := htells
      have hoverlay : t.overlay = ⟨(listing 0 forest).toArray, []⟩ := by
        rw [hgrow]
        simp [Overlay.grow, Overlay.empty]
      refine ⟨rfl, ?_, hcontained.1.1⟩
      rw [hoverlay]
      exact Overlay.listing_wellFormed hmeans.orderly
    | error miss =>
      cases miss with
      | soft => exact hcontained.2
      | committed position => exact hcontained.1 position rfl
      | tooDeep | missing _ => trivial

end Matching

end RuleGraph
