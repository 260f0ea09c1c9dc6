import RuleGraph.Matching.Run

/-!
# What an attempt does not see

An attempt is handed what the attempts before it have recorded, and hands it back with
its own record. It never asks for the overlay or for the count of entered rules. Of the
furthest offset it asks once, for the position of a committed miss. So two attempts of one
rule at one place, with the same room, answer alike: they arrive at the same place, or
they miss in the same way, up to that position.

How alike depends on how near the two furthest offsets are to each other. Where they are
the same, the answers are. But even if nothing is known of them, both attempts arrive or
both miss. `attempt_blind` is for every relation between offsets that recording another
one does not break.
-/

namespace RuleGraph.Matching

/-- The same miss, except that the positions are only near. -/
inductive Similar (near : Nat → Nat → Prop) : Miss → Miss → Prop
  | soft : Similar near .soft .soft
  | committed {position position' : Nat} :
      near position position' → Similar near (.committed position) (.committed position')
  | tooDeep : Similar near .tooDeep .tooDeep
  | missing (name : String) : Similar near (.missing name) (.missing name)

/-- Two outcomes with similar answers and near furthest offsets. -/
inductive Alike (near : Nat → Nat → Prop) : Outcome → Outcome → Prop
  | arrives (next : Cursor) {t t' : Track} :
      near t.furthest t'.furthest → Alike near (.ok next, t) (.ok next, t')
  | misses {miss miss' : Miss} {t t' : Track} :
      Similar near miss miss' → near t.furthest t'.furthest →
      Alike near (.error miss, t) (.error miss', t')

/-- An attempt whose answers are similar if the furthest offsets before it are near. -/
def Blind (near : Nat → Nat → Prop) (attempt : Attempt) : Prop :=
  ∀ here t t', near t.furthest t'.furthest → Alike near (attempt here t) (attempt here t')

variable {near : Nat → Nat → Prop}

theorem Similar.refl (hnear : ∀ m, near m m) (miss : Miss) : Similar near miss miss := by
  cases miss with
  | soft => exact .soft
  | committed position => exact .committed (hnear position)
  | tooDeep => exact .tooDeep
  | missing name => exact .missing name

theorem Similar.isLocal {miss miss' : Miss} (h : Similar near miss miss') :
    miss.isLocal = miss'.isLocal := by
  cases h <;> rfl

theorem Similar.leaving {miss miss' : Miss} {m m' : Nat} (h : Similar near miss miss')
    (passed : Bool) (hm : near m m') :
    Similar near (miss.leaving passed m) (miss'.leaving passed m') := by
  cases h with
  | soft =>
    cases passed with
    | false => exact .soft
    | true => exact .committed hm
  | committed h => exact .committed h
  | tooDeep => exact .tooDeep
  | missing name => exact .missing name

theorem Alike.exists_answers {outcome outcome' : Outcome}
    (h : Alike near outcome outcome') :
    (∃ next t t', outcome = (.ok next, t) ∧ outcome' = (.ok next, t') ∧
      near t.furthest t'.furthest) ∨
    ∃ miss miss' t t', outcome = (.error miss, t) ∧ outcome' = (.error miss', t') ∧
      Similar near miss miss' ∧ near t.furthest t'.furthest := by
  cases h with
  | arrives next h => exact .inl ⟨next, _, _, rfl, rfl, h⟩
  | misses hmiss h => exact .inr ⟨_, _, _, _, rfl, rfl, hmiss, h⟩

/-! ## One lemma per loop -/

section Loops

variable {g : Grammar} {enter : Rule → Attempt} {once : Attempt}

theorem enough_alike (least count mark mark' : Nat) (here : Cursor) {t t' : Track}
    (h : near t.furthest t'.furthest) :
    Alike near (enough least mark count here t) (enough least mark' count here t') := by
  unfold enough
  split
  · exact .misses .soft h
  · exact .arrives here h

theorem iterate_alike (honce : Blind near once) (least mark mark' : Nat) :
    ∀ (room count : Nat) (here : Cursor) (t t' : Track), near t.furthest t'.furthest →
      Alike near (iterate once least mark room count here t)
        (iterate once least mark' room count here t') := by
  intro room
  induction room with
  | zero => exact fun count here t t' h => enough_alike least count mark mark' here h
  | succ room ih =>
    intro count here t t' h
    rw [iterate, iterate]
    obtain ⟨next, u, u', hout, hout', h⟩ | ⟨miss, miss', u, u', hout, hout', hmiss, h⟩ :=
      (honce here t t' h).exists_answers
    · rw [hout, hout']
      dsimp only
      split
      · exact .arrives here h
      · exact ih (count + 1) next u u' h
    · rw [hout, hout']
      cases hmiss with
      | soft => exact enough_alike least count mark mark' here h
      | committed hposition => exact .misses (.committed hposition) h
      | tooDeep => exact .misses .tooDeep h
      | missing name => exact .misses (.missing name) h

theorem inOrder_alike (henter : ∀ r, Blind near (enter r)) (mark mark' : Nat) :
    ∀ (rules : List Rule) (passed : Bool) (here : Cursor) (t t' : Track),
      near t.furthest t'.furthest →
        Alike near (inOrder enter mark passed rules here t)
          (inOrder enter mark' passed rules here t') := by
  intro rules
  induction rules with
  | nil => exact fun _ here _ _ h => .arrives here h
  | cons r rest ih =>
    intro passed here t t' h
    rw [inOrder, inOrder]
    split
    · exact ih true here t t' h
    · obtain ⟨next, u, u', hout, hout', h⟩ | ⟨miss, miss', u, u', hout, hout',
          hmiss, h⟩ :=
        (henter r here t t' h).exists_answers
      · rw [hout, hout']
        exact ih passed next u u' h
      · rw [hout, hout']
        exact .misses (hmiss.leaving passed h) h

theorem firstOf_blind (henter : ∀ r, Blind near (enter r)) :
    ∀ rules, Blind near (firstOf enter rules) := by
  intro rules
  induction rules with
  | nil => exact fun _ _ _ h => .misses .soft h
  | cons r rest ih =>
    intro here t t' h
    rw [firstOf, firstOf]
    obtain ⟨next, u, u', hout, hout', h⟩ | ⟨miss, miss', u, u', hout, hout', hmiss, h⟩ :=
      (henter r here t t' h).exists_answers
    · rw [hout, hout']
      exact .arrives next h
    · rw [hout, hout']
      cases hmiss with
      | soft => exact ih here u u' h
      | committed hposition => exact .misses (.committed hposition) h
      | tooDeep => exact .misses .tooDeep h
      | missing name => exact .misses (.missing name) h

variable (hmax : ∀ {m m' : Nat} (offset : Nat), near m m' →
  near (max m offset) (max m' offset))

include hmax

theorem take_blind (width : Option Nat) : Blind near (take width) := by
  intro here t t' h
  cases width with
  | none => exact .misses .soft (hmax here.offset h)
  | some n => exact .arrives (here.advance n) h

theorem seek_alike (honce : Blind near once) (mark mark' : Nat) (origin : Cursor) :
    ∀ (rest : Bytes) (offset : Nat) (t t' : Track), near t.furthest t'.furthest →
      Alike near (seek once mark origin offset rest t)
        (seek once mark' origin offset rest t') := by
  intro rest
  induction rest with
  | nil =>
    intro offset t t' h
    rw [seek, seek]
    obtain ⟨next, u, u', hout, hout', h⟩ | ⟨miss, miss', u, u', hout, hout', hmiss, h⟩ :=
      (honce ⟨offset, []⟩ t t' h).exists_answers
    · rw [hout, hout']
      exact .arrives ⟨offset, []⟩ h
    · rw [hout, hout']
      dsimp only
      rw [hmiss.isLocal]
      split
      · exact .misses .soft (hmax origin.offset h)
      · exact .misses hmiss h
  | cons b rest ih =>
    intro offset t t' h
    rw [seek, seek]
    obtain ⟨next, u, u', hout, hout', h⟩ | ⟨miss, miss', u, u', hout, hout', hmiss, h⟩ :=
      (honce ⟨offset, b :: rest⟩ t t' h).exists_answers
    · rw [hout, hout']
      exact .arrives ⟨offset, b :: rest⟩ h
    · rw [hout, hout']
      dsimp only
      rw [hmiss.isLocal]
      split
      · exact ih (offset + 1) u u' h
      · exact .misses hmiss h

theorem step_blind (henter : ∀ r, Blind near (enter r)) (r : Rule) :
    Blind near (step g enter r) := by
  intro here t t' h
  obtain ⟨name, shape⟩ := r
  unfold step
  cases shape with
  | literal _ | terminal _ | spacing _ => exact take_blind hmax _ here t t' h
  | iteration child _ => exact iterate_alike (henter child) _ _ _ _ _ here t t' h
  | sequence elements _ => exact inOrder_alike henter _ _ elements _ here t t' h
  | selection alternatives => exact firstOf_blind henter alternatives here t t' h
  | completion stop =>
    cases stop with
    | none => exact .arrives here.toEnd h
    | some stop =>
      exact seek_alike hmax (henter stop) _ _ here here.rest here.offset t t' h
  | lookahead child =>
    dsimp only
    obtain ⟨next, u, u', hout, hout', h⟩ | ⟨miss, miss', u, u', hout, hout', hmiss, h⟩ :=
      (henter child here t t' h).exists_answers
    · rw [hout, hout']
      exact .arrives here h
    · rw [hout, hout']
      exact .misses hmiss h
  | capture child =>
    dsimp only
    obtain ⟨next, u, u', hout, hout', h⟩ | ⟨miss, miss', u, u', hout, hout', hmiss, h⟩ :=
      (henter child here (t.begin name here.offset) (t'.begin name here.offset)
        h).exists_answers
    · rw [hout, hout']
      exact .arrives next h
    · rw [hout, hout']
      exact .misses hmiss h
  | decision => exact .arrives here h
  | reference target =>
    dsimp only
    cases g.resolve? target with
    | none => exact .misses (.missing target) h
    | some rule => exact henter rule here t t' h

end Loops

/-- What an attempt answers does not depend on the overlay or on the count of entered
rules, and on the furthest offset only for a position. -/
theorem attempt_blind (hmax : ∀ {m m' : Nat} (offset : Nat), near m m' →
      near (max m offset) (max m' offset)) (g : Grammar) (room : Nat) :
    ∀ r, Blind near (attempt g room r) := by
  induction room with
  | zero => exact fun _ _ _ _ h => .misses .tooDeep h
  | succ room ih =>
    intro r here t t' h
    rw [attempt, attempt]
    obtain ⟨next, u, u', hout, hout', h⟩ | ⟨miss, miss', u, u', hout, hout', hmiss, h⟩ :=
      (step_blind (g := g) hmax ih r here t.enter t'.enter h).exists_answers
    · rw [hout, hout']
      exact .arrives next h
    · rw [hout, hout']
      exact .misses hmiss h

/-! ## Equal offsets, and any offsets -/

theorem Alike.exists_result {outcome outcome' : Outcome} (h : Alike Eq outcome outcome') :
    ∃ result t t', outcome = (result, t) ∧ outcome' = (result, t') ∧
      t.furthest = t'.furthest := by
  cases h with
  | arrives next h => exact ⟨.ok next, _, _, rfl, rfl, h⟩
  | misses hmiss h =>
    cases hmiss with
    | soft => exact ⟨.error .soft, _, _, rfl, rfl, h⟩
    | committed hposition => exact ⟨_, _, _, rfl, by rw [hposition], h⟩
    | tooDeep => exact ⟨.error .tooDeep, _, _, rfl, rfl, h⟩
    | missing name => exact ⟨.error (.missing name), _, _, rfl, rfl, h⟩

theorem attempt_alike (g : Grammar) (room : Nat) (r : Rule) (here : Cursor) {t t' : Track}
    (h : t.furthest = t'.furthest) :
    Alike Eq (attempt g room r here t) (attempt g room r here t') :=
  attempt_blind (fun offset => congrArg (max · offset)) g room r here t t' h

/-- Where an attempt arrives, it arrives after everything else that may have been
recorded. -/
theorem attempt_arrives {g : Grammar} {room : Nat} {r : Rule} {here next : Cursor}
    {t u : Track} (h : attempt g room r here t = (.ok next, u)) (t' : Track) :
    ∃ u', attempt g room r here t' = (.ok next, u') := by
  have halike : Alike (fun _ _ => True) (attempt g room r here t)
      (attempt g room r here t') :=
    attempt_blind (fun _ _ => trivial) g room r here t t' trivial
  rw [h] at halike
  generalize attempt g room r here t' = outcome at halike ⊢
  cases halike with
  | arrives next _ => exact ⟨_, rfl⟩

end RuleGraph.Matching
