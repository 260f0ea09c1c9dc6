import RuleGraph.Proofs.Matching.Misses

/-!
# Where a match ends that was decided

A sequence that misses behind its decision takes the whole match with it, unless a
completion around it was only trying. `Commits` is the way to that sequence, from a rule
down to the element that missed: the elements, the rounds and the alternatives that came
first, at every level. It sorts the misses on the way into those in front of the decision
and those behind it.

The position that is reported is the furthest offset of the whole match and not that of
the sequence alone. So it is the further one of the two sorts (`committed_position`). A
miss in front of the decision counts, even in an alternative that was abandoned, and it
may well be further into the input than everything behind (`abandoned_position`).
-/

namespace RuleGraph.Matching

/-- The highest of the offsets, or the beginning if there is none. -/
def furthestOf (offsets : List Nat) : Nat :=
  offsets.foldl max 0

theorem foldl_max (offsets : List Nat) (base : Nat) :
    offsets.foldl max base = max base (furthestOf offsets) := by
  calc offsets.foldl max base = offsets.foldl max (max base 0) := by rw [Nat.max_zero]
    _ = max base (furthestOf offsets) := List.foldl_assoc

theorem furthestOf_append (before behind : List Nat) :
    furthestOf (before ++ behind) = max (furthestOf before) (furthestOf behind) := by
  rw [furthestOf, List.foldl_append, foldl_max]
  rfl

/-! ## The way to a sequence that misses -/

/-- Rounds of a repetition, as many as are said, each of which takes something. -/
inductive Rounds (once : Attempt) (log : Log) :
    Nat → Cursor → Track → List Nat → Cursor → Track → Prop
  | none {here t} : Rounds once log 0 here t [] here t
  | round {count here next last t t' t'' logged} :
      once here t = (.ok next, t') → next.offset ≠ here.offset →
      Rounds once log count next t' logged last t'' →
      Rounds once log (count + 1) here t (log here t ++ logged) last t''

/-- While a rule is matched, a sequence misses that has passed its decision, and nothing
tries something else. The misses before that are those in front of the decision and those
behind it. -/
inductive Commits (g : Grammar) : Nat → Rule → Cursor → Track → List Nat → List Nat → Prop
  /-- The decision is one of the elements, and those behind it match up to one of them. -/
  | sequence (front middle later : List Rule) (marker element : Rule)
      {room name cut here next last t t' t'' t'''} :
      inOrder (attempt g room) t.mark false front here t.enter = (.ok next, t') →
      marker.shape = .decision →
      inOrder (attempt g room) t.mark true middle next t' = (.ok last, t'') →
      element.shape ≠ .decision →
      attempt g room element last t'' = (.error .soft, t''') →
      Commits g (room + 1)
        ⟨name, .sequence (front ++ marker :: (middle ++ element :: later)) cut⟩ here t
        (inOrderMisses (attempt g room) (misses g room) front here t.enter)
        (inOrderMisses (attempt g room) (misses g room) middle next t' ++
          misses g room element last t'')
  | element (front later : List Rule) (element : Rule)
      {room name cut here next t t' before behind} :
      inOrder (attempt g room) t.mark false front here t.enter = (.ok next, t') →
      element.shape ≠ .decision →
      Commits g room element next t' before behind →
      Commits g (room + 1) ⟨name, .sequence (front ++ element :: later) cut⟩ here t
        (inOrderMisses (attempt g room) (misses g room) front here t.enter ++ before)
          behind
  | round {room name child bound count here last t t' logged before behind} :
      Rounds (attempt g room child) (misses g room child) count here t.enter
        logged last t' →
      count < bound.most →
      Commits g room child last t' before behind →
      Commits g (room + 1) ⟨name, .iteration child bound⟩ here t (logged ++ before) behind
  | alternative (front later : List Rule) (r : Rule) {room name here t t' before behind} :
      firstOf (attempt g room) front here t.enter = (.error .soft, t') →
      Commits g room r here t' before behind →
      Commits g (room + 1) ⟨name, .selection (front ++ r :: later)⟩ here t
        (firstOfMisses (attempt g room) (misses g room) front here t.enter ++ before)
          behind
  | lookahead {room name child here t before behind} :
      Commits g room child here t.enter before behind →
      Commits g (room + 1) ⟨name, .lookahead child⟩ here t before behind
  | capture {room name child here t before behind} :
      Commits g room child here (t.enter.begin name here.offset) before behind →
      Commits g (room + 1) ⟨name, .capture child⟩ here t before behind
  | reference {room name target r here t before behind} :
      g.resolve? target = some r → Commits g room r here t.enter before behind →
      Commits g (room + 1) ⟨name, .reference target⟩ here t before behind

/-! ## Loops in two parts -/

variable {g : Grammar} {enter : Rule → Attempt} {logs : Rule → Log}
  {once : Attempt} {log : Log}
  {mark : Nat} {passed : Bool} {here next last : Cursor} {t t' t'' : Track}

/-- The first of some elements that match is passed over as a decision, or it matches and
the others do from there on. -/
theorem inOrder_cons_iff {r : Rule} {rest : List Rule} :
    inOrder enter mark passed (r :: rest) here t = (.ok last, t'') ↔
      r.shape = .decision ∧ inOrder enter mark true rest here t = (.ok last, t'') ∨
      r.shape ≠ .decision ∧ ∃ next t', enter r here t = (.ok next, t') ∧
        inOrder enter mark passed rest next t' = (.ok last, t'') := by
  rw [inOrder]
  by_cases hr : r.shape = .decision
  · simp [hr]
  · rcases hout : enter r here t with ⟨result, t'⟩
    cases result with
    | ok next => simp [hr, and_assoc]
    | error miss => simp [hr]

theorem inOrder_append (logs : Rule → Log) {front : List Rule}
    (h : inOrder enter mark passed front here t = (.ok next, t')) (rest : List Rule) :
    inOrder enter mark passed (front ++ rest) here t =
        inOrder enter mark (passed || front.any (·.shape = .decision)) rest next t' ∧
      inOrderMisses enter logs (front ++ rest) here t =
        inOrderMisses enter logs front here t ++
          inOrderMisses enter logs rest next t' := by
  induction front generalizing passed here t with
  | nil =>
    cases h
    exact ⟨by rw [List.nil_append, List.any_nil, Bool.or_false], rfl⟩
  | cons r front ih =>
    rw [List.cons_append, inOrder, inOrderMisses, inOrderMisses, List.any_cons]
    rcases inOrder_cons_iff.mp h with ⟨hr, h⟩ | ⟨hr, place, t₁, hout, h⟩
    · obtain ⟨hrest, hlogged⟩ := ih h
      rw [if_pos hr, if_pos hr, if_pos hr, hrest]
      exact ⟨by simp [hr], hlogged⟩
    · obtain ⟨hrest, hlogged⟩ := ih h
      rw [if_neg hr, if_neg hr, if_neg hr, hout, List.append_assoc, ← hlogged]
      exact ⟨by simp [hrest, hr], rfl⟩

/-- Whether a decision was passed makes no difference for elements that match. -/
theorem inOrder_decided {rules : List Rule}
    (h : inOrder enter mark passed rules here t = (.ok next, t')) :
    inOrder enter mark true rules here t = (.ok next, t') := by
  induction rules generalizing passed here t with
  | nil => exact h
  | cons r rest ih =>
    rcases inOrder_cons_iff.mp h with hmarker | ⟨hr, place, t₁, hout, h⟩
    · exact inOrder_cons_iff.mpr (.inl hmarker)
    · exact inOrder_cons_iff.mpr (.inr ⟨hr, place, t₁, hout, ih h⟩)

/-- Elements that match do so in two parts. -/
theorem exists_between {front rest : List Rule}
    (h : inOrder enter mark passed (front ++ rest) here t = (.ok last, t'')) :
    ∃ next t', inOrder enter mark passed front here t = (.ok next, t') ∧
      inOrder enter mark true rest next t' = (.ok last, t'') := by
  induction front generalizing passed here t with
  | nil => exact ⟨here, t, rfl, inOrder_decided h⟩
  | cons r front ih =>
    rcases inOrder_cons_iff.mp h with ⟨hr, h⟩ | ⟨hr, place, t₁, hout, h⟩
    · obtain ⟨next, t', hfront, hrest⟩ := ih h
      exact ⟨next, t', inOrder_cons_iff.mpr (.inl ⟨hr, hfront⟩), hrest⟩
    · obtain ⟨next, t', hfront, hrest⟩ := ih h
      exact ⟨next, t', inOrder_cons_iff.mpr (.inr ⟨hr, place, t₁, hout, hfront⟩), hrest⟩

theorem firstOf_append (logs : Rule → Log) {front : List Rule}
    (h : firstOf enter front here t = (.error .soft, t')) (rest : List Rule) :
    firstOf enter (front ++ rest) here t = firstOf enter rest here t' ∧
      firstOfMisses enter logs (front ++ rest) here t =
        firstOfMisses enter logs front here t ++
          firstOfMisses enter logs rest here t' := by
  induction front generalizing t with
  | nil =>
    cases h
    exact ⟨rfl, rfl⟩
  | cons r front ih =>
    rw [firstOf] at h
    rw [List.cons_append, firstOf, firstOfMisses, firstOfMisses]
    generalize enter r here t = outcome at h ⊢
    obtain ⟨result, t₁⟩ := outcome
    cases result with
    | ok next => cases h
    | error miss =>
      cases miss with
      | soft =>
        obtain ⟨hrest, hlogged⟩ := ih h
        exact ⟨hrest, by rw [List.append_assoc, ← hlogged]⟩
      | committed _ | tooDeep | missing _ => cases h

theorem Rounds.iterate {count : Nat} {logged : List Nat}
    (h : Rounds once log count here t logged last t') (mark least room done : Nat) :
    Matching.iterate once least mark (count + room) done here t =
        Matching.iterate once least mark room (done + count) last t' ∧
      iterateMisses once log (count + room) here t =
        logged ++ iterateMisses once log room last t' := by
  induction h generalizing done with
  | none =>
    rw [Nat.zero_add]
    exact ⟨rfl, rfl⟩
  | @round count here next last t t' t'' logged honce hne _ ih =>
    obtain ⟨hrest, hlogged⟩ := ih (done + 1)
    rw [Nat.add_right_comm, Matching.iterate, iterateMisses, honce]
    simp only [if_neg hne]
    rw [hrest, hlogged, List.append_assoc, Nat.add_right_comm, Nat.add_assoc done]
    exact ⟨rfl, rfl⟩

/-! ## From the sequence outwards -/

/-- An attempt ends the match, at the furthest offset that was reached, and this is what
it has recorded. -/
structure GivesUp (attempt : Attempt) (log : Log) (here : Cursor) (t : Track)
    (logged : List Nat) : Prop where
  outcome : ∃ t', attempt here t = (.error (.committed t'.furthest), t')
  logged : log here t = logged

namespace GivesUp

variable {room : Nat} {r : Rule} {front rest : List Rule} {before logged : List Nat}

/-- Behind its decision, a sequence turns a miss into the end of the match. -/
theorem of_miss (logs : Rule → Log) (mark : Nat) (rest : List Rule)
    (hr : r.shape ≠ .decision) (h : enter r here t = (.error .soft, t')) :
    GivesUp (inOrder enter mark true (r :: rest)) (inOrderMisses enter logs (r :: rest))
      here t (logs r here t) := by
  constructor
  · rw [inOrder, if_neg hr, h]
    exact ⟨t'.rewind mark, rfl⟩
  · rw [inOrderMisses, if_neg hr, h]
    exact List.append_nil _

theorem element (rest : List Rule) (hr : r.shape ≠ .decision)
    (h : GivesUp (enter r) (logs r) here t logged) :
    GivesUp (inOrder enter mark passed (r :: rest)) (inOrderMisses enter logs (r :: rest))
      here t logged := by
  obtain ⟨⟨t', hout⟩, hlogged⟩ := h
  constructor
  · rw [inOrder, if_neg hr, hout]
    exact ⟨t'.rewind mark, rfl⟩
  · rw [inOrderMisses, if_neg hr, hout, hlogged]
    exact List.append_nil _

theorem marker (hr : r.shape = .decision)
    (h : GivesUp (inOrder enter mark true rest) (inOrderMisses enter logs rest)
      here t logged) :
    GivesUp (inOrder enter mark passed (r :: rest)) (inOrderMisses enter logs (r :: rest))
      here t logged := by
  constructor
  · rw [inOrder, if_pos hr]
    exact h.outcome
  · rw [inOrderMisses, if_pos hr]
    exact h.logged

theorem behind (hfront : inOrder enter mark passed front here t = (.ok next, t'))
    (h : GivesUp (inOrder enter mark (passed || front.any (·.shape = .decision)) rest)
      (inOrderMisses enter logs rest) next t' logged) :
    GivesUp (inOrder enter mark passed (front ++ rest))
      (inOrderMisses enter logs (front ++ rest))
      here t (inOrderMisses enter logs front here t ++ logged) := by
  obtain ⟨hout, hmisses⟩ := inOrder_append logs hfront rest
  constructor
  · rw [hout]
    exact h.outcome
  · rw [hmisses, h.logged]

theorem alternative (hfront : firstOf enter front here t = (.error .soft, t'))
    (h : GivesUp (enter r) (logs r) here t' logged) :
    GivesUp (firstOf enter (front ++ r :: rest))
      (firstOfMisses enter logs (front ++ r :: rest))
      here t (firstOfMisses enter logs front here t ++ logged) := by
  obtain ⟨⟨t'', hout⟩, hlogged⟩ := h
  obtain ⟨hfirst, hmisses⟩ := firstOf_append logs hfront (r :: rest)
  constructor
  · rw [hfirst, firstOf, hout]
    exact ⟨t'', rfl⟩
  · rw [hmisses, firstOfMisses, hout, hlogged, List.append_nil]

theorem round (mark least done : Nat) {count : Nat}
    (hrounds : Rounds once log count here t before last t')
    (hroom : count < room) (h : GivesUp once log last t' logged) :
    GivesUp (iterate once least mark room done) (iterateMisses once log room) here t
      (before ++ logged) := by
  obtain ⟨⟨t'', hout⟩, hlogged⟩ := h
  obtain ⟨left, rfl⟩ : ∃ left, room = count + (left + 1) := ⟨room - count - 1, by omega⟩
  obtain ⟨hiterate, hmisses⟩ := hrounds.iterate mark least (left + 1) done
  constructor
  · rw [hiterate, iterate, hout]
    exact ⟨t''.rewind mark, rfl⟩
  · rw [hmisses, iterateMisses, hout, hlogged, List.append_nil]

/-- An attempt at a rule gives up if what the rule consists of does. -/
theorem attempt
    (h : GivesUp (step g (Matching.attempt g room) r)
      (stepMisses g (Matching.attempt g room) (misses g room) r) here t.enter logged) :
    GivesUp (Matching.attempt g (room + 1) r) (misses g (room + 1) r) here t logged where
  outcome := by
    obtain ⟨t', hout⟩ := h.outcome
    rw [Matching.attempt, hout]
    exact ⟨t'.leave, rfl⟩
  logged := h.logged

end GivesUp

/-- A sequence that misses behind its decision ends the match. What has been recorded by
then are the misses in front of the decision and those behind it, and none besides. -/
theorem Commits.givesUp {room : Nat} {r : Rule} {before behind : List Nat}
    (h : Commits g room r here t before behind) :
    GivesUp (attempt g room r) (misses g room r) here t (before ++ behind) := by
  induction h with
  | @sequence front middle later marker element room _ _ _ _ _ t _ _ _ hfront hmarker
      hmiddle helement hmiss =>
    have hstuck := GivesUp.of_miss (misses g room) t.mark later helement hmiss
    obtain ⟨hout, hlogged⟩ :=
      GivesUp.behind hfront (.marker hmarker (.behind hmiddle hstuck))
    exact .attempt ⟨hout, hlogged⟩
  | element front later element hfront helement _ ih =>
    rw [List.append_assoc]
    obtain ⟨hout, hlogged⟩ := GivesUp.behind hfront (.element later helement ih)
    exact .attempt ⟨hout, hlogged⟩
  | @round _ _ _ bound _ _ _ t _ _ _ _ hrounds hroom _ ih =>
    rw [List.append_assoc]
    obtain ⟨hout, hlogged⟩ := GivesUp.round t.mark bound.least 0 hrounds hroom ih
    exact .attempt ⟨hout, hlogged⟩
  | alternative front later r hfront _ ih =>
    rw [List.append_assoc]
    exact .attempt (.alternative hfront ih)
  | @lookahead room name child here t before behind _ ih =>
    obtain ⟨⟨t', hout⟩, hlogged⟩ := ih
    exact .attempt ⟨⟨t', by simp only [step, hout]⟩, hlogged⟩
  | @capture room name child here t before behind _ ih =>
    obtain ⟨⟨t', hout⟩, hlogged⟩ := ih
    exact .attempt ⟨⟨t'.abandon, by simp only [step, hout]; rfl⟩, hlogged⟩
  | @reference room name target r here t before behind hr _ ih =>
    obtain ⟨⟨t', hout⟩, hlogged⟩ := ih
    exact .attempt
      ⟨⟨t', by simp only [step, hr, hout]⟩, by simp only [stepMisses, hr, hlogged]⟩

/-! ## From the outside to the sequence -/

variable {position : Nat}

theorem take_ne_committed (width : Option Nat) :
    (take width here t).1 ≠ .error (.committed position) := by
  intro h
  cases width <;> cases h

/-- A repetition is ended by one of its rounds. -/
theorem exists_rounds {least room done : Nat}
    (h : (iterate once least mark room done here t).1 = .error (.committed position)) :
    ∃ count logged last t', Rounds once log count here t logged last t' ∧ count < room ∧
      (once last t').1 = .error (.committed position) := by
  induction room generalizing done here t with
  | zero =>
    rw [iterate, enough] at h
    split at h <;> cases h
  | succ room ih =>
    rw [iterate] at h
    rcases hout : once here t with ⟨result, t'⟩
    rw [hout] at h
    cases result with
    | ok next =>
      dsimp only at h
      split at h
      · cases h
      · rename_i hne
        obtain ⟨count, logged, last, t'', hrounds, hroom, hmiss⟩ := ih h
        exact ⟨count + 1, _, last, t'', .round hout hne hrounds, by omega, hmiss⟩
    | error miss =>
      cases miss with
      | soft =>
        dsimp only [enough] at h
        split at h <;> cases h
      | committed _ =>
        cases h
        exact ⟨0, [], here, t, .none, by omega, by rw [hout]⟩
      | tooDeep | missing _ => cases h

/-- A sequence is ended by one of its elements, which either gives up or misses behind a
decision. -/
theorem exists_stuck {rules : List Rule}
    (h : (inOrder enter mark passed rules here t).1 = .error (.committed position)) :
    ∃ front element later next t', rules = front ++ element :: later ∧
      inOrder enter mark passed front here t = (.ok next, t') ∧
      element.shape ≠ .decision ∧
      ((enter element next t').1 = .error (.committed position) ∨
        (∃ t'', enter element next t' = (.error .soft, t'')) ∧
          (passed = true ∨ ∃ marker ∈ front, marker.shape = .decision)) := by
  induction rules generalizing passed here t with
  | nil => cases h
  | cons r rest ih =>
    rw [inOrder] at h
    split at h
    · rename_i hr
      obtain ⟨front, element, later, next, t', rfl, hfront, helement, hmiss⟩ := ih h
      refine ⟨r :: front, element, later, next, t', rfl, ?_, helement, hmiss.imp_right ?_⟩
      · exact inOrder_cons_iff.mpr (.inl ⟨hr, hfront⟩)
      · rintro ⟨hsoft, -⟩
        exact ⟨hsoft, .inr ⟨r, List.mem_cons_self, hr⟩⟩
    · rename_i hr
      rcases hout : enter r here t with ⟨result, t₁⟩
      rw [hout] at h
      cases result with
      | ok next₁ =>
        obtain ⟨front, element, later, next, t', rfl, hfront, helement, hmiss⟩ := ih h
        refine ⟨r :: front, element, later, next, t', rfl, ?_, helement,
          hmiss.imp_right ?_⟩
        · exact inOrder_cons_iff.mpr (.inr ⟨hr, next₁, t₁, hout, hfront⟩)
        · rintro ⟨hsoft, hpassed | ⟨marker, hmem, hmarker⟩⟩
          · exact ⟨hsoft, .inl hpassed⟩
          · exact ⟨hsoft, .inr ⟨marker, List.mem_cons_of_mem r hmem, hmarker⟩⟩
      | error miss =>
        refine ⟨[], r, rest, here, t, rfl, rfl, hr, ?_⟩
        cases miss with
        | soft =>
          cases passed with
          | false => cases h
          | true => exact .inr ⟨⟨t₁, hout⟩, .inl rfl⟩
        | committed _ =>
          cases h
          exact .inl (by rw [hout])
        | tooDeep | missing _ => cases h

theorem exists_alternative {rules : List Rule}
    (h : (firstOf enter rules here t).1 = .error (.committed position)) :
    ∃ front r later t', rules = front ++ r :: later ∧
      firstOf enter front here t = (.error .soft, t') ∧
      (enter r here t').1 = .error (.committed position) := by
  induction rules generalizing t with
  | nil => cases h
  | cons r rest ih =>
    rw [firstOf] at h
    rcases hout : enter r here t with ⟨result, t₁⟩
    rw [hout] at h
    cases result with
    | ok next => cases h
    | error miss =>
      cases miss with
      | soft =>
        obtain ⟨front, r', later, t', rfl, hfront, hmiss⟩ := ih h
        refine ⟨r :: front, r', later, t', rfl, ?_, hmiss⟩
        rw [firstOf, hout]
        exact hfront
      | committed _ =>
        cases h
        exact ⟨[], r, rest, t, rfl, rfl, by rw [hout]⟩
      | tooDeep | missing _ => cases h

/-- A search makes nothing of a sequence that gives up: it goes on at the next place. -/
theorem seek_ne_committed (mark : Nat) (origin : Cursor) (rest : Bytes) (offset : Nat)
    (t : Track) :
    (seek once mark origin offset rest t).1 ≠ .error (.committed position) := by
  intro h
  induction rest generalizing offset t with
  | nil =>
    rw [seek] at h
    rcases hout : once ⟨offset, []⟩ t with ⟨result, t'⟩
    rw [hout] at h
    cases result with
    | ok next => cases h
    | error miss => cases miss <;> cases h
  | cons b rest ih =>
    rw [seek] at h
    rcases hout : once ⟨offset, b :: rest⟩ t with ⟨result, t'⟩
    rw [hout] at h
    cases result with
    | ok next => cases h
    | error miss =>
      cases miss with
      | soft | committed _ => exact ih (offset + 1) t' h
      | tooDeep | missing _ => cases h

/-- Where an attempt gives up, a sequence below it has missed behind its decision. -/
theorem exists_commits (room : Nat) {r : Rule}
    (h : (attempt g room r here t).1 = .error (.committed position)) :
    ∃ before behind, Commits g room r here t before behind := by
  induction room generalizing r here t with
  | zero => cases h
  | succ room ih =>
    obtain ⟨name, shape⟩ := r
    have hstep : (step g (attempt g room) ⟨name, shape⟩ here t.enter).1 =
        .error (.committed position) := by
      rw [attempt] at h
      exact h
    cases shape with
    | literal _ | terminal _ | spacing _ => exact absurd hstep (take_ne_committed _)
    | iteration child bound =>
      obtain ⟨count, logged, last, t', hrounds, hroom, hmiss⟩ := exists_rounds hstep
      obtain ⟨before, behind, hcommits⟩ := ih hmiss
      exact ⟨_, behind, .round hrounds hroom hcommits⟩
    | sequence elements cut =>
      obtain ⟨front, element, later, next, t', rfl, hfront, helement, hmiss⟩ :=
        exists_stuck hstep
      rcases hmiss with hmiss | ⟨⟨t'', hsoft⟩, hpassed | ⟨marker, hmem, hmarker⟩⟩
      · obtain ⟨before, behind, hcommits⟩ := ih hmiss
        exact ⟨_, behind, .element front later element hfront helement hcommits⟩
      · cases hpassed
      · -- any decision in front of the element that missed cuts what came before in two
        obtain ⟨front, middle, rfl⟩ := List.append_of_mem hmem
        obtain ⟨place, t₁, hfront, hmiddle⟩ := exists_between hfront
        rw [inOrder, if_pos hmarker] at hmiddle
        rw [List.append_assoc, List.cons_append]
        exact ⟨_, _,
          .sequence front middle later marker element hfront hmarker hmiddle helement
          hsoft⟩
    | selection alternatives =>
      obtain ⟨front, r, later, t', rfl, hfront, hmiss⟩ := exists_alternative hstep
      obtain ⟨before, behind, hcommits⟩ := ih hmiss
      exact ⟨_, behind, .alternative front later r hfront hcommits⟩
    | completion stop =>
      cases stop with
      | none => cases hstep
      | some stop =>
        exact absurd hstep (seek_ne_committed _ here here.rest here.offset t.enter)
    | lookahead child =>
      dsimp only [step] at hstep
      rcases hout : attempt g room child here t.enter with ⟨result, t'⟩
      rw [hout] at hstep
      cases result with
      | ok next => cases hstep
      | error miss =>
        cases hstep
        obtain ⟨before, behind, hcommits⟩ := ih (congrArg Prod.fst hout)
        exact ⟨before, behind, .lookahead hcommits⟩
    | capture child =>
      dsimp only [step] at hstep
      rcases hout :
        attempt g room child here (t.enter.begin name here.offset) with ⟨result, t'⟩
      rw [hout] at hstep
      cases result with
      | ok next => cases hstep
      | error miss =>
        cases hstep
        obtain ⟨before, behind, hcommits⟩ := ih (congrArg Prod.fst hout)
        exact ⟨before, behind, .capture hcommits⟩
    | decision => cases hstep
    | reference target =>
      dsimp only [step] at hstep
      cases hr : g.resolve? target with
      | none =>
        rw [hr] at hstep
        cases hstep
      | some rule =>
        rw [hr] at hstep
        obtain ⟨before, behind, hcommits⟩ := ih hstep
        exact ⟨before, behind, .reference hr hcommits⟩

/-- A match is given up exactly if a sequence misses behind its decision and nothing
around it tries something else. The position that is reported is then the furthest of all
misses up to that point, whether they come in front of the decision or behind it. No miss
is recorded after that. -/
theorem committed_position {limit : Nat} {start : String} {input : Bytes} {r : Rule}
    (hstart : g.resolve? start = some r) :
    ((∃ position, (within g limit r (.atStart input) .start).1 =
        .error (.committed position)) ↔
      ∃ before behind, Commits g limit r (.atStart input) .start before behind) ∧
    ∀ before behind, Commits g limit r (.atStart input) .start before behind →
      misses g limit r (.atStart input) .start = before ++ behind ∧
      g.matchWith limit start input =
        .error (.noMatch (max (furthestOf before) (furthestOf behind))) := by
  refine ⟨⟨fun ⟨position, h⟩ => exists_commits limit h, ?_⟩, ?_⟩
  · rintro ⟨before, behind, hcommits⟩
    obtain ⟨t', hout⟩ := hcommits.givesUp.outcome
    exact ⟨t'.furthest, congrArg Prod.fst hout⟩
  · intro before behind hcommits
    obtain ⟨⟨t', hout⟩, hlogged⟩ := hcommits.givesUp
    have hfurthest : t'.furthest = furthestOf (before ++ behind) := by
      -- at the start, the furthest offset is that of no miss at all
      have h := records_attempt g limit r (.atStart input) .start
      rw [hout, hlogged] at h
      exact h
    have hwithin : within g limit r (.atStart input) .start =
        (.error (.committed t'.furthest), t') := hout
    refine ⟨hlogged, ?_⟩
    rw [Grammar.matchWith, hstart, ← furthestOf_append, ← hfurthest]
    dsimp only
    rw [hwithin]
    rfl

/-- The second of two rounds gives up at 5. Both have tried an `x` in front of the
decision, at 0 and at 3. -/
theorem committed_position_rounds :
    let first : Rule := .selection [.symbol 'x', .symbol 'a']
    let letters : Rule := .sequence [first, .decision, .symbol 'b', .symbol 'c']
    let r : Rule := .capture "r" (.repeated letters .plus)
    Grammar.resolve? ⟨[r]⟩ "r" = some r ∧
      Commits ⟨[r]⟩ 9 r (.atStart (stringBytes "abcabd")) .start [0, 3] [5] ∧
      Grammar.matchWith ⟨[r]⟩ 9 "r" (stringBytes "abcabd") = .error (.noMatch 5) := by
  intro first letters r
  have hr : Grammar.resolve? ⟨[r]⟩ "r" = some r := by decide +kernel
  have hrounds : Rounds (attempt ⟨[r]⟩ 7 letters) (misses ⟨[r]⟩ 7 letters) 1
      (.atStart (stringBytes "abcabd")) (Track.start.enter.begin "r" 0).enter [0]
      ⟨3, stringBytes "abd"⟩ ⟨Overlay.empty.begin "r" 0, 0, 2⟩ :=
    .round rfl (by decide) .none
  have hfront : inOrder (attempt ⟨[r]⟩ 6) 1 false [first] ⟨3, stringBytes "abd"⟩
      ⟨Overlay.empty.begin "r" 0, 0, 3⟩ =
        (.ok ⟨4, stringBytes "bd"⟩, ⟨Overlay.empty.begin "r" 0, 3, 3⟩) := rfl
  have hmiddle : inOrder (attempt ⟨[r]⟩ 6) 1 true [.symbol 'b'] ⟨4, stringBytes "bd"⟩
      ⟨Overlay.empty.begin "r" 0, 3, 3⟩ =
        (.ok ⟨5, stringBytes "d"⟩, ⟨Overlay.empty.begin "r" 0, 3, 3⟩) := rfl
  have hround : Commits ⟨[r]⟩ 7 letters ⟨3, stringBytes "abd"⟩
      ⟨Overlay.empty.begin "r" 0, 0, 2⟩ _ _ :=
    .sequence [first] [.symbol 'b'] [] .decision (.symbol 'c') hfront rfl
      hmiddle nofun rfl
  have h : Commits ⟨[r]⟩ 9 r (.atStart (stringBytes "abcabd")) .start [0, 3] [5] :=
    .capture (.round hrounds (by decide) hround)
  exact ⟨hr, h, ((committed_position hr).2 _ _ h).2⟩

/-- In front of the decision, `ab` matches and `x` misses at 2. The sequence takes the
other alternative then and misses at 1, the only miss behind its decision. -/
theorem abandoned_position :
    let first : Rule :=
      .selection [.sequence [.string ['a', 'b'], .symbol 'x'], .symbol 'a']
    let r : Rule := .capture "r" (.sequence [first, .decision, .symbol 'c'])
    Commits ⟨[r]⟩ 9 r (.atStart (stringBytes "abz")) .start [2] [1] ∧
      Grammar.matchWith ⟨[r]⟩ 9 "r" (stringBytes "abz") = .error (.noMatch 2) ∧
      furthestOf [1] = 1 := by
  intro first r
  have hfront : inOrder (attempt ⟨[r]⟩ 7) 1 false [first] (.atStart (stringBytes "abz"))
      ⟨Overlay.empty.begin "r" 0, 0, 2⟩ =
        (.ok ⟨1, stringBytes "bz"⟩, ⟨Overlay.empty.begin "r" 0, 2, 2⟩) := rfl
  have hsequence : Commits ⟨[r]⟩ 8 (.sequence [first, .decision, .symbol 'c'])
      (.atStart (stringBytes "abz")) ⟨Overlay.empty.begin "r" 0, 0, 1⟩ _ _ :=
    .sequence [first] [] [] .decision (.symbol 'c') hfront rfl rfl nofun rfl
  exact ⟨.capture hsequence, rfl, rfl⟩

end RuleGraph.Matching
