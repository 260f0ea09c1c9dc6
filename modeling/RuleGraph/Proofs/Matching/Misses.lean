import RuleGraph.Matching.Run

/-!
# The misses that an attempt records

A match keeps one number of all the misses on its way, the furthest offset, and neither a
rewind nor a token that is abandoned takes it back. Which misses have gone into it cannot
be read off a record. `misses` lists them, in the order in which they are recorded: for
each loop, what the attempts record that it makes, one after the other, and what it
records itself.

The furthest offset behind an attempt is then the highest of the list and of what it was
in front (`records_attempt`), one lemma per loop.
-/

namespace RuleGraph.Matching

/-- The offsets of the misses that an attempt records at a place, in order. -/
abbrev Log := Cursor → Track → List Nat

def takeMisses (width : Option Nat) : Log := fun here _ =>
  if width.isNone then [here.offset] else []

def iterateMisses (once : Attempt) (log : Log) : Nat → Log
  | 0, _, _ => []
  | room + 1, here, t =>
    log here t ++
      match once here t with
      | (.ok next, t) =>
        if next.offset = here.offset then [] else iterateMisses once log room next t
      | (.error _, _) => []

def inOrderMisses (enter : Rule → Attempt) (log : Rule → Log) : List Rule → Log
  | [], _, _ => []
  | r :: rest, here, t =>
    if r.shape = .decision then inOrderMisses enter log rest here t
    else
      log r here t ++
        match enter r here t with
        | (.ok next, t) => inOrderMisses enter log rest next t
        | (.error _, _) => []

def firstOfMisses (enter : Rule → Attempt) (log : Rule → Log) : List Rule → Log
  | [], _, _ => []
  | r :: rest, here, t =>
    log r here t ++
      match enter r here t with
      | (.error .soft, t) => firstOfMisses enter log rest here t
      | _ => []

/-- The last of them is that of the search itself, if nothing was found. -/
def seekMisses (once : Attempt) (log : Log) (origin : Cursor) (offset : Nat)
    (rest : Bytes) (t : Track) : List Nat :=
  log ⟨offset, rest⟩ t ++
    match once ⟨offset, rest⟩ t with
    | (.ok _, _) => []
    | (.error miss, t) =>
      if miss.isLocal then
        match rest with
        | [] => [origin.offset]
        | _ :: rest => seekMisses once log origin (offset + 1) rest t
      else []

def stepMisses (g : Grammar) (enter : Rule → Attempt) (log : Rule → Log) (r : Rule) :
    Log :=
  fun here t =>
    match r.shape with
    | .literal bytes => takeMisses (literalWidth bytes here.rest) here t
    | .terminal set => takeMisses (terminalWidth set here.rest) here t
    | .spacing contract => takeMisses (contract.length? here.rest) here t
    | .iteration child bound => iterateMisses (enter child) (log child) bound.most here t
    | .sequence elements _ => inOrderMisses enter log elements here t
    | .selection alternatives => firstOfMisses enter log alternatives here t
    | .completion none => []
    | .completion (some stop) =>
      seekMisses (enter stop) (log stop) here here.offset here.rest t
    | .lookahead child => log child here t
    | .capture child => log child here (t.begin r.name here.offset)
    | .decision => []
    | .reference target =>
      match g.resolve? target with
      | some rule => log rule here t
      | none => []

/-- The offsets of the misses that are recorded while a rule is matched, in which at most
`room` rules are entered one inside the other. -/
def misses (g : Grammar) : Nat → Rule → Log
  | 0, _, _, _ => []
  | room + 1, r, here, t => stepMisses g (attempt g room) (misses g room) r here t.enter

/-! ## The furthest of them -/

/-- Behind the attempt, the furthest offset is the highest of those in the log and of what
it was in front. -/
def Records (attempt : Attempt) (log : Log) : Prop :=
  ∀ here t, (attempt here t).2.furthest = (log here t).foldl max t.furthest

variable {g : Grammar} {enter : Rule → Attempt} {logs : Rule → Log}
  {once : Attempt} {log : Log}

theorem records_take (width : Option Nat) : Records (take width) (takeMisses width) := by
  intro here t
  cases width <;> rfl

theorem furthest_enough (least mark count : Nat) (here : Cursor) (t : Track) :
    (enough least mark count here t).2.furthest = t.furthest := by
  unfold enough
  split <;> rfl

theorem records_iterate (honce : Records once log) (least mark : Nat) :
    ∀ room count,
      Records (iterate once least mark room count) (iterateMisses once log room) := by
  intro room
  induction room with
  | zero => exact fun count here t => furthest_enough least mark count here t
  | succ room ih =>
    intro count here t
    have h := honce here t
    rw [iterate, iterateMisses, List.foldl_append]
    generalize once here t = outcome at h ⊢
    obtain ⟨result, t'⟩ := outcome
    rw [← h]
    cases result with
    | ok next =>
      dsimp only
      split
      · rfl
      · exact ih (count + 1) next t'
    | error miss =>
      cases miss with
      | soft => exact furthest_enough least mark count here t'
      | committed _ | tooDeep | missing _ => rfl

theorem records_inOrder (henter : ∀ r, Records (enter r) (logs r)) (mark : Nat) :
    ∀ rules passed,
      Records (inOrder enter mark passed rules) (inOrderMisses enter logs rules) := by
  intro rules
  induction rules with
  | nil => exact fun _ _ _ => rfl
  | cons r rest ih =>
    intro passed here t
    rw [inOrder, inOrderMisses]
    split
    · exact ih true here t
    · have h := henter r here t
      rw [List.foldl_append]
      generalize enter r here t = outcome at h ⊢
      obtain ⟨result, t'⟩ := outcome
      rw [← h]
      cases result with
      | ok next => exact ih passed next t'
      | error miss => rfl

theorem records_firstOf (henter : ∀ r, Records (enter r) (logs r)) :
    ∀ rules, Records (firstOf enter rules) (firstOfMisses enter logs rules) := by
  intro rules
  induction rules with
  | nil => exact fun _ _ => rfl
  | cons r rest ih =>
    intro here t
    have h := henter r here t
    rw [firstOf, firstOfMisses, List.foldl_append]
    generalize enter r here t = outcome at h ⊢
    obtain ⟨result, t'⟩ := outcome
    rw [← h]
    cases result with
    | ok next => rfl
    | error miss =>
      cases miss with
      | soft => exact ih here t'
      | committed _ | tooDeep | missing _ => rfl

theorem furthest_seek (honce : Records once log) (mark : Nat) (origin : Cursor)
    (rest : Bytes) :
    ∀ offset t, (seek once mark origin offset rest t).2.furthest =
      (seekMisses once log origin offset rest t).foldl max t.furthest := by
  induction rest with
  | nil =>
    intro offset t
    have h := honce ⟨offset, []⟩ t
    rw [seek, seekMisses, List.foldl_append]
    generalize once ⟨offset, []⟩ t = outcome at h ⊢
    obtain ⟨result, t'⟩ := outcome
    rw [← h]
    cases result with
    | ok next => rfl
    | error miss =>
      dsimp only
      split <;> rfl
  | cons b rest ih =>
    intro offset t
    have h := honce ⟨offset, b :: rest⟩ t
    rw [seek, seekMisses, List.foldl_append]
    generalize once ⟨offset, b :: rest⟩ t = outcome at h ⊢
    obtain ⟨result, t'⟩ := outcome
    rw [← h]
    cases result with
    | ok next => rfl
    | error miss =>
      dsimp only
      split
      · exact ih (offset + 1) t'
      · rfl

theorem records_step (henter : ∀ r, Records (enter r) (logs r)) (r : Rule) :
    Records (step g enter r) (stepMisses g enter logs r) := by
  intro here t
  obtain ⟨name, shape⟩ := r
  unfold step stepMisses
  cases shape with
  | literal _ | terminal _ | spacing _ => exact records_take _ here t
  | iteration child bound => exact records_iterate (henter child) _ _ _ _ here t
  | sequence elements _ => exact records_inOrder henter _ elements _ here t
  | selection alternatives => exact records_firstOf henter alternatives here t
  | completion stop =>
    cases stop with
    | none => rfl
    | some stop => exact furthest_seek (henter stop) _ here here.rest here.offset t
  | lookahead child =>
    have h := henter child here t
    dsimp only
    generalize enter child here t = outcome at h ⊢
    obtain ⟨result, t'⟩ := outcome
    cases result <;> exact h
  | capture child =>
    have h := henter child here (t.begin name here.offset)
    dsimp only
    generalize enter child here (t.begin name here.offset) = outcome at h ⊢
    obtain ⟨result, t'⟩ := outcome
    cases result <;> exact h
  | decision => rfl
  | reference target =>
    dsimp only
    cases g.resolve? target with
    | none => rfl
    | some rule => exact henter rule here t

/-- The furthest offset behind an attempt is the highest of the misses that it has
recorded and of what the offset was before. -/
theorem records_attempt (g : Grammar) (room : Nat) :
    ∀ r, Records (attempt g room r) (misses g room r) := by
  induction room with
  | zero => exact fun _ _ _ => rfl
  | succ room ih =>
    intro r here t
    have h := records_step (g := g) ih r here t.enter
    rw [attempt, misses]
    exact h

end RuleGraph.Matching
