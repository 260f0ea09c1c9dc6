import RuleGraph.Proofs.Chains
import RuleGraph.Terse.Compile

/-!
# How far buffers grow

The reader fills five buffers, and each limit is about one of them. A buffer
grows by one item at a time, also in the middle of a step: the end of a group,
say, first completes the sequence that is going on, then the alternatives, and
then goes on with the sequence around the group.

No state of the reader records a limit. Limits stand on one side of a comparison
each, in front of the step that they guard, and what happens behind a comparison
that has passed does not depend on them. So two readings under different limits
go together until the lower limits are exceeded, and when that is can be told
from the other reading: `growths` of a step lists the sizes that buffers come to
in it. `Gauged` relates the two readings of a step, and there is one lemma per
step. The only ones with anything in them are those that compare; the others are
chains of steps.
-/

namespace RuleGraph

/-- Limits of which none is above its counterpart. -/
structure Limits.Below (limits limits' : Limits) : Prop where
  text : limits.text ≤ limits'.text
  sequence : limits.sequence ≤ limits'.sequence
  alternatives : limits.alternatives ≤ limits'.alternatives
  rules : limits.rules ≤ limits'.rules
  nesting : limits.nesting ≤ limits'.nesting

theorem Limits.Below.refl (limits : Limits) : limits.Below limits :=
  ⟨Nat.le_refl _, Nat.le_refl _, Nat.le_refl _, Nat.le_refl _, Nat.le_refl _⟩

def Limits.of (limits : Limits) : Buffer → Nat
  | .text => limits.text
  | .sequence => limits.sequence
  | .alternatives => limits.alternatives
  | .rules => limits.rules
  | .nesting => limits.nesting

theorem Limits.Below.of {limits limits' : Limits} (h : limits.Below limits')
    (buffer : Buffer) : limits.of buffer ≤ limits'.of buffer := by
  cases buffer with
  | text => exact h.text
  | sequence => exact h.sequence
  | alternatives => exact h.alternatives
  | rules => exact h.rules
  | nesting => exact h.nesting

namespace Terse

def Exceeds {α : Type} (outcome : Except GrammarError α) : Prop :=
  ∃ buffer limit, outcome = .error (.exceeds buffer limit)

/-- A buffer that comes to hold so many items. -/
structure Growth where
  buffer : Buffer
  size : Nat
deriving DecidableEq, Repr

def Growth.Within (limits : Limits) (g : Growth) : Prop :=
  g.size ≤ limits.of g.buffer

/-- What grows after a step that has this outcome. -/
def growthsAfter {α : Type} (outcome : Except GrammarError α) (more : α → List Growth) :
    List Growth :=
  match outcome with
  | .ok a => more a
  | .error _ => []

/-! ## The growths of a step -/

section Growths

variable (limits : Limits)

def pushGrowths (text : Text) : List Growth :=
  [⟨.text, text.size + 1⟩]

def fileGrowths (filed : List Rule) : List Growth :=
  [⟨.rules, filed.length + 1⟩]

namespace Scope

def settleGrowths (s : Scope) : List Growth :=
  match s.current with
  | none => []
  | some _ => [⟨.sequence, s.sequence.length + 1⟩]

def alternateGrowths (s : Scope) : List Growth :=
  s.settleGrowths ++ growthsAfter (s.settle limits) fun s =>
    [⟨.alternatives, s.alternatives.length + 1⟩]

def foldGrowths (s : Scope) : List Growth :=
  s.settleGrowths ++ growthsAfter (s.settle limits) fun s =>
    if s.alternatives.isEmpty then [] else s.alternateGrowths limits

end Scope

def Braces.growths (s : Braces) (b : UInt8) : List Growth :=
  match s.figure with
  | .literal _ text => if Sign.of b = .quote then [] else pushGrowths text
  | .idle | .hexadecimal _ | .decimal _ => []

def Brackets.growths (s : Brackets) (b : UInt8) : List Growth :=
  match s.member with
  | .literal _ text => if Sign.of b = .quote then [] else pushGrowths text
  | .inclusion _ text => if Sign.of b = .word then pushGrowths text else []
  | .range inner => inner.growths b
  | .idle | .comment _ => []

namespace Body

def openGrowths (s : Body) : List Growth :=
  ⟨.nesting, s.groups.length + 1⟩ :: s.scope.settleGrowths

def closeGrowths (s : Body) (g : Group) : List Growth :=
  s.scope.foldGrowths limits ++ growthsAfter (s.scope.fold limits) fun
    | none => []
    | some _ => g.outer.settleGrowths

end Body

namespace State

def declareGrowths (s : State) (body : Body) : List Growth :=
  body.scope.foldGrowths limits ++ growthsAfter (body.rule limits) fun _ =>
    fileGrowths s.filed

def betweenGrowths (title : Option Title) (b : UInt8) : List Growth :=
  match Sign.of b, title with
  | .word, none => pushGrowths #[]
  | _, _ => []

def inBodyGrowths (s : State) (body : Body) (b : UInt8) : List Growth :=
  match Sign.of b with
  | .dash => if body.groups.isEmpty then s.declareGrowths limits body else []
  | .spacing _ | .tilde | .less => body.scope.settleGrowths
  | .openGroup => body.openGrowths
  | .closeGroup =>
    match body.groups with
    | [] => []
    | g :: _ => body.closeGrowths limits g
  | .bar => body.scope.alternateGrowths limits
  | .word => pushGrowths #[]
  | _ => []

def afterNameGrowths (s : State) (body : Body) (text : Text) (b : UInt8) : List Growth :=
  match body.groups.isEmpty, Sign.of b with
  | true, .blank => []
  | true, .equals => s.declareGrowths limits body
  | _, _ => body.scope.settleGrowths ++ growthsAfter (body.refer limits text) fun body =>
    s.inBodyGrowths limits body b

def inNameGrowths (s : State) (text : Text) (finish : Except GrammarError Body)
    (finishGrowths : List Growth) (b : UInt8) : List Growth :=
  if Sign.of b = .word then pushGrowths text
  else if text.isEmpty then []
  else finishGrowths ++ growthsAfter finish fun body => s.inBodyGrowths limits body b

def stepBodyGrowths (s : State) (body : Body) (b : UInt8) : List Growth :=
  match body.lexeme with
  | .idle => s.inBodyGrowths limits body b
  | .comment _ => []
  | .literal _ text =>
    if Sign.of b = .quote then body.scope.settleGrowths else pushGrowths text
  | .inclusion text =>
    s.inNameGrowths limits text (body.adopt limits s.filed text)
      body.scope.settleGrowths b
  | .label opened text => s.inNameGrowths limits text (body.attach opened text) [] b
  | .name text =>
    if Sign.of b = .word then pushGrowths text else s.afterNameGrowths limits body text b
  | .waiting text => s.afterNameGrowths limits body text b
  | .braces inner => inner.growths b
  | .brackets inner =>
    inner.growths b ++ growthsAfter (inner.step limits s.filed s.offset b) fun
      | .going _ => []
      | .done _ => body.scope.settleGrowths

def stepGrowths (s : State) (b : UInt8) : List Growth :=
  match s.phase with
  | .between title => betweenGrowths title b
  | .comment _ _ => []
  | .naming start text =>
    if Sign.of b = .word then pushGrowths text
    else betweenGrowths (some ⟨start, nameOf text⟩) b
  | .body inner => s.stepBodyGrowths limits inner b

def runGrowths : State → Bytes → List Growth
  | _, [] => []
  | s, b :: rest =>
    s.stepGrowths limits b ++ growthsAfter (s.step limits b) fun s => s.runGrowths rest

def closeBodyGrowths (s : State) (body : Body) : List Growth :=
  match body.groups with
  | _ :: _ => []
  | [] => s.declareGrowths limits body

def finishGrowths (s : State) : List Growth :=
  match s.phase with
  | .between _ | .comment _ _ | .naming _ _ => []
  | .body inner =>
    match inner.lexeme with
    | .idle => s.closeBodyGrowths limits inner
    | .comment _ | .literal _ _ | .braces _ | .brackets _ => []
    | .inclusion text =>
      if text.isEmpty then []
      else inner.scope.settleGrowths ++
        growthsAfter (inner.adopt limits s.filed text) fun body =>
        s.closeBodyGrowths limits body
    | .label opened text =>
      if text.isEmpty then []
      else growthsAfter (inner.attach opened text) fun body =>
        s.closeBodyGrowths limits body
    | .name text | .waiting text =>
      inner.scope.settleGrowths ++ growthsAfter (inner.refer limits text) fun body =>
        s.closeBodyGrowths limits body

end State

/-- The sizes that buffers come to while a source is compiled. -/
def compileGrowths (filed : List Rule) (source : Bytes) : List Growth :=
  (State.start filed).runGrowths limits source ++
    growthsAfter ((State.start filed).run limits source) fun s => s.finishGrowths limits

end Growths

/-! ## Growths and outcomes -/

/-- With the lower limits the outcome is the same, unless something grows beyond
them: then they are exceeded. -/
structure Gauged {α : Type} (low : Limits) (growths : List Growth)
    (outcome outcome' : Except GrammarError α) : Prop where
  same : (∀ g ∈ growths, g.Within low) → outcome' = outcome
  exceeds : ¬(∀ g ∈ growths, g.Within low) → Exceeds outcome

namespace Gauged

variable {α β : Type} {low high : Limits} {growths : List Growth} {more : α → List Growth}
  {first first' : Except GrammarError α} {next next' : α → Except GrammarError β}

theorem refl (outcome : Except GrammarError α) : Gauged low [] outcome outcome where
  same _ := rfl
  exceeds h := absurd (List.forall_mem_nil _) h

theorem bind (hfirst : Gauged low growths first first')
    (hnext : ∀ a, Gauged low (more a) (next a) (next' a)) :
    Gauged low (growths ++ growthsAfter first' more) (first >>= next)
      (first' >>= next') := by
  by_cases hgrowths : ∀ g ∈ growths, g.Within low
  · obtain rfl := hfirst.same hgrowths
    cases first' with
    | error e =>
      have hnone : growths ++ growthsAfter (.error e) more = growths :=
        List.append_nil growths
      rw [hnone]
      exact ⟨fun _ => rfl, fun h => absurd hgrowths h⟩
    | ok a =>
      refine ⟨fun h => (hnext a).same ?_, fun h => (hnext a).exceeds fun hmore => h ?_⟩
      · exact (List.forall_mem_append.mp h).2
      · exact List.forall_mem_append.mpr ⟨hgrowths, hmore⟩
  · obtain ⟨buffer, limit, rfl⟩ := hfirst.exceeds hgrowths
    refine ⟨fun h => absurd (List.forall_mem_append.mp h).1 hgrowths, fun _ => ?_⟩
    exact ⟨buffer, limit, rfl⟩

/-- Where nothing grows behind a step. -/
theorem before (hfirst : Gauged low growths first first') :
    Gauged low growths (first >>= next) (first' >>= next) where
  same h := by rw [hfirst.same h]
  exceeds h := by
    obtain ⟨buffer, limit, rfl⟩ := hfirst.exceeds h
    exact ⟨buffer, limit, rfl⟩

theorem map (hfirst : Gauged low growths first first') (f : α → β) :
    Gauged low growths (f <$> first) (f <$> first') := by
  rw [map_eq_pure_bind, map_eq_pure_bind]
  exact hfirst.before

/-- A comparison in front of a step. -/
theorem compare (buffer : Buffer) (size : Nat) (hle : low.of buffer ≤ high.of buffer)
    (h : Gauged low growths first first') :
    Gauged low (⟨buffer, size + 1⟩ :: growths)
      (if size < low.of buffer then first else .error (.exceeds buffer (low.of buffer)))
      (if size < high.of buffer then
        first' else .error (.exceeds buffer (high.of buffer))) := by
  by_cases hlt : size < low.of buffer
  · rw [if_pos hlt, if_pos (Nat.lt_of_lt_of_le hlt hle)]
    refine ⟨fun hall => h.same (List.forall_mem_cons.mp hall).2, fun hnot => h.exceeds ?_⟩
    exact fun hall => hnot (List.forall_mem_cons.mpr ⟨Nat.succ_le_of_lt hlt, hall⟩)
  · rw [if_neg hlt]
    exact ⟨fun hall => absurd (List.forall_mem_cons.mp hall).1 hlt,
      fun _ => ⟨buffer, _, rfl⟩⟩

theorem eq_of_not_exceeds {outcome outcome' : Except GrammarError α}
    (h : Gauged low growths outcome outcome') (hnot : ¬Exceeds outcome) :
    outcome' = outcome :=
  h.same (Classical.byContradiction fun hover => hnot (h.exceeds hover))

/-- Success with the lower limits is success with the higher ones, and nothing that
grows beyond the lower ones. -/
theorem eq_ok_iff {outcome outcome' : Except GrammarError α}
    (h : Gauged low growths outcome outcome') (a : α) :
    outcome = .ok a ↔ outcome' = .ok a ∧ ∀ g ∈ growths, g.Within low := by
  by_cases hgrowths : ∀ g ∈ growths, g.Within low
  · rw [h.same hgrowths, and_iff_left hgrowths]
  · obtain ⟨buffer, limit, rfl⟩ := h.exceeds hgrowths
    exact ⟨nofun, fun h => absurd h.2 hgrowths⟩

end Gauged

section Steps

variable {low high : Limits} (h : low.Below high)

include h

theorem push_gauged (text : Text) (b : UInt8) :
    Gauged low (pushGrowths text) (push low text b) (push high text b) :=
  .compare .text text.size (h.of .text) (.refl _)

theorem file_gauged (filed : List Rule) (r : Rule) :
    Gauged low (fileGrowths filed) (file low filed r) (file high filed r) :=
  .compare .rules filed.length (h.of .rules) (.refl _)

namespace Scope

theorem settle_gauged (s : Scope) :
    Gauged low s.settleGrowths (s.settle low) (s.settle high) := by
  unfold settle settleGrowths
  cases s.current with
  | none => exact .refl _
  | some r => exact .compare .sequence s.sequence.length (h.of .sequence) (.refl _)

theorem put_gauged (s : Scope) (r : Rule) :
    Gauged low s.settleGrowths (s.put low r) (s.put high r) :=
  (settle_gauged h s).before

theorem alternate_gauged (s : Scope) :
    Gauged low (s.alternateGrowths high) (s.alternate low) (s.alternate high) :=
  (settle_gauged h s).bind fun s =>
    .compare .alternatives s.alternatives.length (h.of .alternatives) (.refl _)

theorem fold_gauged (s : Scope) :
    Gauged low (s.foldGrowths high) (s.fold low) (s.fold high) := by
  refine (settle_gauged h s).bind fun s => ?_
  split
  · exact .refl _
  · exact (alternate_gauged h s).before

end Scope

theorem Braces.step_gauged (s : Braces) (offset : Nat) (b : UInt8) :
    Gauged low (s.growths b) (s.step low offset b) (s.step high offset b) := by
  obtain ⟨opened, first, last, second, figure⟩ := s
  unfold Braces.step Braces.growths
  cases figure with
  | idle | hexadecimal value | decimal value => exact .refl _
  | literal start text =>
    dsimp only
    split
    · exact .refl _
    · exact (push_gauged h text b).before

theorem Brackets.step_gauged (filed : List Rule) (s : Brackets) (offset : Nat)
    (b : UInt8) :
    Gauged low (s.growths b) (s.step low filed offset b)
      (s.step high filed offset b) := by
  obtain ⟨opened, set, member⟩ := s
  unfold Brackets.step Brackets.growths
  cases member with
  | idle | comment start => exact .refl _
  | literal start text =>
    dsimp only
    split
    · exact .refl _
    · exact (push_gauged h text b).before
  | inclusion start text =>
    dsimp only
    split
    · exact (push_gauged h text b).before
    · exact .refl _
  | range inner => exact (Braces.step_gauged h inner offset b).before

namespace Body

theorem put_gauged (s : Body) (r : Rule) :
    Gauged low s.scope.settleGrowths (s.put low r) (s.put high r) :=
  (Scope.put_gauged h s.scope r).before

theorem openGroup_gauged (s : Body) (offset : Nat) :
    Gauged low s.openGrowths (s.openGroup low offset) (s.openGroup high offset) :=
  .compare .nesting s.groups.length (h.of .nesting) (Scope.settle_gauged h s.scope).before

theorem closeGroup_gauged (s : Body) (g : Group) (groups : List Group) :
    Gauged low (s.closeGrowths high g) (s.closeGroup low g groups)
      (s.closeGroup high g groups) := by
  refine (Scope.fold_gauged h s.scope).bind fun folded => ?_
  cases folded with
  | none => exact .refl _
  | some r => exact (Scope.put_gauged h g.outer r).before

theorem rule_gauged (s : Body) :
    Gauged low (s.scope.foldGrowths high) (s.rule low) (s.rule high) :=
  (Scope.fold_gauged h s.scope).before

end Body

namespace State

theorem declare_gauged (s : State) (body : Body) (next : Phase) :
    Gauged low (s.declareGrowths high body) (s.declare low body next)
      (s.declare high body next) :=
  (Body.rule_gauged h body).bind fun r => (file_gauged h s.filed r).before

theorem between_gauged (s : State) (title : Option Title) (b : UInt8) :
    Gauged low (betweenGrowths title b) (s.between low title b)
      (s.between high title b) := by
  unfold between betweenGrowths
  cases Sign.of b with
  | word =>
    cases title with
    | none => exact (push_gauged h #[] b).before
    | some title => exact .refl _
  | equals => cases title <;> exact .refl _
  | _ => exact .refl _

theorem inBody_gauged (s : State) (body : Body) (b : UInt8) :
    Gauged low (s.inBodyGrowths high body b) (s.inBody low body b)
      (s.inBody high body b) := by
  unfold inBody inBodyGrowths
  dsimp only
  cases Sign.of b with
  | dash =>
    dsimp only
    split
    · exact declare_gauged h s body _
    · exact .refl _
  | spacing _ | tilde | less => exact (Body.put_gauged h body _).map _
  | openGroup => exact (Body.openGroup_gauged h body s.offset).map _
  | closeGroup =>
    dsimp only
    cases body.groups with
    | nil => exact .refl _
    | cons g groups => exact (Body.closeGroup_gauged h body g groups).map _
  | bar => exact (Scope.alternate_gauged h body.scope).before
  | word => exact (push_gauged h #[] b).before
  | _ => exact .refl _

theorem afterName_gauged (s : State) (body : Body) (text : Text) (b : UInt8) :
    Gauged low (s.afterNameGrowths high body text b) (s.afterName low body text b)
      (s.afterName high body text b) := by
  have hrefer := (Body.put_gauged h body (Rule.reference (nameOf text))).bind fun body =>
    inBody_gauged h s body b
  unfold afterName afterNameGrowths
  cases body.groups.isEmpty with
  | false => exact hrefer
  | true =>
    cases Sign.of b with
    | blank => exact .refl _
    | equals => exact declare_gauged h s body _
    | _ => exact hrefer

theorem inName_gauged (s : State) (body : Body) (text : Text) (lexeme : Text → Lexeme)
    {finish finish' : Except GrammarError Body} {growths : List Growth}
    (hfinish : Gauged low growths finish finish') (b : UInt8) :
    Gauged low (s.inNameGrowths high text finish' growths b)
      (s.inName low body text lexeme finish b)
      (s.inName high body text lexeme finish' b) := by
  unfold inName inNameGrowths
  split
  · exact (push_gauged h text b).before
  · split
    · exact .refl _
    · exact hfinish.bind fun body => inBody_gauged h s body b

theorem stepBody_gauged (s : State) (body : Body) (b : UInt8) :
    Gauged low (s.stepBodyGrowths high body b) (s.stepBody low body b)
      (s.stepBody high body b) := by
  unfold stepBody stepBodyGrowths
  cases body.lexeme with
  | idle => exact inBody_gauged h s body b
  | comment opened => exact .refl _
  | literal opened text =>
    dsimp only
    split
    · exact (Body.put_gauged h body _).map _
    · exact (push_gauged h text b).before
  | inclusion text => exact inName_gauged h s body text _ (Body.put_gauged h body _) b
  | label opened text => exact inName_gauged h s body text _ (.refl _) b
  | name text =>
    dsimp only
    split
    · exact (push_gauged h text b).before
    · exact afterName_gauged h s body text b
  | waiting text => exact afterName_gauged h s body text b
  | braces inner => exact (Braces.step_gauged h inner s.offset b).before
  | brackets inner =>
    refine (Brackets.step_gauged h s.filed inner s.offset b).bind fun reading => ?_
    cases reading with
    | going _ => exact .refl _
    | done set => exact (Body.put_gauged h body _).before

theorem step_gauged (s : State) (b : UInt8) :
    Gauged low (s.stepGrowths high b) (s.step low b) (s.step high b) := by
  refine Gauged.before ?_
  unfold stepPhase stepGrowths
  cases s.phase with
  | between title => exact between_gauged h s title b
  | comment opened title => exact .refl _
  | naming start text =>
    dsimp only
    split
    · exact (push_gauged h text b).before
    · exact between_gauged h s _ b
  | body inner => exact stepBody_gauged h s inner b

theorem run_gauged (source : Bytes) :
    ∀ s : State,
      Gauged low (s.runGrowths high source) (s.run low source) (s.run high source) := by
  induction source with
  | nil => exact fun _ => .refl _
  | cons b rest ih =>
    intro s
    rw [run, run, List.foldlM_cons, List.foldlM_cons, runGrowths]
    exact (step_gauged h s b).bind ih

theorem closeBody_gauged (s : State) (body : Body) :
    Gauged low (s.closeBodyGrowths high body) (s.closeBody low body)
      (s.closeBody high body) := by
  unfold closeBody closeBodyGrowths
  cases body.groups with
  | cons g groups => exact .refl _
  | nil => exact (Body.rule_gauged h body).bind fun r => file_gauged h s.filed r

theorem finish_gauged (s : State) :
    Gauged low (s.finishGrowths high) (s.finish low) (s.finish high) := by
  unfold finish finishGrowths
  cases s.phase with
  | between title => cases title <;> exact .refl _
  | comment opened title | naming start text => exact .refl _
  | body inner =>
    dsimp only
    unfold finishBody
    cases inner.lexeme with
    | idle => exact closeBody_gauged h s inner
    | comment _ | literal _ _ | braces _ | brackets _ => exact .refl _
    | inclusion text =>
      dsimp only
      split
      · exact .refl _
      · exact (Body.put_gauged h inner _).bind fun body => closeBody_gauged h s body
    | label opened text =>
      dsimp only
      split
      · exact .refl _
      · exact (Gauged.refl _).bind fun body => closeBody_gauged h s body
    | name text | waiting text =>
      exact (Body.put_gauged h inner _).bind fun body => closeBody_gauged h s body

end State

/-- A source has the same outcome under the lower limits as under the higher ones,
unless a buffer comes to hold more than the lower ones allow. -/
theorem compile_gauged (filed : List Rule) (source : Bytes) :
    Gauged low (compileGrowths high filed source) (compile low filed source)
      (compile high filed source) :=
  (State.run_gauged h source _).bind fun s => State.finish_gauged h s

end Steps

end Terse

end RuleGraph
