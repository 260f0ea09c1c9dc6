import RuleGraph.Matching.Run
import RuleGraph.Proofs.Overlay.Stretches

/-!
# What matching means

A match depends on a grammar, a rule and a place in an input, and on nothing
else. `Means` says so without a record of any kind: no overlay to rewind, no
furthest offset, no count of entered rules. A match that arrives somewhere
yields a forest of named stretches, and a construct that looks ahead simply does
not hand on the forest of what it looked at.

The relation is one inductive predicate over tasks and not one for each kind of
loop, so that a proof about derivations is one induction. A rule that calls
itself before it has read anything has no derivation: that is the only way for a
rule to mean nothing, and `Means.unique` says that it never means two things.
-/

namespace RuleGraph.Matching

inductive Reason
  | soft
  | committed
  | missing (name : String)
deriving DecidableEq, Repr

namespace Reason

/-- What becomes of a reason on its way out of a sequence that may have passed a
decision. -/
def leaving (passed : Bool) : Reason → Reason
  | soft => if passed then committed else soft
  | reason => reason

def isLocal : Reason → Bool
  | soft | committed => true
  | missing _ => false

end Reason

inductive Meaning
  /-- It arrives at a place and has found the stretches on the way. -/
  | arrives (stop : Cursor) (forest : List (Stretch String))
  | misses (reason : Reason)

namespace Meaning

/-- The meaning of taking that many bytes, if there is a number. -/
def taking (here : Cursor) : Option Nat → Meaning
  | some width => arrives (here.advance width) []
  | none => misses .soft

/-- The meaning of ending a repetition while some rounds are still wanted. -/
def ending (here : Cursor) : Nat → Meaning
  | 0 => arrives here []
  | _ + 1 => misses .soft

/-- The meaning of going on after some stretches have been found. -/
def after (found : List (Stretch String)) : Meaning → Meaning
  | arrives stop forest => arrives stop (found ++ forest)
  | misses reason => misses reason

def captured (name : String) (start : Nat) : Meaning → Meaning
  | arrives stop forest => arrives stop [.node name start stop.offset forest]
  | misses reason => misses reason

def ahead (here : Cursor) : Meaning → Meaning
  | arrives _ _ => arrives here []
  | misses reason => misses reason

end Meaning

inductive Task
  | rule (r : Rule)
  /-- Rounds of a repetition: how many are still wanted, and how many there is
  still room for. -/
  | rounds (child : Rule) (wanted room : Nat)
  /-- The rest of a sequence, and whether a decision was passed. -/
  | elements (passed : Bool) (rules : List Rule)
  | alternatives (rules : List Rule)
  /-- The places from here on, up to one where a rule matches. -/
  | search (stop : Rule)

inductive Means (g : Grammar) : Task → Cursor → Meaning → Prop
  | literal {name bytes here} :
      Means g (.rule ⟨name, .literal bytes⟩) here
        (.taking here (literalWidth bytes here.rest))
  | terminal {name set here} :
      Means g (.rule ⟨name, .terminal set⟩) here
        (.taking here (terminalWidth set here.rest))
  | spacing {name contract here} :
      Means g (.rule ⟨name, .spacing contract⟩) here
        (.taking here (contract.length? here.rest))
  | iteration {name child bound here m} :
      Means g (.rounds child bound.least bound.most) here m →
      Means g (.rule ⟨name, .iteration child bound⟩) here m
  | sequence {name elements cut here m} :
      Means g (.elements false elements) here m →
      Means g (.rule ⟨name, .sequence elements cut⟩) here m
  | selection {name alternatives here m} :
      Means g (.alternatives alternatives) here m →
      Means g (.rule ⟨name, .selection alternatives⟩) here m
  | toEnd {name here} :
      Means g (.rule ⟨name, .completion none⟩) here (.arrives here.toEnd [])
  | completion {name stop here m} :
      Means g (.search stop) here m →
        Means g (.rule ⟨name, .completion (some stop)⟩) here m
  | lookahead {name child here m} :
      Means g (.rule child) here m →
        Means g (.rule ⟨name, .lookahead child⟩) here (m.ahead here)
  | capture {name child here m} :
      Means g (.rule child) here m →
      Means g (.rule ⟨name, .capture child⟩) here (m.captured name here.offset)
  | decision {name here} : Means g (.rule ⟨name, .decision⟩) here (.arrives here [])
  | reference {name target r here m} :
      g.resolve? target = some r → Means g (.rule r) here m →
      Means g (.rule ⟨name, .reference target⟩) here m
  | missing {name target here} :
      g.resolve? target = none →
      Means g (.rule ⟨name, .reference target⟩) here (.misses (.missing target))
  | full {child wanted here} : Means g (.rounds child wanted 0) here (.ending here wanted)
  | last {child wanted room here} :
      Means g (.rule child) here (.misses .soft) →
      Means g (.rounds child wanted (room + 1)) here (.ending here wanted)
  /-- A round that takes nothing stands for all that are wanted. -/
  | idle {child wanted room here next forest} :
      Means g (.rule child) here (.arrives next forest) → next.offset = here.offset →
      Means g (.rounds child wanted (room + 1)) here (.arrives here forest)
  | round {child wanted room here next forest m} :
      Means g (.rule child) here (.arrives next forest) → next.offset ≠ here.offset →
      Means g (.rounds child (wanted - 1) room) next m →
      Means g (.rounds child wanted (room + 1)) here (m.after forest)
  | broken {child wanted room here reason} :
      Means g (.rule child) here (.misses reason) → reason ≠ .soft →
      Means g (.rounds child wanted (room + 1)) here (.misses reason)
  | done {passed here} : Means g (.elements passed []) here (.arrives here [])
  | pass {passed r rest here m} :
      r.shape = .decision → Means g (.elements true rest) here m →
      Means g (.elements passed (r :: rest)) here m
  | element {passed r rest here next forest m} :
      r.shape ≠ .decision → Means g (.rule r) here (.arrives next forest) →
      Means g (.elements passed rest) next m →
      Means g (.elements passed (r :: rest)) here (m.after forest)
  | stuck {passed r rest here reason} :
      r.shape ≠ .decision → Means g (.rule r) here (.misses reason) →
      Means g (.elements passed (r :: rest)) here (.misses (reason.leaving passed))
  | none {here} : Means g (.alternatives []) here (.misses .soft)
  | chosen {r rest here m} :
      Means g (.rule r) here m → m ≠ .misses .soft →
        Means g (.alternatives (r :: rest)) here m
  | other {r rest here m} :
      Means g (.rule r) here (.misses .soft) → Means g (.alternatives rest) here m →
      Means g (.alternatives (r :: rest)) here m
  | found {stop here next forest} :
      Means g (.rule stop) here (.arrives next forest) →
      Means g (.search stop) here (.arrives here [])
  | further {stop offset b rest reason m} :
      Means g (.rule stop) ⟨offset, b :: rest⟩ (.misses reason) → reason.isLocal →
      Means g (.search stop) ⟨offset + 1, rest⟩ m →
      Means g (.search stop) ⟨offset, b :: rest⟩ m
  | nowhere {stop offset reason} :
      Means g (.rule stop) ⟨offset, []⟩ (.misses reason) → reason.isLocal →
      Means g (.search stop) ⟨offset, []⟩ (.misses .soft)
  | astray {stop here reason} :
      Means g (.rule stop) here (.misses reason) → reason.isLocal = false →
      Means g (.search stop) here (.misses reason)

/-- Nothing means two things at one place. -/
theorem Means.unique {g : Grammar} {task : Task} {here : Cursor} {m m' : Meaning}
    (h : Means g task here m) (h' : Means g task here m') : m = m' := by
  induction h generalizing m' with
  | literal | terminal | spacing | toEnd | decision | full | done | none => cases h'; rfl
  | iteration _ ih => cases h' with | iteration h' => exact ih h'
  | sequence _ ih => cases h' with | sequence h' => exact ih h'
  | selection _ ih => cases h' with | selection h' => exact ih h'
  | completion _ ih => cases h' with | completion h' => exact ih h'
  | lookahead _ ih => cases h' with | lookahead h' => rw [ih h']
  | capture _ ih => cases h' with | capture h' => rw [ih h']
  | reference hr _ ih =>
    cases h' with
    | reference hr' h' =>
      cases hr.symm.trans hr'
      exact ih h'
    | missing hr' => cases hr.symm.trans hr'
  | missing hr =>
    cases h' with
    | reference hr' _ => cases hr.symm.trans hr'
    | missing _ => rfl
  | last _ ih =>
    cases h' with
    | last _ => rfl
    | idle h' _ => cases ih h'
    | round h' _ _ => cases ih h'
    | broken h' hne => exact absurd (Meaning.misses.inj (ih h')).symm hne
  | idle _ heq ih =>
    cases h' with
    | last h' => cases ih h'
    | idle h' _ => cases ih h'; rfl
    | round h' hne _ => cases ih h'; exact absurd heq hne
    | broken h' _ => cases ih h'
  | round _ hne _ ih ihRest =>
    cases h' with
    | last h' => cases ih h'
    | idle h' heq => cases ih h'; exact absurd heq hne
    | round h' _ hrest => cases ih h'; rw [ihRest hrest]
    | broken h' _ => cases ih h'
  | broken _ hne ih =>
    cases h' with
    | last h' => exact absurd (Meaning.misses.inj (ih h')) hne
    | idle h' _ => cases ih h'
    | round h' _ _ => cases ih h'
    | broken h' _ => exact ih h'
  | pass hr _ ih =>
    cases h' with
    | pass _ h' => exact ih h'
    | element hr' _ _ => exact absurd hr hr'
    | stuck hr' _ => exact absurd hr hr'
  | element hr _ _ ih ihRest =>
    cases h' with
    | pass hr' _ => exact absurd hr' hr
    | element _ h' hrest => cases ih h'; rw [ihRest hrest]
    | stuck _ h' => cases ih h'
  | stuck hr _ ih =>
    cases h' with
    | pass hr' _ => exact absurd hr' hr
    | element _ h' _ => cases ih h'
    | stuck _ h' => cases ih h'; rfl
  | chosen _ hne ih =>
    cases h' with
    | chosen h' _ => exact ih h'
    | other h' _ => exact absurd (ih h') hne
  | other _ _ ih ihRest =>
    cases h' with
    | chosen h' hne => exact absurd (ih h').symm hne
    | other _ h' => exact ihRest h'
  | found _ ih =>
    cases h' with
    | found _ => rfl
    | further h' _ _ => cases ih h'
    | nowhere h' _ => cases ih h'
    | astray h' _ => cases ih h'
  | further _ hlocal _ ih ihRest =>
    cases h' with
    | found h' => cases ih h'
    | further _ _ h' => exact ihRest h'
    | astray h' hstray => cases ih h'; exact absurd hlocal (by rw [hstray]; decide)
  | nowhere _ hlocal ih =>
    cases h' with
    | found h' => cases ih h'
    | nowhere _ _ => rfl
    | astray h' hstray => cases ih h'; exact absurd hlocal (by rw [hstray]; decide)
  | astray _ hstray ih =>
    cases h' with
    | found h' => cases ih h'
    | further h' hlocal _ => cases ih h'; exact absurd hlocal (by rw [hstray]; decide)
    | nowhere h' hlocal => cases ih h'; exact absurd hlocal (by rw [hstray]; decide)
    | astray h' _ => exact ih h'

end RuleGraph.Matching
