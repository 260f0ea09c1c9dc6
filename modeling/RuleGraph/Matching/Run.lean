import RuleGraph.Grammar.Basic
import RuleGraph.Matching.Outcome
import RuleGraph.Overlay.Printed

/-!
# Matching

A rule is matched at a place in the input by backtracking, without a memory of
earlier attempts. Alternatives are tried in order and the first that matches is
taken. Repetition takes as much as it can. Neither is reconsidered later.

References make rules recursive, and a rule may refer to itself before it has
read anything. What bounds the recursion is therefore not the input but the
number of rules that may be entered one inside the other. `attempt` recurses on
how many are left. The constructs themselves (`iterate`, `inOrder`, `firstOf`,
`seek`) are loops over attempts that are given to them, and recurse on what they
run through.
-/

namespace RuleGraph

namespace Matching

def missAt : Attempt := fun here t =>
  (.error .soft, t.missedAt here.offset)

/-- Takes that many bytes, if there is a number. -/
def take (width : Option Nat) : Attempt := fun here t =>
  match width with
  | some n => (.ok (here.advance n), t)
  | none => missAt here t

def literalWidth (bytes input : Bytes) : Option Nat :=
  if bytes.isPrefixOf input then some bytes.length else none

/-- How many bytes the character in front takes, if it belongs to a set. -/
def terminalWidth (set : CharSet) (input : Bytes) : Option Nat :=
  match Utf8.unit? input with
  | none => none
  | some (code, tail) => if set.contains code then some (tail + 1) else none

/-- Ends a repetition, which is a miss if it ends too early. -/
def enough (least mark count : Nat) : Attempt := fun here t =>
  if count < least then (.error .soft, t.rewind mark) else (.ok here, t)

/-- Repeats an attempt up to `room` more times. A repetition that takes nothing
would go on forever, so it is the last one, and it counts for all that are still
wanting. -/
def iterate (once : Attempt) (least mark : Nat) : Nat → Nat → Attempt
  | 0, count, here, t => enough least mark count here t
  | room + 1, count, here, t =>
    match once here t with
    | (.ok next, t) =>
      if next.offset = here.offset then (.ok here, t)
      else iterate once least mark room (count + 1) next t
    | (.error .soft, t) => enough least mark count here t
    | (.error miss, t) => (.error miss, t.rewind mark)

/-- One rule after the other. A decision is not matched but remembered. -/
def inOrder (enter : Rule → Attempt) (mark : Nat) : Bool → List Rule → Attempt
  | _, [], here, t => (.ok here, t)
  | passed, r :: rest, here, t =>
    if r.shape = .decision then inOrder enter mark true rest here t
    else
      match enter r here t with
      | (.ok next, t) => inOrder enter mark passed rest next t
      | (.error miss, t) => (.error (miss.leaving passed t.furthest), t.rewind mark)

def firstOf (enter : Rule → Attempt) : List Rule → Attempt
  | [], _, t => (.error .soft, t)
  | r :: rest, here, t =>
    match enter r here t with
    | (.error .soft, t) => firstOf enter rest here t
    | outcome => outcome

/-- The next place, from the given one on, where an attempt succeeds. What the
attempts record is forgotten. -/
def seek (once : Attempt) (mark : Nat) (origin : Cursor) (offset : Nat) (rest : Bytes)
    (t : Track) : Outcome :=
  match once ⟨offset, rest⟩ t with
  | (.ok _, t) => (.ok ⟨offset, rest⟩, t.rewind mark)
  | (.error miss, t) =>
    if miss.isLocal then
      match rest with
      | [] => missAt origin t
      | _ :: rest => seek once mark origin (offset + 1) rest t
    else (.error miss, t)

/-- Matches one rule, where `enter` matches the rules in it and those it refers
to. -/
def step (g : Grammar) (enter : Rule → Attempt) (r : Rule) : Attempt := fun here t =>
  match r.shape with
  | .literal bytes => take (literalWidth bytes here.rest) here t
  | .terminal set => take (terminalWidth set here.rest) here t
  | .spacing contract => take (contract.length? here.rest) here t
  | .iteration child bound => iterate (enter child) bound.least t.mark bound.most 0 here t
  | .sequence elements _ => inOrder enter t.mark false elements here t
  | .selection alternatives => firstOf enter alternatives here t
  | .completion none => (.ok here.toEnd, t)
  | .completion (some stop) => seek (enter stop) t.mark here here.offset here.rest t
  | .lookahead child =>
    let mark := t.mark
    match enter child here t with
    | (.ok _, t) => (.ok here, t.rewind mark)
    | missed => missed
  | .capture child =>
    match enter child here (t.begin r.name here.offset) with
    | (.ok next, t) => (.ok next, t.finish next.offset)
    | (.error miss, t) => (.error miss, t.abandon)
  | .decision => (.ok here, t)
  | .reference target =>
    match g.resolve? target with
    | some rule => enter rule here t
    | none => (.error (.missing target), t)

/-- Matches a rule in which at most `room` rules are entered one inside the
other, itself included. -/
def attempt (g : Grammar) : Nat → Rule → Attempt
  | 0, _, _, t => (.error .tooDeep, t)
  | room + 1, r, here, t =>
    let (result, t) := step g (attempt g room) r here t.enter
    (result, t.leave)

/-- Matches a rule, where the rules that have been entered already count against
the limit. -/
def within (g : Grammar) (limit : Nat) (r : Rule) : Attempt := fun here t =>
  attempt g (limit - t.depth) r here t

inductive Failure
  | notFound (name : String)
  /-- Nothing matches. The position is the furthest one that was reached. -/
  | noMatch (position : Nat)
  | tooDeep (limit : Nat)
deriving DecidableEq, Repr

/-- How many rules may be entered one inside the other unless it is said
otherwise. -/
def usualLimit : Nat := 512

/-- The failure that a miss of the whole match amounts to. -/
def failure (limit furthest : Nat) : Miss → Failure
  | .soft => .noMatch furthest
  | .committed position => .noMatch position
  | .tooDeep => .tooDeep limit
  | .missing name => .notFound name

end Matching

/-- Matches a beginning of an input against the rule of a name. -/
def Grammar.matchWith (g : Grammar) (limit : Nat) (start : String) (input : Bytes) :
    Except Matching.Failure (Parse String) :=
  match g.resolve? start with
  | none => .error (.notFound start)
  | some r =>
    match Matching.within g limit r (Cursor.atStart input) Track.start with
    | (.ok stop, t) => .ok ⟨input, t.overlay, stop.offset⟩
    | (.error miss, t) => .error (Matching.failure limit t.furthest miss)

end RuleGraph
