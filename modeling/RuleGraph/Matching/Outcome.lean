import RuleGraph.Overlay.Basic
import RuleGraph.Text.Utf8

/-!
# What an attempt to match yields

An attempt either arrives somewhere or misses, and a miss says how far its
effect reaches. `soft` is the ordinary one: whoever made the attempt may make
another. `committed` ends the attempts of every selection and repetition on the
way, because a decision was passed. The two others end the whole match.

Whichever way it ends, an attempt hands back what it has recorded, the overlay
and the furthest offset of a soft miss. A miss does not undo the recording by
itself. Each construct that may try something else goes back to its own mark.
-/

namespace RuleGraph

/-- A place in the input, with what is left to read there. -/
structure Cursor where
  offset : Nat
  rest : Bytes
deriving DecidableEq, Repr

namespace Cursor

def atStart (input : Bytes) : Cursor := ⟨0, input⟩

def advance (c : Cursor) (width : Nat) : Cursor :=
  ⟨c.offset + width, c.rest.drop width⟩

def toEnd (c : Cursor) : Cursor :=
  c.advance c.rest.length

end Cursor

inductive Miss
  /-- Something else may be tried. -/
  | soft
  /-- A decision was passed. The position is the furthest one that was reached. -/
  | committed (position : Nat)
  | tooDeep
  | missing (name : String)
deriving DecidableEq, Repr

namespace Miss

/-- What becomes of a miss on its way out of a sequence that may have passed a
decision. -/
def leaving (passed : Bool) (furthest : Nat) : Miss → Miss
  | soft => if passed then committed furthest else soft
  | miss => miss

/-- Whether a search for another place may go on after this miss. -/
def isLocal : Miss → Bool
  | soft | committed _ => true
  | tooDeep | missing _ => false

end Miss

structure Track where
  overlay : Overlay String
  furthest : Nat
  /-- How many rules have been entered and not left. -/
  depth : Nat
deriving DecidableEq, Repr

namespace Track

def start : Track := ⟨Overlay.empty, 0, 0⟩

def enter (t : Track) : Track :=
  { t with depth := t.depth + 1 }

/-- Counts a rule that is left, whether it matched or not. -/
def leave (t : Track) : Track :=
  { t with depth := t.depth - 1 }

/-- How many tokens there are, for a later `rewind`. -/
def mark (t : Track) : Nat := t.overlay.count

def rewind (t : Track) (mark : Nat) : Track :=
  { t with overlay := t.overlay.rewind mark }

def begin (t : Track) (name : String) (offset : Nat) : Track :=
  { t with overlay := t.overlay.begin name offset }

def finish (t : Track) (offset : Nat) : Track :=
  { t with overlay := t.overlay.finish offset }

def abandon (t : Track) : Track :=
  { t with overlay := t.overlay.abandon }

def missedAt (t : Track) (offset : Nat) : Track :=
  { t with furthest := max t.furthest offset }

end Track

/-- Where an attempt has arrived or why it has not, and what it has recorded. -/
abbrev Outcome := Except Miss Cursor × Track

abbrev Attempt := Cursor → Track → Outcome

end RuleGraph
