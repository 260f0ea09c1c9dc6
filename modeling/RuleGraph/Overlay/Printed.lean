import RuleGraph.Overlay.Basic
import RuleGraph.Text.Ascii
import RuleGraph.Text.Utf8

/-!
# What an overlay shows

Printed, an overlay is one line for every token: its index, its label behind one
blank for each level of depth, and where it starts and stops.

On the input that it belongs to, an overlay also has a text for every token that
does not reach beyond that input.
-/

namespace RuleGraph

namespace Overlay

/-- A number, with blanks in front of it up to a width of four. -/
def indexText (index : Nat) : List Char :=
  let digits := decimal index
  List.replicate (4 - digits.length) ' ' ++ digits

def lineText {α : Type} (labelText : α → List Char) (t : Token α) (index : Nat) :
    List Char :=
  indexText index ++ ' ' :: List.replicate t.depth ' ' ++ labelText t.label ++
    ' ' :: decimal t.start ++ ':' :: decimal t.stop ++ ['\n']

def text {α : Type} (labelText : α → List Char) (o : Overlay α) : List Char :=
  (o.tokens.toList.zipIdx.map fun (t, index) => lineText labelText t index).flatten

end Overlay

/-- An overlay on the input it belongs to, and where reading stopped. -/
structure Parse (α : Type) where
  source : Bytes
  overlay : Overlay α
  stop : Nat
deriving DecidableEq, Repr

namespace Parse

variable {α : Type}

def isComplete (p : Parse α) : Bool :=
  p.stop == p.source.length

/-- The bytes from one offset to another, if there are such. -/
def slice? (source : Bytes) (start stop : Nat) : Option Bytes :=
  if start ≤ stop ∧ stop ≤ source.length then
    some ((source.drop start).take (stop - start))
  else none

def text? (p : Parse α) (index : Nat) : Option Bytes :=
  (p.overlay.tokens[index]?).bind fun t => slice? p.source t.start t.stop

end Parse

end RuleGraph
