import RuleGraph.Hosted.Error
import RuleGraph.Overlay.Printed

/-!
# Finding the parts of a token

A place in a list of tokens is what is left of the list there. The first part of
a token is at the place right after it, and the next part is behind everything
that lies below the first.

Whether a place lies inside a token can be told from the place alone, as long as
one has come to it from part to part: all that was passed over is deeper than
the token, so the place is inside if it is deeper too.
-/

namespace RuleGraph.Hosted

/-- The tokens from a place on. -/
abbrev Place := List (Token Label)

/-- What has to be known besides the place: the text that the tokens cover, and
how many tokens there are in all. -/
structure Context where
  source : Bytes
  count : Nat

/-- What a part amounts to, if it has the shape that it should have. -/
abbrev Built := Except TokenError

namespace Context

def index (c : Context) (p : Place) : Nat :=
  c.count - p.length

def illegible (c : Context) (t : Token Label) (rest : Place) : TokenError :=
  .illegible t.label (c.index (t :: rest))

/-- The token that must be at a place, and what follows it. -/
def expect (c : Context) (expected : Label) : Place → Built (Token Label × Place)
  | [] => .error (.absent expected c.count)
  | t :: rest => .ok (t, rest)

/-- The token of a kind that must be at a place, and what follows it. -/
def check (c : Context) (expected : Label) (p : Place) : Built (Token Label × Place) := do
  let (t, rest) ← c.expect expected p
  if t.label = expected then return (t, rest)
  else .error (.mismatch expected t.label)

def bytes (c : Context) (t : Token Label) (rest : Place) : Built Bytes :=
  match Parse.slice? c.source t.start t.stop with
  | none => .error (.outside (c.index (t :: rest)))
  | some bytes =>
    if (Utf8.scalars? bytes).isSome then .ok bytes else .error (c.illegible t rest)

def text (c : Context) (t : Token Label) (rest : Place) : Built (List Char) := do
  let bytes ← c.bytes t rest
  return (Utf8.text? bytes).getD []

def number (c : Context) (t : Token Label) (rest : Place) : Built Nat := do
  let digits ← c.text t rest
  match readWord 10 digits with
  | some n => return n
  | none => .error (c.illegible t rest)

def name (c : Context) (p : Place) : Built (Token Label × Place × String) := do
  let (t, rest) ← c.check .name p
  let text ← c.text t rest
  return (t, rest, String.ofList text)

end Context

/-- The place behind everything that lies below a token. -/
def behind (t : Token Label) (rest : Place) : Place :=
  rest.dropWhile fun s => t.depth < s.depth

/-- Whether a token that was come to from part to part lies inside another. -/
def inside (parent t : Token Label) : Bool :=
  parent.depth < t.depth && t.stop ≤ parent.stop

/-- The part after a part of `parent`, if it is of the given kind. -/
def sibling? (parent : Token Label) (label : Label) (t : Token Label) (rest : Place) :
    Option (Token Label × Place) :=
  match behind t rest with
  | [] => none
  | next :: rest =>
    if inside parent next && next.label = label then some (next, rest) else none

/-- The parts from a place on as long as they are accepted, and the place behind
them. While `below` is set, everything deeper belongs to the last part. -/
def parts (accept : Token Label → Bool) :
    Option Nat → Place → List (Token Label × Place) × Place
  | _, [] => ([], [])
  | below, t :: rest =>
    if below.any (· < t.depth) then parts accept below rest
    else if accept t then
      let (more, place) := parts accept (some t.depth) rest
      ((t, rest) :: more, place)
    else ([], t :: rest)

/-- The parts of `parent` of one kind that are at a place. -/
def partsOf (parent : Token Label) (label : Label) (p : Place) :
    List (Token Label × Place) :=
  (parts (fun t => inside parent t && t.label = label) none p).1

end RuleGraph.Hosted
