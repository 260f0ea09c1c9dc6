import RuleGraph.Bound
import RuleGraph.CharSet.Basic
import RuleGraph.Spacing

/-!
# Rules

A rule is a name, perhaps empty, on a shape. Rules are values and finite trees.
The only cycles go through `reference`, which holds a name and is resolved when
a grammar is at hand.

`Shape` leaves open what its parts are. A rule is then a shape of rules, and
whatever looks at one level only (`children`, say) needs no recursion.

Two of the combinators do more than build a node. `repeated` never nests one
repetition directly in another and never leaves a repetition "exactly once"
behind. `sequence` tells every completion in it what it runs up to: the element
that follows. It goes from right to left, so that the element a completion is
bound to is bound already.
-/

namespace RuleGraph

/-- What a rule consists of, over parts of some kind. -/
inductive Shape (α : Type) where
  | literal (bytes : Bytes)
  | terminal (set : CharSet)
  | spacing (contract : Spacing)
  | iteration (child : α) (bound : Bound)
  /-- One part after the other. The position at which the later ones are set
  apart, if there is one, has no effect on what matches. -/
  | sequence (elements : List α) (cut : Option Nat)
  | selection (alternatives : List α)
  /-- Everything up to the next place where a part matches, or up to the end. -/
  | completion (stop : Option α)
  /-- A part that has to match here and takes nothing. -/
  | lookahead (child : α)
  | capture (child : α)
  /-- Rules out other attempts once the sequence around it has come this far. -/
  | decision
  | reference (target : String)
deriving DecidableEq, Repr

structure Rule where
  name : String
  shape : Shape Rule

def Shape.parts {α : Type} : Shape α → List α
  | .iteration child _ | .lookahead child | .capture child => [child]
  | .sequence elements _ => elements
  | .selection alternatives => alternatives
  | .completion stop => stop.toList
  | .literal _ | .terminal _ | .spacing _ | .decision | .reference _ => []

/-- Names that begin with this sign label a rule without making it leave a
token. -/
def quietSign : Char := '-'

def isQuiet (name : String) : Bool :=
  name.toList.head? == some quietSign

def quiet (name : String) : String :=
  String.ofList (quietSign :: name.toList)

def loud? (name : String) : Option String :=
  match name.toList with
  | [] => none
  | c :: rest => if c = quietSign then some (String.ofList rest) else none

namespace Rule

def bare (shape : Shape Rule) : Rule := ⟨"", shape⟩

def literal (bytes : Bytes) : Rule := bare (.literal bytes)

def string (text : List Char) : Rule := literal (utf8 text)

def symbol (c : Char) : Rule := literal (String.utf8EncodeChar c)

def terminal (set : CharSet) : Rule := bare (.terminal set)

def spacing (contract : Spacing) : Rule := bare (.spacing contract)

def selection (alternatives : List Rule) : Rule := bare (.selection alternatives)

/-- A completion that does not know yet what it runs up to. -/
def completion : Rule := bare (.completion none)

def lookahead (child : Rule) : Rule := bare (.lookahead child)

def decision : Rule := bare .decision

def reference (target : String) : Rule := bare (.reference target)

def capture (name : String) (child : Rule) : Rule := ⟨name, .capture child⟩

/-- The rule with `next` as the end of the completion that it is, under any
captures. -/
def upTo? (next : Rule) : Rule → Option Rule
  | ⟨name, .completion none⟩ => some ⟨name, .completion (some next)⟩
  | ⟨name, .capture child⟩ => (upTo? next child).map (capture name)
  | _ => none

/-- Puts an element in front of elements whose completions are bound. -/
def join (element : Rule) : List Rule → List Rule
  | [] => [element]
  | next :: rest => (upTo? next element).getD element :: next :: rest

/-- A sequence in which the elements from position `cut` on are set apart. -/
def sequenceCut (elements : List Rule) (cut : Option Nat) : Rule :=
  bare (.sequence (elements.foldr join []) cut)

def sequence (elements : List Rule) : Rule :=
  sequenceCut elements none

/-- A list of rules as one: the rule itself if there is just one. -/
def chain : List Rule → Rule
  | [r] => r
  | rs => sequence rs

/-- Repeats a rule. On a repetition the new bound takes the place of the old
one, and "once" takes a repetition away. -/
def repeated (r : Rule) (bound : Bound) : Rule :=
  match r.shape with
  | .iteration child _ =>
    if bound = Bound.once then child else ⟨r.name, .iteration child bound⟩
  | _ => if bound = Bound.once then r else bare (.iteration r bound)

/-- Names a rule. A quiet name replaces the name that is there, any other name
makes the rule leave a token of that name. -/
def named (r : Rule) (name : String) : Rule :=
  if isQuiet name then ⟨name, r.shape⟩
  else
    match r.shape with
    | .capture child => capture name child
    | _ => capture name r

def isCapture (r : Rule) : Bool :=
  match r.shape with
  | .capture _ => true
  | _ => false

/-- What a capture captures, and any other rule itself. -/
def body (r : Rule) : Rule :=
  match r.shape with
  | .capture child => child
  | _ => r

/-- The code points of a terminal or a literal, under any captures. -/
def charSet? : Rule → Option CharSet
  | ⟨_, .terminal set⟩ => some set
  | ⟨_, .literal bytes⟩ => some (CharSet.ofLiteral bytes)
  | ⟨_, .capture child⟩ => charSet? child
  | _ => none

def children (r : Rule) : List Rule := r.shape.parts

end Rule

end RuleGraph
