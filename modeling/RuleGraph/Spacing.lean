import RuleGraph.Text.Utf8

/-!
# Spacing

Five contracts about the white space at a position: how far it may reach
(blanks and tabs only, or line breaks too) and what it must contain (nothing,
something, a line feed). Each takes the longest run of its kind, and the
mandatory ones refuse a run that lacks what they ask for.
-/

namespace RuleGraph

inductive Spacing
  /-- Blanks and tabs, perhaps none. -/
  | mayIndent
  /-- White space of any kind, perhaps none. -/
  | mayBreak
  /-- At least one blank or tab. -/
  | mustIndent
  /-- At least one character of white space. -/
  | mustSeparate
  /-- White space with at least one line feed. -/
  | mustWrap
deriving DecidableEq, Repr

def isIndent (b : UInt8) : Bool :=
  b == 0x20 || b == 0x09

def isBlank (b : UInt8) : Bool :=
  isIndent b || b == 0x0A || b == 0x0D

namespace Spacing

def sign : Spacing → Char
  | mayIndent => ','
  | mayBreak => '.'
  | mustIndent => ';'
  | mustSeparate => ':'
  | mustWrap => '!'

def ofSign? : Char → Option Spacing
  | ',' => some mayIndent
  | '.' => some mayBreak
  | ';' => some mustIndent
  | ':' => some mustSeparate
  | '!' => some mustWrap
  | _ => none

/-- The longest run of the kind of white space that the contract speaks of. -/
def run (s : Spacing) (input : Bytes) : Bytes :=
  match s with
  | mayIndent | mustIndent => input.takeWhile isIndent
  | mayBreak | mustSeparate | mustWrap => input.takeWhile isBlank

def accepts (s : Spacing) (run : Bytes) : Bool :=
  match s with
  | mayIndent | mayBreak => true
  | mustIndent | mustSeparate => !run.isEmpty
  | mustWrap => run.contains 0x0A

/-- How many bytes of white space the contract takes, if it is kept. -/
def length? (s : Spacing) (input : Bytes) : Option Nat :=
  let run := s.run input
  if s.accepts run then some run.length else none

end Spacing

end RuleGraph
