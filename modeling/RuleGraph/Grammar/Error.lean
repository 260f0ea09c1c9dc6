import RuleGraph.Text.Ascii

/-!
# Why no grammar came about

A source in terse notation fails at a byte that has no meaning where it stands,
at its end while something is still open, at an operator that needs a character
set, or at a limit. A finished grammar fails if it refers to a name that stands
for nothing. The mode in an error says what was being read, so the same byte can
be reported in several ways.
-/

namespace RuleGraph

/-- What is being read at a place of a terse source. -/
inductive Mode
  | topLevel
  | rule
  | group
  | brackets
  /-- A repetition bound or a range. -/
  | braces
  | literal
  | name
  | hexadecimal
  | decimal
  | comment
deriving DecidableEq, Repr

inductive Buffer
  /-- The bytes of one literal or name. -/
  | text
  | sequence
  | alternatives
  | rules
  | nesting
deriving DecidableEq, Repr

/-- How much a grammar source may hold of each kind. -/
structure Limits where
  text : Nat
  sequence : Nat
  alternatives : Nat
  rules : Nat
  nesting : Nat
deriving DecidableEq, Repr

def Limits.usual : Limits :=
  { text := 256, sequence := 256, alternatives := 256, rules := 512, nesting := 64 }

inductive GrammarError
  | unexpected (mode : Mode) (offset : Nat) (byte : UInt8)
  /-- The source ends in a mode that was entered at this offset. -/
  | unclosed (mode : Mode) (offset : Nat)
  | undefined (name : String)
  /-- The operator at this offset needs a character set and has none. -/
  | noCharSet (offset : Nat)
  | exceeds (buffer : Buffer) (limit : Nat)
deriving DecidableEq, Repr

def Mode.label : Mode → String
  | topLevel => "top-level"
  | rule => "rule"
  | group => "group"
  | brackets => "charset"
  | braces => "range"
  | literal => "literal"
  | name => "text"
  | hexadecimal => "hex"
  | decimal => "numeric"
  | comment => "comment"

def Buffer.label : Buffer → String
  | text => "text buffer"
  | sequence => "sequence buffer"
  | alternatives => "alternatives buffer"
  | rules => "rule index"
  | nesting => "group nesting"

/-- A byte as the character of the same value, escaped. -/
def byteText (b : UInt8) : String :=
  String.ofList (escapeChar (Char.ofUInt8 b))

def numberText (n : Nat) : String :=
  String.ofList (decimal n)

def GrammarError.message : GrammarError → String
  | unexpected mode offset byte =>
    "`" ++ byteText byte ++ "` is not a valid op-code in " ++ mode.label ++
      " mode at position: " ++ numberText offset
  | unclosed mode offset =>
    mode.label ++ " mode opened at position " ++ numberText offset ++ " is never closed"
  | undefined name => "The rule '" ++ name ++ "' is referenced but never defined"
  | noCharSet offset =>
    "The rule before position " ++ numberText offset ++ " has no character set"
  | exceeds buffer limit =>
    "The " ++ buffer.label ++ " exceeds its capacity of " ++ numberText limit

end RuleGraph
