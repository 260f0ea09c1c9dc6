import RuleGraph.Spacing
import RuleGraph.Text.Ascii

/-!
# The alphabet of the terse notation

Every byte of a source has one role, whatever it is read as part of: the modes
differ in which roles they admit. Bytes without a role, among them everything
beyond ASCII, can only stand in literals and comments.
-/

namespace RuleGraph.Terse

inductive Sign
  | blank
  | dash
  | percent
  | equals
  | quote
  | openBracket
  | closeBracket
  | backslash
  | openBrace
  | closeBrace
  | atSign
  | question
  | star
  | plus
  | spacing (contract : Spacing)
  | openGroup
  | closeGroup
  | tilde
  | less
  | greater
  | bar
  | caret
  | ampersand
  | hash
  /-- A letter, a figure or an underscore. -/
  | word
  | other
deriving DecidableEq, Repr

def isWordChar (c : Char) : Bool :=
  c.isAlphanum || c == '_'

def Sign.ofChar : Char → Sign
  | ' ' | '\t' | '\n' | '\r' => blank
  | '-' => dash
  | '%' => percent
  | '=' => equals
  | '\'' => quote
  | '[' => openBracket
  | ']' => closeBracket
  | '\\' => backslash
  | '\x7b' => openBrace
  | '\x7d' => closeBrace
  | '@' => atSign
  | '?' => question
  | '*' => star
  | '+' => plus
  | ',' => spacing .mayIndent
  | '.' => spacing .mayBreak
  | ';' => spacing .mustIndent
  | ':' => spacing .mustSeparate
  | '!' => spacing .mustWrap
  | '(' => openGroup
  | ')' => closeGroup
  | '~' => tilde
  | '<' => less
  | '>' => greater
  | '|' => bar
  | '^' => caret
  | '&' => ampersand
  | '#' => hash
  | c => if isWordChar c then word else other

def Sign.of (b : UInt8) : Sign :=
  Sign.ofChar (Char.ofUInt8 b)

def digitOf? (base : Nat) (b : UInt8) : Option Nat :=
  digit? base (Char.ofUInt8 b)

end RuleGraph.Terse
