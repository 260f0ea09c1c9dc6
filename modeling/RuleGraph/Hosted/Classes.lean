import RuleGraph.CharSet.Basic
import RuleGraph.Hosted.Place

/-!
# Character sets in a hosted source

A set is a class with a name of its own, a range between two characters, or one
character, and it may be negated. A character is quoted or given by its code
point. The text of a quoted character is the quote and then the character, that
of a code point is two signs and then digits.
-/

namespace RuleGraph.Hosted

/-- The code point of a character that must be at a place, with the token and
what follows it. -/
def literal (c : Context) (p : Place) : Built (Token Label × Place × Nat) := do
  let (t, rest) ← c.check .literal p
  let (part, after) ← c.expect .symbol rest
  match part.label with
  | .symbol =>
    match (← c.text part after)[1]? with
    | some char => return (t, rest, char.toNat)
    | none => .error (c.illegible part after)
  | .codePoint =>
    let digits := Utf8.text? ((← c.bytes part after).drop 2)
    match digits.bind (readWord 16) with
    | some n => return (t, rest, n)
    | none => .error (c.illegible part after)
  | label => .error (.unexpected label)

def shortname? (text : Bytes) : Option Nat :=
  match (text[1]? : Option UInt8) with
  | some 0x74 => some 0x09
  | some 0x6E => some 0x0A
  | some 0x72 => some 0x0D
  | _ => none

/-- The set that must be at a place, not negated. -/
def plainRanges (c : Context) (p : Place) : Built CharSet := do
  let (t, rest) ← c.expect .ranges p
  match t.label with
  | .wildcard => return CharSet.wildcard
  | .letter => return CharSet.letters
  | .upper => return CharSet.upperLetters
  | .lower => return CharSet.lowerLetters
  | .hex => return CharSet.hexDigits
  | .octal => return CharSet.octalDigits
  | .binary => return CharSet.binaryDigits
  | .digit => return CharSet.digits
  | .whitespace => return CharSet.whitespace
  | .range =>
    let (first, after, low) ← literal c rest
    let (_, _, high) ← literal c (behind first after)
    return CharSet.range low high
  | .literal =>
    let (_, _, code) ← literal c p
    return CharSet.character code
  | .shortname =>
    match shortname? (← c.bytes t rest) with
    | some code => return CharSet.character code
    | none => .error (c.illegible t rest)
  | label => .error (.unexpected label)

def ranges (c : Context) (p : Place) : Built CharSet := do
  let (_, rest) ← c.check .ranges p
  match rest with
  | [] => plainRanges c []
  | t :: after =>
    if t.label = .not then
      let set ← plainRanges c after
      return set.negate
    else plainRanges c (t :: after)

end RuleGraph.Hosted
