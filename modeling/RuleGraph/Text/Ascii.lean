/-!
# Numerals and escapes

Counts, code points and repetition bounds are written in base ten or sixteen
and have to fit a word of 32 bits. The two notations treat an oversized numeral
differently: one stops at the digit that goes too far, the other refuses the
numeral as a whole. What they share is the value of a digit and the largest
word.

Error messages and the printed form of a literal must stay on one line and in
printable ASCII whatever bytes they quote. Quotes, backslashes and the three
usual controls get a backslash form, and every other character outside the
printable range is written as its code point.
-/

namespace RuleGraph

/-! ## Numerals -/

def maxWord : Nat := 4294967295

def digit? (base : Nat) (c : Char) : Option Nat :=
  let value :=
    if '0' ≤ c ∧ c ≤ '9' then some (c.toNat - '0'.toNat)
    else if 'a' ≤ c ∧ c ≤ 'z' then some (c.toNat - 'a'.toNat + 10)
    else if 'A' ≤ c ∧ c ≤ 'Z' then some (c.toNat - 'A'.toNat + 10)
    else none
  value.filter (· < base)

/-- The number that begins with `value` and goes on with the given digits. -/
def readDigits (base : Nat) : Nat → List Char → Option Nat
  | value, [] => some value
  | value, c :: rest =>
    match digit? base c with
    | none => none
    | some d => readDigits base (value * base + d) rest

/-- The digits of a numeral, without the sign it may begin with. -/
def unsigned : List Char → List Char
  | '+' :: digits => digits
  | digits => digits

/-- A whole text as a number: at least one digit, perhaps after a plus sign, and
no more than a word can hold. -/
def readWord (base : Nat) (text : List Char) : Option Nat :=
  match unsigned text with
  | [] => none
  | digits => (readDigits base 0 digits).filter (· ≤ maxWord)

def decimal (n : Nat) : List Char :=
  Nat.toDigits 10 n

/-- A number in base sixteen, with small letters. -/
def hexadecimal (n : Nat) : List Char :=
  Nat.toDigits 16 n

/-! ## Escapes -/

def escapeChar (c : Char) : List Char :=
  if c = '\t' then ['\\', 't']
  else if c = '\n' then ['\\', 'n']
  else if c = '\r' then ['\\', 'r']
  else if c = '\'' ∨ c = '"' ∨ c = '\\' then ['\\', c]
  else if ' ' ≤ c ∧ c ≤ '~' then [c]
  else "\\u\x7b".toList ++ hexadecimal c.toNat ++ "\x7d".toList

def escape (text : List Char) : List Char :=
  text.flatMap escapeChar

end RuleGraph
