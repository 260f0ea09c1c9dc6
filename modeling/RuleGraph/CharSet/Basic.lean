import RuleGraph.Text.Ascii
import RuleGraph.Text.Utf8

/-!
# Sets of code points

A set is a list of closed ranges in ascending order that neither overlap nor
touch. There is one such list for every set, so equality of values is equality
of sets.

`union` puts the ranges of one operand into the other one by one. Putting a
range in walks past everything that lies well below it, swallows everything it
meets or touches, and stops in front of the first range that lies well above.
The order of the two tests matters only to the walk and not to the result.

A set prints as a bracket class: its ranges in order, each as one code point or
as two in braces. A code point that can be told apart on paper is written
between quotes, every other one in base sixteen.
-/

namespace RuleGraph

def maxCodePoint : Nat := 0x10FFFF

/-- All code points from `low` to `high`, both included. -/
structure Range where
  low : Nat
  high : Nat
deriving DecidableEq, Repr

structure CharSet where
  ranges : List Range
deriving DecidableEq, Repr

namespace Range

def holds (r : Range) (c : Nat) : Bool :=
  r.low ≤ c && c ≤ r.high

/-- Whether a code point lies between the two ranges, the first being lower. -/
def clearOf (r s : Range) : Bool :=
  r.high + 1 < s.low

def hull (r s : Range) : Range :=
  ⟨min r.low s.low, max r.high s.high⟩

/-- Adds a range to an ascending list of separate ranges. -/
def insert (r : Range) : List Range → List Range
  | [] => [r]
  | s :: rest =>
    if r.clearOf s then r :: s :: rest
    else if s.clearOf r then s :: insert r rest
    else insert (r.hull s) rest

/-- The gaps of an ascending list of separate ranges, from `next` to the last
code point. -/
def gaps (next : Nat) : List Range → List Range
  | [] => if next ≤ maxCodePoint then [⟨next, maxCodePoint⟩] else []
  | r :: rest =>
    if next < r.low then ⟨next, r.low - 1⟩ :: gaps (r.high + 1) rest
    else gaps (r.high + 1) rest

end Range

namespace CharSet

def empty : CharSet := ⟨[]⟩

/-- The code points from `low` to `high`, as far as they exist. -/
def range (low high : Nat) : CharSet :=
  let high := min high maxCodePoint
  if low ≤ high then ⟨[⟨low, high⟩]⟩ else empty

def character (c : Nat) : CharSet :=
  range c c

def union (a b : CharSet) : CharSet :=
  ⟨a.ranges.foldr Range.insert b.ranges⟩

/-- Exactly the listed numbers, whether or not they are code points. -/
def of (members : List Nat) : CharSet :=
  ⟨members.foldr (fun c => Range.insert ⟨c, c⟩) []⟩

/-- The characters of a literal, or its bytes if it is not text. -/
def ofLiteral (bytes : Bytes) : CharSet :=
  of ((Utf8.scalars? bytes).getD (bytes.map UInt8.toNat))

def negate (s : CharSet) : CharSet :=
  ⟨Range.gaps 0 s.ranges⟩

def contains (s : CharSet) (c : Nat) : Bool :=
  s.ranges.any (·.holds c)

def single? (s : CharSet) : Option Nat :=
  match s.ranges with
  | [r] => if r.low = r.high then some r.low else none
  | _ => none

def isEmpty (s : CharSet) : Bool :=
  s.ranges.isEmpty

/-! ## The classes that have a name of their own -/

def wildcard : CharSet := range 0 maxCodePoint

def upperLetters : CharSet := range 'A'.toNat 'Z'.toNat

def lowerLetters : CharSet := range 'a'.toNat 'z'.toNat

def letters : CharSet := upperLetters.union lowerLetters

def digits : CharSet := range '0'.toNat '9'.toNat

def hexDigits : CharSet :=
  (digits.union (range 'a'.toNat 'f'.toNat)).union (range 'A'.toNat 'F'.toNat)

def octalDigits : CharSet := range '0'.toNat '7'.toNat

def binaryDigits : CharSet := range '0'.toNat '1'.toNat

def whitespace : CharSet := of [0x20, 0x09, 0x0A, 0x0D]

/-! ## The printed form of a set -/

/-- Whether a code point is a visible ASCII character that may stand between
quotes. -/
def isPlain (c : Nat) : Bool :=
  0x21 ≤ c && c ≤ 0x7E && c != 0x27

def codePointText (c : Nat) : List Char :=
  if isPlain c then ['\'', Char.ofNat c, '\'']
  else '#' :: (hexadecimal c).map Char.toUpper

def rangeText (r : Range) : List Char :=
  if r.low = r.high then codePointText r.low
  else "\x7b".toList ++ codePointText r.low ++ '-' :: codePointText r.high ++
    "\x7d".toList

def text (s : CharSet) : List Char :=
  '[' :: s.ranges.flatMap rangeText ++ [']']

end CharSet

end RuleGraph
