/-!
# Bytes as text

Sources and inputs are bytes, and nothing promises that they are text. Three
readings are needed, and they differ only in what they do about bytes that
encode no character: `scalar?` reads one character and gives up, `scalars?`
reads a whole string and gives up, and `lossy` puts a replacement character in
place of what it cannot read.

All three rest on one table, `lead`: what a first byte contributes to the value
and which ranges the bytes after it must come from. The narrow ranges after
`E0`, `ED`, `F0` and `F4` are what rules out overlong forms, surrogates and
values beyond the last code point, so nothing has to be checked afterwards.

The whole-string readings walk the bytes one at a time and carry the number of
bytes that a character already read still covers. That keeps the recursion on
the list itself.
-/

namespace RuleGraph

abbrev Bytes := List UInt8

def utf8 (text : List Char) : Bytes :=
  text.flatMap String.utf8EncodeChar

def stringBytes (text : String) : Bytes :=
  utf8 text.toList

namespace Utf8

structure Span where
  least : UInt8
  most : UInt8
deriving DecidableEq, Repr

def Span.holds (s : Span) (b : UInt8) : Bool :=
  s.least ≤ b && b ≤ s.most

/-- A byte that continues a character, with no further restriction. -/
def anyTail : Span := ⟨0x80, 0xBF⟩

/-- What a first byte contributes to the value of a character, and where each
of the bytes after it must lie. -/
def lead (b : UInt8) : Option (Nat × List Span) :=
  if b ≤ 0x7F then some (b.toNat, [])
  else if b < 0xC2 then none
  else if b ≤ 0xDF then some (b.toNat - 0xC0, [anyTail])
  else if b = 0xE0 then some (0, [⟨0xA0, 0xBF⟩, anyTail])
  else if b = 0xED then some (0xD, [⟨0x80, 0x9F⟩, anyTail])
  else if b ≤ 0xEF then some (b.toNat - 0xE0, [anyTail, anyTail])
  else if b = 0xF0 then some (0, [⟨0x90, 0xBF⟩, anyTail, anyTail])
  else if b ≤ 0xF3 then some (b.toNat - 0xF0, [anyTail, anyTail, anyTail])
  else if b = 0xF4 then some (4, [⟨0x80, 0x8F⟩, anyTail, anyTail])
  else none

/-- The value that the continuation bytes complete, if every one is there. -/
def complete (value : Nat) : List Span → Bytes → Option Nat
  | [], _ => some value
  | _ :: _, [] => none
  | s :: spans, b :: rest =>
    if s.holds b then complete (value * 64 + (b.toNat - 0x80)) spans rest else none

/-- How many of the bytes fit the ranges, one after the other. -/
def fitting : List Span → Bytes → Nat
  | [], _ => 0
  | _ :: _, [] => 0
  | s :: spans, b :: rest => if s.holds b then fitting spans rest + 1 else 0

/-- The character at the front: its value and how many bytes follow its first
byte. -/
def scalar? : Bytes → Option (Nat × Nat)
  | [] => none
  | b :: rest =>
    match lead b with
    | none => none
    | some (value, spans) => (complete value spans rest).map (·, spans.length)

/-- The characters of the bytes that come after the next `skip` ones. -/
def scalarsAfter : Nat → Bytes → Option (List Nat)
  | _, [] => some []
  | skip + 1, _ :: rest => scalarsAfter skip rest
  | 0, b :: rest =>
    match scalar? (b :: rest) with
    | none => none
    | some (value, tail) => (scalarsAfter tail rest).map (value :: ·)

def scalars? (bytes : Bytes) : Option (List Nat) :=
  scalarsAfter 0 bytes

/-- The text that the bytes encode, if they are valid UTF-8. -/
def text? (bytes : Bytes) : Option (List Char) :=
  (scalars? bytes).map (·.map Char.ofNat)

def replacement : Char := Char.ofNat 0xFFFD

/-- How many bytes after the first belong to the same unreadable stretch: those
that a character starting here could have had. -/
def brokenTail : Bytes → Nat
  | [] => 0
  | b :: rest =>
    match lead b with
    | none => 0
    | some (_, spans) => fitting spans rest

/-- The text of the bytes that come after the next `skip` ones. -/
def lossyAfter : Nat → Bytes → List Char
  | _, [] => []
  | skip + 1, _ :: rest => lossyAfter skip rest
  | 0, b :: rest =>
    match scalar? (b :: rest) with
    | none => replacement :: lossyAfter (brokenTail (b :: rest)) rest
    | some (value, tail) => Char.ofNat value :: lossyAfter tail rest

/-- The text that the bytes encode, with one replacement character for every
longest stretch that begins a character and does not finish it. -/
def lossy (bytes : Bytes) : List Char :=
  lossyAfter 0 bytes

/-- A character for a matcher: a byte that begins no character stands for its
own value. -/
def unit? : Bytes → Option (Nat × Nat)
  | [] => none
  | b :: rest => some ((scalar? (b :: rest)).getD (b.toNat, 0))

end Utf8

end RuleGraph
