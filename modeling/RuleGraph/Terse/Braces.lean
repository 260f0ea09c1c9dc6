import RuleGraph.Terse.Sign
import RuleGraph.Terse.Text

/-!
# Bounds and ranges in braces

Braces hold a low and a high number. A number is written in base ten, in base
sixteen after a hash, or as the quoted character whose code point it is. A star
stands for no limit in the high place and for zero in the low one. A dash
switches from the place that is being filled to the other one, and a later
number in a place replaces an earlier one.

A numeral is not closed by a sign of its own: the byte after its last digit ends
it and is then read for itself.
-/

namespace RuleGraph.Terse

inductive Figure
  | idle
  | literal (opened : Nat) (text : Text)
  /-- A number in base sixteen, without a value before its first digit. -/
  | hexadecimal (value : Option Nat)
  | decimal (value : Nat)
deriving DecidableEq, Repr

/-- Braces that were opened at an offset. -/
structure Braces where
  opened : Nat
  low : Nat
  high : Nat
  /-- Whether the next number is the high one. -/
  second : Bool
  figure : Figure
deriving DecidableEq, Repr

namespace Braces

def start (opened : Nat) : Braces :=
  ⟨opened, 0, 0, false, .idle⟩

def set (s : Braces) (value : Nat) : Braces :=
  if s.second then { s with high := value, figure := .idle }
  else { s with low := value, figure := .idle }

/-- Whatever happens next depends on a byte that stands for itself. -/
def idle (s : Braces) (offset : Nat) (b : UInt8) :
    Except GrammarError (Reading Braces (Nat × Nat)) :=
  match Sign.of b with
  | .blank => .ok (.going { s with figure := .idle })
  | .closeBrace => .ok (.done (s.low, s.high))
  | .quote => .ok (.going { s with figure := .literal offset #[] })
  | .hash => .ok (.going { s with figure := .hexadecimal none })
  | .star => .ok (.going (s.set (if s.second then Bound.unlimited else 0)))
  | .dash => .ok (.going { s with second := !s.second, figure := .idle })
  | _ =>
    match digitOf? 10 b with
    | some d => .ok (.going { s with figure := .decimal d })
    | none => .error (.unexpected .braces offset b)

/-- The value of a numeral with one more digit, if it still fits a word. -/
def extend (mode : Mode) (base value digit offset : Nat) (b : UInt8) :
    Except GrammarError Nat :=
  if value * base + digit ≤ maxWord then .ok (value * base + digit)
  else .error (.unexpected mode offset b)

def step (limits : Limits) (s : Braces) (offset : Nat) (b : UInt8) :
    Except GrammarError (Reading Braces (Nat × Nat)) :=
  match s.figure with
  | .idle => s.idle offset b
  | .literal opened text =>
    if Sign.of b = .quote then
      match firstCodePoint text.toList with
      | some c => .ok (.going (s.set c))
      | none => .error (.unexpected .braces opened b)
    else do
      let text ← push limits text b
      return .going { s with figure := .literal opened text }
  | .hexadecimal value =>
    match digitOf? 16 b, value with
    | some d, value => do
      let value ← extend .hexadecimal 16 (value.getD 0) d offset b
      return .going { s with figure := .hexadecimal (some value) }
    | none, some value => (s.set value).idle offset b
    | none, none => .error (.unexpected .hexadecimal offset b)
  | .decimal value =>
    match digitOf? 10 b with
    | some d => do
      let value ← extend .decimal 10 value d offset b
      return .going { s with figure := .decimal value }
    | none => (s.set value).idle offset b

def unclosed (s : Braces) (offset : Nat) : GrammarError :=
  match s.figure with
  | .literal opened _ => .unclosed .literal opened
  | .hexadecimal none => .unclosed .hexadecimal offset
  | .idle | .hexadecimal (some _) | .decimal _ => .unclosed .braces s.opened

end Braces

end RuleGraph.Terse
