import RuleGraph.Grammar.Error
import RuleGraph.Rule.Basic

/-!
# Texts and rules that a source refers to

Literals and names are collected byte by byte, and a limit applies to each of
them. A name is looked up among the rules declared so far: what comes later does
not count yet.
-/

namespace RuleGraph.Terse

/-- The bytes of a literal or name as far as it has been read. -/
abbrev Text := Array UInt8

def push (limits : Limits) (text : Text) (b : UInt8) : Except GrammarError Text :=
  if text.size < limits.text then .ok (text.push b)
  else .error (.exceeds .text limits.text)

def nameOf (text : Text) : String :=
  String.ofList (Utf8.lossy text.toList)

def find? (filed : List Rule) (name : String) : Option Rule :=
  filed.find? (·.name == name)

/-- The first character of a literal, or its first byte if it is not text. -/
def firstCodePoint (text : Bytes) : Option Nat :=
  ((Utf8.scalars? text).getD (text.map UInt8.toNat)).head?

/-- The character set that an operator at an offset applies to. A reference
stands for the rule that it names. -/
def charSetOf (filed : List Rule) (offset : Nat) (r : Option Rule) :
    Except GrammarError CharSet :=
  let named := r.bind fun r =>
    match r.shape with
    | .reference target => find? filed target
    | _ => some r
  match named.bind Rule.charSet? with
  | some set => .ok set
  | none => .error (.noCharSet offset)

/-- What an inclusion stands for: the body of a declared rule, or the name of
one that is not declared yet. -/
def included (filed : List Rule) (name : String) : Rule :=
  match find? filed name with
  | some r => r.body
  | none => Rule.reference (quiet name)

inductive Reading (σ ρ : Type) where
  | going (state : σ)
  | done (result : ρ)

end RuleGraph.Terse
