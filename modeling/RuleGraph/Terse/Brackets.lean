import RuleGraph.Terse.Braces

/-!
# Bracket classes

A bracket class lists the members of a character set: ranges in braces, rules
that have a character set, literals, and bare letters. It begins with what an
operator in front of it carried over, so its set only grows.
-/

namespace RuleGraph.Terse

inductive Member
  | idle
  | comment (opened : Nat)
  | literal (opened : Nat) (text : Text)
  | inclusion (opened : Nat) (text : Text)
  | range (braces : Braces)
deriving DecidableEq, Repr

/-- A bracket class that was opened at an offset. -/
structure Brackets where
  opened : Nat
  set : CharSet
  member : Member
deriving DecidableEq, Repr

namespace Brackets

def start (opened : Nat) (carried : CharSet) : Brackets :=
  ⟨opened, carried, .idle⟩

def add (s : Brackets) (set : CharSet) : Brackets :=
  { s with set := s.set.union set, member := .idle }

def idle (s : Brackets) (offset : Nat) (b : UInt8) :
    Except GrammarError (Reading Brackets CharSet) :=
  match Sign.of b with
  | .blank => .ok (.going { s with member := .idle })
  | .closeBracket => .ok (.done s.set)
  | .percent => .ok (.going { s with member := .comment offset })
  | .openBrace => .ok (.going { s with member := .range (Braces.start offset) })
  | .backslash => .ok (.going { s with member := .inclusion offset #[] })
  | .quote => .ok (.going { s with member := .literal offset #[] })
  | .word => .ok (.going (s.add (CharSet.character b.toNat)))
  | _ => .error (.unexpected .brackets offset b)

/-- Adds the character set of the rule that an inclusion names. -/
def adopt (filed : List Rule) (s : Brackets) (opened : Nat) (text : Text) :
    Except GrammarError Brackets :=
  match find? filed (nameOf text) with
  | none => .error (.undefined (nameOf text))
  | some r =>
    match r.charSet? with
    | none => .error (.noCharSet opened)
    | some set => .ok (s.add set)

def step (limits : Limits) (filed : List Rule) (s : Brackets) (offset : Nat) (b : UInt8) :
    Except GrammarError (Reading Brackets CharSet) :=
  match s.member with
  | .idle => s.idle offset b
  | .comment opened =>
    if Sign.of b = .percent then .ok (.going { s with member := .idle })
    else .ok (.going { s with member := .comment opened })
  | .literal opened text =>
    if Sign.of b = .quote then .ok (.going (s.add (CharSet.ofLiteral text.toList)))
    else do
      let text ← push limits text b
      return .going { s with member := .literal opened text }
  | .inclusion opened text =>
    if Sign.of b = .word then do
      let text ← push limits text b
      return .going { s with member := .inclusion opened text }
    else if text.isEmpty then .error (.unexpected .name offset b)
    else do
      let s ← s.adopt filed opened text
      s.idle offset b
  | .range braces => do
    match ← braces.step limits offset b with
    | .going braces => return .going { s with member := .range braces }
    | .done (low, high) => return .going (s.add (CharSet.range low (max high low)))

def unclosed (filed : List Rule) (s : Brackets) (offset : Nat) : GrammarError :=
  match s.member with
  | .idle => .unclosed .brackets s.opened
  | .comment opened => .unclosed .comment opened
  | .literal opened _ => .unclosed .literal opened
  | .inclusion opened text =>
    if text.isEmpty then .unclosed .name offset
    else
      match s.adopt filed opened text with
      | .error e => e
      | .ok s => .unclosed .brackets s.opened
  | .range braces => braces.unclosed offset

end Brackets

end RuleGraph.Terse
