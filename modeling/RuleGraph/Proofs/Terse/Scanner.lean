import RuleGraph.Proofs.Terse.Numerals

/-!
# A scanner with a cursor

The reader of terse sources takes a byte at a time and never goes back. The same
sources can be read by loops that share one cursor: a loop returns with the
cursor on the byte that has ended it, the caller steps past that byte, and a
bare name that turns out to be declared is read a second time. Between them the
loops share registers for the bytes of a text, the numbers of a range and the
members of a class, and what one of them leaves there another one takes.

This file has such a scanner. Two things can go wrong with it that cannot go
wrong with the reader. A byte may be asked for where the source has none, and a
round of a loop may end with the cursor where it was or in front of that. Both
are outcomes of their own here, so whether they occur is a question that a
theorem can answer.
-/

namespace RuleGraph.Terse

/-- Why a scanner stops before the end of a source. -/
inductive Stop
  | told (e : GrammarError)
  /-- A byte was asked for where there is none. -/
  | outside
  /-- A round of a loop has not moved the cursor on. -/
  | endless
deriving DecidableEq, Repr

abbrev Scan (α : Type) := Except Stop α

/-- What a part of the scanner that needs no cursor comes to. -/
def told {α : Type} (outcome : Except GrammarError α) : Scan α :=
  outcome.mapError .told

/-- Where the scanner stands, and the registers that its loops share. -/
structure Scanner where
  pos : Nat
  low : Nat
  high : Nat
  /-- Whether the next number is the high one. -/
  second : Bool
  text : Text
  set : CharSet
  filed : List Rule

/-- How a round of a loop ends: the next one is done from here, or the loop is
over. -/
inductive Turn (σ ρ : Type) where
  | next (c : Scanner) (state : σ)
  | leave (result : ρ)

namespace Scanner

section Registers

variable (c : Scanner)

def advance : Scanner :=
  { c with pos := c.pos + 1 }

/-- The cursor one byte further back. It must not stand on the first one. -/
def back : Scan Scanner :=
  match c.pos with
  | 0 => .error .outside
  | pos + 1 => .ok { c with pos := pos }

def pushText (limits : Limits) (b : UInt8) : Scan Scanner := do
  let text ← told (push limits c.text b)
  return { c with text := text }

def withoutText : Scanner :=
  { c with text := #[] }

def withoutNumbers : Scanner :=
  { c with low := 0, high := 0, second := false }

def setNumber (value : Nat) : Scanner :=
  if c.second then { c with high := value } else { c with low := value }

def unite (set : CharSet) : Scanner :=
  { c with set := c.set.union set }

end Registers

section Loops

variable (limits : Limits) (code : Bytes)

def byte (c : Scanner) : Scan UInt8 :=
  match code[c.pos]? with
  | some b => .ok b
  | none => .error .outside

/-- The byte at the cursor is not one that this mode knows. -/
def unexpected {α : Type} (mode : Mode) (c : Scanner) : Scan α := do
  let b ← c.byte code
  .error (.told (.unexpected mode c.pos b))

/-- The source ends, or goes on with a byte that this mode does not know, where
something of this mode should begin. -/
def missing {α : Type} (mode : Mode) (c : Scanner) : Scan α :=
  if code.length ≤ c.pos then .error (.told (.unclosed mode c.pos))
  else c.unexpected code mode

/-- Takes one turn for each byte from the cursor on, until a turn leaves the loop
or the source ends. -/
def loop {σ ρ : Type} (turn : Scanner → σ → UInt8 → Scan (Turn σ ρ))
    (ending : Scanner → σ → Scan ρ) (c : Scanner) (state : σ) : Scan ρ :=
  if c.pos < code.length then do
    let b ← c.byte code
    match ← turn c state b with
    | .leave result => return result
    | .next c' state' =>
      if c.pos < c'.pos then loop turn ending c' state' else .error .endless
  else ending c state
termination_by code.length - c.pos

/-- From the percent sign that opens a comment to the one that closes it. -/
def comment (c : Scanner) : Scan Scanner :=
  loop code
    (fun c _ b => .ok (if Sign.of b = .percent then .leave c else .next c.advance ()))
    (fun _ _ => .error (.told (.unclosed .comment c.pos))) c.advance ()

/-- From quote to quote. The bytes between them are collected. -/
def literal (c : Scanner) : Scan Scanner :=
  loop code
    (fun c _ b =>
      if Sign.of b = .quote then .ok (.leave c)
      else do
        let c ← c.pushText limits b
        return .next c.advance ())
    (fun _ _ => .error (.told (.unclosed .literal c.pos))) c.advance ()

/-- Collects a name, and leaves the cursor on its last byte. -/
def readText (c : Scanner) : Scan Scanner := do
  let behind ← loop code
    (fun c _ b =>
      if Sign.of b = .word then do
        let c ← c.pushText limits b
        return .next c.advance ()
      else .ok (.leave c))
    (fun c _ => .ok c) c ()
  if behind.pos = c.pos then behind.missing code .name else behind.back

/-- Collects a name and takes it out of its register. -/
def name (c : Scanner) : Scan (String × Scanner) := do
  let c ← c.readText limits code
  return (nameOf c.text, c.withoutText)

/-- A numeral without its sign. The cursor is left on the last digit. -/
def number (radix : Radix) (c : Scanner) : Scan (Nat × Scanner) := do
  let (value, behind) ← loop code
    (fun c value b =>
      match digitOf? radix.base b with
      | none => .ok (.leave (value, c))
      | some d =>
        if value * radix.base + d ≤ maxWord then
          .ok (.next c.advance (value * radix.base + d))
        else c.unexpected code radix.mode)
    (fun c value => .ok (value, c)) c 0
  if behind.pos = c.pos then behind.missing code radix.mode
  else return (value, ← behind.back)

def rangeTurn (c : Scanner) (b : UInt8) : Scan (Turn Unit Scanner) :=
  match Sign.of b with
  | .blank => .ok (.next c.advance ())
  | .closeBrace => .ok (.leave c)
  | .quote => do
    let behind ← c.literal limits code
    match firstCodePoint behind.text.toList with
    | some value => return .next (behind.withoutText.setNumber value).advance ()
    | none => .error (.told (.unexpected .braces c.pos b))
  | .hash => do
    let (value, c) ← c.advance.number code .sixteen
    return .next (c.setNumber value).advance ()
  | .star =>
    .ok (.next (c.setNumber (if c.second then Bound.unlimited else 0)).advance ())
  | .dash => .ok (.next { c with second := !c.second }.advance ())
  | _ =>
    if (digitOf? 10 b).isSome then do
      let (value, c) ← c.number code .ten
      return .next (c.setNumber value).advance ()
    else c.unexpected code .braces

/-- From brace to brace. The numbers between them are left in their registers. -/
def range (c : Scanner) : Scan Scanner :=
  loop code (fun c _ b => c.rangeTurn limits code b)
    (fun _ _ => .error (.told (.unclosed .braces c.pos))) c.withoutNumbers.advance ()

def bracketsTurn (c : Scanner) (b : UInt8) : Scan (Turn Unit Scanner) :=
  match Sign.of b with
  | .blank => .ok (.next c.advance ())
  | .closeBracket => .ok (.leave c)
  | .percent => do
    let c ← c.comment code
    return .next c.advance ()
  | .openBrace => do
    let c ← c.range limits code
    let read := CharSet.range c.low (max c.high c.low)
    return .next (c.withoutNumbers.unite read).advance ()
  | .backslash => do
    let (name, behind) ← c.advance.name limits code
    match find? behind.filed name with
    | none => .error (.told (.undefined name))
    | some r =>
      match r.charSet? with
      | none => .error (.told (.noCharSet c.pos))
      | some set => return .next (behind.unite set).advance ()
  | .quote => do
    let c ← c.literal limits code
    return .next (c.withoutText.unite (CharSet.ofLiteral c.text.toList)).advance ()
  | .word => .ok (.next (c.unite (CharSet.character b.toNat)).advance ())
  | _ => c.unexpected code .brackets

/-- From bracket to bracket. The members of the class are added to the ones in
their register. -/
def brackets (c : Scanner) : Scan Scanner :=
  loop code (fun c _ b => c.bracketsTurn limits code b)
    (fun _ _ => .error (.told (.unclosed .brackets c.pos))) c.advance ()

/-- Whether an equals sign follows the name that the cursor stands at the end of,
perhaps behind blanks. -/
def declares (c : Scanner) : Scan Bool :=
  if c.pos + 1 ≤ code.length then
    .ok (((code.drop (c.pos + 1)).find? (Sign.of · ≠ .blank)).any (Sign.of · = .equals))
  else .error .outside

/-- The element that a suffix at an offset is about. -/
def operand (s : Scope) (offset : Nat) (b : UInt8) : Scan Rule :=
  match s.current with
  | some r => .ok r
  | none => .error (.told (.unexpected .rule offset b))

/-- One turn of the loop through a body or a group, where `group?` is the loop
through a group inside of it, if one may be opened. -/
def bodyTurn (depth : Nat) (group? : Option (Scanner → Scan (Scanner × Option Rule)))
    (c : Scanner) (s : Scope) (b : UInt8) : Scan (Turn Scope (Scanner × Option Rule)) :=
  let put := fun (c : Scanner) r => do
    let s ← told (s.put limits r)
    return Turn.next c.advance s
  let replace := fun (c : Scanner) r => Turn.next c.advance { s with current := some r }
  let leave := fun (c : Scanner) => do
    let folded ← told (s.fold limits)
    return Turn.leave (c, folded)
  match Sign.of b with
  | .blank => .ok (.next c.advance s)
  | .dash => if depth = 0 then leave c else c.unexpected code .rule
  | .percent => do
    let c ← c.comment code
    return .next c.advance s
  | .quote => do
    let c ← c.literal limits code
    put c.withoutText (Rule.literal c.text.toList)
  | .openBracket => do
    let c ← c.brackets limits code
    put { c with set := CharSet.empty } (Rule.terminal c.set)
  | .backslash => do
    let (name, c) ← c.advance.name limits code
    put c (included c.filed name)
  | .openBrace => do
    let behind ← c.range limits code
    let r ← operand s c.pos b
    return replace behind.withoutNumbers
      (r.repeated (Bound.between behind.low behind.high))
  | .atSign => do
    let (name, behind) ← c.advance.name limits code
    let r ← operand s c.pos b
    return replace behind (r.named name)
  | .question => return replace c ((← operand s c.pos b).repeated Bound.optional)
  | .star => return replace c ((← operand s c.pos b).repeated Bound.star)
  | .plus => return replace c ((← operand s c.pos b).repeated Bound.plus)
  | .greater => return replace c (← operand s c.pos b).lookahead
  | .spacing contract => put c (Rule.spacing contract)
  | .tilde => put c Rule.completion
  | .less => put c Rule.decision
  | .openGroup =>
    match group? with
    | none => .error (.told (.exceeds .nesting limits.nesting))
    | some group => do
      let s ← told (s.settle limits)
      match ← group c.advance with
      | (c, none) => return .next c.advance s
      | (c, some r) => do
        let s ← told (s.put limits r)
        return .next c.advance s
  | .closeGroup => if 0 < depth then leave c else c.unexpected code .rule
  | .bar => do
    let s ← told (s.alternate limits)
    return .next c.advance s
  | .caret => do
    let set ← told (charSetOf c.filed c.pos s.current)
    return replace c (Rule.terminal set.negate)
  | .ampersand => do
    let set ← told (charSetOf c.filed c.pos s.current)
    return .next { c with set := set }.advance { s with current := none }
  | .word => do
    let (name, behind) ← c.name limits code
    let declared ← if depth = 0 then behind.declares code else .ok false
    if declared then leave { behind with pos := c.pos }
    else put behind (Rule.reference name)
  | .equals | .closeBracket | .closeBrace | .hash | .other => c.unexpected code .rule

/-- Through a body, or through a group if the depth is not zero. The cursor is
left on the parenthesis that closes the group, or where the body ends: on a
dash, at the beginning of the next declaration, or behind the source. -/
def body (depth : Nat) (c : Scanner) : Scan (Scanner × Option Rule) :=
  loop code
    (bodyTurn limits code depth
      (if depth < limits.nesting then some fun c => body (depth + 1) c else none))
    (fun c' s =>
      if 0 < depth then .error (.told (.unclosed .group (c.pos - 1)))
      else do
        let folded ← told (s.fold limits)
        return (c', folded))
    c Scope.empty
termination_by limits.nesting - depth

def sourceTurn (c : Scanner) (start : Option Nat) (b : UInt8) :
    Scan (Turn (Option Nat) Scanner) :=
  match Sign.of b, start with
  | .blank, _ | .dash, _ => .ok (.next c.advance start)
  | .percent, _ => do
    let c ← c.comment code
    return .next c.advance start
  | .equals, some _ => do
    let name := nameOf c.text
    let (c, folded) ← c.withoutText.advance.body limits code 0
    let filed ← told (file limits c.filed ((folded.getD (Rule.sequence [])).named name))
    -- the byte that has ended the body is read again
    return .next { c with filed := filed } none
  | .word, none => do
    let behind ← c.readText limits code
    return .next behind.advance (some c.pos)
  | _, _ => c.unexpected code .topLevel

/-- Through a source from its beginning. Of the registers only the declared rules
are taken over. -/
def source (c : Scanner) : Scan (List Rule) := do
  let c ← loop code (sourceTurn limits code)
    (fun c start =>
      match start with
      | some offset => .error (.told (.unclosed .topLevel offset))
      | none => .ok c)
    { c.withoutNumbers with pos := 0, text := #[], set := CharSet.empty } none
  return c.filed

end Loops

end Scanner

end RuleGraph.Terse
