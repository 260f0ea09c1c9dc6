import RuleGraph.Proofs.Text.Numerals
import RuleGraph.Terse.Compile

/-!
# The terse notation

What a terse source is when nobody reads it: declarations as trees, how trees
are written, and which rules they stand for. None of it knows of states, bytes
ahead or buffers. Only `find?` and `included` are shared with the reader, since
a name means the same to both.

Writing is a relation, because the same declarations are written in many ways.
`Laid` puts items one after the other with gaps in front of them, and is used
three times over: for marks in braces, where gaps are blank, for members in
brackets, and for tokens in a whole source. An item may depend on what follows
it. That is how a gap is required between two names and nowhere else: a name is
written where no letter follows.

A group that nothing stands in contributes no element. So it cannot take a
suffix either, and a tree in which it has one stands for nothing.
-/

namespace RuleGraph.Terse

/-! ## Words, texts and numerals -/

/-- Characters of which each is one byte. -/
def ascii (text : List Char) : Bytes :=
  text.map Char.toUInt8

/-- A name: letters, figures and underscores, one at least. -/
structure Word where
  letters : List Char
  nonempty : letters ≠ []
  admitted : ∀ c ∈ letters, isWordChar c = true

namespace Word

def name (w : Word) : String := String.ofList w.letters

def bytes (w : Word) : Bytes := ascii w.letters

end Word

structure Quote where
  text : Bytes
  unquoted : ∀ b ∈ text, Sign.of b ≠ .quote

def Quote.bytes (q : Quote) : Bytes := ascii ['\''] ++ (q.text ++ ascii ['\''])

/-- A numeral of a number that a word can hold. -/
structure Numeral (base : Nat) extends RuleGraph.Numeral base where
  fits : value ≤ maxWord

def Numeral.bytes {base : Nat} (n : Numeral base) : Bytes := ascii n.digits

/-! ## Trees -/

inductive Mark
  | dash
  | star
  | decimal (n : Numeral 10)
  | hexadecimal (n : Numeral 16)
  | character (q : Quote) (code : Nat) (first : firstCodePoint q.text = some code)

inductive Part
  | letter (c : Char) (admitted : isWordChar c = true)
  | literal (q : Quote)
  | inclusion (w : Word)
  | range (marks : List Mark)

inductive Atom
  | literal (q : Quote)
  | brackets (parts : List Part)
  | inclusion (w : Word)
  | spacing (contract : Spacing)
  | completion
  | decision
  | reference (w : Word)

inductive Suffix
  | optional
  | star
  | plus
  | between (marks : List Mark)
  | named (w : Word)
  | ahead
  | negated

/-- An element with its suffixes. A group holds alternatives, one at least. -/
inductive Phrase
  | atom (a : Atom) (suffixes : List Suffix)
  | group (first : List Phrase) (others : List (List Phrase)) (suffixes : List Suffix)

/-- A name and the alternatives that it is declared as. -/
structure Declaration where
  title : Word
  first : List Phrase
  others : List (List Phrase)

/-! ## Writing -/

def Blanks (source : Bytes) : Prop :=
  ∀ b ∈ source, Sign.of b = .blank

instance (source : Bytes) : Decidable (Blanks source) :=
  List.decidableBAll (Sign.of · = .blank) source

inductive Gap : Bytes → Prop
  | nothing : Gap []
  | blank {b : UInt8} {rest : Bytes} : Sign.of b = .blank → Gap rest → Gap (b :: rest)
  | comment {text rest : Bytes} : (∀ b ∈ text, Sign.of b ≠ .percent) → Gap rest →
      Gap (ascii ['%'] ++ (text ++ (ascii ['%'] ++ rest)))

def Closed (rest : Bytes) : Prop :=
  ∀ b ∈ rest.head?, Sign.of b ≠ .word

instance (rest : Bytes) : Decidable (Closed rest) :=
  Option.decidableForallMem rest.head?

def Ended (base : Nat) (rest : Bytes) : Prop :=
  ∀ b ∈ rest.head?, digitOf? base b = none

instance (base : Nat) (rest : Bytes) : Decidable (Ended base rest) :=
  Option.decidableForallMem rest.head?

/-- Items one after the other, with gaps in front of each and in front of what
comes last. How an item is written may depend on what follows it. -/
inductive Laid {α : Type} (gap : Bytes → Prop) (spelled : α → Bytes → Bytes → Prop)
    (last : Bytes) : List α → Bytes → Prop
  | done {g : Bytes} : gap g → Laid gap spelled last [] (g ++ last)
  | item {g bytes rest : Bytes} {a : α} {items : List α} : gap g → spelled a bytes rest →
      Laid gap spelled last items rest →
      Laid gap spelled last (a :: items) (g ++ (bytes ++ rest))

/-- The bytes of a mark in front of a rest, and below the same for whatever else
is written. -/
def Mark.Spelled : Mark → Bytes → Bytes → Prop
  | dash, bytes, _ => bytes = ascii ['-']
  | star, bytes, _ => bytes = ascii ['*']
  | decimal n, bytes, rest => bytes = n.bytes ∧ Ended 10 rest
  | hexadecimal n, bytes, rest => bytes = ascii ['#'] ++ n.bytes ∧ Ended 16 rest
  | character q _ _, bytes, _ => bytes = q.bytes

def Braced (marks : List Mark) (bytes : Bytes) : Prop :=
  ∃ inner, bytes = ascii ['\x7b'] ++ inner ∧
    Laid Blanks Mark.Spelled (ascii ['\x7d']) marks inner

def Part.Spelled : Part → Bytes → Bytes → Prop
  | letter c _, bytes, _ => bytes = ascii [c]
  | literal q, bytes, _ => bytes = q.bytes
  | inclusion w, bytes, rest => bytes = ascii ['\\'] ++ w.bytes ∧ Closed rest
  | range marks, bytes, _ => Braced marks bytes

def Bracketed (parts : List Part) (bytes : Bytes) : Prop :=
  ∃ inner, bytes = ascii ['['] ++ inner ∧ Laid Gap Part.Spelled (ascii [']']) parts inner

def Atom.Spelled : Atom → Bytes → Bytes → Prop
  | literal q, bytes, _ => bytes = q.bytes
  | brackets parts, bytes, _ => Bracketed parts bytes
  | inclusion w, bytes, rest => bytes = ascii ['\\'] ++ w.bytes ∧ Closed rest
  | spacing contract, bytes, _ => bytes = ascii [contract.sign]
  | completion, bytes, _ => bytes = ascii ['~']
  | decision, bytes, _ => bytes = ascii ['<']
  | reference w, bytes, rest => bytes = w.bytes ∧ Closed rest

def Suffix.Spelled : Suffix → Bytes → Bytes → Prop
  | optional, bytes, _ => bytes = ascii ['?']
  | star, bytes, _ => bytes = ascii ['*']
  | plus, bytes, _ => bytes = ascii ['+']
  | between marks, bytes, _ => Braced marks bytes
  | named w, bytes, rest => bytes = ascii ['@'] ++ w.bytes ∧ Closed rest
  | ahead, bytes, _ => bytes = ascii ['>']
  | negated, bytes, _ => bytes = ascii ['^']

/-- What gaps may stand between. The equals sign belongs to the name. -/
inductive Token
  | title (w : Word)
  | atom (a : Atom)
  | suffix (s : Suffix)
  | opening
  | closing
  | bar

def Token.Spelled : Token → Bytes → Bytes → Prop
  | title w, bytes, _ =>
    ∃ blanks, Blanks blanks ∧ bytes = w.bytes ++ (blanks ++ ascii ['='])
  | atom a, bytes, rest => a.Spelled bytes rest
  | suffix s, bytes, rest => s.Spelled bytes rest
  | opening, bytes, _ => bytes = ascii ['(']
  | closing, bytes, _ => bytes = ascii [')']
  | bar, bytes, _ => bytes = ascii ['|']

mutual

def Phrase.tokens : Phrase → List Token
  | .atom a suffixes => .atom a :: suffixes.map .suffix
  | .group first others suffixes =>
    .opening ::
      (alternative first ++ (alternatives others ++ .closing :: suffixes.map .suffix))

def alternative : List Phrase → List Token
  | [] => []
  | p :: rest => p.tokens ++ alternative rest

def alternatives : List (List Phrase) → List Token
  | [] => []
  | phrases :: others => .bar :: (alternative phrases ++ alternatives others)

end

def Declaration.tokens (d : Declaration) : List Token :=
  .title d.title :: (alternative d.first ++ alternatives d.others)

/-- A source in which the declarations are written one after the other. -/
def Written (declarations : List Declaration) (source : Bytes) : Prop :=
  Laid Gap Token.Spelled [] (declarations.flatMap Declaration.tokens) source

/-! ## Meaning -/

/-- The numbers that have been filled in, and whether the next one is the high
one. -/
structure Places where
  low : Nat
  high : Nat
  second : Bool

namespace Places

def fill (p : Places) (value : Nat) : Places :=
  if p.second then { p with high := value } else { p with low := value }

/-- A dash switches the place, and everything else goes into it. -/
def take (p : Places) : Mark → Places
  | .dash => { p with second := !p.second }
  | .star => p.fill (if p.second then Bound.unlimited else 0)
  | .decimal n => p.fill n.value
  | .hexadecimal n => p.fill n.value
  | .character _ code _ => p.fill code

def of (marks : List Mark) : Places :=
  marks.foldl take ⟨0, 0, false⟩

def bound (p : Places) : Bound := Bound.between p.low p.high

/-- The code points between the two numbers, where a high one below the low one
counts as equal to it. -/
def set (p : Places) : CharSet := CharSet.range p.low (max p.high p.low)

end Places

/-- The characters that a part adds to a class, if what it names has any. -/
def Part.set? (filed : List Rule) : Part → Option CharSet
  | letter c _ => some (CharSet.character c.toNat)
  | literal q => some (CharSet.ofLiteral q.text)
  | inclusion w => (find? filed w.name).bind Rule.charSet?
  | range marks => some (Places.of marks).set

/-- The set of a class whose earlier parts have come to a set. -/
def unionOf? (filed : List Rule) : CharSet → List Part → Option CharSet
  | set, [] => some set
  | set, p :: rest => (p.set? filed).bind fun more => unionOf? filed (set.union more) rest

def Atom.rule? (filed : List Rule) : Atom → Option Rule
  | literal q => some (Rule.literal q.text)
  | brackets parts => (unionOf? filed CharSet.empty parts).map Rule.terminal
  | inclusion w => some (included filed w.name)
  | spacing contract => some (Rule.spacing contract)
  | completion => some Rule.completion
  | decision => some Rule.decision
  | reference w => some (Rule.reference w.name)

/-- The character set of an element, where a reference has that of the rule that
it names. -/
def setOf? (filed : List Rule) (r : Rule) : Option CharSet :=
  match r.shape with
  | .reference target => (find? filed target).bind Rule.charSet?
  | _ => r.charSet?

def Suffix.applied? (filed : List Rule) (r : Rule) : Suffix → Option Rule
  | optional => some (r.repeated Bound.optional)
  | star => some (r.repeated Bound.star)
  | plus => some (r.repeated Bound.plus)
  | between marks => some (r.repeated (Places.of marks).bound)
  | named w => some (r.named w.name)
  | ahead => some r.lookahead
  | negated => (setOf? filed r).map fun set => Rule.terminal set.negate

def appliedAll? (filed : List Rule) : Rule → List Suffix → Option Rule
  | r, [] => some r
  | r, s :: rest => (s.applied? filed r).bind fun r => appliedAll? filed r rest

/-- A body as one rule, unless there is nothing in it. -/
def folded : List Rule → List (List Rule) → Option Rule
  | [], [] => none
  | first, [] => some (Rule.chain first)
  | first, others => some (Rule.selection ((first :: others).map Rule.chain))

mutual

/-- What a phrase contributes to its alternative: one element, or none if it is
a group with nothing in it. -/
def Phrase.elements? (filed : List Rule) : Phrase → Option (List Rule)
  | .atom a suffixes => do
    let r ← a.rule? filed
    let r ← appliedAll? filed r suffixes
    return [r]
  | .group first others suffixes => do
    let first ← elements? filed first
    let others ← others? filed others
    match folded first others with
    | none => if suffixes.isEmpty then some [] else none
    | some r => (appliedAll? filed r suffixes).map fun r => [r]

def elements? (filed : List Rule) : List Phrase → Option (List Rule)
  | [] => some []
  | p :: rest => do
    let these ← p.elements? filed
    let those ← elements? filed rest
    return these ++ those

def others? (filed : List Rule) : List (List Phrase) → Option (List (List Rule))
  | [] => some []
  | phrases :: rest => do
    let these ← elements? filed phrases
    let those ← others? filed rest
    return these :: those

end

def Declaration.rule? (filed : List Rule) (d : Declaration) : Option Rule := do
  let first ← elements? filed d.first
  let others ← others? filed d.others
  return ((folded first others).getD (Rule.sequence [])).named d.title.name

/-- The declared rules, each of which the later ones may include. -/
def rules? : List Rule → List Declaration → Option (List Rule)
  | _, [] => some []
  | filed, d :: rest => do
    let r ← d.rule? filed
    let rs ← rules? (filed ++ [r]) rest
    return r :: rs

/-! ## Limits that suffice -/

section Limits

variable (limits : Limits)

def Word.Fits (w : Word) : Prop := w.letters.length ≤ limits.text

def Quote.Fits (q : Quote) : Prop := q.text.length ≤ limits.text

def Mark.Fits : Mark → Prop
  | dash | star | decimal _ | hexadecimal _ => True
  | character q _ _ => q.Fits limits

def Part.Fits : Part → Prop
  | letter _ _ => True
  | literal q => q.Fits limits
  | inclusion w => w.Fits limits
  | range marks => ∀ m ∈ marks, m.Fits limits

def Atom.Fits : Atom → Prop
  | literal q => q.Fits limits
  | brackets parts => ∀ p ∈ parts, p.Fits limits
  | inclusion w | reference w => w.Fits limits
  | spacing _ | completion | decision => True

def Suffix.Fits : Suffix → Prop
  | between marks => ∀ m ∈ marks, m.Fits limits
  | named w => w.Fits limits
  | optional | star | plus | ahead | negated => True

mutual

/-- Whether a phrase inside so many groups keeps to the limits. -/
def Phrase.Fits : Nat → Phrase → Prop
  | _, .atom a suffixes => a.Fits limits ∧ ∀ s ∈ suffixes, s.Fits limits
  | nesting, .group first others suffixes =>
    nesting < limits.nesting ∧ others.length < limits.alternatives ∧
      first.length ≤ limits.sequence ∧ Fits (nesting + 1) first ∧
      OthersFit (nesting + 1) others ∧ ∀ s ∈ suffixes, s.Fits limits

def Fits : Nat → List Phrase → Prop
  | _, [] => True
  | nesting, p :: rest => p.Fits nesting ∧ Fits nesting rest

def OthersFit : Nat → List (List Phrase) → Prop
  | _, [] => True
  | nesting, phrases :: rest =>
    phrases.length ≤ limits.sequence ∧ Fits nesting phrases ∧ OthersFit nesting rest

end

def Declaration.Fits (d : Declaration) : Prop :=
  d.title.Fits limits ∧ d.others.length < limits.alternatives ∧
    d.first.length ≤ limits.sequence ∧ Terse.Fits limits 0 d.first ∧
    OthersFit limits 0 d.others

end Limits

end RuleGraph.Terse
