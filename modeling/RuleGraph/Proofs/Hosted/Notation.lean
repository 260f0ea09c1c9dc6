import RuleGraph.Hosted.Label
import RuleGraph.Rule.Basic
import RuleGraph.Proofs.Overlay.Stretches
import RuleGraph.Overlay.Printed
import RuleGraph.Proofs.Text.Numerals
import RuleGraph.Proofs.Text.Utf8

/-!
# The hosted notation

What a hosted source is when nobody reads it: a document as a tree that knows
its white space. Three things follow from such a tree without any search. One is
its bytes. One is the forest of stretches that belongs to it, since every part
knows how long it is. And one is the list of rules that it stands for.

The tree is no wider than the notation: a name holds only what a name may hold,
a string has no quote in it, and so on. Two things the notation does not
promise. A text between quotes need not be text, and a numeral may be too large
for a word. These are the `leaves` of a document, and where every leaf is sound
the rules make sense.
-/

namespace RuleGraph.Hosted

/-! ## Runs, names and numerals -/

/-- Bytes of one kind. -/
structure Run (kind : UInt8 → Bool) where
  bytes : Bytes
  all_kind : ∀ b ∈ bytes, kind b = true

abbrev Indent := Run isIndent

abbrev Pad := Run isBlank

/-- A sign that may be there or not. -/
def sign (present : Bool) (b : UInt8) : Bytes :=
  if present then [b] else []

def isLetter (c : Char) : Bool :=
  ('A' ≤ c && c ≤ 'Z') || c == '_' || ('a' ≤ c && c ≤ 'z')

def isLetterOrDigit (c : Char) : Bool :=
  isLetter c || ('0' ≤ c && c ≤ '9')

structure Name where
  quiet : Bool
  first : Char
  others : List Char
  first_letter : isLetter first = true
  others_word : ∀ c ∈ others, isLetterOrDigit c = true

namespace Name

def text (n : Name) : List Char :=
  if n.quiet then quietSign :: n.first :: n.others else n.first :: n.others

def bytes (n : Name) : Bytes := utf8 n.text

end Name

/-- What a document may have that is not as it should be: a quoted text, or a
number. -/
inductive Leaf
  | text (bytes : Bytes)
  | number (value : Nat)

def Leaf.Sound : Leaf → Prop
  | .text bytes => ∃ text, bytes = utf8 text
  | .number value => value ≤ maxWord

def Sound (leaves : List Leaf) : Prop :=
  ∀ leaf ∈ leaves, leaf.Sound

/-- A stretch around the bytes at an offset. -/
def around (label : Label) (offset : Nat) (bytes : Bytes) (inner : List (Stretch Label)) :
    Stretch Label :=
  .node label offset (offset + bytes.length) inner

def Name.stretch (offset : Nat) (n : Name) : Stretch Label :=
  around .name offset n.bytes []

/-! ## Captures -/

/-- The name that a part is captured under, if it is. -/
abbrev Capture := Option Name

namespace Capture

def bytes : Capture → Bytes
  | none => []
  | some n => 0x40 :: n.bytes

def stretches (offset : Nat) : Capture → List (Stretch Label)
  | none => []
  | some n => [around .capture offset (bytes (some n)) [n.stretch (offset + 1)]]

def name (r : Rule) : Capture → Rule
  | none => r
  | some n => r.named (String.ofList n.text)

end Capture

/-! ## Sets -/

/-- A character, in quotes or by its number. -/
inductive Code
  | quoted (glyph : Utf8.Glyph) (unquoted : glyph.code ≠ 0x27)
  | point (digits : Numeral 16)

namespace Code

def bytes : Code → Bytes
  | quoted glyph _ => 0x27 :: (glyph.bytes ++ [0x27])
  | point digits => 0x55 :: 0x2B :: digits.bytes

def label : Code → Label
  | quoted _ _ => .symbol
  | point _ => .codePoint

def stretch (offset : Nat) (c : Code) : Stretch Label :=
  around .literal offset c.bytes [around c.label offset c.bytes []]

def leaves : Code → List Leaf
  | quoted glyph _ => [.text glyph.bytes]
  | point digits => [.number digits.value]

def value : Code → Nat
  | quoted glyph _ => glyph.code
  | point digits => digits.value

end Code

/-- The classes that have a sign of their own. -/
inductive Common
  | wildcard | letter | upper | lower | hex | octal | binary | digit | whitespace

namespace Common

def sign : Common → Bytes
  | wildcard => [0x24]
  | letter => [0x5C, 0x61]
  | upper => [0x5C, 0x75]
  | lower => [0x5C, 0x6C]
  | hex => [0x5C, 0x78]
  | octal => [0x5C, 0x6F]
  | binary => [0x5C, 0x62]
  | digit => [0x5C, 0x64]
  | whitespace => [0x5C, 0x73]

def label : Common → Label
  | wildcard => .wildcard
  | letter => .letter
  | upper => .upper
  | lower => .lower
  | hex => .hex
  | octal => .octal
  | binary => .binary
  | digit => .digit
  | whitespace => .whitespace

def set : Common → CharSet
  | wildcard => CharSet.wildcard
  | letter => CharSet.letters
  | upper => CharSet.upperLetters
  | lower => CharSet.lowerLetters
  | hex => CharSet.hexDigits
  | octal => CharSet.octalDigits
  | binary => CharSet.binaryDigits
  | digit => CharSet.digits
  | whitespace => CharSet.whitespace

end Common

/-- Characters that cannot be seen. -/
inductive Hidden
  | tab | feed | ret

namespace Hidden

def sign : Hidden → UInt8
  | tab => 0x74
  | feed => 0x6E
  | ret => 0x72

def code : Hidden → Nat
  | tab => 0x09
  | feed => 0x0A
  | ret => 0x0D

end Hidden

inductive Class
  | common (k : Common)
  | hidden (h : Hidden)
  | range (low high : Code)
  | single (c : Code)

namespace Class

def bytes : Class → Bytes
  | common k => k.sign
  | hidden h => [0x5C, h.sign]
  | range low high => low.bytes ++ 0x2D :: high.bytes
  | single c => c.bytes

def label : Class → Label
  | common k => k.label
  | hidden _ => .shortname
  | range _ _ => .range
  | single _ => .literal

def inner (offset : Nat) : Class → List (Stretch Label)
  | common _ | hidden _ => []
  | range low high => [low.stretch offset, high.stretch (offset + low.bytes.length + 1)]
  | single c => [around c.label offset c.bytes []]

def stretch (offset : Nat) (c : Class) : Stretch Label :=
  around c.label offset c.bytes (c.inner offset)

def leaves : Class → List Leaf
  | common _ | hidden _ => []
  | range low high => low.leaves ++ high.leaves
  | single c => c.leaves

def set : Class → CharSet
  | common k => k.set
  | hidden h => CharSet.character h.code
  | range low high => CharSet.range low.value high.value
  | single c => CharSet.character c.value

end Class

structure Ranges where
  negated : Bool
  cls : Class

namespace Ranges

def bytes (r : Ranges) : Bytes := sign r.negated 0x5E ++ r.cls.bytes

def inner (offset : Nat) (r : Ranges) : List (Stretch Label) :=
  (if r.negated then [around .not offset [0x5E] []] else []) ++
    [r.cls.stretch (offset + (sign r.negated 0x5E).length)]

def stretch (offset : Nat) (r : Ranges) : Stretch Label :=
  around .ranges offset r.bytes (r.inner offset)

def leaves (r : Ranges) : List Leaf := r.cls.leaves

def set (r : Ranges) : CharSet :=
  if r.negated then r.cls.set.negate else r.cls.set

end Ranges

/-! ## Items with pads behind them -/

section Padded

variable {α : Type}

def paddedBytes (bytes : α → Bytes) : List (α × Pad) → Bytes
  | [] => []
  | (a, pad) :: rest => bytes a ++ (pad.bytes ++ paddedBytes bytes rest)

def paddedStretches (bytes : α → Bytes) (stretch : Nat → α → Stretch Label)
    (offset : Nat) :
    List (α × Pad) → List (Stretch Label)
  | [] => []
  | (a, pad) :: rest =>
    stretch offset a ::
      paddedStretches bytes stretch (offset + (bytes a).length + pad.bytes.length) rest

def paddedLeaves (leaves : α → List Leaf) (items : List (α × Pad)) : List Leaf :=
  items.flatMap fun item => leaves item.1

end Padded

/-! ## Terminals -/

inductive Figure
  | ranges (r : Ranges)
  | name (n : Name)

namespace Figure

def bytes : Figure → Bytes
  | ranges r => r.bytes
  | name n => n.bytes

def label : Figure → Label
  | ranges _ => .ranges
  | name _ => .name

def inner (offset : Nat) : Figure → List (Stretch Label)
  | ranges r => r.inner offset
  | name _ => []

def stretch (offset : Nat) (f : Figure) : Stretch Label :=
  around f.label offset f.bytes (f.inner offset)

def leaves : Figure → List Leaf
  | ranges r => r.leaves
  | name _ => []

def set? : Figure → Option CharSet
  | ranges r => some r.set
  | name _ => none

/-- A name among figures refers to a rule and leaves no token. -/
def reference? : Figure → Option Rule
  | ranges _ => none
  | name n => some (Rule.reference (String.ofList
      (if n.quiet then n.text else quietSign :: n.text)))

end Figure

structure Figures where
  before : Pad
  members : List (Figure × Pad)
  capture : Capture

namespace Figures

def bytes (f : Figures) : Bytes :=
  0x7B ::
    (f.before.bytes ++ (paddedBytes Figure.bytes f.members ++ 0x7D :: f.capture.bytes))

def inner (offset : Nat) (f : Figures) : List (Stretch Label) :=
  paddedStretches Figure.bytes Figure.stretch (offset + 1 + f.before.bytes.length)
    f.members ++ f.capture.stretches (offset + 1 + f.before.bytes.length +
      (paddedBytes Figure.bytes f.members).length + 1)

def leaves (f : Figures) : List Leaf := paddedLeaves Figure.leaves f.members

/-- The references, and behind them all sets as one. -/
def alternatives (f : Figures) : List Rule :=
  let figures := f.members.map Prod.fst
  let sets := figures.filterMap Figure.set?
  figures.filterMap Figure.reference? ++
    if sets = [] then [] else [Rule.terminal (sets.foldl CharSet.union CharSet.empty)]

def rule (f : Figures) : Rule :=
  Capture.name (match f.alternatives with
    | [] => Rule.terminal CharSet.empty
    | [r] => r
    | rs => Rule.selection rs) f.capture

end Figures

inductive Terminal
  | ranges (r : Ranges)
  | figures (f : Figures)
  | spacing (s : Spacing)

def spacingLabel : Spacing → Label
  | .mayIndent => .gap
  | .mayBreak => .pad
  | .mustIndent => .indent
  | .mustSeparate => .separator
  | .mustWrap => .wrap

namespace Terminal

def bytes : Terminal → Bytes
  | ranges r => r.bytes
  | figures f => f.bytes
  | spacing s => utf8 [s.sign]

def inner (offset : Nat) : Terminal → Stretch Label
  | ranges r => r.stretch offset
  | figures f => around .figures offset f.bytes (f.inner offset)
  | spacing s => around .pattern offset (utf8 [s.sign])
      [around (spacingLabel s) offset (utf8 [s.sign]) []]

def leaves : Terminal → List Leaf
  | ranges r => r.leaves
  | figures f => f.leaves
  | spacing _ => []

/-- The rule as it is written. -/
def written : Terminal → Rule
  | ranges r => Rule.terminal r.set
  | figures f => f.rule
  | spacing s => Rule.spacing s

/-- A set of one character is the text of that character, under whatever quiet
name. -/
def rule (t : Terminal) : Rule :=
  match t.written.shape with
  | .terminal ⟨[⟨code, high⟩]⟩ =>
    if code = high ∧ code.isValidChar then Rule.string [Char.ofNat code] else t.written
  | _ => t.written

end Terminal

/-! ## Occurrences -/

inductive Occurrence
  | plus
  | star
  | qmark
  | exactly (n : Numeral 10)
  | atLeast (n : Numeral 10)
  | between (n m : Numeral 10)

namespace Occurrence

def bytes : Occurrence → Bytes
  | plus => [0x2B]
  | star => [0x2A]
  | qmark => [0x3F]
  | exactly n => 0x7B :: (n.bytes ++ [0x7D])
  | atLeast n => 0x7B :: (n.bytes ++ [0x2D, 0x7D])
  | between n m => 0x7B :: (n.bytes ++ 0x2D :: (m.bytes ++ [0x7D]))

def inner (offset : Nat) : Occurrence → List (Stretch Label)
  | plus => [around .plus offset [0x2B] []]
  | star => [around .star offset [0x2A] []]
  | qmark => [around .qmark offset [0x3F] []]
  | exactly n => [around .least (offset + 1) n.bytes []]
  | atLeast n => [around .least (offset + 1) n.bytes [],
      around .upTo (offset + 1 + n.bytes.length) [0x2D] []]
  | between n m => [around .least (offset + 1) n.bytes [],
      around .upTo (offset + 1 + n.bytes.length) [0x2D] [],
      around .most (offset + 1 + n.bytes.length + 1) m.bytes []]

def stretch (offset : Nat) (o : Occurrence) : Stretch Label :=
  around .occurrence offset o.bytes (o.inner offset)

def leaves : Occurrence → List Leaf
  | plus | star | qmark => []
  | exactly n | atLeast n => [.number n.value]
  | between n m => [.number n.value, .number m.value]

def bound : Occurrence → Bound
  | plus => ⟨1, Bound.unlimited⟩
  | star => ⟨0, Bound.unlimited⟩
  | qmark => ⟨0, 1⟩
  | exactly n => ⟨n.value, n.value⟩
  | atLeast n => ⟨n.value, Bound.unlimited⟩
  | between n m => ⟨n.value, max n.value m.value⟩

end Occurrence

/-! ## Selections -/

inductive Bracket
  | round
  | square

namespace Bracket

def label : Bracket → Label
  | round => .group
  | square => .option

def opening : Bracket → UInt8
  | round => 0x28
  | square => 0x5B

def closing : Bracket → UInt8
  | round => 0x29
  | square => 0x5D

/-- What is in square brackets may be there or not, whatever bound follows. -/
def bound (written : Bound) : Bracket → Bound
  | round => written
  | square => ⟨0, 1⟩

end Bracket

mutual

inductive Form
  | distinction
  | completion
  | nested (bracket : Bracket) (before : Pad) (selection : Selection) (after : Pad)
      (capture : Capture)
  | terminal (t : Terminal)
  | string (text : Bytes) (unquoted : ∀ b ∈ text, b ≠ 0x27)
  | ref (name : Name) (capture : Capture)

inductive Element
  | mk (form : Form) (occurrence : Option Occurrence)

/-- Elements one after the other, one at least. -/
inductive Sequence
  | last (e : Element)
  | more (e : Element) (gap : Indent) (rest : Sequence)

/-- Sequences beside one another, one at least. -/
inductive Selection
  | last (s : Sequence)
  | more (s : Sequence) (before after : Indent) (rest : Selection)

end

mutual

def Form.bytes : Form → Bytes
  | .distinction => [0x3C]
  | .completion => [0x7E]
  | .nested bracket before selection after capture =>
    bracket.opening :: (before.bytes ++ (selection.bytes ++ (after.bytes ++
      bracket.closing :: capture.bytes)))
  | .terminal t => t.bytes
  | .string text _ => 0x27 :: (text ++ [0x27])
  | .ref name capture => name.bytes ++ capture.bytes

def Element.bytes : Element → Bytes
  | .mk form none => form.bytes
  | .mk form (some o) => form.bytes ++ o.bytes

def Sequence.bytes : Sequence → Bytes
  | .last e => e.bytes
  | .more e gap rest => e.bytes ++ (gap.bytes ++ rest.bytes)

def Selection.bytes : Selection → Bytes
  | .last s => s.bytes
  | .more s before after rest =>
    s.bytes ++ (before.bytes ++ 0x7C :: (after.bytes ++ rest.bytes))

end

def Form.label : Form → Label
  | .distinction => .distinction
  | .completion => .completion
  | .nested bracket _ _ _ _ => bracket.label
  | .terminal _ => .terminal
  | .string _ _ => .string
  | .ref _ _ => .ref

mutual

def Form.inner (offset : Nat) : Form → List (Stretch Label)
  | .distinction | .completion | .string _ _ => []
  | .nested _ before selection after capture =>
    around .selection (offset + 1 + before.bytes.length) selection.bytes
        (selection.inner (offset + 1 + before.bytes.length)) ::
      capture.stretches (offset + 1 + before.bytes.length + selection.bytes.length +
        after.bytes.length + 1)
  | .terminal t => [t.inner offset]
  | .ref name capture =>
    name.stretch offset :: capture.stretches (offset + name.bytes.length)

def Element.inner (offset : Nat) : Element → List (Stretch Label)
  | .mk form none => [around form.label offset form.bytes (form.inner offset)]
  | .mk form (some o) =>
    [around form.label offset form.bytes (form.inner offset),
      o.stretch (offset + form.bytes.length)]

def Sequence.inner (offset : Nat) : Sequence → List (Stretch Label)
  | .last e => [around .element offset e.bytes (e.inner offset)]
  | .more e gap rest =>
    around .element offset e.bytes (e.inner offset) ::
      rest.inner (offset + e.bytes.length + gap.bytes.length)

def Selection.inner (offset : Nat) : Selection → List (Stretch Label)
  | .last s => [around .sequence offset s.bytes (s.inner offset)]
  | .more s before after rest =>
    around .sequence offset s.bytes (s.inner offset) ::
      rest.inner (offset + s.bytes.length + before.bytes.length + 1 + after.bytes.length)

end

mutual

def Form.leaves : Form → List Leaf
  | .distinction | .completion | .ref _ _ => []
  | .nested _ _ selection _ _ => selection.leaves
  | .terminal t => t.leaves
  | .string text _ => [.text text]

def Element.leaves : Element → List Leaf
  | .mk form none => form.leaves
  | .mk form (some o) => form.leaves ++ o.leaves

def Sequence.leaves : Sequence → List Leaf
  | .last e => e.leaves
  | .more e _ rest => e.leaves ++ rest.leaves

def Selection.leaves : Selection → List Leaf
  | .last s => s.leaves
  | .more s _ _ rest => s.leaves ++ rest.leaves

end

/-! ## What it stands for -/

/-- Where the last distinction is among elements, `none` being a distinction:
how many rules stand before it. -/
def cutOf : List (Option Rule) → Option Nat
  | [] => none
  | none :: rest => some ((cutOf rest).getD 0)
  | some _ :: rest => (cutOf rest).map (· + 1)

/-- The rules in order, with the last distinction as the cut. A single rule is
not a sequence. -/
def series (elements : List (Option Rule)) : Rule :=
  match elements.filterMap id with
  | [r] => r
  | rules => Rule.sequenceCut rules (cutOf elements)

/-- One of the rules. A single rule is not a selection. -/
def choice : List Rule → Rule
  | [r] => r
  | rules => Rule.selection rules

mutual

/-- The rule of a form with the bound that is written behind it. A distinction
has none, and a completion goes to its end once, whatever bound is written. -/
def Form.rule? (written : Bound) : Form → Option Rule
  | .distinction => none
  | .completion => some Rule.completion
  | .nested bracket _ selection _ capture =>
    some ((Capture.name (choice selection.rules) capture).repeated
      (bracket.bound written))
  | .terminal t => some (t.rule.repeated written)
  | .string text _ => some ((Rule.literal text).repeated written)
  | .ref name capture =>
    some
      ((Capture.name (Rule.reference (String.ofList name.text)) capture).repeated written)

def Element.rule? : Element → Option Rule
  | .mk form none => form.rule? Bound.once
  | .mk form (some o) => form.rule? o.bound

def Sequence.rules : Sequence → List (Option Rule)
  | .last e => [e.rule?]
  | .more e _ rest => e.rule? :: rest.rules

def Selection.rules : Selection → List Rule
  | .last s => [series s.rules]
  | .more s _ _ rest => series s.rules :: rest.rules

end

/-! ## Documents -/

inductive Member
  | comment (text : Bytes) (open_ : ∀ b ∈ text, b ≠ 0x25)
  | rule (name : Name) (before after : Indent) (body : Selection)

namespace Member

def bytes : Member → Bytes
  | comment text _ => 0x25 :: (text ++ [0x25])
  | rule name before after body =>
    name.bytes ++ (before.bytes ++ 0x3D :: (after.bytes ++ body.bytes))

def inner (offset : Nat) : Member → Stretch Label
  | comment text h => around .comment offset (comment text h).bytes []
  | rule name before after body =>
    let start := offset + name.bytes.length + before.bytes.length + 1 + after.bytes.length
    around .rule offset (rule name before after body).bytes
      [name.stretch offset, around .selection start body.bytes (body.inner start)]

def stretch (offset : Nat) (m : Member) : Stretch Label :=
  around .member offset m.bytes [m.inner offset]

def leaves : Member → List Leaf
  | comment _ _ => []
  | rule _ _ _ body => body.leaves

def rule? : Member → Option Rule
  | comment _ _ => none
  | rule name _ _ body => some ((choice body.rules).named (String.ofList name.text))

end Member

structure Document where
  before : Pad
  members : List (Member × Pad)

namespace Document

def bytes (d : Document) : Bytes :=
  d.before.bytes ++ paddedBytes Member.bytes d.members

def forest (d : Document) : List (Stretch Label) :=
  [around .grammar 0 d.bytes
    (paddedStretches Member.bytes Member.stretch d.before.bytes.length d.members)]

def leaves (d : Document) : List Leaf := paddedLeaves Member.leaves d.members

/-- What reading the document should find in it. -/
def parsed (d : Document) : Parse Label :=
  ⟨d.bytes, ⟨(Stretch.listing 0 d.forest).toArray, []⟩, d.bytes.length⟩

/-- The rules that a document declares. -/
def rules (d : Document) : List Rule :=
  d.members.filterMap fun item => item.1.rule?

end Document

end RuleGraph.Hosted
