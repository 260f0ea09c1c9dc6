import RuleGraph.Proofs.Hosted.Notation
import RuleGraph.Proofs.Rule.Nodes
import RuleGraph.Proofs.Terse.Notation

/-!
# The shared notation

The terse and the hosted notation have a part in common: rules of names, quoted
texts, signs for white space, completions and groups, with one suffix each. A
source in this part can be given to either reader, and each finds a tree of its
own in it. What such a source is, how it is written and which rules it stands for
is said here with neither reader in sight.

It is the narrower of the two notations that decides what belongs to the tree. So
the hosted notation gives the places where white space may stand and what may
stand in a line. The terse one gives the numbers, which have to fit into a word.

One thing is not a matter of writing. A group in the hosted notation has the
bound that is written behind it, "once" if there is none, and this bound takes
the place of the bound of a repetition that the group consists of. In the terse
notation a group without a suffix is what stands in it. Where a group is
`Marked`, there is no difference.
-/

namespace RuleGraph

namespace Shared

open Hosted (Indent Pad choice isLetter isLetterOrDigit paddedBytes)

/-! ## Names, texts and suffixes -/

structure Name where
  first : Char
  others : List Char
  first_letter : isLetter first = true
  others_word : ∀ c ∈ others, isLetterOrDigit c = true

namespace Name

def letters (n : Name) : List Char := n.first :: n.others

def name (n : Name) : String := String.ofList n.letters

def bytes (n : Name) : Bytes := utf8 n.letters

end Name

/-- A text that can stand in quotes. It may be empty. -/
structure Quote where
  text : List Char
  unquoted : ∀ c ∈ text, c ≠ '\''

namespace Quote

def bytes (q : Quote) : Bytes := 0x27 :: (utf8 q.text ++ [0x27])

theorem toNat_ne {c : Char} (h : c ≠ '\'') : c.toNat ≠ 0x27 :=
  fun hcode => h (Char.ext (UInt32.toNat_inj.mp hcode))

theorem unquoted_utf8 (q : Quote) : ∀ b ∈ utf8 q.text, b ≠ 0x27 := by
  rintro b hb rfl
  obtain ⟨c, hc, hb⟩ := List.mem_flatMap.mp hb
  rcases Utf8.encode_plain_or_high c with ⟨hlt, hplain⟩ | ⟨-, hhigh⟩
  · rw [hplain, List.mem_singleton] at hb
    have hcode : c.toNat = 0x27 := by
      rw [← Utf8.toNat_ofNat (n := c.toNat) (by omega), ← hb]; rfl
    exact toNat_ne (q.unquoted c hc) hcode
  · exact absurd (hhigh _ hb) (by decide)

end Quote

/-- A decimal number that a word can hold, with or without leading zeros. -/
abbrev Count := Terse.Numeral 10

inductive Suffix
  | optional
  | star
  | plus
  | exactly (n : Count)
  | between (n m : Count)

namespace Suffix

def bytes : Suffix → Bytes
  | optional => [0x3F]
  | star => [0x2A]
  | plus => [0x2B]
  | exactly n => 0x7B :: (utf8 n.digits ++ [0x7D])
  | between n m => 0x7B :: (utf8 n.digits ++ 0x2D :: (utf8 m.digits ++ [0x7D]))

def bound : Suffix → Bound
  | optional => Bound.optional
  | star => Bound.star
  | plus => Bound.plus
  | exactly n => ⟨n.value, n.value⟩
  | between n m => Bound.between n.value m.value

end Suffix

def suffixBytes : Option Suffix → Bytes
  | none => []
  | some s => s.bytes

def suffixed (r : Rule) : Option Suffix → Rule
  | none => r
  | some s => r.repeated s.bound

def captureBytes : Option Name → Bytes
  | none => []
  | some n => 0x40 :: n.bytes

def captured (r : Rule) : Option Name → Rule
  | none => r
  | some n => r.named n.name

/-! ## Bodies -/

mutual

inductive Element
  | literal (q : Quote) (suffix : Option Suffix)
  | reference (n : Name) (capture : Option Name) (suffix : Option Suffix)
  | spacing (contract : Spacing) (suffix : Option Suffix)
  | group (before : Pad) (body : Selection) (after : Pad) (capture : Option Name)
      (suffix : Option Suffix)
  | completion

/-- Elements one after the other with white space between them, one at least. -/
inductive Sequence
  | last (e : Element)
  | more (e : Element) (gap : Indent) (apart : gap.bytes ≠ []) (rest : Sequence)

/-- Sequences beside one another, one at least. -/
inductive Selection
  | last (s : Sequence)
  | more (s : Sequence) (before after : Indent) (rest : Selection)

end

mutual

def Element.bytes : Element → Bytes
  | .literal q suffix => q.bytes ++ suffixBytes suffix
  | .reference n capture suffix => n.bytes ++ (captureBytes capture ++ suffixBytes suffix)
  | .spacing contract suffix => utf8 [contract.sign] ++ suffixBytes suffix
  | .group before body after capture suffix =>
    0x28 :: (before.bytes ++ (body.bytes ++ (after.bytes ++
      0x29 :: (captureBytes capture ++ suffixBytes suffix))))
  | .completion => [0x7E]

def Sequence.bytes : Sequence → Bytes
  | .last e => e.bytes
  | .more e gap _ rest => e.bytes ++ (gap.bytes ++ rest.bytes)

def Selection.bytes : Selection → Bytes
  | .last s => s.bytes
  | .more s before after rest =>
    s.bytes ++ (before.bytes ++ 0x7C :: (after.bytes ++ rest.bytes))

end

/-! ## Meaning -/

mutual

def Element.rule : Element → Rule
  | .literal q suffix => suffixed (Rule.string q.text) suffix
  | .reference n capture suffix =>
    suffixed (captured (Rule.reference n.name) capture) suffix
  | .spacing contract suffix => suffixed (Rule.spacing contract) suffix
  | .group _ body _ capture suffix =>
    suffixed (captured (choice body.rules) capture) suffix
  | .completion => Rule.completion

def Sequence.rules : Sequence → List Rule
  | .last e => [e.rule]
  | .more e _ _ rest => e.rule :: rest.rules

/-- The alternatives. A single element is not a sequence. -/
def Selection.rules : Selection → List Rule
  | .last s => [Rule.chain s.rules]
  | .more s _ _ rest => Rule.chain s.rules :: rest.rules

end

def Selection.rule (s : Selection) : Rule := choice s.rules

theorem Sequence.rules_ne_nil (s : Sequence) : s.rules ≠ [] := by
  cases s <;> (rw [Sequence.rules]; exact List.cons_ne_nil _ _)

mutual

/-- Every group in it that comes to a repetition is captured or has a suffix. -/
def Element.Marked : Element → Prop
  | .literal _ _ | .reference _ _ _ | .spacing _ _ | .completion => True
  | .group _ body _ capture suffix =>
    body.Marked ∧
      ((choice body.rules).isRepetition = true → capture.isSome = true ∨
        suffix.isSome = true)

def Sequence.Marked : Sequence → Prop
  | .last e => e.Marked
  | .more e _ _ rest => e.Marked ∧ rest.Marked

def Selection.Marked : Selection → Prop
  | .last s => s.Marked
  | .more s _ _ rest => s.Marked ∧ rest.Marked

end

/-! ## Sources -/

inductive Line
  | comment (text : Bytes) (open_ : ∀ b ∈ text, b ≠ 0x25)
  | rule (name : Name) (before after : Indent) (body : Selection)

namespace Line

def bytes : Line → Bytes
  | comment text _ => 0x25 :: (text ++ [0x25])
  | rule name before after body =>
    name.bytes ++ (before.bytes ++ 0x3D :: (after.bytes ++ body.bytes))

def rule? : Line → Option Rule
  | comment _ _ => none
  | rule name _ _ body => some (body.rule.named name.name)

def Marked : Line → Prop
  | comment _ _ => True
  | rule _ _ _ body => body.Marked

end Line

/-- Lines with white space around them, which has a line break in it between two
of them. -/
structure Source where
  before : Pad
  lines : List (Line × Pad)
  apart : ∀ item ∈ lines.dropLast, ∃ b ∈ item.2.bytes, isIndent b = false
  marked : ∀ item ∈ lines, item.1.Marked

namespace Source

def bytes (s : Source) : Bytes := s.before.bytes ++ paddedBytes Line.bytes s.lines

/-- The rules that a source declares. -/
def rules (s : Source) : List Rule := s.lines.filterMap fun item => item.1.rule?

end Source

end Shared

end RuleGraph
