import RuleGraph.Hosted.Parse
import RuleGraph.Proofs.Matching.Taking

/-!
# The rules of the hosted notation

The grammar of the hosted notation is the outcome of compiling a source. Here it
is as a table: every label has one rule, which captures a shape, and
`metaGrammar_eq` says that compiling gives just these rules and the three that
are only included in others. From here on nobody looks at the source again.

A rule that refers to a label takes what the shape of the label takes, and finds
one stretch with that label around it. Matching knows labels by their names
only, so a forest is `spelled` before it is compared with what matching finds,
and the names are looked up again afterwards.
-/

namespace RuleGraph.Hosted

open Matching

/-! ## Shapes -/

abbrev lit (bytes : Bytes) : Rule := ⟨"", .literal bytes⟩

abbrev one (set : CharSet) : Rule := ⟨"", .terminal set⟩

abbrev space (contract : Spacing) : Rule := ⟨"", .spacing contract⟩

abbrev part (l : Label) : Rule := ⟨"", .reference l.text⟩

abbrev oneOf (rules : List Rule) : Rule := ⟨"", .selection rules⟩

abbrev inTurn (rules : List Rule) : Rule := ⟨"", .sequence rules none⟩

abbrev many (r : Rule) (bound : Bound) : Rule := ⟨"", .iteration r bound⟩

def quoteSet : CharSet := ⟨[⟨0x27, 0x27⟩]⟩

def unquotedSet : CharSet := ⟨[⟨0, 0x26⟩, ⟨0x28, 0x10FFFF⟩]⟩

def letterSet : CharSet := ⟨[⟨0x41, 0x5A⟩, ⟨0x5F, 0x5F⟩, ⟨0x61, 0x7A⟩]⟩

def wordSet : CharSet := ⟨[⟨0x30, 0x39⟩, ⟨0x41, 0x5A⟩, ⟨0x5F, 0x5F⟩, ⟨0x61, 0x7A⟩]⟩

def decimalSet : CharSet := ⟨[⟨0x30, 0x39⟩]⟩

def hexSet : CharSet := ⟨[⟨0x30, 0x39⟩, ⟨0x41, 0x46⟩, ⟨0x61, 0x66⟩]⟩

def escapeSet : CharSet := ⟨[⟨0x6E, 0x6E⟩, ⟨0x72, 0x72⟩, ⟨0x74, 0x74⟩]⟩

/-- What the rule of a label captures. -/
def metaShape : Label → Shape Rule
  | .grammar => .sequence [space .mayBreak,
      many (inTurn [part .member, space .mayBreak]) .star] none
  | .member => .selection [part .comment, part .rule]
  | .comment =>
    .sequence [lit [0x25], ⟨"", .completion (some (lit [0x25]))⟩, lit [0x25]] none
  | .rule => .sequence [part .name, space .mayIndent, lit [0x3D], space .mayIndent,
      part .selection] none
  | .name =>
    .sequence [many (lit [0x2D]) .optional, one letterSet, many (one wordSet) .star] none
  | .selection => .sequence [part .sequence,
      many (inTurn [space .mayIndent, lit [0x7C], space .mayIndent, part .sequence])
        .star] none
  | .sequence => .sequence [part .element,
      many (inTurn [space .mayIndent, part .element]) .star] none
  | .element => .sequence
      [oneOf [part .distinction, part .completion, part .group, part .option,
        part .terminal, part .string, part .ref], many (part .occurrence) .optional] none
  | .distinction => .literal [0x3C]
  | .completion => .literal [0x7E]
  | .group => .sequence [lit [0x28], space .mayBreak, part .selection, space .mayBreak,
      lit [0x29], many (part .capture) .optional] none
  | .option => .sequence [lit [0x5B], space .mayBreak, part .selection, space .mayBreak,
      lit [0x5D], many (part .capture) .optional] none
  | .capture => .sequence [lit [0x40], part .name] none
  | .terminal => .selection [part .ranges, part .figures, part .pattern]
  | .ranges => .sequence [many (part .not) .optional, oneOf [part .wildcard, part .letter,
      part .upper, part .lower, part .hex, part .octal, part .binary, part .digit,
      part .range, part .literal, part .whitespace, part .shortname]] none
  | .not => .literal [0x5E]
  | .wildcard => .literal [0x24]
  | .letter => .literal [0x5C, 0x61]
  | .upper => .literal [0x5C, 0x75]
  | .lower => .literal [0x5C, 0x6C]
  | .hex => .literal [0x5C, 0x78]
  | .octal => .literal [0x5C, 0x6F]
  | .binary => .literal [0x5C, 0x62]
  | .digit => .literal [0x5C, 0x64]
  | .whitespace => .literal [0x5C, 0x73]
  | .shortname => .sequence [lit [0x5C], one escapeSet] none
  | .range => .sequence [part .literal, lit [0x2D], part .literal] none
  | .literal => .selection [part .symbol, part .codePoint]
  | .symbol => .sequence [one quoteSet, one unquotedSet, one quoteSet] none
  | .codePoint => .sequence [lit [0x55, 0x2B], many (one hexSet) .plus] none
  | .figures => .sequence [lit [0x7B], space .mayBreak,
      many (inTurn [oneOf [part .ranges, part .name], space .mayBreak]) .star, lit [0x7D],
      many (part .capture) .optional] none
  | .pattern =>
    .selection [part .gap, part .pad, part .indent, part .separator, part .wrap]
  | .gap => .literal [0x2C]
  | .pad => .literal [0x2E]
  | .indent => .literal [0x3B]
  | .separator => .literal [0x3A]
  | .wrap => .literal [0x21]
  | .string => .sequence [one quoteSet, many (one unquotedSet) .star, one quoteSet] none
  | .ref => .sequence [part .name, many (part .capture) .optional] none
  | .occurrence => .selection [part .plus, part .star, part .qmark,
      inTurn [lit [0x7B], part .least,
        many (inTurn [part .upTo, many (part .most) .optional]) .optional, lit [0x7D]]]
  | .plus => .literal [0x2B]
  | .star => .literal [0x2A]
  | .qmark => .literal [0x3F]
  | .least => .iteration (one decimalSet) .plus
  | .upTo => .literal [0x2D]
  | .most => .iteration (one decimalSet) .plus

def metaTable : List Rule :=
  [Rule.capture "apos" (one quoteSet), Rule.capture "alpha" (one letterSet),
    Rule.capture "alnum" (one wordSet)] ++
  Label.all.map fun l => Rule.capture l.text ⟨"", metaShape l⟩

/-! ## Labels and names -/

mutual

/-- A stretch with the names of labels for labels. -/
def spell : Stretch Label → Stretch String
  | .node label start stop inner => .node label.text start stop (spelled inner)

def spelled : List (Stretch Label) → List (Stretch String)
  | [] => []
  | s :: rest => spell s :: spelled rest

end

theorem spelled_append (first second : List (Stretch Label)) :
    spelled (first ++ second) = spelled first ++ spelled second := by
  induction first with
  | nil => rw [spelled, List.nil_append, List.nil_append]
  | cons s rest ih => rw [List.cons_append, spelled, spelled, ih, List.cons_append]

theorem labelOf_text (l : Label) : labelOf l.text = .ok l := by
  cases l <;> rfl

/-- Looking the names up undoes the spelling. -/
theorem mapM_labelOf_listing (forest : List (Stretch Label)) :
    ∀ depth, (Stretch.listing depth (spelled forest)).mapM (fun t => do
        let label ← labelOf t.label
        return (⟨label, t.start, t.stop, t.level⟩ : Token Label)) =
      .ok (Stretch.listing depth forest) := by
  induction forest using Stretch.forestInduction with
  | nil =>
    intro depth
    rw [spelled, Stretch.listing_nil, Stretch.listing_nil]
    rfl
  | cons label start stop inner rest ihInner ihRest =>
    intro depth
    rw [spelled, spell, Stretch.listing_cons, Stretch.listing_cons, List.mapM_cons,
      labelOf_text, List.mapM_append, ihInner, ihRest]
    rfl

theorem labelled_spelled (source : Bytes) (forest : List (Stretch Label)) (stop : Nat) :
    labelled ⟨source, ⟨(Stretch.listing 0 (spelled forest)).toArray, []⟩, stop⟩ =
      .ok ⟨source, ⟨(Stretch.listing 0 forest).toArray, []⟩, stop⟩ := by
  rw [labelled, Overlay.tryMap, mapM_labelOf_listing]
  rfl

/-! ## The grammar as a table -/

theorem metaGrammar_eq : metaGrammar = ⟨metaTable⟩ := by
  decide +kernel

theorem resolve?_text (l : Label) :
    metaGrammar.resolve? l.text = some (Rule.capture l.text ⟨"", metaShape l⟩) := by
  rw [metaGrammar_eq]
  cases l <;> rfl

/-- The rule of a label takes what its shape takes, and finds it there. -/
theorem takes_part_iff {l : Label} {offset : Nat} {bytes rest : Bytes}
    {forest : List (Stretch String)} :
    Takes metaGrammar (.rule (part l)) offset bytes rest forest ↔
      ∃ inner, Takes metaGrammar (.rule ⟨"", metaShape l⟩) offset bytes rest inner ∧
        forest = [.node l.text offset (offset + bytes.length) inner] := by
  rw [takes_reference_iff (resolve?_text l), Rule.capture, takes_capture_iff]

end RuleGraph.Hosted
