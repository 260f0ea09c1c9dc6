import RuleGraph.Proofs.Chains
import RuleGraph.Proofs.Hosted.Legibility
import RuleGraph.Proofs.Shared.Documents

/-!
# Parentheses

A group is read as what stands in it, with the bound that is written behind it.
Where none is written the bound is "once", which leaves every rule as it is
except a repetition: that one it takes away. So parentheses without a suffix are
neutral around whatever does not come to a repetition, and never around what
does. The rule of `('a'*)` matches one letter.

Only a selection that is a single element can come to a repetition: an option
does, and so does an element with an occurrence other than "once".
-/

namespace RuleGraph

namespace Rule

theorem child_ne (name : String) (child : Rule) (bound : Bound) :
    child ≠ ⟨name, .iteration child bound⟩ := by
  intro h
  have hsize := congrArg sizeOf h
  simp at hsize
  omega

/-- "Once" changes the repetitions and nothing else. -/
theorem repeated_once_eq_iff (r : Rule) :
    r.repeated Bound.once = r ↔ r.isRepetition = false := by
  constructor
  · intro h
    obtain ⟨name, shape⟩ := r
    cases shape with
    | iteration child bound => exact absurd h (child_ne name child bound)
    | _ => rfl
  · exact repeated_once

end Rule

namespace Hosted

open Stretch (listing)

/-- A selection in parentheses with nothing behind them. -/
def Selection.parenthesized (before after : Pad) (s : Selection) : Element :=
  .mk (.nested .round before s after none) none

/-- What the tokens of a selection at an offset are read as, in front of a
place. -/
def Selection.reading (c : Context) (room offset depth : Nat) (p : Place)
    (s : Selection) : Built Rule :=
  selection c room
    (listing depth [around .selection offset s.bytes (s.inner offset)] ++ p)

/-- What the tokens of an element at an offset are read as, in front of a
place. -/
def Element.reading (c : Context) (room offset depth : Nat) (p : Place) (e : Element) :
    Built Piece :=
  element c (selection c room) (token .element offset e.bytes depth)
    (listing (depth + 1) (e.inner offset) ++ p)

variable {c : Context} {room offset depth : Nat} {p : Place}

/-- Whatever a selection is read as, parentheses around it add the bound
"once". -/
theorem reading_parenthesized (s : Selection) (before after : Pad)
    (hp : Shallow depth p) :
    (s.parenthesized before after).reading c room offset depth p =
      (fun r => .rule (r.repeated Bound.once)) <$>
        s.reading c room (offset + 1 + before.bytes.length) (depth + 2) p := by
  have hform : Shallow (depth + 1) p := hp.mono (Nat.le_succ depth)
  have hinner : Shallow (depth + 2) p := hform.mono (Nat.le_succ _)
  simp only [Element.reading, Selection.reading, Selection.parenthesized, Element.bytes,
    Element.inner, Form.label, Form.inner, Capture.stretches]
  rw [listing_singleton, List.cons_append, listing_singleton, List.cons_append]
  show boundOf c _ _ _ >>= _ = _
  rw [boundOf, ← List.cons_append, ← listing_singleton,
    sibling?_none hform (not_inside (by rwa [token_depth])), listing_singleton,
    List.cons_append]
  show nested c _ _ _ >>= _ = _
  generalize hread : selection c room _ = read
  have hnested : nested c (selection c room) (token .group offset
      (Form.nested .round before s after none).bytes (depth + 1))
      (token .selection (offset + 1 + before.bytes.length) s.bytes (depth + 2) ::
        (listing (depth + 2 + 1) (s.inner (offset + 1 + before.bytes.length)) ++ p)) =
          read := by
    rw [nested, hread]
    cases read with
    | error e => rfl
    | ok r =>
      show captured c _ _ _ r = _
      rw [captured, sibling?_none hinner (not_inside (by rwa [token_depth]))]
  rw [Bracket.label, hnested]
  rfl


/-- Parentheses without a suffix are neutral around the selections that do not
come to a repetition, and around no others: of a repetition only what it repeats
is left. -/
theorem reading_parenthesized_iff (s : Selection) (before after : Pad)
    (h : Lies c.source offset (s.parenthesized before after).bytes) (hp : Shallow depth p)
    (hroom :
      (listing (depth + 1) ((s.parenthesized before after).inner offset) ++ p).length ≤
        room) :
    let inner := s.reading c room (offset + 1 + before.bytes.length) (depth + 2) p
    let group := (s.parenthesized before after).reading c room offset depth p
    (Sound s.leaves → inner = .ok (choice s.rules)) ∧
      (group = Piece.rule <$> inner ↔ ∀ r, inner = .ok r → r.isRepetition = false) ∧
      ∀ name child bound, inner = .ok ⟨name, .iteration child bound⟩ →
        group = .ok (.rule child) := by
  intro inner group
  have hgroup : group = (fun r => .rule (r.repeated Bound.once)) <$> inner :=
    reading_parenthesized s before after hp
  refine ⟨fun hsound => ?_, ?_, fun name child bound hread => ?_⟩
  · have hlies : Lies c.source (offset + 1 + before.bytes.length) s.bytes :=
      h.tail.right.left
    simp only [Selection.parenthesized, Element.inner, Form.inner, Capture.stretches]
      at hroom
    rw [listing_singleton, List.cons_append] at hroom
    exact (selection_settles (s.settled c) hlies (hp.mono (Nat.le_add_right depth 2))
      (Nat.le_of_succ_le hroom)).1 hsound
  · rw [hgroup]
    generalize inner = read
    cases read with
    | error e =>
      refine ⟨?_, fun _ => rfl⟩
      rintro - r ⟨⟩
    | ok r =>
      constructor
      · intro h r' hr'
        cases hr'
        exact (Rule.repeated_once_eq_iff r).mp (Piece.rule.inj (Except.ok.inj h))
      · intro h
        exact congrArg (fun r => Except.ok (Piece.rule r))
          ((Rule.repeated_once_eq_iff r).mpr (h r rfl))
  · rw [hgroup, hread]
    rfl

/-- The parentheses of `r=(a b+)` hold a sequence, those of `r=(b+)` would not
be neutral. -/
theorem reading_parenthesized_iff_sequence :
    let a : Element := .mk (.ref ⟨false, 'a', [], by decide, nofun⟩ none) none
    let b : Element := .mk (.ref ⟨false, 'b', [], by decide, nofun⟩ none) (some .plus)
    let s : Selection :=
      .last (.more a ⟨[0x20], List.forall_mem_singleton.mpr rfl⟩ (.last b))
    let nothing : Pad := ⟨[], nofun⟩
    let c : Context := ⟨stringBytes "r=(a b+)", 16⟩
    (s.parenthesized nothing nothing).reading c 16 2 5 [] =
      .ok (.rule (Rule.sequence [Rule.reference "a",
        Rule.bare (.iteration (Rule.reference "b") Bound.plus)])) := by
  intro a b s nothing c
  have hneutral := @reading_parenthesized_iff c 16 2 5 [] s nothing nothing
    ⟨stringBytes "r=", [], rfl, rfl⟩ nofun (by decide)
  have hread := hneutral.1 nofun
  rw [hneutral.2.1.mpr fun r hr => ?_, hread]
  · rfl
  · cases hread.symm.trans hr
    rfl

/-- What is left of the repetition in `('a'*)` is the literal. -/
theorem rules_parenthesized_star :
    rules (stringBytes "r = 'a'*") =
        .ok [Rule.capture "r" (Rule.bare (.iteration (Rule.string ['a']) Bound.star))] ∧
      rules (stringBytes "r = ('a'*)") = .ok [Rule.capture "r" (Rule.string ['a'])] := by
  constructor <;> apply eq_ok_of_toOption <;> rw [rules, parse, metaGrammar_eq] <;>
    decide +kernel

end Hosted
end RuleGraph
