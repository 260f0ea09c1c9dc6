import Mathlib.Data.List.Forall2
import RuleGraph.Grammar.Printed
import RuleGraph.Proofs.Shared.Declarations
import RuleGraph.Proofs.Terse.Declarations
import RuleGraph.Proofs.Terse.Growth
import RuleGraph.Proofs.Terse.Inclusion
import RuleGraph.Proofs.Terse.Printing

/-!
# Printed grammars are read back

A rule prints as a phrase of the terse notation, and the phrase stands for the rule again,
as long as nothing in the rule is named: a capture inside of a body prints as its name
alone. Sequences and selections print in parentheses, and so does what is looked ahead
at, so no phrase takes apart another.

Two rule functions leave less than they are given, and the printed form has to make up
for both. What a completion runs up to does not print, but reading it in its sequence
binds it again. And a repetition of a repetition is one repetition with the later bound,
so the induction keeps what is repeated at hand.
-/

namespace RuleGraph

open Terse
open Shared (uniform)

namespace Rule

/-! ## Printed forms -/

/-- A completion prints in the same way whatever it runs up to. -/
theorem text_upTo? {next bound : Rule} : ∀ {r : Rule}, upTo? next r = some bound →
    bound.text = r.text
  | ⟨name, .completion none⟩, h => by
    cases h
    rw [text, text, shapeText, shapeText]
  | ⟨name, .capture child⟩, h => by
    obtain ⟨inner, -, rfl⟩ := Option.map_eq_some_iff.mp h
    rw [capture, text, text, shapeText, shapeText]

theorem texts_foldr_join (rules : List Rule) :
    texts (rules.foldr join []) = texts rules := by
  induction rules with
  | nil => rfl
  | cons r rest ih =>
    rw [List.foldr_cons, texts, ← ih]
    cases rest.foldr join [] with
    | nil => rw [join, texts, texts, texts]
    | cons next others =>
      rw [join, texts]
      cases h : upTo? next r with
      | none => rfl
      | some bound => rw [Option.getD_some, text_upTo? h]

theorem text_sequence (rules : List Rule) :
    (sequence rules).text = '(' :: joined [' '] (texts rules) ++ [')'] := by
  rw [sequence, sequenceCut, bare, text, shapeText, texts_foldr_join]

theorem joined_singleton (separator text : List Char) : joined separator [text] = text :=
  List.append_nil text

theorem joined_cons_cons (separator first second : List Char) (rest : List (List Char)) :
    joined separator (first :: second :: rest) =
      first ++ (separator ++ joined separator (second :: rest)) := rfl

/-- Rules that the functions on rules make of each other, where nothing is named and what
is not a rule is legible. -/
inductive Printable : Rule → Prop
  | literal {bytes : Bytes} : (∀ b ∈ bytes, isLegible b = true) →
      Printable (literal bytes)
  | terminal {set : CharSet} : set.Legible → Printable (terminal set)
  | spacing (contract : Spacing) : Printable (spacing contract)
  | repeated {r : Rule} {bound : Bound} : Printable r → bound.least ≤ bound.most →
      bound.most ≤ maxWord → Printable (r.repeated bound)
  | lookahead {r : Rule} : Printable r → Printable r.lookahead
  | decision : Printable decision
  | reference (w : Word) : Printable (reference w.name)
  | selection {rules : List Rule} : 2 ≤ rules.length → (∀ r ∈ rules, Printable r) →
      Printable (selection rules)
  | sequence {rules : List Rule} : 2 ≤ rules.length → (∀ r ∈ rules, Printable r) →
      Printable (sequence rules)
  | completion : Printable completion

end Rule

namespace Terse

open Rule (joined texts)

variable {more : List Token} {rest : Bytes} {p : Phrase} {text : List Char} {r : Rule}
  {limit nesting : Nat}

/-! ## Phrases -/

/-- A phrase that is spelled like this and stands for a rule, whatever has been declared
before. -/
structure Phrase.Reads (p : Phrase) (text : List Char) (r : Rule) : Prop where
  means : ∀ filed, p.elements? filed = some [r]
  spelled : ∀ {more : List Token} {rest : Bytes}, Closed rest → Spells more rest →
    Spells (p.tokens ++ more) (utf8 text ++ rest)
  fits : ∀ {limit nesting : Nat}, nesting + (utf8 text).length < limit →
    p.Fits (uniform limit) nesting

theorem Phrase.Reads.atom {a : Atom} (hrule : ∀ filed, a.rule? filed = some r)
    (hspelled : ∀ rest, Closed rest → a.Spelled (utf8 text) rest)
    (hfits : ∀ limit, (utf8 text).length < limit → a.Fits (uniform limit)) :
    (Phrase.atom a []).Reads text r where
  means filed := by
    rw [Phrase.elements?, hrule]
    rfl
  spelled hrest h := by
    rw [Phrase.tokens]
    exact h.token (t := .atom a) (hspelled _ hrest)
  fits hlimit := by
    rw [Phrase.Fits]
    exact ⟨hfits _ (by omega), List.forall_mem_nil _⟩

/-- A phrase with one more suffix. -/
def Phrase.suffixed (s : Suffix) : Phrase → Phrase
  | .atom a suffixes => .atom a (suffixes ++ [s])
  | .group first others suffixes => .group first others (suffixes ++ [s])

theorem appliedAll?_snoc (filed : List Rule) (s : Suffix) (suffixes : List Suffix) :
    ∀ r : Rule, appliedAll? filed r (suffixes ++ [s]) =
      (appliedAll? filed r suffixes).bind fun r => s.applied? filed r := by
  induction suffixes with
  | nil =>
    intro r
    show (s.applied? filed r).bind some = s.applied? filed r
    exact Option.bind_fun_some _
  | cons first suffixes ih =>
    intro r
    rw [List.cons_append, appliedAll?, appliedAll?]
    cases first.applied? filed r with
    | none => rfl
    | some r => exact ih r

theorem Phrase.tokens_suffixed (s : Suffix) (p : Phrase) :
    (p.suffixed s).tokens = p.tokens ++ [.suffix s] := by
  cases p <;> simp [Phrase.suffixed, Phrase.tokens]

theorem Phrase.elements?_suffixed {s : Suffix} {filed : List Rule} {changed : Rule}
    (h : p.elements? filed = some [r]) (hs : s.applied? filed r = some changed) :
    (p.suffixed s).elements? filed = some [changed] := by
  cases p with
  | atom a suffixes =>
    rw [Phrase.elements?] at h
    obtain ⟨first, hfirst, h⟩ := Option.bind_eq_some_iff.mp h
    obtain ⟨last, hlast, h⟩ := Option.bind_eq_some_iff.mp h
    cases h
    rw [Phrase.suffixed, Phrase.elements?, hfirst]
    show (appliedAll? filed first (suffixes ++ [s])).bind _ = _
    rw [appliedAll?_snoc, hlast, Option.bind_some, hs]
    rfl
  | group first others suffixes =>
    obtain ⟨elements, helements, more, hmore, hgroup⟩ := elements?_group.mp h
    refine elements?_group.mpr ⟨elements, helements, more, hmore, ?_⟩
    cases hbody : folded elements more with
    | none =>
      rw [hbody, grouped?] at hgroup
      split at hgroup <;> cases hgroup
    | some body =>
      rw [hbody] at hgroup
      obtain ⟨last, hlast, hr⟩ := Option.map_eq_some_iff.mp hgroup
      cases hr
      rw [grouped?, appliedAll?_snoc, hlast, Option.bind_some, hs]
      rfl

theorem Phrase.fits_suffixed {s : Suffix} {limits : Limits} (h : p.Fits limits nesting)
    (hs : s.Fits limits) : (p.suffixed s).Fits limits nesting := by
  cases p with
  | atom a suffixes =>
    rw [Phrase.Fits] at h
    rw [Phrase.suffixed, Phrase.Fits]
    exact ⟨h.1, List.forall_mem_append.mpr ⟨h.2, List.forall_mem_singleton.mpr hs⟩⟩
  | group first others suffixes =>
    rw [Phrase.Fits] at h
    obtain ⟨hnesting, hmany, hlong, hfirst, hothers, hsuffixes⟩ := h
    rw [Phrase.suffixed, Phrase.Fits]
    exact ⟨hnesting, hmany, hlong, hfirst, hothers, List.forall_mem_append.mpr
      ⟨hsuffixes, List.forall_mem_singleton.mpr hs⟩⟩

theorem Phrase.Reads.suffixed {s : Suffix} {suffix : List Char} {change : Rule → Rule}
    (h : p.Reads text r) (hs : s.Prints suffix change) :
    (p.suffixed s).Reads (text ++ suffix) (change r) where
  means filed := elements?_suffixed (h.means filed) (hs.applied filed r)
  spelled {more rest} hrest hmore := by
    rw [tokens_suffixed, utf8_append, List.append_assoc, List.append_assoc]
    exact h.spelled (hs.closed rest) (hmore.token (t := .suffix s) (hs.spelled rest))
  fits hlimit := by
    rw [utf8_append, List.length_append] at hlimit
    exact fits_suffixed (h.fits (by omega)) (hs.fits _)

/-! ## Groups -/

/-- Alternatives that are spelled like this between parentheses and stand for a rule. -/
structure Inside (first : List Phrase) (others : List (List Phrase)) (text : List Char)
    (r : Rule) : Prop where
  means : ∀ filed, ∃ elements more, elements? filed first = some elements ∧
    others? filed others = some more ∧ folded elements more = some r
  spelled : ∀ {more : List Token} {rest : Bytes}, Closed rest → Spells more rest →
    Spells (alternative first ++ (alternatives others ++ more)) (utf8 text ++ rest)
  fits : ∀ {limit nesting : Nat}, nesting + (utf8 text).length + 1 < limit →
    others.length < limit ∧ first.length ≤ limit ∧ Fits (uniform limit) nesting first ∧
      OthersFit (uniform limit) nesting others

variable {first : List Phrase} {others : List (List Phrase)}

theorem Inside.group (h : Inside first others text r) :
    (Phrase.group first others []).Reads ('(' :: text ++ [')']) r where
  means filed := by
    obtain ⟨elements, more, helements, hmore, hbody⟩ := h.means filed
    refine Phrase.elements?_group.mpr ⟨elements, helements, more, hmore, ?_⟩
    rw [hbody]
    rfl
  spelled {more rest} hrest hmore := by
    have hclosing : Spells (.closing :: more) (utf8 [')'] ++ rest) := hmore.token rfl
    have hinside := h.spelled (by rintro _ ⟨⟩; decide) hclosing
    have hopening : Spells (.opening :: _) (String.utf8EncodeChar '(' ++ _) :=
      hinside.token rfl
    rw [Phrase.tokens, utf8_append, utf8_cons]
    simpa only [List.cons_append, List.append_assoc, List.map_nil, List.nil_append]
      using hopening
  fits {limit nesting} hlimit := by
    rw [List.cons_append, utf8_cons, utf8_append] at hlimit
    have hlength : nesting + 1 + (utf8 text).length + 1 < limit := by
      simp only [List.length_append] at hlimit
      change nesting + (1 + (_ + 1)) < limit at hlimit
      omega
    obtain ⟨hmany, hlong, hfirst, hothers⟩ := h.fits hlength
    rw [Phrase.Fits]
    exact ⟨show nesting < limit by omega, hmany, hlong, hfirst, hothers,
      List.forall_mem_nil _⟩

theorem Phrase.Reads.inside (h : p.Reads text r) : Inside [p] [] text r where
  means filed := by
    refine ⟨[r], [], ?_, rfl, rfl⟩
    rw [Terse.elements?, h.means, Terse.elements?]
    rfl
  spelled hrest hmore := by
    rw [alternative, alternative, List.append_nil, alternatives]
    exact h.spelled hrest hmore
  fits {limit nesting} hlimit := by
    rw [Terse.Fits, Terse.Fits, OthersFit]
    exact ⟨show 0 < limit by omega, show 1 ≤ limit by omega,
      ⟨h.fits (by omega), trivial⟩, trivial⟩

/-! ## Elements and alternatives -/

/-- Phrases that stand for rules, one for each, and are spelled as these print. -/
def ReadAll (phrases : List Phrase) (rules : List Rule) : Prop :=
  List.Forall₂ (fun p r => p.Reads r.text r) phrases rules

variable {phrases : List Phrase} {rules : List Rule}

theorem ReadAll.elements? (h : ReadAll phrases rules) (filed : List Rule) :
    Terse.elements? filed phrases = some rules := by
  induction h with
  | nil => rw [Terse.elements?]
  | cons hp _ ih =>
    rw [Terse.elements?, hp.means, ih]
    rfl

theorem ReadAll.others? (h : ReadAll phrases rules) (filed : List Rule) :
    Terse.others? filed (phrases.map fun p => [p]) = some (rules.map fun r => [r]) := by
  induction h with
  | nil => rw [List.map_nil, Terse.others?, List.map_nil]
  | cons hp _ ih =>
    rw [List.map_cons, Terse.others?, Terse.elements?, hp.means, ih, Terse.elements?]
    rfl

/-- Elements with a blank between them. -/
theorem ReadAll.spells_alternative (h : ReadAll phrases rules) (hrest : Closed rest)
    (hmore : Spells more rest) : Spells (alternative phrases ++ more)
      (utf8 (joined [' '] (texts rules)) ++ rest) := by
  induction h with
  | nil =>
    rw [alternative, texts]
    exact hmore
  | @cons p r phrases rules hp hothers ih =>
    rw [alternative, texts, List.append_assoc]
    cases hothers with
    | nil =>
      rw [alternative, texts, Rule.joined_singleton]
      exact hp.spelled hrest hmore
    | cons _ _ =>
      rw [texts, Rule.joined_cons_cons, ← texts, utf8_append, List.append_assoc,
        utf8_append, List.append_assoc]
      exact hp.spelled (by rintro _ ⟨⟩; decide) (ih.gap (.blank (by decide) .nothing))

/-- Alternatives with a bar between them, and blanks around it. -/
theorem ReadAll.spells_alternatives {p : Phrase} {r : Rule} (h : ReadAll phrases rules)
    (hp : p.Reads r.text r) (hrest : Closed rest) (hmore : Spells more rest) :
    Spells (alternative [p] ++ (alternatives (phrases.map fun p => [p]) ++ more))
      (utf8 (joined [' ', '|', ' '] (texts (r :: rules))) ++ rest) := by
  induction h generalizing p r with
  | nil =>
    rw [alternative, alternative, List.append_nil, List.map_nil, alternatives,
      texts, texts, Rule.joined_singleton]
    exact hp.spelled hrest hmore
  | @cons q s phrases rules hq _ ih =>
    have hblank : Gap (utf8 [' ']) := .blank (by decide) .nothing
    have hbar : Spells (.bar :: _) (utf8 ['|'] ++ _) := ((ih hq).gap hblank).token rfl
    have hbetween : Spells (.bar :: (alternative [q] ++
        (alternatives (phrases.map fun p => [p]) ++ more))) (utf8 [' ', '|', ' '] ++
          (utf8 (joined [' ', '|', ' '] (texts (s :: rules))) ++ rest)) := hbar.gap hblank
    rw [alternative, alternative, List.append_nil, List.map_cons, alternatives,
      texts, texts, Rule.joined_cons_cons, ← texts, utf8_append, List.append_assoc,
      utf8_append, List.append_assoc, List.cons_append, List.append_assoc]
    exact hp.spelled (by rintro _ ⟨⟩; decide) hbetween

/-- A limit above what is printed is enough for all of them, as elements and as
alternatives. -/
theorem ReadAll.fits (h : ReadAll phrases rules) (separator : List Char)
    (hseparator : 0 < (utf8 separator).length) :
    phrases.length ≤ (utf8 (joined separator (texts rules))).length + 1 ∧
      ∀ {limit nesting : Nat},
      nesting + (utf8 (joined separator (texts rules))).length < limit →
        Terse.Fits (uniform limit) nesting phrases ∧
          OthersFit (uniform limit) nesting (phrases.map fun p => [p]) := by
  induction h with
  | nil =>
    refine ⟨Nat.zero_le _, fun _ => ?_⟩
    rw [Terse.Fits, List.map_nil, OthersFit]
    exact ⟨trivial, trivial⟩
  | @cons p r phrases rules hp hothers ih =>
    obtain ⟨hlength, hfits⟩ := ih
    have hcons {limit nesting : Nat} (hfirst : nesting + (utf8 r.text).length < limit)
        (hrest : nesting + (utf8 (joined separator (texts rules))).length < limit) :
        Terse.Fits (uniform limit) nesting (p :: phrases) ∧
          OthersFit (uniform limit) nesting ((p :: phrases).map fun p => [p]) := by
      obtain ⟨hsequence, halternatives⟩ := hfits hrest
      rw [Terse.Fits, List.map_cons, OthersFit, Terse.Fits, Terse.Fits]
      exact ⟨⟨hp.fits hfirst, hsequence⟩, show 1 ≤ limit by omega,
        ⟨hp.fits hfirst, trivial⟩, halternatives⟩
    cases hothers with
    | nil =>
      rw [texts, texts, Rule.joined_singleton]
      exact ⟨Nat.le_add_left 1 _, fun hlimit =>
        hcons hlimit (Nat.lt_of_le_of_lt (Nat.le_add_right _ _) hlimit)⟩
    | cons _ _ =>
      rw [texts] at hlength hcons ⊢
      rw [texts, Rule.joined_cons_cons, utf8_append, utf8_append, List.length_append,
        List.length_append, List.length_cons]
      exact ⟨by omega, fun hlimit => hcons (by omega) (by omega)⟩

/-! ## Sequences and selections -/

theorem ReadAll.sequence (h : ReadAll phrases rules) (hlength : 2 ≤ rules.length) :
    Inside phrases [] (joined [' '] (texts rules)) (Rule.sequence rules) where
  means filed := by
    refine ⟨rules, [], h.elements? filed, by rw [Terse.others?], ?_⟩
    match rules, hlength with
    | first :: second :: rest, _ => rfl
  spelled hrest hmore := by
    rw [alternatives]
    exact h.spells_alternative hrest hmore
  fits {limit nesting} hlimit := by
    obtain ⟨hlong, hfits⟩ := h.fits [' '] (by decide)
    rw [OthersFit]
    exact ⟨show 0 < limit by omega, by omega, (hfits (by omega)).1, trivial⟩

theorem ReadAll.selection {p : Phrase} {r : Rule} (hp : p.Reads r.text r)
    (h : ReadAll phrases rules) (hlength : 2 ≤ (r :: rules).length) :
    Inside [p] (phrases.map fun p => [p]) (joined [' ', '|', ' '] (texts (r :: rules)))
      (Rule.selection (r :: rules)) where
  means filed := by
    refine ⟨[r], rules.map fun r => [r], ?_, h.others? filed, ?_⟩
    · rw [Terse.elements?, hp.means, Terse.elements?]
      rfl
    · match rules, hlength with
      | s :: rest, _ =>
        show some (Rule.selection (r :: s :: (rest.map fun r => [r]).map Rule.chain)) = _
        rw [List.map_map]
        exact congrArg (fun rules => some (Rule.selection (r :: s :: rules)))
          (List.map_id _)
  spelled hrest hmore := h.spells_alternatives hp hrest hmore
  fits {limit nesting} hlimit := by
    have hall : ReadAll (p :: phrases) (r :: rules) := .cons hp h
    obtain ⟨hlong, hfits⟩ := hall.fits [' ', '|', ' '] (by decide)
    obtain ⟨hfirst, hothers⟩ := hfits (show nesting + _ < limit by omega)
    rw [Terse.Fits] at hfirst
    rw [List.map_cons, OthersFit] at hothers
    rw [List.length_cons] at hlong
    rw [List.length_map, Terse.Fits, Terse.Fits]
    exact ⟨by omega, show 1 ≤ limit by omega, ⟨hfirst.1, trivial⟩, hothers.2.2⟩

end Terse

namespace Rule

/-! ## Rules -/

/-- An anonymous rule that is read back. -/
structure Readable (r : Rule) : Prop where
  name : r.name = ""
  isCapture : r.isCapture = false
  phrase : ∃ p : Phrase, p.Reads r.text r

theorem exists_phrases {rules : List Rule} (h : ∀ r ∈ rules, r.Readable) :
    ∃ phrases, ReadAll phrases rules := by
  induction rules with
  | nil => exact ⟨[], .nil⟩
  | cons r rest ih =>
    obtain ⟨hr, hrest⟩ := List.forall_mem_cons.mp h
    obtain ⟨p, hp⟩ := hr.phrase
    obtain ⟨phrases, hphrases⟩ := ih hrest
    exact ⟨p :: phrases, .cons hp hphrases⟩

theorem Readable.iteration {child : Rule} {bound : Bound} (h : child.Readable)
    (hle : bound.least ≤ bound.most) (hmost : bound.most ≤ maxWord)
    (honce : bound ≠ Bound.once) (hsingle : ∀ inner b, child.shape ≠ .iteration inner b) :
    (bare (.iteration child bound)).Readable := by
  obtain ⟨p, hp⟩ := h.phrase
  obtain ⟨s, hs⟩ := exists_suffix_of_bound hle hmost honce
  have hrepeated : child.repeated bound = bare (.iteration child bound) := by
    unfold repeated
    split
    · exact absurd ‹_› (hsingle _ _)
    · exact if_neg honce
  refine ⟨rfl, rfl, p.suffixed s, ?_⟩
  have hreads := hp.suffixed hs
  rw [hrepeated] at hreads
  rw [bare, text, shapeText]
  exact hreads

theorem readable_selection {rules : List Rule} (hlength : 2 ≤ rules.length)
    (h : ∀ r ∈ rules, r.Readable) : (selection rules).Readable := by
  cases rules with
  | nil => cases hlength
  | cons r rest =>
    obtain ⟨hr, hrest⟩ := List.forall_mem_cons.mp h
    obtain ⟨p, hp⟩ := hr.phrase
    obtain ⟨phrases, hphrases⟩ := exists_phrases hrest
    refine ⟨rfl, rfl, .group [p] (phrases.map fun p => [p]) [], ?_⟩
    rw [selection, bare, text, shapeText]
    exact (ReadAll.selection hp hphrases hlength).group

theorem readable_sequence {rules : List Rule} (hlength : 2 ≤ rules.length)
    (h : ∀ r ∈ rules, r.Readable) : (sequence rules).Readable := by
  obtain ⟨phrases, hphrases⟩ := exists_phrases h
  refine ⟨rfl, rfl, .group phrases [] [], ?_⟩
  rw [text_sequence]
  exact (hphrases.sequence hlength).group

theorem Readable.lookahead {r : Rule} (h : r.Readable) : r.lookahead.Readable := by
  obtain ⟨p, hp⟩ := h.phrase
  refine ⟨rfl, rfl, (Phrase.group [p] [] []).suffixed .ahead, ?_⟩
  have hreads := hp.inside.group.suffixed ahead_prints
  rw [Rule.lookahead, bare, text, shapeText]
  rw [List.append_assoc] at hreads
  exact hreads

theorem readable_literal {bytes : Bytes} (h : ∀ b ∈ bytes, isLegible b = true) :
    (literal bytes).Readable := by
  obtain ⟨q, rfl, hq⟩ := exists_quote_of_bytes h
  refine ⟨rfl, rfl, .atom (.literal q) [], ?_⟩
  rw [literal, bare, text, shapeText, ← bare, ← literal]
  refine .atom (fun _ => rfl) (fun _ _ => hq.symm) fun limit hlimit => ?_
  have hlength : q.bytes.length = q.text.length + 2 := by
    simp [Quote.bytes, ascii]
  rw [← hq, hlength] at hlimit
  exact show q.text.length ≤ limit by omega

theorem readable_terminal {set : CharSet} (h : set.Legible) :
    (terminal set).Readable := by
  obtain ⟨a, hrule, hspelled, hfits⟩ := exists_atom_of_set h
  refine ⟨rfl, rfl, .atom a [], ?_⟩
  rw [terminal, bare, text, shapeText]
  exact .atom hrule (fun rest _ => hspelled rest) fun limit hlimit =>
    hfits _ (Nat.lt_of_le_of_lt (Nat.zero_le _) hlimit)

theorem readable_reference (w : Word) : (reference w.name).Readable := by
  have htext : (reference w.name).text = w.letters := by
    rw [reference, bare, text, shapeText]
    exact String.toList_ofList
  refine ⟨rfl, rfl, .atom (.reference w) [], ?_⟩
  have hbytes : utf8 w.letters = w.bytes := (ascii_eq_utf8 w.admitted).symm
  rw [htext]
  refine .atom (fun _ => rfl) (fun _ hrest => ⟨hbytes, hrest⟩) fun limit hlimit => ?_
  rw [hbytes, w.length_bytes] at hlimit
  exact show w.letters.length ≤ limit by omega

theorem readable_spacing (contract : Spacing) : (spacing contract).Readable := by
  refine ⟨rfl, rfl, .atom (.spacing contract) [], ?_⟩
  rw [spacing, bare, text, shapeText]
  refine .atom (fun _ => rfl) (fun _ _ => ?_) fun _ _ => trivial
  cases contract <;> rfl

/-- A repetition is read back, and so is what it repeats: another bound would take the
place of its own. -/
theorem Printable.readable_parts {r : Rule} (h : r.Printable) :
    r.Readable ∧ ∀ child bound, r.shape = .iteration child bound →
      child.Readable ∧ ∀ inner b, child.shape ≠ .iteration inner b := by
  induction h with
  | literal hbytes => exact ⟨readable_literal hbytes, by rintro _ _ ⟨⟩⟩
  | terminal hset => exact ⟨readable_terminal hset, by rintro _ _ ⟨⟩⟩
  | spacing contract => exact ⟨readable_spacing contract, by rintro _ _ ⟨⟩⟩
  | @repeated r bound _ hle hmost ih =>
    obtain ⟨hr, hparts⟩ := ih
    unfold Rule.repeated
    split
    · rename_i child b hshape
      -- `r` itself is gone from here on: "once" leaves its child, another bound its child
      -- repeated
      obtain ⟨hchild, hsingle⟩ := hparts child b hshape
      split
      · exact ⟨hchild, fun inner b h => absurd h (hsingle inner b)⟩
      · rw [hr.name]
        refine ⟨hchild.iteration hle hmost ‹_› hsingle, ?_⟩
        rintro _ _ ⟨⟩
        exact ⟨hchild, hsingle⟩
    · rename_i hsingle
      split
      · exact ⟨hr, hparts⟩
      · refine ⟨hr.iteration hle hmost ‹_› hsingle, ?_⟩
        rintro _ _ ⟨⟩
        exact ⟨hr, hsingle⟩
  | lookahead h ih => exact ⟨ih.1.lookahead, by rintro _ _ ⟨⟩⟩
  | decision =>
    exact ⟨⟨rfl, rfl, .atom .decision [],
      .atom (fun _ => rfl) (fun _ _ => rfl) fun _ _ => trivial⟩, by rintro _ _ ⟨⟩⟩
  | reference w => exact ⟨readable_reference w, by rintro _ _ ⟨⟩⟩
  | selection hlength hrules ih =>
    exact ⟨readable_selection hlength fun r hr => (ih r hr).1, by rintro _ _ ⟨⟩⟩
  | sequence hlength hrules ih =>
    exact ⟨readable_sequence hlength fun r hr => (ih r hr).1, by rintro _ _ ⟨⟩⟩
  | completion =>
    exact ⟨⟨rfl, rfl, .atom .completion [], .atom (fun _ => rfl) (fun _ _ => rfl)
      fun _ _ => trivial⟩, by rintro _ _ ⟨⟩⟩

theorem Printable.readable {r : Rule} (h : r.Printable) : r.Readable :=
  h.readable_parts.1

end Rule

namespace Grammar

/-! ## Lines -/

/-- A line is written as a declaration of the rule that it is printed for. -/
theorem exists_declaration {body : Rule} (w : Word) (h : body.Readable) :
    ∃ d : Declaration, (∀ filed, d.rule? filed = some (Rule.capture w.name body)) ∧
      (∀ {more : List Terse.Token} {rest : Bytes}, Spells more rest →
        Spells (d.tokens ++ more) (utf8 (ruleLine (Rule.capture w.name body)) ++ rest)) ∧
      ∀ limit, (utf8 (ruleLine (Rule.capture w.name body))).length < limit →
        d.Fits (uniform limit) := by
  obtain ⟨p, hp⟩ := h.phrase
  have hname : utf8 w.name.toList = w.bytes := by
    rw [Word.name, String.toList_ofList, ← ascii_eq_utf8 w.admitted]
    rfl
  have hline : utf8 (ruleLine (Rule.capture w.name body)) =
      w.bytes ++ (utf8 [' ', '=', ' '] ++ (utf8 body.text ++ utf8 ['\n'])) := by
    show utf8 (w.name.toList ++ [' ', '=', ' '] ++ body.text ++ ['\n']) = _
    rw [utf8_append, utf8_append, utf8_append, hname, List.append_assoc,
      List.append_assoc]
  refine ⟨⟨w, [p], []⟩, fun filed => ?_, fun {more rest} hmore => ?_,
    fun limit hlimit => ?_⟩
  · rw [Declaration.rule?, elements?, hp.means, elements?, others?]
    exact congrArg some (Rule.named_of_not_isCapture h.isCapture w.isQuiet_name)
  · have hbreak : Gap (utf8 ['\n']) := .blank (by decide) .nothing
    have hblank : Gap (utf8 [' ']) := .blank (by decide) .nothing
    have hbody := (hp.spelled (by rintro _ ⟨⟩; decide) (hmore.gap hbreak)).gap hblank
    have htitle : (Terse.Token.title w).Spelled (w.bytes ++ ([0x20] ++ ascii ['=']))
        (utf8 [' '] ++ (utf8 body.text ++ (utf8 ['\n'] ++ rest))) :=
          ⟨[0x20], by decide, rfl⟩
    have hdeclared := hbody.token htitle
    rw [hline, Declaration.tokens, alternative, alternative, alternatives,
      List.append_nil, List.append_nil]
    simp only [List.append_assoc] at hdeclared ⊢
    exact hdeclared
  · rw [hline] at hlimit
    simp only [List.length_append, w.length_bytes] at hlimit
    refine ⟨show w.letters.length ≤ limit by omega, show 0 < limit by omega,
      show 1 ≤ limit by omega, ?_, ?_⟩
    · rw [Fits, Fits]
      exact ⟨hp.fits (by omega), trivial⟩
    · rw [OthersFit]
      trivial

/-- The lines are written as declarations that stand for the rules. -/
theorem exists_declarations (rules : List Rule)
    (h : ∀ r ∈ rules, ∃ (w : Word) (body : Rule), body.Printable ∧
      r = .capture w.name body) :
    ∃ declarations : List Declaration, (∀ filed, rules? filed declarations = some rules) ∧
      Written declarations (utf8 (Grammar.text ⟨rules⟩)) ∧
      declarations.length ≤ (utf8 (Grammar.text ⟨rules⟩)).length ∧
      ∀ limit, (utf8 (Grammar.text ⟨rules⟩)).length < limit →
        ∀ d ∈ declarations, d.Fits (uniform limit) := by
  induction rules with
  | nil =>
    exact ⟨[], fun _ => rfl, .done (g := []) .nothing, Nat.le_refl _,
      fun _ _ => List.forall_mem_nil _⟩
  | cons r rest ih =>
    obtain ⟨hr, hrest⟩ := List.forall_mem_cons.mp h
    obtain ⟨declarations, hrules, hwritten, hlength, hfits⟩ := ih hrest
    obtain ⟨w, body, hbody, rfl⟩ := hr
    obtain ⟨d, hrule, hspelled, hfitsD⟩ := exists_declaration w hbody.readable
    have htext : Grammar.text ⟨.capture w.name body :: rest⟩ =
        ruleLine (.capture w.name body) ++ Grammar.text ⟨rest⟩ := by
      have hname : (w.name != "") = true := bne_iff_ne.mpr w.name_ne_empty
      rw [Grammar.text, List.filter_cons_of_pos (p := fun r : Rule => r.name != "") hname,
        List.flatMap_cons]
      rfl
    rw [htext, utf8_append, List.length_append]
    refine ⟨d :: declarations, fun filed => ?_, ?_, ?_, fun limit hlimit => ?_⟩
    · rw [rules?, hrule]
      show (rules? _ declarations).bind _ = _
      rw [hrules]
      rfl
    · rw [Written, List.flatMap_cons]
      exact hspelled hwritten
    · have hpos : 0 < (utf8 (ruleLine (.capture w.name body))).length := by
        rw [ruleLine, utf8_append, List.length_append]
        exact Nat.lt_of_lt_of_le (by decide) (Nat.le_add_left 1 _)
      rw [List.length_cons]
      omega
    · exact List.forall_mem_cons.mpr ⟨hfitsD limit (by omega), hfits limit (by omega)⟩

/-- A grammar is read back as it is printed, behind whatever rules there are: its rules
have names, and their bodies are made without names. Limits are no matter if they are
high enough or turn out not to be exceeded. -/
theorem compile_text (g : Grammar)
    (h : ∀ r ∈ g.rules, ∃ (w : Word) (body : Rule), body.Printable ∧
      r = .capture w.name body)
    (filed : List Rule) (limits : Limits)
    (hlimits : (uniform (filed.length + (utf8 g.text).length + 1)).Below limits ∨
      ¬Exceeds (compile limits filed (utf8 g.text))) :
    compile limits filed (utf8 g.text) = .ok (filed ++ g.rules) := by
  obtain ⟨rules⟩ := g
  obtain ⟨declarations, hrules, hwritten, hlength, hfits⟩ := exists_declarations rules h
  refine Shared.compile_of_uniform (fun limit hlimit => ?_) limits hlimits
  exact Resting.declarations (hfits limit (by omega)) (hrules filed)
    (show filed.length + declarations.length ≤ limit by omega) hwritten .between

/-- Two rules with something of every kind, one of them repeated twice over. -/
theorem compile_text_sampler :
    let a : Word := ⟨['a'], by decide, List.forall_mem_singleton.mpr rfl⟩
    let b : Word := ⟨['b'], by decide, List.forall_mem_singleton.mpr rfl⟩
    let set := (CharSet.range 0x3A 0xFF).negate.union (.of [0x41])
    let first := Rule.sequence
      [.symbol 'x', .completion, (Rule.reference b.name).repeated .star]
    let second := Rule.selection [.terminal set, Rule.lookahead (.literal [0x20, 0x79]),
      ((Rule.spacing .mayIndent).repeated .star).repeated ⟨2, 5⟩, .decision]
    let g : Grammar := ⟨[.capture a.name first, .capture b.name second]⟩
    let source := stringBytes "a = ('x' ~ b*)\n" ++ stringBytes
      "b = ([\x7b#0-'9'\x7d'A'\x7b#100-#10FFFF\x7d] | (' y')> | ,\x7b2-5\x7d | <)\n"
    utf8 g.text = source ∧ first.Printable ∧ second.Printable ∧
      ¬Exceeds (compile Limits.usual [] source) ∧
      compile Limits.usual [] source = .ok g.rules := by
  intro a b set first second g source
  have htext : utf8 g.text = source := by decide +kernel
  have hset : set.Legible :=
    ⟨(CharSet.canonical_range _ _).negate.union (CharSet.canonical_of _),
      by decide +kernel, by decide +kernel⟩
  have hfirst : first.Printable := .sequence (by decide) <|
    List.forall_mem_cons.mpr ⟨.literal (List.all_eq_true.mp rfl),
      List.forall_mem_cons.mpr ⟨.completion,
        List.forall_mem_singleton.mpr (.repeated (.reference b) (by decide) (by decide))⟩⟩
  have hsecond : second.Printable := .selection (by decide) <|
    List.forall_mem_cons.mpr ⟨.terminal hset, List.forall_mem_cons.mpr
      ⟨.lookahead (.literal (List.all_eq_true.mp rfl)), List.forall_mem_cons.mpr
        ⟨.repeated (.repeated (.spacing _) (by decide) (by decide)) (by decide)
          (by decide), List.forall_mem_singleton.mpr .decision⟩⟩⟩
  have hlimits : ¬Exceeds (compile Limits.usual [] source) := by
    have hsome : (compile Limits.usual [] source).toOption.isSome = true := by
      decide +kernel
    rintro ⟨buffer, limit, h⟩
    rw [h] at hsome
    cases hsome
  have h := compile_text g (List.forall_mem_cons.mpr ⟨⟨a, first, hfirst, rfl⟩,
    List.forall_mem_singleton.mpr ⟨b, second, hsecond, rfl⟩⟩) [] Limits.usual
    (.inr (htext ▸ hlimits))
  exact ⟨htext, hfirst, hsecond, hlimits, htext ▸ h⟩

end Grammar

end RuleGraph
