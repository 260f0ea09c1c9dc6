import RuleGraph.Proofs.Shared.Notation
import RuleGraph.Proofs.Terse.Growth
import RuleGraph.Proofs.Terse.Writing

/-!
# Shared sources as terse declarations

The tree that the terse reader finds in a shared source: a declaration for each
rule, and nothing for comments, which are gaps. A capture is one of the suffixes
here, the first.

The declarations are written as the source is. They stand for the same rules,
whatever has been declared before, since a shared source includes no rule in
another. And limits as high as the source is long are enough for them.
-/

namespace RuleGraph

namespace Shared

open Hosted (isLetter isLetterOrDigit paddedBytes choice)
open Terse
  (Gap Blanks Closed Ended Laid Spells Word Phrase Declaration ascii
    isWordChar alternative alternatives elements? others? folded appliedAll? OthersFit)

/-! ## Names, texts and suffixes -/

namespace Name

variable (n : Name)

theorem letters_word : ∀ c ∈ n.letters, isWordChar c = true := by
  have hletter {c : Char} (h : isLetter c = true) : isWordChar c = true := by
    simp only [isLetter, Bool.or_eq_true, Bool.and_eq_true, decide_eq_true_eq, beq_iff_eq]
      at h
    rw [Terse.isWordChar_iff]
    rcases h with (h | h) | h
    · exact .inl (.inl h)
    · exact .inr (.inr h)
    · exact .inl (.inr h)
  refine List.forall_mem_cons.mpr ⟨hletter n.first_letter, fun c hc => ?_⟩
  have hword := n.others_word c hc
  rw [isLetterOrDigit, Bool.or_eq_true] at hword
  rcases hword with h | h
  · exact hletter h
  · rw [Bool.and_eq_true, decide_eq_true_eq, decide_eq_true_eq] at h
    exact Terse.isWordChar_iff.mpr (.inr (.inl h))

def word : Word := ⟨n.letters, nofun, n.letters_word⟩

theorem bytes_word : n.word.bytes = n.bytes := Terse.ascii_eq_utf8 n.letters_word

theorem length_word : n.word.letters.length = n.bytes.length := by
  rw [← bytes_word, Word.length_bytes]

end Name

namespace Quote

variable (q : Quote)

def quote : Terse.Quote :=
  ⟨utf8 q.text, fun b hb hsign => q.unquoted_utf8 b hb (Terse.eq_of_sign hsign rfl)⟩

end Quote

variable {more : List Terse.Token} {rest : Bytes}

theorem isBlank_indent (gap : Hosted.Indent) : ∀ b ∈ gap.bytes, isBlank b = true := by
  intro b hb
  simp [isBlank, gap.all_kind b hb]

namespace Suffix

def terse : Suffix → Terse.Suffix
  | optional => .optional
  | star => .star
  | plus => .plus
  | exactly n => .between [.decimal n]
  | between n m => .between [.decimal n, .dash, .decimal m]

theorem spelled_terse (s : Suffix) : s.terse.Spelled s.bytes rest := by
  cases s with
  | optional | star | plus => rfl
  | exactly n => exact ⟨_, rfl, Terse.laid_nothing.decimal n (by decide)⟩
  | between n m =>
    have hlow (rest : Bytes) : (Terse.Mark.decimal n).Spelled (utf8 n.digits)
        (ascii ['-'] ++ rest) := ⟨n.bytes_eq.symm, Terse.ended_dash rfl rest⟩
    have hhigh : (Terse.Mark.decimal m).Spelled (utf8 m.digits) (ascii ['\x7d']) :=
      ⟨m.bytes_eq.symm, by decide⟩
    exact ⟨_, rfl, Terse.laid_dash hlow hhigh⟩

theorem closed_bytes (s : Suffix) : Closed (s.bytes ++ rest) := by
  cases s <;> (rintro _ ⟨⟩; decide)

theorem applied?_terse (filed : List Rule) (r : Rule) (s : Suffix) :
    s.terse.applied? filed r = some (r.repeated s.bound) := by
  cases s with
  | exactly n =>
    show some (r.repeated ⟨n.value, max 0 n.value⟩) = some (r.repeated ⟨n.value, n.value⟩)
    rw [Nat.zero_max]
  | _ => rfl

end Suffix

/-- The capture and the suffix behind something, in this order. -/
def suffixes (capture : Option Name) (suffix : Option Suffix) : List Terse.Suffix :=
  (capture.map fun n => .named n.word).toList ++ (suffix.map Suffix.terse).toList

section Suffixes

variable {capture : Option Name} {suffix : Option Suffix}

theorem closed_suffix (hrest : Closed rest) : Closed (suffixBytes suffix ++ rest) := by
  cases suffix with
  | none => exact hrest
  | some s => exact s.closed_bytes

theorem closed_suffixes (hrest : Closed rest) :
    Closed (captureBytes capture ++ (suffixBytes suffix ++ rest)) := by
  cases capture with
  | none => exact closed_suffix hrest
  | some n =>
    rintro _ ⟨⟩
    decide

theorem spells_suffixes (hrest : Closed rest) (h : Spells more rest) :
    Spells ((suffixes capture suffix).map .suffix ++ more)
      (captureBytes capture ++ (suffixBytes suffix ++ rest)) := by
  have hsuffix : Spells ((suffix.map Suffix.terse).toList.map .suffix ++ more)
      (suffixBytes suffix ++ rest) := by
    cases suffix with
    | none => exact h
    | some s => exact h.token s.spelled_terse
  rw [suffixes, List.map_append, List.append_assoc]
  cases capture with
  | none => exact hsuffix
  | some n =>
    refine hsuffix.token (t := .suffix (.named n.word)) ⟨?_, closed_suffix hrest⟩
    rw [n.bytes_word]
    rfl

theorem appliedAll?_suffixes (filed : List Rule) (r : Rule) :
    appliedAll? filed r (suffixes capture suffix) =
      some (suffixed (captured r capture) suffix) := by
  have hsuffix (r : Rule) : appliedAll? filed r (suffix.map Suffix.terse).toList =
      some (suffixed r suffix) := by
    cases suffix with
    | none => rfl
    | some s =>
      show (s.terse.applied? filed r).bind _ = _
      rw [s.applied?_terse]
      rfl
  cases capture with
  | none => exact hsuffix r
  | some n => exact hsuffix (r.named n.name)

end Suffixes

/-! ## Bodies -/

mutual

def Element.phrase : Element → Phrase
  | .literal q suffix => .atom (.literal q.quote) (suffixes none suffix)
  | .reference n capture suffix => .atom (.reference n.word) (suffixes capture suffix)
  | .spacing contract suffix => .atom (.spacing contract) (suffixes none suffix)
  | .group _ body _ capture suffix =>
    .group body.first body.others (suffixes capture suffix)
  | .completion => .atom .completion []

def Sequence.phrases : Sequence → List Phrase
  | .last e => [e.phrase]
  | .more e _ _ rest => e.phrase :: rest.phrases

def Selection.first : Selection → List Phrase
  | .last s => s.phrases
  | .more s _ _ _ => s.phrases

def Selection.others : Selection → List (List Phrase)
  | .last _ => []
  | .more _ _ _ rest => rest.first :: rest.others

end

mutual

/-- In front of more tokens that a closed rest is written for, the tokens of an
element are written as it is. -/
theorem Element.spells :
    ∀ (e : Element) {more : List Terse.Token} {rest : Bytes}, Closed rest →
    Spells more rest → Spells (e.phrase.tokens ++ more) (e.bytes ++ rest)
  | .literal q suffix, more, rest, hrest, h => by
    rw [Element.phrase, Phrase.tokens, Element.bytes, List.append_assoc]
    exact (spells_suffixes hrest h).token (t := .atom (.literal q.quote)) rfl
  | .reference n capture suffix, more, rest, hrest, h => by
    rw [Element.phrase, Phrase.tokens, Element.bytes, List.append_assoc,
      List.append_assoc]
    exact (spells_suffixes hrest h).token (t := .atom (.reference n.word))
      ⟨n.bytes_word.symm, closed_suffixes hrest⟩
  | .spacing contract suffix, more, rest, hrest, h => by
    rw [Element.phrase, Phrase.tokens, Element.bytes, List.append_assoc]
    refine (spells_suffixes hrest h).token (t := .atom (.spacing contract)) ?_
    cases contract <;> rfl
  | .group before body after capture suffix, more, rest, hrest, h => by
    have hsuffixes : Spells ((suffixes capture suffix).map .suffix ++ more)
      (captureBytes capture ++ (suffixBytes suffix ++ rest)) := spells_suffixes hrest h
    have hclosing : Spells (.closing :: ((suffixes capture suffix).map .suffix ++ more))
        ([0x29] ++ (captureBytes capture ++ (suffixBytes suffix ++ rest))) :=
          hsuffixes.token rfl
    have hclosed :
        Closed ([0x29] ++ (captureBytes capture ++ (suffixBytes suffix ++ rest))) := by
      rintro _ ⟨⟩
      decide
    have hbody := body.spells (Closed.blanks after.all_kind fun _ => hclosed)
      (hclosing.gap (Gap.blanks after.all_kind))
    have hopening : Spells (.opening :: _) ([0x28] ++ _) :=
      (hbody.gap (Gap.blanks before.all_kind)).token rfl
    rw [Element.phrase, Phrase.tokens, Element.bytes]
    simpa only [List.cons_append, List.append_assoc, List.nil_append] using hopening
  | .completion, more, rest, hrest, h => by
    have htoken : Spells (.atom .completion :: more) ([0x7E] ++ rest) := h.token rfl
    exact htoken

theorem Sequence.spells :
    ∀ (s : Sequence) {more : List Terse.Token} {rest : Bytes}, Closed rest →
    Spells more rest → Spells (alternative s.phrases ++ more) (s.bytes ++ rest)
  | .last e, more, rest, hrest, h => by
    rw [Sequence.phrases, alternative, alternative, List.append_nil, Sequence.bytes]
    exact e.spells hrest h
  | .more e gap apart s, more, rest, hrest, h => by
    rw [Sequence.phrases, alternative, Sequence.bytes, List.append_assoc,
      List.append_assoc, List.append_assoc]
    exact e.spells (Closed.blanks (isBlank_indent gap) fun h => absurd h apart)
      ((s.spells hrest h).gap (Gap.blanks (isBlank_indent gap)))

theorem Selection.spells :
    ∀ (s : Selection) {more : List Terse.Token} {rest : Bytes}, Closed rest →
    Spells more rest →
    Spells (alternative s.first ++ (alternatives s.others ++ more)) (s.bytes ++ rest)
  | .last s, more, rest, hrest, h => by
    rw [Selection.first, Selection.others, alternatives, Selection.bytes]
    exact s.spells hrest h
  | .more s before after t, more, rest, hrest, h => by
    have hbar : Spells (.bar :: _) ([0x7C] ++ _) :=
      ((t.spells hrest h).gap (Gap.blanks (isBlank_indent after))).token rfl
    have hclosed : Closed ([0x7C] ++ (after.bytes ++ (t.bytes ++ rest))) := by
      rintro _ ⟨⟩
      decide
    have hfirst := s.spells (Closed.blanks (isBlank_indent before) fun _ => hclosed)
      (hbar.gap (Gap.blanks (isBlank_indent before)))
    rw [Selection.first, Selection.others, alternatives, Selection.bytes]
    simpa only [List.cons_append, List.append_assoc, List.nil_append] using hfirst

end

/-! ## Meaning -/

/-- A body whose first alternative is not empty, as one rule. -/
theorem folded_eq {first : List Rule} (h : first ≠ []) (others : List (List Rule)) :
    folded first others = some (choice ((first :: others).map Rule.chain)) := by
  cases others with
  | nil => cases first with
    | nil => exact absurd rfl h
    | cons r rest => rfl
  | cons next others => cases first <;> rfl

section Meaning

variable (filed : List Rule)

theorem elements?_atom {a : Terse.Atom} {r : Rule} {capture : Option Name}
    {suffix : Option Suffix} (ha : a.rule? filed = some r) :
    (Phrase.atom a (suffixes capture suffix)).elements? filed =
      some [suffixed (captured r capture) suffix] := by
  rw [Phrase.elements?, ha]
  show (appliedAll? filed r _).bind _ = _
  rw [appliedAll?_suffixes]
  rfl

mutual

theorem Element.elements?_phrase : ∀ e : Element,
    e.phrase.elements? filed = some [e.rule]
  | .literal q suffix => by
    rw [Element.phrase, Element.rule]
    exact elements?_atom filed rfl
  | .reference n capture suffix => by
    rw [Element.phrase, Element.rule]
    exact elements?_atom filed rfl
  | .spacing contract suffix => by
    rw [Element.phrase, Element.rule]
    exact elements?_atom filed rfl
  | .group before body after capture suffix => by
    obtain ⟨first, others, hfirst, hothers, hne, hrules⟩ := body.alternatives_eq
    rw [Element.phrase, Phrase.elements?, Element.rule, hfirst, hothers, hrules]
    show (match folded first others with
      | none => _
      | some r => (appliedAll? filed r _).map _) = _
    rw [folded_eq hne]
    show (appliedAll? filed _ _).map _ = _
    rw [appliedAll?_suffixes]
    rfl
  | .completion => rfl

theorem Sequence.elements?_phrases : ∀ s : Sequence,
    elements? filed s.phrases = some s.rules
  | .last e => by
    rw [Sequence.phrases, elements?, e.elements?_phrase, elements?, Sequence.rules]
    rfl
  | .more e gap apart rest => by
    rw [Sequence.phrases, elements?, e.elements?_phrase, rest.elements?_phrases,
      Sequence.rules]
    rfl

/-- What the alternatives of a selection stand for, each as a list of elements. -/
theorem Selection.alternatives_eq : ∀ s : Selection, ∃ first others,
    elements? filed s.first = some first ∧ others? filed s.others = some others ∧
    first ≠ [] ∧
      s.rules = (first :: others).map Rule.chain
  | .last s => by
    rw [Selection.first, Selection.others, Selection.rules]
    exact ⟨s.rules, [], s.elements?_phrases, rfl, s.rules_ne_nil, rfl⟩
  | .more s before after rest => by
    obtain ⟨first, others, hfirst, hothers, -, hrules⟩ := rest.alternatives_eq
    rw [Selection.first, Selection.others, Selection.rules, hrules]
    refine ⟨s.rules, first :: others, s.elements?_phrases, ?_, s.rules_ne_nil, rfl⟩
    rw [others?, hfirst, hothers]
    rfl

end

end Meaning

/-! ## Limits that suffice -/

/-- The same limit for everything. -/
def uniform (n : Nat) : Limits := ⟨n, n, n, n, n⟩

/-- Where high limits lead to some rules, all limits do that are high enough or turn out
not to be exceeded. -/
theorem compile_of_uniform {filed rules : List Rule} {source : Bytes} {size : Nat}
    (h : ∀ limit, size < limit → Terse.compile (uniform limit) filed source = .ok rules)
    (limits : Limits) (hlimits : (uniform (size + 1)).Below limits ∨
      ¬Terse.Exceeds (Terse.compile limits filed source)) :
    Terse.compile limits filed source = .ok rules := by
  rcases hlimits with hbelow | hlimits
  · have hlow := h (size + 1) (Nat.lt_succ_self size)
    have hnot : ¬Terse.Exceeds (Terse.compile (uniform (size + 1)) filed source) := by
      rw [hlow]
      rintro ⟨_, _, ⟨⟩⟩
    rw [(Terse.compile_gauged hbelow filed source).eq_of_not_exceeds hnot]
    exact hlow
  · let limit := limits.text + limits.sequence + limits.alternatives + limits.rules +
      limits.nesting + size + 1
    have hbelow : limits.Below (uniform limit) := by
      constructor <;> (simp only [uniform, limit]; omega)
    rw [← (Terse.compile_gauged hbelow filed source).eq_of_not_exceeds hlimits]
    exact h limit (show size < limit by omega)

variable {limit : Nat}

theorem fits_suffixes {capture : Option Name} {suffix : Option Suffix}
    (h : (captureBytes capture).length ≤ limit) :
    ∀ s ∈ suffixes capture suffix, s.Fits (uniform limit) := by
  refine List.forall_mem_append.mpr ⟨?_, ?_⟩
  · cases capture with
    | none => nofun
    | some n =>
      rw [captureBytes, List.length_cons] at h
      refine List.forall_mem_singleton.mpr (show n.word.letters.length ≤ limit from ?_)
      rw [n.length_word]
      omega
  · cases suffix with
    | none => nofun
    | some s =>
      refine List.forall_mem_singleton.mpr ?_
      cases s with
      | optional | star | plus => trivial
      | exactly n => exact List.forall_mem_singleton.mpr trivial
      | between n m => simp [Suffix.terse, Terse.Suffix.Fits, Terse.Mark.Fits]

theorem Element.bytes_ne_nil (e : Element) : e.bytes ≠ [] := by
  cases e with
  | reference n capture suffix =>
    rw [Element.bytes, Name.bytes, Name.letters, utf8_cons, List.append_assoc]
    exact List.append_ne_nil_of_left_ne_nil String.utf8EncodeChar_ne_nil _
  | spacing contract suffix => cases contract <;> exact List.cons_ne_nil _ _
  | _ => exact List.cons_ne_nil _ _

theorem Sequence.length_phrases_le : ∀ s : Sequence, s.phrases.length ≤ s.bytes.length
  | .last e => by
    rw [Sequence.phrases, Sequence.bytes]
    exact List.length_pos_iff.mpr e.bytes_ne_nil
  | .more e gap apart rest => by
    have hpos := List.length_pos_iff.mpr e.bytes_ne_nil
    have hrest := rest.length_phrases_le
    rw [Sequence.phrases, Sequence.bytes, List.length_cons, List.length_append,
      List.length_append]
    omega

theorem Selection.length_others_le : ∀ s : Selection, s.others.length ≤ s.bytes.length
  | .last s => by
    rw [Selection.others]
    exact Nat.zero_le _
  | .more s before after rest => by
    have hrest := rest.length_others_le
    rw [Selection.others, Selection.bytes]
    simp only [List.length_cons, List.length_append]
    omega

theorem Selection.length_first_le (s : Selection) : s.first.length ≤ s.bytes.length := by
  cases s with
  | last s => rw [Selection.first, Selection.bytes]; exact s.length_phrases_le
  | more s before after rest =>
    have hfirst := s.length_phrases_le
    rw [Selection.first, Selection.bytes, List.length_append]
    omega

mutual

theorem Element.fits_phrase :
    ∀ (e : Element) (nesting : Nat), nesting + e.bytes.length < limit →
    e.phrase.Fits (uniform limit) nesting
  | .literal q suffix, nesting, h => by
    rw [Element.bytes, Quote.bytes] at h
    simp only [List.length_cons, List.length_append] at h
    rw [Element.phrase, Phrase.Fits]
    exact ⟨show (utf8 q.text).length ≤ limit by omega, fits_suffixes (Nat.zero_le _)⟩
  | .reference n capture suffix, nesting, h => by
    rw [Element.bytes] at h
    simp only [List.length_append] at h
    rw [Element.phrase, Phrase.Fits]
    refine ⟨show n.word.letters.length ≤ limit from ?_, fits_suffixes (by omega)⟩
    rw [n.length_word]
    omega
  | .spacing contract suffix, nesting, h => by
    rw [Element.phrase, Phrase.Fits]
    exact ⟨trivial, fits_suffixes (Nat.zero_le _)⟩
  | .group before body after capture suffix, nesting, h => by
    rw [Element.bytes] at h
    simp only [List.length_cons, List.length_append] at h
    obtain ⟨hfirst, hothers⟩ := body.fits_alternatives (nesting + 1) (by omega)
    have hmany := body.length_others_le
    have hlong := body.length_first_le
    rw [Element.phrase, Phrase.Fits]
    exact ⟨show nesting < limit by omega, show _ < limit by omega,
      show _ ≤ limit by omega, hfirst, hothers, fits_suffixes (by omega)⟩
  | .completion, nesting, h => ⟨trivial, nofun⟩

theorem Sequence.fits_phrases : ∀ (s : Sequence) (nesting : Nat),
    nesting + s.bytes.length < limit → Terse.Fits (uniform limit) nesting s.phrases
  | .last e, nesting, h => by
    rw [Sequence.bytes] at h
    rw [Sequence.phrases, Terse.Fits, Terse.Fits]
    exact ⟨e.fits_phrase nesting h, trivial⟩
  | .more e gap apart rest, nesting, h => by
    rw [Sequence.bytes, List.length_append, List.length_append] at h
    rw [Sequence.phrases, Terse.Fits]
    exact ⟨e.fits_phrase nesting (by omega), rest.fits_phrases nesting (by omega)⟩

theorem Selection.fits_alternatives : ∀ (s : Selection) (nesting : Nat),
    nesting + s.bytes.length < limit → Terse.Fits (uniform limit) nesting s.first ∧
      OthersFit (uniform limit) nesting s.others
  | .last s, nesting, h => by
    rw [Selection.bytes] at h
    rw [Selection.first, Selection.others, OthersFit]
    exact ⟨s.fits_phrases nesting h, trivial⟩
  | .more s before after rest, nesting, h => by
    rw [Selection.bytes] at h
    simp only [List.length_cons, List.length_append] at h
    obtain ⟨hfirst, hothers⟩ := rest.fits_alternatives nesting (by omega)
    have hlong := rest.length_first_le
    rw [Selection.first, Selection.others, OthersFit]
    exact ⟨s.fits_phrases nesting (by omega), show _ ≤ limit by omega, hfirst, hothers⟩

end

/-! ## Sources -/

def Line.declaration? : Line → Option Declaration
  | .comment _ _ => none
  | .rule name _ _ body => some ⟨name.word, body.first, body.others⟩

def declarations (lines : List (Line × Hosted.Pad)) : List Declaration :=
  lines.filterMap fun item => item.1.declaration?

theorem spells_rule (name : Name) (before after : Hosted.Indent) (body : Selection)
    (hrest : Closed rest) (h : Spells more rest) :
    Spells (.title name.word ::
      (alternative body.first ++ (alternatives body.others ++ more)))
        ((Line.rule name before after body).bytes ++ rest) := by
  have hblanks : Blanks before.bytes :=
    fun b hb => Terse.sign_of_isBlank (isBlank_indent before b hb)
  have htitle : (Terse.Token.title name.word).Spelled
      (name.bytes ++ (before.bytes ++ [0x3D])) (after.bytes ++ (body.bytes ++ rest)) := by
    refine ⟨before.bytes, hblanks, ?_⟩
    rw [name.bytes_word]
    rfl
  have hbody := (body.spells hrest h).gap (.blanks (isBlank_indent after))
  rw [Line.bytes]
  simpa only [List.cons_append, List.append_assoc, List.nil_append]
    using hbody.token htitle

theorem spells_lines : ∀ {lines : List (Line × Hosted.Pad)},
    (∀ item ∈ lines.dropLast, ∃ b ∈ item.2.bytes, isIndent b = false) →
    Spells ((declarations lines).flatMap Declaration.tokens)
      (paddedBytes Line.bytes lines) := by
  intro lines
  induction lines with
  | nil => exact fun _ => .done (g := []) .nothing
  | cons item rest ih =>
    obtain ⟨l, pad⟩ := item
    intro hapart
    have hrest : Spells ((declarations rest).flatMap Declaration.tokens)
        (pad.bytes ++ paddedBytes Line.bytes rest) := by
      refine (ih fun item hitem => hapart item ?_).gap (.blanks pad.all_kind)
      cases rest with
      | nil => cases hitem
      | cons next rest => exact List.mem_cons_of_mem _ hitem
    rw [paddedBytes]
    cases l with
    | comment text hopen =>
      have hcomment : Gap (ascii ['%'] ++ (text ++ (ascii ['%'] ++ []))) :=
        .comment (fun b hb hsign => hopen b hb (Terse.eq_of_sign hsign rfl)) .nothing
      exact hrest.gap hcomment
    | rule name before after body =>
      have hclosed : Closed (pad.bytes ++ paddedBytes Line.bytes rest) := by
        refine .blanks pad.all_kind fun hpad => ?_
        cases rest with
        | nil => nofun
        | cons next rest =>
          obtain ⟨b, hb, -⟩ := hapart _ List.mem_cons_self
          rw [hpad] at hb
          cases hb
      have hrule := spells_rule name before after body hclosed hrest
      rwa [← List.append_assoc] at hrule

theorem rules?_declarations : ∀ (lines : List (Line × Hosted.Pad)) (filed : List Rule),
    Terse.rules? filed (declarations lines) =
      some (lines.filterMap fun item => item.1.rule?) := by
  intro lines
  induction lines with
  | nil => exact fun _ => rfl
  | cons item rest ih =>
    intro filed
    obtain ⟨l, pad⟩ := item
    cases l with
    | comment text hopen => exact ih filed
    | rule name before after body =>
      obtain ⟨first, others, hfirst, hothers, hne, hrules⟩ := body.alternatives_eq filed
      have hrule : Declaration.rule? filed ⟨name.word, body.first, body.others⟩ =
          some (body.rule.named name.name) := by
        rw [Declaration.rule?, hfirst, hothers, Selection.rule, hrules]
        show some (((folded first others).getD _).named _) = _
        rw [folded_eq hne]
        rfl
      show (Declaration.rule? filed ⟨name.word, body.first, body.others⟩).bind _ = _
      rw [hrule]
      show (Terse.rules? _ (declarations rest)).bind _ = _
      rw [ih]
      rfl

theorem Line.bytes_ne_nil (l : Line) : l.bytes ≠ [] := by
  cases l <;> simp [Line.bytes]

theorem length_declarations_le : ∀ lines : List (Line × Hosted.Pad),
    (declarations lines).length ≤ (paddedBytes Line.bytes lines).length := by
  intro lines
  induction lines with
  | nil => exact Nat.le_refl _
  | cons item rest ih =>
    obtain ⟨l, pad⟩ := item
    have hpos := List.length_pos_iff.mpr l.bytes_ne_nil
    rw [paddedBytes, List.length_append, List.length_append]
    cases l with
    | comment text hopen => exact Nat.le_trans ih (by omega)
    | rule name before after body =>
      show (declarations rest).length + 1 ≤ _
      omega

theorem fits_declarations : ∀ {lines : List (Line × Hosted.Pad)},
    (paddedBytes Line.bytes lines).length < limit →
    ∀ d ∈ declarations lines, d.Fits (uniform limit) := by
  intro lines
  induction lines with
  | nil => nofun
  | cons item rest ih =>
    obtain ⟨l, pad⟩ := item
    intro h
    rw [paddedBytes, List.length_append, List.length_append] at h
    have hrest := ih (by omega)
    cases l with
    | comment text hopen => exact hrest
    | rule name before after body =>
      simp only [Line.bytes, List.length_append, List.length_cons] at h
      have hbody : Terse.Fits (uniform limit) 0 body.first ∧
        OthersFit (uniform limit) 0 body.others := body.fits_alternatives 0 (by omega)
      have hmany := body.length_others_le
      have hlong := body.length_first_le
      refine List.forall_mem_cons.mpr ⟨⟨show name.word.letters.length ≤ limit from ?_,
        show body.others.length < limit by omega,
          show body.first.length ≤ limit by omega, hbody⟩,
        hrest⟩
      rw [name.length_word]
      omega

end Shared

end RuleGraph
