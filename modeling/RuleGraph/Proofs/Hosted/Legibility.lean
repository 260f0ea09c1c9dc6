import RuleGraph.Proofs.Hosted.Inversion
import RuleGraph.Proofs.Hosted.Translation

/-!
# What is read makes sense up to its leaves

A source that is read is a document, and the tokens of a document are read as
its rules unless a leaf is refused. So the grammar of the notation and the
reading of tokens fit together, and what is left to say is which leaves a
document can have. In a source that is text, whatever stands between two quotes
is text too. That leaves the numerals, and these can be found among the tokens.
-/

namespace RuleGraph.Hosted

open Stretch (listing listing_nil listing_append)

/-! ## Numerals among the tokens -/

/-- The number that a token writes, if it is a count or the number of a
character. -/
def numeral? (source : Bytes) (t : Token Label) : Option Nat :=
  let text := (Parse.slice? source t.start t.stop).bind Utf8.text?
  match t.label with
  | .least | .most => text.bind (readDigits 10 0)
  | .codePoint => text.bind fun text => readDigits 16 0 (text.drop 2)
  | _ => none

def Label.isNumeral : Label → Bool
  | .least | .most | .codePoint => true
  | _ => false

def Leaf.number? : Leaf → Option Nat
  | .text _ => none
  | .number value => some value

/-- The numerals of a forest are the numbers among some leaves, and the texts
among them are text if the source is. -/
structure Traced (source : Bytes) (leaves : List Leaf) (forest : List (Stretch Label)) :
    Prop where
  numbers : ∀ depth, (listing depth forest).filterMap (numeral? source) =
    leaves.filterMap Leaf.number?
  texts : (∃ text, source = utf8 text) → ∀ bytes, Leaf.text bytes ∈ leaves →
    ∃ text, bytes = utf8 text

section Tracing

variable {source bytes : Bytes} {offset : Nat} {first second leaves : List Leaf}
  {front back inner : List (Stretch Label)} {label : Label}

theorem Traced.nil : Traced source [] [] :=
  ⟨fun depth => by rw [listing_nil]; rfl, nofun⟩

theorem Traced.append (hfirst : Traced source first front)
    (hsecond : Traced source second back) :
    Traced source (first ++ second) (front ++ back) := by
  constructor
  · intro depth
    rw [listing_append, List.filterMap_append, List.filterMap_append, hfirst.numbers,
      hsecond.numbers]
  · intro htext bytes hmem
    rcases List.mem_append.mp hmem with hmem | hmem
    · exact hfirst.texts htext bytes hmem
    · exact hsecond.texts htext bytes hmem

theorem Traced.around (h : Traced source leaves inner)
    (hlabel : label.isNumeral = false) :
    Traced source leaves [around label offset bytes inner] := by
  refine ⟨fun depth => ?_, h.texts⟩
  have hnone : numeral? source (token label offset bytes depth) = none := by
    unfold numeral?
    dsimp only [token]
    split
    · cases hlabel
    · cases hlabel
    · cases hlabel
    · rfl
  rw [listing_singleton, List.filterMap_cons_none hnone, h.numbers]

theorem Traced.cons {s : Stretch Label} (hfirst : Traced source first [s])
    (hsecond : Traced source second back) : Traced source (first ++ second) (s :: back) :=
  hfirst.append hsecond

theorem Traced.leaf (hlabel : label.isNumeral = false) :
    Traced source [] [RuleGraph.Hosted.around label offset bytes []] :=
  Traced.nil.around hlabel

theorem traced_number {n : Nat}
    (h : ∀ depth, numeral? source (token label offset bytes depth) = some n) :
    Traced source [.number n] [around label offset bytes []] := by
  refine ⟨fun depth => ?_, by simp⟩
  rw [listing_singleton, List.filterMap_cons_some (h depth), listing_nil]
  rfl

theorem bind_text? {text : List Char} (h : Lies source offset (utf8 text)) :
    (Parse.slice? source offset (offset + (utf8 text).length)).bind Utf8.text? =
      some text := by
  rw [h.slice?, Option.bind_some, Utf8.text?_utf8]

theorem traced_count {n : Numeral 10} (h : Lies source offset n.bytes)
    (hlabel : label = .least ∨ label = .most) :
    Traced source [.number n.value] [around label offset n.bytes []] := by
  refine traced_number fun depth => ?_
  have hreads :
      ((Parse.slice? source offset (offset + n.bytes.length)).bind Utf8.text?).bind
        (readDigits 10 0) = some n.value := by
    rw [Numeral.bytes, bind_text? h]
    exact n.reads
  rcases hlabel with rfl | rfl <;> exact hreads

/-- What stands between quotes in a text is a text. -/
theorem exists_text_of_lies {text : List Char}
    (h : Lies (utf8 text) offset (0x27 :: (bytes ++ [0x27]))) : ∃ text',
    bytes = utf8 text' := by
  obtain ⟨before, after, hsource, -⟩ := h
  rw [List.cons_append, List.append_assoc, List.singleton_append] at hsource
  obtain ⟨-, text', hback⟩ := Utf8.exists_texts_around (by decide) hsource.symm
  exact (Utf8.exists_texts_around (by decide) hback).1

theorem traced_text (h : Lies source offset (0x27 :: (bytes ++ [0x27]))) :
    Traced source [.text bytes] [] := by
  refine ⟨fun depth => by rw [listing_nil]; rfl, ?_⟩
  rintro ⟨text, rfl⟩ bytes hmem
  cases List.mem_singleton.mp hmem
  exact exists_text_of_lies h

theorem traced_code {c : Code} (h : Lies source offset c.bytes) :
    Traced source c.leaves [c.stretch offset] := by
  refine Traced.around ?_ rfl
  cases c with
  | quoted glyph unquoted => exact (traced_text h).around rfl
  | point n =>
    refine traced_number fun depth => ?_
    have hbytes : (Code.point n).bytes = utf8 ('U' :: '+' :: n.digits) := by
      rw [utf8_cons, utf8_cons]
      rfl
    have hreads :
        ((Parse.slice? source offset (offset + (Code.point n).bytes.length)).bind
          Utf8.text?).bind (fun text => readDigits 16 0 (text.drop 2)) =
            some n.value := by
      rw [hbytes] at h ⊢
      rw [bind_text? h]
      exact n.reads
    exact hreads

theorem traced_class {c : Class} (h : Lies source offset c.bytes) :
    Traced source c.leaves [c.stretch offset] := by
  cases c with
  | common k => exact .leaf (by cases k <;> rfl)
  | hidden => exact .leaf rfl
  | range low high =>
    exact ((traced_code h.left).cons (traced_code h.right.tail)).around rfl
  | single code => exact traced_code h

theorem traced_ranges {r : Ranges} (h : Lies source offset r.bytes) :
    Traced source r.leaves [r.stretch offset] := by
  refine Traced.around ?_ rfl
  obtain ⟨negated, cls⟩ := r
  cases negated with
  | false => exact traced_class h
  | true => exact Traced.append (.leaf rfl) (traced_class h.tail)

theorem traced_name {n : Name} : Traced source [] [n.stretch offset] :=
  .leaf rfl

theorem traced_capture {c : Capture} : Traced source [] (c.stretches offset) := by
  cases c with
  | none => exact .nil
  | some n => exact traced_name.around rfl

theorem traced_padded {α : Type} {itemBytes : α → Bytes}
    {stretch : Nat → α → Stretch Label} {itemLeaves : α → List Leaf}
    (hitem : ∀ {offset a}, Lies source offset (itemBytes a) →
      Traced source (itemLeaves a) [stretch offset a]) :
    ∀ {items : List (α × Pad)} {offset : Nat},
      Lies source offset (paddedBytes itemBytes items) →
      Traced source (paddedLeaves itemLeaves items)
        (paddedStretches itemBytes stretch offset items) := by
  intro items
  induction items with
  | nil => exact fun _ => .nil
  | cons item rest ih => exact fun h => (hitem h.left).cons (ih h.right.right)

theorem traced_figure {f : Figure} (h : Lies source offset f.bytes) :
    Traced source f.leaves [f.stretch offset] := by
  cases f with
  | ranges r => exact traced_ranges h
  | name n => exact traced_name

theorem traced_terminal {t : Terminal} (h : Lies source offset t.bytes) :
    Traced source t.leaves [t.inner offset] := by
  cases t with
  | ranges r => exact traced_ranges h
  | figures f =>
    have hmembers := traced_padded (fun h => traced_figure h) h.tail.right.left
    refine Traced.around ?_ rfl
    rw [← List.append_nil (Terminal.leaves _)]
    exact hmembers.append traced_capture
  | spacing s => exact Traced.around (.leaf (by cases s <;> rfl)) rfl

theorem traced_occurrence {o : Occurrence} (h : Lies source offset o.bytes) :
    Traced source o.leaves [o.stretch offset] := by
  refine Traced.around ?_ rfl
  cases o with
  | plus | star | qmark => exact .leaf rfl
  | exactly n => exact traced_count h.tail.left (.inl rfl)
  | atLeast n => exact (traced_count h.tail.left (.inl rfl)).cons (.leaf rfl)
  | between n m =>
    exact (traced_count h.tail.left (.inl rfl)).cons
      (Traced.cons (.leaf rfl) (traced_count h.tail.right.tail.left (.inr rfl)))

variable (source)

mutual

theorem Form.traced : ∀ (f : Form) (offset : Nat), Lies source offset f.bytes →
    Traced source f.leaves [around f.label offset f.bytes (f.inner offset)]
  | .distinction, offset, _ => by
    rw [Form.inner]
    exact .leaf rfl
  | .completion, offset, _ => by
    rw [Form.inner]
    exact .leaf rfl
  | .nested bracket before s after capture, offset, h => by
    refine Traced.around ?_ (by cases bracket <;> rfl)
    rw [Form.bytes] at h
    rw [Form.leaves, Form.inner, ← List.append_nil s.leaves]
    exact ((s.traced _ h.tail.right.left).around rfl).cons traced_capture
  | .terminal t, offset, h => by
    refine Traced.around ?_ rfl
    rw [Form.bytes] at h
    rw [Form.leaves, Form.inner]
    exact traced_terminal h
  | .string text unquoted, offset, h => by
    refine Traced.around ?_ rfl
    rw [Form.bytes] at h
    rw [Form.leaves, Form.inner]
    exact traced_text h
  | .ref name capture, offset, _ => by
    refine Traced.around ?_ rfl
    rw [Form.leaves, Form.inner]
    exact traced_name.cons traced_capture

theorem Element.traced : ∀ (e : Element) (offset : Nat), Lies source offset e.bytes →
    Traced source e.leaves [around .element offset e.bytes (e.inner offset)]
  | .mk form none, offset, h => by
    rw [Element.bytes] at h
    rw [Element.leaves, Element.inner]
    exact (form.traced offset h).around rfl
  | .mk form (some o), offset, h => by
    rw [Element.bytes] at h
    rw [Element.leaves, Element.inner]
    exact ((form.traced offset h.left).cons (traced_occurrence h.right)).around rfl

theorem Sequence.traced : ∀ (s : Sequence) (offset : Nat), Lies source offset s.bytes →
    Traced source s.leaves (s.inner offset)
  | .last e, offset, h => by
    rw [Sequence.bytes] at h
    rw [Sequence.leaves, Sequence.inner]
    exact e.traced offset h
  | .more e gap rest, offset, h => by
    rw [Sequence.bytes] at h
    rw [Sequence.leaves, Sequence.inner]
    exact (e.traced offset h.left).cons (rest.traced _ h.right.right)

theorem Selection.traced : ∀ (s : Selection) (offset : Nat), Lies source offset s.bytes →
    Traced source s.leaves (s.inner offset)
  | .last s, offset, h => by
    rw [Selection.bytes] at h
    rw [Selection.leaves, Selection.inner]
    exact (s.traced offset h).around rfl
  | .more s before after rest, offset, h => by
    rw [Selection.bytes] at h
    rw [Selection.leaves, Selection.inner]
    exact ((s.traced offset h.left).around rfl).cons
      (rest.traced _ h.right.right.tail.right)

end

theorem Member.traced (m : Member) (offset : Nat) (h : Lies source offset m.bytes) :
    Traced source m.leaves [m.stretch offset] := by
  refine Traced.around ?_ rfl
  cases m with
  | comment text hopen => exact .leaf rfl
  | rule name before after body =>
    refine Traced.around ?_ rfl
    exact traced_name.cons ((body.traced source _ h.right.right.tail.right).around rfl)

theorem Document.traced (d : Document) : Traced d.bytes d.leaves d.forest := by
  have hlies : Lies d.bytes 0 (d.before.bytes ++ paddedBytes Member.bytes d.members) :=
    ⟨[], [], (List.append_nil _).symm, rfl⟩
  have hmembers := traced_padded (fun h => Member.traced d.bytes _ _ h) hlies.right
  rw [Nat.zero_add] at hmembers
  exact hmembers.around rfl

end Tracing

/-- In a text, a document is refused for the size of a numeral only. -/
theorem Document.not_sound_iff (d : Document) (htext : ∃ text, d.bytes = utf8 text) :
    ¬Sound d.leaves ↔
      ∃ t ∈ listing 0 d.forest, ∃ n, numeral? d.bytes t = some n ∧ maxWord < n := by
  have hnumbers :
      (∃ t ∈ listing 0 d.forest, ∃ n, numeral? d.bytes t = some n ∧ maxWord < n) ↔
        ∃ n ∈ d.leaves.filterMap Leaf.number?, maxWord < n := by
    rw [← d.traced.numbers 0]
    simp only [List.mem_filterMap]
    constructor
    · rintro ⟨t, ht, n, hn, hlt⟩
      exact ⟨n, ⟨t, ht, hn⟩, hlt⟩
    · rintro ⟨n, ⟨t, ht, hn⟩, hlt⟩
      exact ⟨t, ht, n, hn, hlt⟩
  rw [hnumbers, Sound]
  simp only [Classical.not_forall, List.mem_filterMap, exists_prop]
  constructor
  · rintro ⟨leaf, hmem, hsound⟩
    cases leaf with
    | text bytes => exact absurd (d.traced.texts htext bytes hmem) hsound
    | number n => exact ⟨n, ⟨.number n, hmem, rfl⟩, Nat.not_le.mp hsound⟩
  · rintro ⟨n, ⟨leaf, hmem, hn⟩, hlt⟩
    cases leaf with
    | text bytes => cases hn
    | number value =>
      cases hn
      exact ⟨.number n, hmem, Nat.not_le.mpr hlt⟩

/-- Whatever is read from a source makes rules or holds a leaf that is refused,
and in a text that can only be a numeral that is too large for a word. -/
theorem rulesOf_parse (source : Bytes) (p : Parse Label) (h : parse source = .ok p) :
    (∀ e, rulesOf p = .error e → ∃ label index, e = .illegible label index) ∧
      (∀ text, source = utf8 text →
        ((∃ e, rulesOf p = .error e) ↔
          ∃ t ∈ p.overlay.tokens.toList, ∃ n, numeral? source t = some n ∧
          maxWord < n)) := by
  obtain ⟨d, rfl, rfl⟩ := exists_document_of_parse h
  have hsettles := rulesOf_document d d.parsed rfl (List.toList_toArray)
  constructor
  · intro e he
    by_cases hsound : Sound d.leaves
    · rw [hsettles.1 hsound] at he
      cases he
    · obtain ⟨label, index, herror⟩ := hsettles.2 hsound
      rw [herror] at he
      cases he
      exact ⟨label, index, rfl⟩
  · intro text htext
    show _ ↔ ∃ t ∈ (listing 0 d.forest).toArray.toList, _
    rw [List.toList_toArray, ← d.not_sound_iff ⟨text, htext⟩]
    constructor
    · rintro ⟨e, he⟩ hsound
      rw [hsettles.1 hsound] at he
      cases he
    · intro hsound
      obtain ⟨label, index, herror⟩ := hsettles.2 hsound
      exact ⟨_, herror⟩

/-- What is read from `r=a{4294967296}`. -/
def largeCount : Parse Label :=
  ⟨stringBytes "r=a\x7b4294967296\x7d",
    ⟨#[⟨.grammar, 0, 15, 0⟩, ⟨.member, 0, 15, 1⟩, ⟨.rule, 0, 15, 2⟩, ⟨.name, 0, 1, 3⟩,
      ⟨.selection, 2, 15, 3⟩, ⟨.sequence, 2, 15, 4⟩, ⟨.element, 2, 15, 5⟩,
      ⟨.ref, 2, 3, 6⟩, ⟨.name, 2, 3, 7⟩, ⟨.occurrence, 3, 15, 6⟩, ⟨.least, 4, 14, 7⟩],
      []⟩, 15⟩

theorem parse_largeCount : parse largeCount.source = .ok largeCount := by
  have hsome : (parse largeCount.source).toOption = some largeCount := by
    rw [parse, metaGrammar_eq]
    decide +kernel
  cases hparse : parse largeCount.source with
  | error e => rw [hparse] at hsome; cases hsome
  | ok p => rw [hparse] at hsome; cases hsome; rfl

theorem rulesOf_parse_large_count :
    parse largeCount.source = .ok largeCount ∧
      largeCount.source = utf8 "r=a\x7b4294967296\x7d".toList ∧
      ∃ label index, rulesOf largeCount = .error (.illegible label index) := by
  have hparts := rulesOf_parse largeCount.source largeCount parse_largeCount
  have hlarge : ∃ t ∈ largeCount.overlay.tokens.toList, ∃ n,
      numeral? largeCount.source t = some n ∧ maxWord < n :=
    ⟨⟨.least, 4, 14, 7⟩, by decide, 4294967296, by decide +kernel, by decide⟩
  obtain ⟨e, he⟩ := (hparts.2 _ rfl).mpr hlarge
  obtain ⟨label, index, rfl⟩ := hparts.1 e he
  exact ⟨parse_largeCount, rfl, label, index, he⟩

end RuleGraph.Hosted
