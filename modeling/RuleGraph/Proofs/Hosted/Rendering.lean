import RuleGraph.Proofs.Hosted.Recognition
import RuleGraph.Proofs.Hosted.Inversion

/-!
# A clear document is read as it is written

Not every document is read as the tree that it was written from. Two elements
with nothing between them may be one, two rules on one line are one rule, and a
string of a single character is a terminal. Where white space stands at these
places and no string is that short, a document is clear, and the grammar finds
in its bytes the tree that they come from.

A form is read in front of what is `Trailing`, an element in front of what ends
it, and a sequence or a selection in front of white space with a sign of its end
behind it. The last of these is what stops the repetitions: the next round skips
the white space and finds no element, or no bar.
-/

namespace RuleGraph.Hosted

open Matching

variable {offset room : Nat} {bytes input rest : Bytes} {found : List (Stretch String)}

/-! ## Clear documents -/

mutual

/-- A string is clear if it is not a character in quotes. -/
def Form.Clear : Form → Prop
  | .distinction | .completion | .ref _ _ => True
  | .nested _ _ selection _ _ => selection.Clear
  | .terminal t => t.Clear
  | .string text _ => ∀ g : Utf8.Glyph, text ≠ g.bytes

def Element.Clear : Element → Prop
  | .mk form _ => form.Clear

def Sequence.Clear : Sequence → Prop
  | .last e => e.Clear
  | .more e gap rest => e.Clear ∧ gap.bytes ≠ [] ∧ rest.Clear

def Selection.Clear : Selection → Prop
  | .last s => s.Clear
  | .more s _ _ rest => s.Clear ∧ rest.Clear

end

def Member.Clear : Member → Prop
  | .comment _ _ => True
  | .rule _ _ _ body => body.Clear

/-- All that a document holds is clear, and every member but the last has a
line break behind it. With a blank between elements and between figures, and a
line for each member, only strings of a single character are not. -/
structure Document.Clear (d : Document) : Prop where
  members : ∀ item ∈ d.members, item.1.Clear
  lines : ∀ item ∈ d.members.dropLast, ∃ b ∈ item.2.bytes, isIndent b = false

/-! ## What comes after -/

/-- What may follow an element. -/
def parting : List Range :=
  only [0x29, 0x5D, 0x7C] ++ blanks

def selectionEnd : List Range :=
  only [0x0A, 0x0D, 0x29, 0x5D]

def sequenceEnd : List Range :=
  ⟨0x7C, 0x7C⟩ :: selectionEnd

theorem trailing_of_parting (h : Next parting rest) : Trailing rest :=
  ⟨h.avoids (by decide), unpointed_of_next h rfl⟩

theorem trailing_occurrence (o : Occurrence) (h : Next parting rest) :
    Trailing (o.bytes ++ rest) := by
  refine ⟨by cases o <;> exact avoids_cons.mpr rfl, ?_⟩
  rintro tail htail
  cases o with
  | plus =>
    obtain ⟨-, rfl⟩ := List.cons.inj htail
    exact h.avoids (by decide)
  | star | qmark | exactly _ | atLeast _ | between _ _ => cases htail

theorem parting_of_end (h : Next sequenceEnd (rest.dropWhile isIndent)) :
    Next parting rest := by
  cases rest with
  | nil => exact next_nil
  | cons b rest =>
    rw [List.dropWhile_cons] at h
    split at h
    · rename_i hindent
      rw [isIndent_eq] at hindent
      exact next_cons.mpr (any_of_covered (by decide) hindent)
    · exact h.mono (by decide)

/-- Bytes that are indents or an end come first, and if none of them is an end,
an end is behind them. -/
theorem next_end {ranges : List Range}
    (hbytes : ∀ b ∈ bytes, isIndent b = true ∨ ranges.any (·.holds b.toNat) = true)
    (hrest : (∀ b ∈ bytes, isIndent b = true) → Next ranges (rest.dropWhile isIndent)) :
    Next ranges ((bytes ++ rest).dropWhile isIndent) := by
  induction bytes with
  | nil => exact hrest (List.forall_mem_nil _)
  | cons b bytes ih =>
    obtain ⟨hb, hbytes⟩ := List.forall_mem_cons.mp hbytes
    rw [List.cons_append, List.dropWhile_cons]
    split
    · rename_i hindent
      exact ih hbytes fun h => hrest (List.forall_mem_cons.mpr ⟨hindent, h⟩)
    · rename_i hindent
      exact next_cons.mpr (hb.resolve_left hindent)

/-- White space ends a selection if there is a line break in it, or an end
behind it. -/
theorem next_selectionEnd {pad : Pad}
    (h : (∀ b ∈ pad.bytes, isIndent b = true) →
      Next selectionEnd (rest.dropWhile isIndent)) :
    Next selectionEnd ((pad.bytes ++ rest).dropWhile isIndent) := by
  refine next_end (fun b hb => ?_) h
  have hblank := pad.all_kind b hb
  simp only [isBlank, Bool.or_eq_true, beq_iff_eq] at hblank
  rcases hblank with (hindent | rfl) | rfl
  · exact .inl hindent
  · exact .inr rfl
  · exact .inr rfl

/-- A round that begins with white space is refused for what is behind it. -/
theorem indented_refused {rules : List Rule}
    (h : ∀ offset,
      Refuses metaGrammar (.elements false rules) offset (rest.dropWhile isIndent)) :
    Refuses metaGrammar (.rule (inTurn (space .mayIndent :: rules))) offset rest := by
  have hindent : Takes metaGrammar (.rule (space .mayIndent)) offset
      (rest.takeWhile isIndent) (rest.dropWhile isIndent) [] :=
    takes_indent_iff.mpr
      ⟨takeWhile_length_iff.mp (by rw [List.takeWhile_append_dropWhile]), rfl⟩
  have hrefuses := refuses_later (by simp) hindent (h _)
  rw [List.takeWhile_append_dropWhile] at hrefuses
  exact .sequence hrefuses

/-! ## Strings -/

theorem quote_refused :
    Refuses metaGrammar (.rule (one unquotedSet)) offset (0x27 :: rest) := by
  refine refuses_terminal ?_
  rw [terminalWidth, Utf8.unit?, Utf8.scalar?, Utf8.lead_one (by decide)]
  rfl

/-- A text without a quote begins with a glyph, and a quote behind the text
makes no difference to it. -/
theorem exists_first_glyph {text : Bytes} (hne : text ≠ [])
    (hunquoted : ∀ b ∈ text, b ≠ 0x27) (rest : Bytes) : ∃ (g : Utf8.Glyph) (more : Bytes),
    text = g.bytes ++ more ∧ ∀ offset,
      Takes metaGrammar (.rule (one unquotedSet)) offset g.bytes
        (more ++ 0x27 :: rest) [] := by
  obtain ⟨b, others, rfl⟩ := List.exists_cons_of_ne_nil hne
  cases hunit : Utf8.unit? (b :: others ++ 0x27 :: rest) with
  | none => cases hunit
  | some unit =>
    obtain ⟨code, tail⟩ := unit
    obtain ⟨g, rest', rfl, heq, htail⟩ := Utf8.exists_glyph_of_unit? hunit
    have hcode : g.code ≠ 0x27 := by
      intro hquote
      rcases g.bytes_plain_or_high with ⟨-, hbytes⟩ | ⟨hge, -⟩
      · rw [hbytes, hquote] at heq
        injection heq with hb _
        exact hunquoted b List.mem_cons_self hb
      · omega
    obtain ⟨more, htext, rfl⟩ : ∃ more, b :: others = g.bytes ++ more ∧
        rest' = more ++ 0x27 :: rest := by
      rcases List.append_eq_append_iff.mp heq with ⟨more, hbytes, hrest⟩ | h
      · cases more with
        | nil => exact ⟨[], by rw [hbytes, List.append_nil, List.append_nil], hrest.symm⟩
        | cons q more =>
          obtain ⟨rfl, -⟩ := List.cons.inj hrest
          exact absurd rfl (quote_not_mem_glyph hcode 0x27 (by simp [hbytes]))
      · exact h
    refine ⟨g, more, htext, fun offset => takes_terminal_iff.mpr ⟨?_, rfl⟩⟩
    rw [terminalWidth, ← heq, hunit, ← htail]
    exact if_pos (unquotedSet_contains hcode)

theorem text_found : ∀ {text : Bytes} {room offset : Nat}, (∀ b ∈ text, b ≠ 0x27) →
    text.length ≤ room →
    Takes metaGrammar (.rounds (one unquotedSet) 0 room) offset text
      (0x27 :: rest) [] := by
  intro text
  induction hlength : text.length using Nat.strongRecOn generalizing text with
  | ind length ih =>
    -- By the length, since a glyph may be of several bytes.
    intro room offset hunquoted hroom
    by_cases hne : text = []
    · subst hne
      exact takes_no_round quote_refused
    · obtain ⟨g, more, rfl, hfirst⟩ := exists_first_glyph hne hunquoted rest
      have hpos := List.length_pos_iff.mpr g.bytes_ne_nil
      rw [List.length_append] at hlength
      obtain ⟨room, rfl⟩ : ∃ room', room = room' + 1 := ⟨room - 1, by omega⟩
      exact takes_round g.bytes_ne_nil (hfirst offset) (ih more.length (by omega) rfl
        (fun b hb => hunquoted b (List.mem_append_right _ hb)) (by omega))

/-- A string is not a character in quotes, since no quote is behind its first
glyph. -/
theorem symbol_refused {text : Bytes} (hunquoted : ∀ b ∈ text, b ≠ 0x27)
    (hclear : ∀ g : Utf8.Glyph, text ≠ g.bytes) :
    Refuses metaGrammar (.rule ⟨"", metaShape .symbol⟩) offset
      (0x27 :: (text ++ [0x27]) ++ rest) := by
  have hopen : Takes metaGrammar (.rule (one quoteSet)) offset [0x27]
      (text ++ 0x27 :: rest) [] :=
    takes_quote_iff.mpr ⟨rfl, rfl⟩
  have hlater : Refuses metaGrammar (.elements false [one unquotedSet, one quoteSet])
      (offset + 1) (text ++ 0x27 :: rest) := by
    by_cases hne : text = []
    · subst hne
      exact .stuck (by simp) quote_refused
    · obtain ⟨g, more, rfl, hfirst⟩ := exists_first_glyph hne hunquoted rest
      rw [List.append_assoc]
      refine refuses_later (by simp) (hfirst _) (.stuck (by simp)
        (refuses_terminal (plain_quoteSet.terminalWidth_eq_none ?_)))
      cases more with
      | nil => exact absurd (List.append_nil _) (hclear g)
      | cons b more =>
        rintro _ ⟨⟩
        exact Bool.eq_false_iff.mpr fun hb =>
          hunquoted b (by simp) (quoteSet_contains_iff.mp hb)
  rw [List.cons_append, List.append_assoc]
  exact .sequence (refuses_later (by simp) hopen hlater)

theorem string_found {text : Bytes} (hunquoted : ∀ b ∈ text, b ≠ 0x27)
    (hlength : (Form.string text hunquoted).bytes.length ≤ maxWord) :
    Finds .string offset (Form.string text hunquoted).bytes rest [] := by
  rw [Form.bytes] at hlength ⊢
  simp only [List.length_cons, List.length_append] at hlength
  have hclose : Takes metaGrammar (.rule (one quoteSet)) (offset + 1 + text.length)
      [0x27] rest [] :=
    takes_quote_iff.mpr ⟨rfl, rfl⟩
  have hbody : Takes metaGrammar (.rule (many (one unquotedSet) .star)) (offset + 1) text
      ([0x27] ++ rest) [] :=
    takes_iteration_iff.mpr (text_found hunquoted (show text.length ≤ maxWord by omega))
  have hopen : Takes metaGrammar (.rule (one quoteSet)) offset [0x27]
      ((text ++ [0x27]) ++ rest) [] := takes_quote_iff.mpr ⟨rfl, rfl⟩
  exact finds_of_takes
    (takes_sequence_iff.mpr (hopen.element (by simp) (hbody.element (by simp)
      (hclose.alone (by simp)))))

/-! ## Forms -/

abbrev formRules : List Rule :=
  [part .distinction, part .completion, part .group, part .option, part .terminal,
    part .string, part .ref]

theorem Terminal.next (t : Terminal) : Next (terminalFirst none) (t.bytes ++ rest) := by
  cases t with
  | ranges r => exact r.next.mono (by decide)
  | figures f => exact next_cons.mpr rfl
  | spacing s => exact (spacing_next s).mono (by decide)

theorem Form.next (f : Form) : Next formFirst (f.bytes ++ rest) := by
  cases f with
  | distinction | completion | string _ _ => exact next_cons.mpr rfl
  | nested k _ _ _ _ => cases k <;> exact next_cons.mpr rfl
  | terminal t => exact t.next.mono (by decide)
  | ref n c =>
    rw [Form.bytes, List.append_assoc]
    exact n.next.mono (by decide)

theorem Element.next (e : Element) : Next formFirst (e.bytes ++ rest) := by
  obtain ⟨form, _ | o⟩ := e
  · rw [Element.bytes]
    exact form.next
  · rw [Element.bytes, List.append_assoc]
    exact form.next

theorem Sequence.next (s : Sequence) : Next formFirst (s.bytes ++ rest) := by
  cases s with
  | last e => rw [Sequence.bytes]; exact e.next
  | more e _ _ => rw [Sequence.bytes, List.append_assoc]; exact e.next

theorem Selection.next (s : Selection) : Next formFirst (s.bytes ++ rest) := by
  cases s with
  | last s => rw [Selection.bytes]; exact s.next
  | more s _ _ _ => rw [Selection.bytes, List.append_assoc]; exact s.next

theorem ref_found {n : Name} {c : Capture} (hrest : Avoids attached rest)
    (hlength : (Form.ref n c).bytes.length ≤ maxWord) :
    Finds .ref offset (Form.ref n c).bytes rest ((Form.ref n c).inner offset) := by
  rw [Form.bytes, List.length_append] at hlength
  have hcapture : Takes metaGrammar (.rule (many (part .capture) .optional))
      (offset + n.bytes.length) c.bytes rest (spelled (c.stretches _)) :=
    capture_found hrest (by omega)
  have hname : Takes metaGrammar (.rule (part .name)) offset n.bytes (c.bytes ++ rest)
      (spelled [n.stretch offset]) := by
    refine name_found ?_ (by omega)
    cases c with
    | none => exact Avoids.contains (hrest.mono (by decide))
    | some _ => exact Avoids.contains (avoids_cons.mpr rfl)
  rw [Form.bytes, Form.inner]
  exact finds_of_takes (takes_sequence_iff.mpr (hname.element (by simp)
    (hcapture.alone (by simp))))

/-- Brackets around a selection that is found between them. -/
theorem nested_found (k : Bracket) {before after : Pad} {s : Selection} {c : Capture}
    (hs : Finds .selection (offset + 1 + before.bytes.length) s.bytes
      (after.bytes ++ k.closing :: (c.bytes ++ rest))
      (s.inner (offset + 1 + before.bytes.length)))
    (hrest : Avoids attached rest)
    (hlength : (Form.nested k before s after c).bytes.length ≤ maxWord) :
    Finds k.label offset (Form.nested k before s after c).bytes rest
      ((Form.nested k before s after c).inner offset) := by
  rw [Form.bytes] at hlength ⊢
  simp only [List.length_cons, List.length_append] at hlength
  have hcapture : Takes metaGrammar (.rule (many (part .capture) .optional))
      (offset + 1 + before.bytes.length + s.bytes.length + after.bytes.length + 1)
        c.bytes rest
      (spelled (c.stretches _)) := capture_found hrest (by omega)
  have hclose : Takes metaGrammar (.rule (lit [k.closing]))
      (offset + 1 + before.bytes.length + s.bytes.length + after.bytes.length) [k.closing]
      (c.bytes ++ rest) [] := takes_literal
  have hafter : Takes metaGrammar (.rule (space .mayBreak))
      (offset + 1 + before.bytes.length + s.bytes.length) after.bytes
      (([k.closing] ++ c.bytes) ++ rest) [] :=
        pad_found (by cases k <;> exact avoids_cons.mpr rfl)
  have hselection : Takes metaGrammar (.rule (part .selection))
      (offset + 1 + before.bytes.length)
      s.bytes ((after.bytes ++ ([k.closing] ++ c.bytes)) ++ rest)
      (spelled [around .selection (offset + 1 + before.bytes.length) s.bytes
        (s.inner (offset + 1 + before.bytes.length))]) := by
    rw [List.append_assoc]
    exact hs
  have hbefore : Takes metaGrammar (.rule (space .mayBreak)) (offset + 1) before.bytes
      ((s.bytes ++ (after.bytes ++ ([k.closing] ++ c.bytes))) ++ rest) [] :=
    pad_found (by rw [List.append_assoc]; exact s.next.avoids (by decide))
  have hopen : Takes metaGrammar (.rule (lit [k.opening])) offset [k.opening]
      ((before.bytes ++ (s.bytes ++ (after.bytes ++ ([k.closing] ++ c.bytes)))) ++ rest)
        [] :=
    takes_literal
  have hrules : metaShape k.label =
      .sequence [lit [k.opening], space .mayBreak, part .selection,
        space .mayBreak, lit [k.closing], many (part .capture) .optional] none := by
        cases k <;> rfl
  refine finds_of_takes ?_
  rw [hrules, Form.inner]
  exact takes_sequence_iff.mpr (hopen.element (by simp) (hbefore.element (by simp)
    (hselection.element (by simp) (hafter.element (by simp) (hclose.element (by simp)
      (hcapture.alone (by simp)))))))

theorem nested_chosen (k : Bracket) {tail : Bytes}
    (h : Takes metaGrammar (.rule (part k.label))
      offset (k.opening :: tail) rest found) :
    Takes metaGrammar (.rule (oneOf formRules)) offset (k.opening :: tail)
      rest found := by
  cases k with
  | round =>
    exact takes_choice_of_first none (only [0x28]) [.distinction, .completion] rfl
      (by decide) (next_cons.mpr rfl) nofun h
  | square =>
    exact takes_choice_of_first none (only [0x5B])
      [.distinction, .completion, .group] rfl (by decide)
      (next_cons.mpr rfl) nofun h

theorem string_chosen {text : Bytes} (hunquoted : ∀ b ∈ text, b ≠ 0x27)
    (hclear : ∀ g : Utf8.Glyph, text ≠ g.bytes)
    (hlength : (Form.string text hunquoted).bytes.length ≤ maxWord) :
    Takes metaGrammar (.rule (oneOf formRules)) offset
      (Form.string text hunquoted).bytes rest
      (spelled [around .string offset (Form.string text hunquoted).bytes []]) := by
  have hstring : Finds .string offset (Form.string text hunquoted).bytes rest [] :=
    string_found hunquoted hlength
  rw [Form.bytes] at hstring ⊢
  exact takes_choice_of_first (some .symbol) (only [0x27])
    [.distinction, .completion, .group, .option, .terminal] rfl
    (by decide) (next_cons.mpr rfl)
      (by rintro _ ⟨⟩; exact symbol_refused hunquoted hclear) hstring

theorem ref_chosen {n : Name} {c : Capture} (hrest : Trailing rest)
    (hlength : (Form.ref n c).bytes.length ≤ maxWord) :
    Takes metaGrammar (.rule (oneOf formRules)) offset (Form.ref n c).bytes rest
      (spelled
        [around .ref offset (Form.ref n c).bytes ((Form.ref n c).inner offset)]) := by
  have href : Finds .ref offset (Form.ref n c).bytes rest ((Form.ref n c).inner offset) :=
    ref_found hrest.detached hlength
  have hunpointed : Unpointed (c.bytes ++ rest) := by
    cases c with
    | none => exact hrest.unpointed
    | some n => nofun
  rw [Form.bytes] at href ⊢
  refine takes_choice_of_first (some .codePoint) nameFirst [.distinction, .completion,
    .group, .option, .terminal, .string] rfl (by decide) ?_ ?_ href
  · rw [List.append_assoc]
    exact n.next
  · rintro _ ⟨⟩
    rw [List.append_assoc]
    exact codePoint_refused hunpointed

/-! ## Elements, sequences and selections -/

theorem element_found {f : Form} {o : Option Occurrence} (hrest : Next parting rest)
    (hlength : (Element.mk f o).bytes.length ≤ maxWord)
    (hf : ∀ {rest}, Trailing rest →
      Takes metaGrammar (.rule (oneOf formRules)) offset f.bytes rest
      (spelled [around f.label offset f.bytes (f.inner offset)])) :
    Finds .element offset (Element.mk f o).bytes rest
      ((Element.mk f o).inner offset) := by
  refine finds_of_takes (takes_sequence_iff.mpr ?_)
  cases o with
  | none =>
    have hnone : Takes metaGrammar (.elements false [many (part .occurrence) .optional])
        (offset + f.bytes.length) [] rest [] :=
      Takes.alone (takes_optional_none (refuses_of_next hrest (by decide))) (by simp)
    have hform : Takes metaGrammar (.rule (oneOf formRules)) offset f.bytes ([] ++ rest)
        (spelled [around f.label offset f.bytes (f.inner offset)]) :=
          hf (trailing_of_parting hrest)
    have htakes := hform.element (by simp) hnone
    rw [List.append_nil, List.append_nil] at htakes
    rw [Element.bytes, Element.inner]
    exact htakes
  | some o =>
    rw [Element.bytes, List.length_append] at hlength
    have hbound : Takes metaGrammar (.rule (many (part .occurrence) .optional))
        (offset + f.bytes.length) o.bytes rest (spelled [o.stretch _]) :=
      takes_optional_some (by cases o <;> nofun) (occurrence_found (by omega))
    rw [Element.bytes, Element.inner]
    exact Takes.element (hf (trailing_occurrence o hrest)) (by simp)
      (hbound.alone (by simp))

abbrev elementRound : Rule := inTurn [space .mayIndent, part .element]

abbrev sequenceRound :
    Rule := inTurn [space .mayIndent, lit [0x7C], space .mayIndent, part .sequence]

theorem elementRound_refused (h : Next sequenceEnd (rest.dropWhile isIndent)) :
    Refuses metaGrammar (.rule elementRound) offset rest :=
  indented_refused fun _ => .stuck (by simp) (refuses_of_next h (by decide))

theorem sequenceRound_refused (h : Next selectionEnd (rest.dropWhile isIndent)) :
    Refuses metaGrammar (.rule sequenceRound) offset rest := by
  have hbar : Avoids (only [0x7C]) (rest.dropWhile isIndent) := h.avoids (by decide)
  exact indented_refused fun _ =>
    .stuck (by simp) (refuses_literal (hbar.not_prefix rfl []))

theorem sequence_found {s : Sequence} (h : Takes metaGrammar
      (.elements false [part .element, many elementRound .star]) offset s.bytes rest
      (spelled (s.inner offset))) :
      Finds .sequence offset s.bytes rest (s.inner offset) :=
  finds_of_takes (takes_sequence_iff.mpr h)

theorem selection_found {s : Selection} (h : Takes metaGrammar
      (.elements false [part .sequence, many sequenceRound .star]) offset s.bytes rest
      (spelled (s.inner offset))) :
      Finds .selection offset s.bytes rest (s.inner offset) :=
  finds_of_takes (takes_sequence_iff.mpr h)

theorem elementRound_found {gap : Indent}
    (hnext : Avoids indents (bytes ++ rest))
    (h : Takes metaGrammar (.rule (part .element)) (offset + gap.bytes.length) bytes
      rest found) :
    Takes metaGrammar (.rule elementRound) offset (gap.bytes ++ bytes) rest found := by
  have hgap : Takes metaGrammar (.rule (space .mayIndent)) offset gap.bytes
      (bytes ++ rest) [] :=
    indent_found hnext
  exact takes_sequence_iff.mpr (hgap.element (by simp) (h.alone (by simp)))

theorem sequenceRound_found {before after : Indent}
    (hnext : Avoids indents (bytes ++ rest))
    (h : Takes metaGrammar (.rule (part .sequence))
      (offset + before.bytes.length + 1 + after.bytes.length) bytes rest found) :
    Takes metaGrammar (.rule sequenceRound) offset
      (before.bytes ++ ([0x7C] ++ (after.bytes ++ bytes))) rest found := by
  have hafter : Takes metaGrammar (.rule (space .mayIndent))
      (offset + before.bytes.length + 1)
      after.bytes (bytes ++ rest) [] := indent_found hnext
  have hbar : Takes metaGrammar (.rule (lit [0x7C])) (offset + before.bytes.length) [0x7C]
      ((after.bytes ++ bytes) ++ rest) [] := takes_literal
  have hbefore : Takes metaGrammar (.rule (space .mayIndent)) offset before.bytes
      (([0x7C] ++ (after.bytes ++ bytes)) ++ rest) [] :=
        indent_found (avoids_cons.mpr rfl)
  exact takes_sequence_iff.mpr (hbefore.element (by simp) (hbar.element (by simp)
    (hafter.element (by simp) (h.alone (by simp)))))

theorem more_elements_found {e : Element} {gap : Indent} {s : Sequence}
    (hgap : gap.bytes ≠ [])
    (he : Finds .element offset e.bytes ((gap.bytes ++ s.bytes) ++ rest) (e.inner offset))
    (hs : Takes metaGrammar (.elements false [part .element, many elementRound ⟨0, room⟩])
      (offset + e.bytes.length + gap.bytes.length) s.bytes rest
      (spelled (s.inner (offset + e.bytes.length + gap.bytes.length)))) :
    Takes metaGrammar (.elements false [part .element, many elementRound ⟨0, room + 1⟩])
      offset (Sequence.more e gap s).bytes rest
      (spelled ((Sequence.more e gap s).inner offset)) := by
  rw [Sequence.bytes, Sequence.inner]
  refine takes_joined (by simp) hgap he (fun offset front back found heq h => ?_) hs
  refine elementRound_found ?_ h
  rw [← List.append_assoc, ← heq]
  exact s.next.avoids (by decide)

theorem more_sequences_found {s : Sequence} {before after : Indent} {t : Selection}
    (hs : Finds .sequence offset s.bytes
      ((before.bytes ++ ([0x7C] ++ (after.bytes ++ t.bytes))) ++ rest) (s.inner offset))
    (ht : Takes metaGrammar
      (.elements false [part .sequence, many sequenceRound ⟨0, room⟩])
      (offset + s.bytes.length + before.bytes.length + 1 + after.bytes.length)
      t.bytes rest (spelled
        (t.inner (offset + s.bytes.length + before.bytes.length + 1 +
          after.bytes.length)))) :
    Takes metaGrammar (.elements false [part .sequence, many sequenceRound ⟨0, room + 1⟩])
      offset (Selection.more s before after t).bytes rest
      (spelled ((Selection.more s before after t).inner offset)) := by
  have hbytes : ∀ bytes : Bytes, before.bytes ++ ([0x7C] ++ (after.bytes ++ bytes)) =
      (before.bytes ++ ([0x7C] ++ after.bytes)) ++ bytes := by
    intro bytes
    rw [List.append_assoc, List.append_assoc]
  have hlength : ∀ offset, offset + (before.bytes ++ ([0x7C] ++ after.bytes)).length =
      offset + before.bytes.length + 1 + after.bytes.length := by
    intro offset
    simp only [List.length_append, List.length_singleton, Nat.add_assoc]
  rw [Selection.bytes, Selection.inner]
  rw [hbytes] at hs
  rw [← hlength] at ht ⊢
  have htakes :=
    takes_joined (by simp) (by simp) hs (fun offset front back found heq h => ?_) ht
  · rw [← hbytes] at htakes
    exact htakes
  · rw [hlength] at h
    rw [← hbytes]
    refine sequenceRound_found ?_ h
    rw [← List.append_assoc, ← heq]
    exact t.next.avoids (by decide)

mutual

theorem Form.found {f : Form} {offset : Nat} {rest : Bytes} (hclear : f.Clear)
    (hlength : f.bytes.length ≤ maxWord) (hrest : Trailing rest) :
    Takes metaGrammar (.rule (oneOf formRules)) offset f.bytes rest
      (spelled [around f.label offset f.bytes (f.inner offset)]) := by
  match f with
  | .distinction =>
    rw [Form.bytes, Form.inner]
    exact takes_choice [] rfl nofun ((takes_sign_iff rfl).mpr ⟨rfl, rfl⟩)
  | .completion =>
    rw [Form.bytes, Form.inner]
    exact takes_choice_of_first none (only [0x7E]) [.distinction] rfl (by decide)
      (next_cons.mpr rfl) nofun ((takes_sign_iff rfl).mpr ⟨rfl, rfl⟩)
  | .nested k before s after c =>
    rw [Form.Clear] at hclear
    have hs : s.bytes.length ≤ maxWord := by
      rw [Form.bytes] at hlength
      simp only [List.length_cons, List.length_append] at hlength
      omega
    have hafter : Next selectionEnd
        ((after.bytes ++ k.closing :: (c.bytes ++ rest)).dropWhile isIndent) :=
      next_selectionEnd fun _ => by cases k <;> exact next_cons.mpr rfl
    have hselection : Finds .selection (offset + 1 + before.bytes.length) s.bytes
        (after.bytes ++ k.closing :: (c.bytes ++ rest))
        (s.inner (offset + 1 + before.bytes.length)) :=
      selection_found (Selection.found hclear hs (Nat.le_refl maxWord) hafter)
    have hnested := nested_found k hselection hrest.detached hlength
    rw [Form.label]
    rw [Form.bytes] at hnested ⊢
    exact nested_chosen k hnested
  | .terminal t =>
    rw [Form.Clear] at hclear
    rw [Form.bytes] at hlength ⊢
    rw [Form.inner]
    exact takes_choice_of_first none (terminalFirst none)
      [.distinction, .completion, .group, .option] rfl (by decide)
      t.next nofun (terminal_found hclear hrest.detached hlength)
  | .string text hunquoted =>
    rw [Form.Clear] at hclear
    rw [Form.inner]
    exact string_chosen hunquoted hclear hlength
  | .ref n c => exact ref_chosen hrest hlength

theorem Element.found {e : Element} {offset : Nat} {rest : Bytes} (hclear : e.Clear)
    (hlength : e.bytes.length ≤ maxWord) (hrest : Next parting rest) :
    Finds .element offset e.bytes rest (e.inner offset) := by
  match e with
  | .mk f o =>
    rw [Element.Clear] at hclear
    refine element_found hrest hlength fun hrest => Form.found hclear ?_ hrest
    cases o <;> simp [Element.bytes] at hlength <;> omega

theorem Sequence.found {s : Sequence} {offset room : Nat} {rest : Bytes}
    (hclear : s.Clear) (hlength : s.bytes.length ≤ room) (hroom : room ≤ maxWord)
    (hrest : Next sequenceEnd (rest.dropWhile isIndent)) :
    Takes metaGrammar (.elements false [part .element, many elementRound ⟨0, room⟩])
      offset s.bytes rest (spelled (s.inner offset)) := by
  match s with
  | .last e =>
    rw [Sequence.bytes] at hlength ⊢
    rw [Sequence.Clear] at hclear
    rw [Sequence.inner]
    exact takes_lone (by simp)
      (Element.found hclear (Nat.le_trans hlength hroom) (parting_of_end hrest))
      (elementRound_refused hrest)
  | .more e gap s =>
    rw [Sequence.bytes, List.length_append, List.length_append] at hlength
    rw [Sequence.Clear] at hclear
    obtain ⟨he, hgap, hs⟩ := hclear
    have hpos := List.length_pos_iff.mpr hgap
    -- One round is for the gap and the next element, the others are for the rest.
    obtain ⟨room, rfl⟩ : ∃ room', room = room' + 1 := ⟨room - 1, by omega⟩
    refine more_elements_found hgap (Element.found he (by omega) ?_)
      (Sequence.found hs (by omega) (by omega) hrest)
    rw [List.append_assoc]
    exact next_indent (by decide) fun h => absurd h hgap

theorem Selection.found {s : Selection} {offset room : Nat} {rest : Bytes}
    (hclear : s.Clear) (hlength : s.bytes.length ≤ room) (hroom : room ≤ maxWord)
    (hrest : Next selectionEnd (rest.dropWhile isIndent)) :
    Takes metaGrammar (.elements false [part .sequence, many sequenceRound ⟨0, room⟩])
      offset s.bytes rest (spelled (s.inner offset)) := by
  match s with
  | .last s =>
    rw [Selection.bytes] at hlength ⊢
    rw [Selection.Clear] at hclear
    rw [Selection.inner]
    exact takes_lone (by simp)
      (sequence_found (Sequence.found hclear (Nat.le_trans hlength hroom)
        (Nat.le_refl _) (hrest.mono (by decide)))) (sequenceRound_refused hrest)
  | .more s before after t =>
    simp only [Selection.bytes, List.length_append, List.length_cons] at hlength
    rw [Selection.Clear] at hclear
    obtain ⟨hs, ht⟩ := hclear
    have hlast : s.bytes.length ≤ maxWord := by omega
    obtain ⟨room, rfl⟩ : ∃ room', room = room' + 1 := ⟨room - 1, by omega⟩
    refine more_sequences_found
      (sequence_found (Sequence.found hs hlast (Nat.le_refl maxWord) ?_))
      (Selection.found ht (by omega) (by omega) hrest)
    rw [List.append_assoc]
    exact next_end (fun b hb => .inl (before.all_kind b hb)) fun _ => next_cons.mpr rfl

end

/-! ## Documents -/

theorem Member.bytes_ne_nil (m : Member) : m.bytes ≠ [] := by
  cases m with
  | comment _ _ => nofun
  | rule name _ _ _ => exact List.append_ne_nil_of_left_ne_nil name.bytes_ne_nil _

theorem Member.next (m : Member) :
    Next (⟨0x25, 0x25⟩ :: nameFirst) (m.bytes ++ rest) := by
  cases m with
  | comment _ _ => exact next_cons.mpr rfl
  | rule name _ _ _ =>
    rw [Member.bytes, List.append_assoc]
    exact name.next.mono (by decide)

theorem comment_found {text : Bytes} (hopen : ∀ b ∈ text, b ≠ 0x25) :
    Finds .comment offset (Member.comment text hopen).bytes rest [] := by
  have hclose : Takes metaGrammar (.rule (lit [0x25])) (offset + 1 + text.length)
      [0x25] rest [] :=
    takes_literal
  have htext : Takes metaGrammar (.rule ⟨"", .completion (some (lit [0x25]))⟩)
      (offset + 1) text
      ([0x25] ++ rest) [] := takes_completion_iff.mpr ⟨fun h => hopen _ h rfl, rfl, rfl⟩
  have hsign : Takes metaGrammar (.rule (lit [0x25])) offset [0x25]
      ((text ++ [0x25]) ++ rest) [] :=
    takes_literal
  exact finds_of_takes
    (takes_sequence_iff.mpr (hsign.element (by simp) (htext.element (by simp)
      (hclose.alone (by simp)))))

theorem rule_found {name : Name} {before after : Indent} {body : Selection}
    (hclear : body.Clear)
    (hlength : (Member.rule name before after body).bytes.length ≤ maxWord)
    (hrest : Next selectionEnd (rest.dropWhile isIndent)) :
    Takes metaGrammar (.rule (part .rule)) offset
      (Member.rule name before after body).bytes rest
      (spelled [(Member.rule name before after body).inner offset]) := by
  simp only [Member.bytes, List.length_cons, List.length_append] at hlength
  have hlast : body.bytes.length ≤ maxWord := by omega
  have hbody : Takes metaGrammar (.rule (part .selection))
      (offset + name.bytes.length + before.bytes.length + 1 + after.bytes.length)
        body.bytes rest
      (spelled [around .selection _ body.bytes (body.inner _)]) :=
    selection_found (Selection.found hclear hlast (Nat.le_refl maxWord) hrest)
  have hafter : Takes metaGrammar (.rule (space .mayIndent))
      (offset + name.bytes.length + before.bytes.length + 1) after.bytes
        (body.bytes ++ rest) [] :=
    indent_found (body.next.avoids (by decide))
  have hsign : Takes metaGrammar (.rule (lit [0x3D]))
      (offset + name.bytes.length + before.bytes.length) [0x3D]
      ((after.bytes ++ body.bytes) ++ rest) [] := takes_literal
  have hbefore : Takes metaGrammar (.rule (space .mayIndent)) (offset + name.bytes.length)
      before.bytes (([0x3D] ++ (after.bytes ++ body.bytes)) ++ rest) [] :=
    indent_found (avoids_cons.mpr rfl)
  have hname : Takes metaGrammar (.rule (part .name)) offset name.bytes
      ((before.bytes ++ ([0x3D] ++ (after.bytes ++ body.bytes))) ++ rest)
      (spelled [name.stretch offset]) := by
    refine name_found ?_ (by omega)
    rw [List.append_assoc]
    have hnext : Next (⟨0x3D, 0x3D⟩ :: indents)
        (before.bytes ++ (([0x3D] ++ (after.bytes ++ body.bytes)) ++ rest)) :=
      next_indent (by decide) fun _ => next_cons.mpr rfl
    exact Avoids.contains (hnext.avoids (by decide))
  exact finds_of_takes
    (takes_sequence_iff.mpr (hname.element (by simp) (hbefore.element (by simp)
      (hsign.element (by simp) (hafter.element (by simp)
        (hbody.alone (by simp)))))))

theorem member_found {m : Member} (hclear : m.Clear) (hlength : m.bytes.length ≤ maxWord)
    (hrest : Next selectionEnd (rest.dropWhile isIndent)) :
    Takes metaGrammar (.rule (part .member)) offset m.bytes rest
      (spelled [m.stretch offset]) := by
  refine finds_of_takes ?_
  cases m with
  | comment text hopen => exact takes_choice [] rfl nofun (comment_found hopen)
  | rule name before after body =>
    refine takes_choice_of_first none nameFirst [.comment] rfl (by decide) ?_ nofun
      (rule_found hclear hlength hrest)
    rw [Member.bytes, List.append_assoc]
    exact name.next

theorem members_found {members : List (Member × Pad)}
    (hclear : ∀ item ∈ members, item.1.Clear)
    (hlines : ∀ item ∈ members.dropLast, ∃ b ∈ item.2.bytes, isIndent b = false)
    (hlength : (paddedBytes Member.bytes members).length ≤ maxWord) :
    Takes metaGrammar (.rule (many (inTurn [part .member, space .mayBreak]) .star)) offset
      (paddedBytes Member.bytes members) []
      (spelled (paddedStretches Member.bytes Member.stretch offset members)) := by
  refine takes_iteration_iff.mpr (padded_found (by simp)
    (fun items => (∀ item ∈ items, item.1.Clear) ∧
      (∀ item ∈ items.dropLast, ∃ b ∈ item.2.bytes, isIndent b = false) ∧
      (paddedBytes Member.bytes items).length ≤ maxWord)
    (fun m _ => m.next.avoids (by decide)) Member.bytes_ne_nil ?_ ?_ avoids_nil
    ⟨hclear, hlines, hlength⟩ hlength)
  · rintro m pad more ⟨hclear, hlines, hlength⟩
    rw [paddedBytes, List.length_append, List.length_append] at hlength
    obtain ⟨hm, hmore⟩ := List.forall_mem_cons.mp hclear
    refine ⟨⟨hmore, fun item hitem => hlines item ?_, by omega⟩,
      fun offset => member_found hm (by omega) (next_selectionEnd fun hindent => ?_)⟩
    · cases more with
      | nil => cases hitem
      | cons item more => exact List.mem_cons_of_mem _ hitem
    · cases more with
      | nil => exact next_nil
      | cons item more =>
        obtain ⟨b, hb, hbreak⟩ := hlines (m, pad) List.mem_cons_self
        rw [hindent b hb] at hbreak
        cases hbreak
  · intro offset
    have hempty : Next [] [] := next_nil
    exact refuses_of_next hempty rfl

/-- The grammar takes all bytes of a clear document, and the forest is that of
the document. -/
theorem document_found {d : Document} (hclear : d.Clear)
    (hlength : d.bytes.length ≤ maxWord) :
    Takes metaGrammar (.rule (part .grammar)) 0 d.bytes [] (spelled d.forest) := by
  obtain ⟨before, members⟩ := d
  obtain ⟨hmembers, hlines⟩ := hclear
  dsimp only at hmembers hlines
  have hlast : (paddedBytes Member.bytes members).length ≤ maxWord := by
    rw [Document.bytes, List.length_append] at hlength
    exact Nat.le_trans (Nat.le_add_left _ _) hlength
  have hitems :
      Takes metaGrammar (.rule (many (inTurn [part .member, space .mayBreak]) .star))
        (0 + before.bytes.length) (paddedBytes Member.bytes members) []
        (spelled
          (paddedStretches Member.bytes Member.stretch (0 + before.bytes.length)
            members)) :=
    members_found hmembers hlines hlast
  have hbefore : Takes metaGrammar (.rule (space .mayBreak)) 0 before.bytes
      (paddedBytes Member.bytes members ++ []) [] := by
    refine pad_found ?_
    cases members with
    | nil => exact avoids_nil
    | cons item members =>
      rw [paddedBytes, List.append_assoc]
      exact item.1.next.avoids (by decide)
  rw [Document.forest, ← Nat.zero_add before.bytes.length]
  exact finds_of_takes (takes_sequence_iff.mpr (hbefore.element (by simp)
    (hitems.alone (by simp))))

/-- A clear document is read as it is written: unless matching goes too deep,
reading its bytes succeeds, and the tokens are those of the tree that it is. A
repetition without a limit stops after `maxWord` rounds all the same, so the
document must not be longer than that. -/
theorem parse_clear (d : Document) (hclear : d.Clear) (hlength : d.bytes.length ≤ maxWord)
    (hroom : parse d.bytes ≠ .error (.matching (.tooDeep usualLimit))) :
    parse d.bytes = .ok d.parsed := by
  have hmatch : metaGrammar.matchWith usualLimit metaStart d.bytes ≠
      .error (.tooDeep usualLimit) := by
    intro h
    rw [parse, h] at hroom
    exact hroom rfl
  obtain ⟨m, hmeans, hreports⟩ :=
    matchWith_reports metaGrammar usualLimit metaStart d.bytes hmatch
  have htakes := document_found hclear hlength
  rw [Takes, List.append_nil, Nat.zero_add] at htakes
  obtain rfl := hmeans.unique htakes
  rw [Reports] at hreports
  rw [parse, hreports]
  show (if (d.bytes.length == d.bytes.length) = true then _ else _) = Except.ok d.parsed
  rw [if_pos (beq_self_eq_true _), labelled_spelled]
  rfl

/-- What looks like something else: a comment that holds a sign, a reference that
begins like a number, a range that begins like a character, and a string. -/
def lookalikes : Document :=
  let line : Pad := ⟨[0x0A], List.forall_mem_singleton.mpr rfl⟩
  let tab : Indent := ⟨[0x09], List.forall_mem_singleton.mpr rfl⟩
  let comment : Member := .comment [0x3D] (List.forall_mem_singleton.mpr (by decide))
  let name : Name := ⟨false, 'o', ['k'], by decide, List.forall_mem_singleton.mpr rfl⟩
  let reference : Element :=
    .mk (.ref ⟨false, 'U', ['1'], by decide, List.forall_mem_singleton.mpr rfl⟩ none)
      (some .plus)
  let range : Element :=
    .mk (.terminal (.ranges ⟨false, .range (.quoted (.char 'a') (by decide))
      (.quoted (.char 'b') (by decide))⟩)) none
  let string : Element := .mk (.string [0x63, 0x64] (by simp)) none
  let body : Selection := .last (.more reference tab (.more range tab (.last string)))
  ⟨line, [(comment, line), (.rule name tab tab body, line)]⟩

theorem parse_clear_lookalikes :
    lookalikes.bytes = stringBytes "\n%=%\nok\t=\tU1+\t'a'-'b'\t'cd'\n" ∧
      lookalikes.Clear ∧ lookalikes.bytes.length ≤ maxWord ∧
      parse lookalikes.bytes ≠ .error (.matching (.tooDeep usualLimit)) ∧
      parse lookalikes.bytes = .ok lookalikes.parsed := by
  have hstring : ∀ g : Utf8.Glyph, [0x63, 0x64] ≠ g.bytes := by
    intro g h
    rcases g.bytes_plain_or_high with ⟨-, hbytes⟩ | ⟨-, hhigh⟩
    · rw [hbytes] at h
      exact absurd (congrArg List.length h) nofun
    · exact absurd (hhigh 0x63 (by rw [← h]; decide)) (by decide)
  have hclear : lookalikes.Clear := by
    refine ⟨?_, ?_⟩
    · simp [lookalikes, Member.Clear, Selection.Clear, Sequence.Clear,
        Element.Clear, Form.Clear, Terminal.Clear]
      exact hstring
    · simp [lookalikes]
      decide
  have hlength : lookalikes.bytes.length ≤ maxWord := by decide
  have hroom : parse lookalikes.bytes ≠ .error (.matching (.tooDeep usualLimit)) := by
    have hsome : (parse lookalikes.bytes).toOption.isSome = true := by
      rw [parse, metaGrammar_eq]
      decide +kernel
    intro h
    rw [h] at hsome
    cases hsome
  exact ⟨rfl, hclear, hlength, hroom, parse_clear lookalikes hclear hlength hroom⟩

end RuleGraph.Hosted
