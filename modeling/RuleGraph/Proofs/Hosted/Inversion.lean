import RuleGraph.Proofs.Chains
import RuleGraph.Proofs.Hosted.Lexemes

/-!
# What is read is a document

Whatever the grammar of the notation takes for a part is such a part: the bytes
are those of a tree, and the stretches that are found are those of the tree. So
the forest of a source that is read says no more and no less than a document.

It is one lemma for each rule of the grammar, and all but one of them only look
at the rules that they refer to. Brackets hold a selection again, so there the
argument is by the number of bytes.
-/

namespace RuleGraph.Hosted

open Matching

variable {offset : Nat} {bytes rest : Bytes} {found : List (Stretch String)}

/-! ## Opening a rule -/

section Opening

variable {l : Label} {rules : List Rule}

theorem elements_of_part (hl : metaShape l = .sequence rules none)
    (h : Takes metaGrammar (.rule (part l)) offset bytes rest found) :
    ∃ inner, Takes metaGrammar (.elements false rules) offset bytes rest inner ∧
      found = [.node l.text offset (offset + bytes.length) inner] := by
  obtain ⟨inner, hshape, rfl⟩ := takes_part_iff.mp h
  rw [hl] at hshape
  exact ⟨inner, takes_sequence_iff.mp hshape, rfl⟩

theorem alternative_of_part (hl : metaShape l = .selection rules)
    (h : Takes metaGrammar (.rule (part l)) offset bytes rest found) :
    ∃ r ∈ rules, ∃ inner, Takes metaGrammar (.rule r) offset bytes rest inner ∧
      found = [.node l.text offset (offset + bytes.length) inner] := by
  obtain ⟨inner, hshape, rfl⟩ := takes_part_iff.mp h
  rw [hl] at hshape
  obtain ⟨r, hr, h⟩ := exists_takes_of_alternatives (takes_selection_iff.mp hshape)
  exact ⟨r, hr, inner, h, rfl⟩

end Opening

/-! ## Captures -/

theorem exists_capture
    (h : Takes metaGrammar (.rule (many (part .capture) .optional)) offset bytes
      rest found) :
    ∃ c : Capture, bytes = c.bytes ∧ found = spelled (c.stretches offset) := by
  rcases takes_optional_cases h with ⟨rfl, rfl⟩ | hcapture
  · exact ⟨none, rfl, rfl⟩
  · obtain ⟨_, helements, rfl⟩ := elements_of_part rfl hcapture
    obtain ⟨_, _, _, _, rfl, rfl, hsign, hlater⟩ :=
      (takes_element_iff (by simp)).mp helements
    obtain ⟨rfl, rfl⟩ := takes_literal_iff.mp hsign
    obtain ⟨n, rfl, rfl⟩ := exists_name ((takes_lastElement_iff (by simp)).mp hlater)
    exact ⟨some n, rfl, rfl⟩

/-! ## Sets -/

theorem exists_symbol
    (h : Takes metaGrammar (.rule (part .symbol)) offset bytes rest found) :
    ∃ (g : Utf8.Glyph) (hg : g.code ≠ 0x27), bytes = (Code.quoted g hg).bytes ∧
      found = spelled [around .symbol offset (Code.quoted g hg).bytes []] := by
  obtain ⟨_, helements, rfl⟩ := elements_of_part rfl h
  obtain ⟨_, _, _, _, rfl, rfl, hopen, hlater⟩ :=
    (takes_element_iff (by simp)).mp helements
  obtain ⟨_, _, _, _, rfl, rfl, hglyph, hclose⟩ := (takes_element_iff (by simp)).mp hlater
  rw [takes_lastElement_iff (by simp)] at hclose
  obtain ⟨rfl, rfl⟩ := takes_quote_iff.mp hopen
  obtain ⟨rfl, rfl⟩ := takes_quote_iff.mp hclose
  obtain ⟨g, hg, rfl, rfl⟩ := exists_glyph hglyph
  exact ⟨g, hg, rfl, rfl⟩

theorem exists_codePoint
    (h : Takes metaGrammar (.rule (part .codePoint)) offset bytes rest found) :
    ∃ n : Numeral 16, bytes = (Code.point n).bytes ∧
      found = spelled [around .codePoint offset (Code.point n).bytes []] := by
  obtain ⟨_, helements, rfl⟩ := elements_of_part rfl h
  obtain ⟨_, _, _, _, rfl, rfl, hsign, hlater⟩ :=
    (takes_element_iff (by simp)).mp helements
  rw [takes_lastElement_iff (by simp)] at hlater
  obtain ⟨rfl, rfl⟩ := takes_literal_iff.mp hsign
  obtain ⟨n, rfl, rfl⟩ := exists_digits digital_hex plain_hexSet hlater
  exact ⟨n, rfl, rfl⟩

theorem exists_code
    (h : Takes metaGrammar (.rule (part .literal)) offset bytes rest found) :
    ∃ c : Code, bytes = c.bytes ∧ found = spelled [c.stretch offset] := by
  obtain ⟨r, hr, _, hpart, rfl⟩ := alternative_of_part rfl h
  simp only [List.mem_cons, List.not_mem_nil, or_false] at hr
  rcases hr with rfl | rfl
  · obtain ⟨g, hg, rfl, rfl⟩ := exists_symbol hpart
    exact ⟨.quoted g hg, rfl, rfl⟩
  · obtain ⟨n, rfl, rfl⟩ := exists_codePoint hpart
    exact ⟨.point n, rfl, rfl⟩

theorem exists_common (k : Common)
    (h : Takes metaGrammar (.rule (part k.label)) offset bytes rest found) :
    ∃ c : Class, bytes = c.bytes ∧ found = spelled [c.stretch offset] := by
  have hsign : metaShape k.label = .literal k.sign := by cases k <;> rfl
  obtain ⟨rfl, rfl⟩ := (takes_sign_iff hsign).mp h
  exact ⟨.common k, rfl, rfl⟩

theorem exists_hidden
    (h : Takes metaGrammar (.rule (part .shortname)) offset bytes rest found) :
    ∃ c : Class, bytes = c.bytes ∧ found = spelled [c.stretch offset] := by
  obtain ⟨_, helements, rfl⟩ := elements_of_part rfl h
  obtain ⟨_, _, _, _, rfl, rfl, hsign, hlater⟩ :=
    (takes_element_iff (by simp)).mp helements
  rw [takes_lastElement_iff (by simp)] at hlater
  obtain ⟨rfl, rfl⟩ := takes_literal_iff.mp hsign
  obtain ⟨⟨b, rfl, hb⟩, rfl⟩ := (takes_plain_iff (by decide)).mp hlater
  obtain ⟨hidden, rfl⟩ : ∃ hidden : Hidden, b = hidden.sign := by
    simp only [escapeSet, CharSet.contains, List.any_cons, List.any_nil, Range.holds,
      Bool.or_eq_true, Bool.and_eq_true, decide_eq_true_eq, Bool.false_eq_true, or_false]
        at hb
    rcases hb with hb | hb | hb
    · exact ⟨.feed, UInt8.toNat_inj.mp (Nat.le_antisymm hb.2 hb.1)⟩
    · exact ⟨.ret, UInt8.toNat_inj.mp (Nat.le_antisymm hb.2 hb.1)⟩
    · exact ⟨.tab, UInt8.toNat_inj.mp (Nat.le_antisymm hb.2 hb.1)⟩
  exact ⟨.hidden hidden, rfl, rfl⟩

theorem exists_range
    (h : Takes metaGrammar (.rule (part .range)) offset bytes rest found) :
    ∃ c : Class, bytes = c.bytes ∧ found = spelled [c.stretch offset] := by
  obtain ⟨_, helements, rfl⟩ := elements_of_part rfl h
  obtain ⟨_, _, _, _, rfl, rfl, hlow, hlater⟩ :=
    (takes_element_iff (by simp)).mp helements
  obtain ⟨_, _, _, _, rfl, rfl, hsign, hhigh⟩ := (takes_element_iff (by simp)).mp hlater
  rw [takes_lastElement_iff (by simp)] at hhigh
  obtain ⟨rfl, rfl⟩ := takes_literal_iff.mp hsign
  obtain ⟨low, rfl, rfl⟩ := exists_code hlow
  obtain ⟨high, rfl, rfl⟩ := exists_code hhigh
  exact ⟨.range low high, rfl, rfl⟩

theorem exists_class (h : Takes metaGrammar (.rule (oneOf [part .wildcard, part .letter,
      part .upper, part .lower, part .hex, part .octal, part .binary, part .digit,
      part .range,
      part .literal, part .whitespace, part .shortname])) offset bytes rest found) :
    ∃ c : Class, bytes = c.bytes ∧ found = spelled [c.stretch offset] := by
  obtain ⟨r, hr, hpart⟩ := exists_takes_of_alternatives (takes_selection_iff.mp h)
  simp only [List.mem_cons, List.not_mem_nil, or_false] at hr
  rcases hr with rfl | rfl | rfl | rfl | rfl | rfl | rfl | rfl | rfl | rfl | rfl | rfl
  · exact exists_common .wildcard hpart
  · exact exists_common .letter hpart
  · exact exists_common .upper hpart
  · exact exists_common .lower hpart
  · exact exists_common .hex hpart
  · exact exists_common .octal hpart
  · exact exists_common .binary hpart
  · exact exists_common .digit hpart
  · exact exists_range hpart
  · obtain ⟨c, rfl, rfl⟩ := exists_code hpart
    exact ⟨.single c, rfl, rfl⟩
  · exact exists_common .whitespace hpart
  · exact exists_hidden hpart

theorem exists_ranges
    (h : Takes metaGrammar (.rule (part .ranges)) offset bytes rest found) :
    ∃ r : Ranges, bytes = r.bytes ∧ found = spelled [r.stretch offset] := by
  obtain ⟨_, helements, rfl⟩ := elements_of_part rfl h
  obtain ⟨_, _, _, _, rfl, rfl, hnot, hlater⟩ :=
    (takes_element_iff (by simp)).mp helements
  rw [takes_lastElement_iff (by simp)] at hlater
  obtain ⟨cls, rfl, rfl⟩ := exists_class hlater
  rcases takes_optional_cases hnot with ⟨rfl, rfl⟩ | hnot
  · exact ⟨⟨false, cls⟩, rfl, rfl⟩
  · obtain ⟨rfl, rfl⟩ := (takes_sign_iff rfl).mp hnot
    exact ⟨⟨true, cls⟩, rfl, rfl⟩

/-! ## Terminals -/

theorem exists_figure
    (h : Takes metaGrammar (.rule (oneOf [part .ranges, part .name])) offset
      bytes rest found) :
    ∃ f : Figure, bytes = f.bytes ∧ found = spelled [f.stretch offset] := by
  obtain ⟨r, hr, hpart⟩ := exists_takes_of_alternatives (takes_selection_iff.mp h)
  simp only [List.mem_cons, List.not_mem_nil, or_false] at hr
  rcases hr with rfl | rfl
  · obtain ⟨r, rfl, rfl⟩ := exists_ranges hpart
    exact ⟨.ranges r, rfl, rfl⟩
  · obtain ⟨n, rfl, rfl⟩ := exists_name hpart
    exact ⟨.name n, rfl, rfl⟩

/-- Rounds of an item and a pad take items with pads behind them. -/
theorem exists_padded {α : Type} {item : Rule} {itemBytes : α → Bytes}
    {stretch : Nat → α → Stretch Label} (hshape : item.shape ≠ .decision)
    (hitem : ∀ {offset bytes rest found},
      Takes metaGrammar (.rule item) offset bytes rest found →
      ∃ a, bytes = itemBytes a ∧ found = spelled [stretch offset a])
    (h : Takes metaGrammar (.rule (many (inTurn [item, space .mayBreak]) .star))
      offset bytes rest found) :
    ∃ items : List (α × Pad), bytes = paddedBytes itemBytes items ∧
      found = spelled (paddedStretches itemBytes stretch offset items) := by
  refine (takes_iteration_iff.mp h).rounds_induction (motive := fun offset bytes found =>
    ∃ items : List (α × Pad), bytes = paddedBytes itemBytes items ∧
      found = spelled (paddedStretches itemBytes stretch offset items)) ?_ ?_
  · exact fun _ => ⟨[], rfl, rfl⟩
  · rintro offset _ _ _ _ hround ⟨items, rfl, rfl⟩
    obtain ⟨_, _, _, _, rfl, rfl, hfirst, hpad⟩ :=
      (takes_element_iff hshape).mp (takes_sequence_iff.mp hround)
    rw [takes_lastElement_iff (by simp)] at hpad
    obtain ⟨a, rfl, rfl⟩ := hitem hfirst
    obtain ⟨pad, rfl, rfl⟩ := exists_pad hpad
    refine ⟨(a, pad) :: items, ?_, ?_⟩
    · rw [paddedBytes, List.append_assoc]
    · rw [List.length_append, ← Nat.add_assoc]
      rfl

theorem exists_figures
    (h : Takes metaGrammar (.rule (part .figures)) offset bytes rest found) :
    ∃ f : Figures, bytes = f.bytes ∧
      found = spelled [around .figures offset f.bytes (f.inner offset)] := by
  obtain ⟨_, helements, rfl⟩ := elements_of_part rfl h
  obtain ⟨_, _, _, _, rfl, rfl, hopen, hbefore⟩ :=
    (takes_element_iff (by simp)).mp helements
  obtain ⟨_, _, _, _, rfl, rfl, hpad, hmembers⟩ :=
    (takes_element_iff (by simp)).mp hbefore
  obtain ⟨_, _, _, _, rfl, rfl, hitems, hclose⟩ :=
    (takes_element_iff (by simp)).mp hmembers
  obtain ⟨_, _, _, _, rfl, rfl, hsign, hlast⟩ := (takes_element_iff (by simp)).mp hclose
  rw [takes_lastElement_iff (by simp)] at hlast
  obtain ⟨rfl, rfl⟩ := takes_literal_iff.mp hopen
  obtain ⟨before, rfl, rfl⟩ := exists_pad hpad
  obtain ⟨members, rfl, rfl⟩ := exists_padded (by simp) exists_figure hitems
  obtain ⟨rfl, rfl⟩ := takes_literal_iff.mp hsign
  obtain ⟨capture, rfl, rfl⟩ := exists_capture hlast
  refine ⟨⟨before, members, capture⟩, rfl, ?_⟩
  rw [spelled_cons, Figures.inner, spelled_append]
  rfl

theorem exists_spacing
    (h : Takes metaGrammar (.rule (part .pattern)) offset bytes rest found) :
    ∃ s : Spacing, bytes = (Terminal.spacing s).bytes ∧
      found = spelled [(Terminal.spacing s).inner offset] := by
  have hsign : ∀ {inner} (s : Spacing),
      Takes metaGrammar (.rule (part (spacingLabel s))) offset bytes rest inner →
      bytes = utf8 [s.sign] ∧
      inner = spelled [around (spacingLabel s) offset (utf8 [s.sign]) []] :=
    fun s h => (takes_sign_iff (by cases s <;> rfl)).mp h
  obtain ⟨r, hr, _, hpart, rfl⟩ := alternative_of_part rfl h
  simp only [List.mem_cons, List.not_mem_nil, or_false] at hr
  rcases hr with rfl | rfl | rfl | rfl | rfl
  · obtain ⟨rfl, rfl⟩ := hsign .mayIndent hpart
    exact ⟨.mayIndent, rfl, rfl⟩
  · obtain ⟨rfl, rfl⟩ := hsign .mayBreak hpart
    exact ⟨.mayBreak, rfl, rfl⟩
  · obtain ⟨rfl, rfl⟩ := hsign .mustIndent hpart
    exact ⟨.mustIndent, rfl, rfl⟩
  · obtain ⟨rfl, rfl⟩ := hsign .mustSeparate hpart
    exact ⟨.mustSeparate, rfl, rfl⟩
  · obtain ⟨rfl, rfl⟩ := hsign .mustWrap hpart
    exact ⟨.mustWrap, rfl, rfl⟩

theorem exists_terminal
    (h : Takes metaGrammar (.rule (part .terminal)) offset bytes rest found) :
    ∃ t : Terminal, bytes = t.bytes ∧
      found = spelled [around .terminal offset t.bytes [t.inner offset]] := by
  obtain ⟨r, hr, _, hpart, rfl⟩ := alternative_of_part rfl h
  simp only [List.mem_cons, List.not_mem_nil, or_false] at hr
  rcases hr with rfl | rfl | rfl
  · obtain ⟨r, rfl, rfl⟩ := exists_ranges hpart
    exact ⟨.ranges r, rfl, rfl⟩
  · obtain ⟨f, rfl, rfl⟩ := exists_figures hpart
    exact ⟨.figures f, rfl, rfl⟩
  · obtain ⟨s, rfl, rfl⟩ := exists_spacing hpart
    exact ⟨.spacing s, rfl, rfl⟩

/-! ## Occurrences -/

theorem exists_least
    (h : Takes metaGrammar (.rule (part .least)) offset bytes rest found) :
    ∃ n : Numeral 10, bytes = n.bytes ∧
      found = spelled [around .least offset n.bytes []] := by
  obtain ⟨_, hshape, rfl⟩ := takes_part_iff.mp h
  obtain ⟨n, rfl, rfl⟩ := exists_digits digital_decimal plain_decimalSet hshape
  exact ⟨n, rfl, rfl⟩

theorem exists_most (h : Takes metaGrammar (.rule (part .most)) offset bytes rest found) :
    ∃ n : Numeral 10, bytes = n.bytes ∧
      found = spelled [around .most offset n.bytes []] := by
  obtain ⟨_, hshape, rfl⟩ := takes_part_iff.mp h
  obtain ⟨n, rfl, rfl⟩ := exists_digits digital_decimal plain_decimalSet hshape
  exact ⟨n, rfl, rfl⟩

theorem exists_counts (h : Takes metaGrammar (.rule (inTurn [lit [0x7B], part .least,
      many (inTurn [part .upTo, many (part .most) .optional]) .optional, lit [0x7D]]))
        offset bytes
      rest found) :
    ∃ o : Occurrence, bytes = o.bytes ∧ found = spelled (o.inner offset) := by
  obtain ⟨_, _, _, _, rfl, rfl, hopen, hlater⟩ :=
    (takes_element_iff (by simp)).mp (takes_sequence_iff.mp h)
  obtain ⟨_, _, _, _, rfl, rfl, hleast, hlater⟩ := (takes_element_iff (by simp)).mp hlater
  obtain ⟨_, _, _, _, rfl, rfl, hmore, hclose⟩ := (takes_element_iff (by simp)).mp hlater
  rw [takes_lastElement_iff (by simp)] at hclose
  obtain ⟨rfl, rfl⟩ := takes_literal_iff.mp hopen
  obtain ⟨n, rfl, rfl⟩ := exists_least hleast
  obtain ⟨rfl, rfl⟩ := takes_literal_iff.mp hclose
  rcases takes_optional_cases hmore with ⟨rfl, rfl⟩ | hmore
  · exact ⟨.exactly n, rfl, rfl⟩
  · obtain ⟨_, _, _, _, rfl, rfl, hsign, hmost⟩ :=
      (takes_element_iff (by simp)).mp (takes_sequence_iff.mp hmore)
    rw [takes_lastElement_iff (by simp)] at hmost
    obtain ⟨rfl, rfl⟩ := (takes_sign_iff rfl).mp hsign
    rcases takes_optional_cases hmost with ⟨rfl, rfl⟩ | hmost
    · exact ⟨.atLeast n, rfl, rfl⟩
    · obtain ⟨m, rfl, rfl⟩ := exists_most hmost
      exact ⟨.between n m, by simp [Occurrence.bytes], rfl⟩

theorem exists_occurrence
    (h : Takes metaGrammar (.rule (part .occurrence)) offset bytes rest found) :
    ∃ o : Occurrence, bytes = o.bytes ∧ found = spelled [o.stretch offset] := by
  obtain ⟨r, hr, _, hpart, rfl⟩ := alternative_of_part rfl h
  simp only [List.mem_cons, List.not_mem_nil, or_false] at hr
  rcases hr with rfl | rfl | rfl | rfl
  · obtain ⟨rfl, rfl⟩ := (takes_sign_iff rfl).mp hpart
    exact ⟨.plus, rfl, rfl⟩
  · obtain ⟨rfl, rfl⟩ := (takes_sign_iff rfl).mp hpart
    exact ⟨.star, rfl, rfl⟩
  · obtain ⟨rfl, rfl⟩ := (takes_sign_iff rfl).mp hpart
    exact ⟨.qmark, rfl, rfl⟩
  · obtain ⟨o, rfl, rfl⟩ := exists_counts hpart
    exact ⟨o, rfl, rfl⟩

/-! ## Selections -/

theorem exists_string
    (h : Takes metaGrammar (.rule (part .string)) offset bytes rest found) :
    ∃ (text : Bytes) (hunquoted : ∀ b ∈ text, b ≠ 0x27),
      bytes = (Form.string text hunquoted).bytes ∧
        found =
          spelled [around .string offset (Form.string text hunquoted).bytes []] := by
  obtain ⟨_, helements, rfl⟩ := elements_of_part rfl h
  obtain ⟨_, _, _, _, rfl, rfl, hopen, hlater⟩ :=
    (takes_element_iff (by simp)).mp helements
  obtain ⟨_, _, _, _, rfl, rfl, hrounds, hclose⟩ :=
    (takes_element_iff (by simp)).mp hlater
  rw [takes_lastElement_iff (by simp)] at hclose
  obtain ⟨rfl, rfl⟩ := takes_quote_iff.mp hopen
  obtain ⟨rfl, rfl⟩ := takes_quote_iff.mp hclose
  obtain ⟨hunquoted, rfl⟩ := (takes_iteration_iff.mp hrounds).rounds_induction
    (motive := fun _ text found => (∀ b ∈ text, b ≠ 0x27) ∧ found = [])
      (fun _ => ⟨nofun, rfl⟩) (by
        rintro _ _ _ _ _ hround ⟨hlater, rfl⟩
        obtain ⟨g, hg, rfl, rfl⟩ := exists_glyph hround
        exact ⟨List.forall_mem_append.mpr ⟨quote_not_mem_glyph hg, hlater⟩, rfl⟩)
  exact ⟨_, hunquoted, by rw [Form.bytes]; rfl, by rw [Form.bytes]; rfl⟩

/-- Selections of less than a number of bytes are read as selections. -/
def SelectionsBelow (size : Nat) : Prop :=
  ∀ {offset bytes rest found}, bytes.length < size →
    Takes metaGrammar (.rule (part .selection)) offset bytes rest found →
    ∃ s : Selection, bytes = s.bytes ∧
      found = spelled [around .selection offset s.bytes (s.inner offset)]

variable {size : Nat}

theorem exists_nested (hbelow : SelectionsBelow size) (hsize : bytes.length ≤ size)
    (k : Bracket) (h : Takes metaGrammar (.rule (part k.label)) offset bytes rest found) :
    ∃ f : Form, bytes = f.bytes ∧
      found = spelled [around f.label offset f.bytes (f.inner offset)] := by
  have hrules : metaShape k.label =
      .sequence [lit [k.opening], space .mayBreak, part .selection,
        space .mayBreak, lit [k.closing], many (part .capture) .optional] none := by
        cases k <;> rfl
  obtain ⟨_, helements, rfl⟩ := elements_of_part hrules h
  obtain ⟨_, _, _, _, rfl, rfl, hopen, hlater⟩ :=
    (takes_element_iff (by simp)).mp helements
  obtain ⟨_, _, _, _, rfl, rfl, hbefore, hlater⟩ :=
    (takes_element_iff (by simp)).mp hlater
  obtain ⟨_, _, _, _, rfl, rfl, hselection, hlater⟩ :=
    (takes_element_iff (by simp)).mp hlater
  obtain ⟨_, _, _, _, rfl, rfl, hafter, hlater⟩ := (takes_element_iff (by simp)).mp hlater
  obtain ⟨_, _, _, _, rfl, rfl, hclose, hcapture⟩ :=
    (takes_element_iff (by simp)).mp hlater
  rw [takes_lastElement_iff (by simp)] at hcapture
  obtain ⟨rfl, rfl⟩ := takes_literal_iff.mp hopen
  obtain ⟨before, rfl, rfl⟩ := exists_pad hbefore
  simp only [List.length_append, List.length_singleton] at hsize
  obtain ⟨s, rfl, rfl⟩ := hbelow (by omega) hselection
  obtain ⟨after, rfl, rfl⟩ := exists_pad hafter
  obtain ⟨rfl, rfl⟩ := takes_literal_iff.mp hclose
  obtain ⟨capture, rfl, rfl⟩ := exists_capture hcapture
  refine ⟨.nested k before s after capture, ?_, ?_⟩
  · rw [Form.bytes]
    rfl
  · rw [Form.bytes, Form.inner]
    rfl

theorem exists_ref (h : Takes metaGrammar (.rule (part .ref)) offset bytes rest found) :
    ∃ f : Form, bytes = f.bytes ∧
      found = spelled [around f.label offset f.bytes (f.inner offset)] := by
  obtain ⟨_, helements, rfl⟩ := elements_of_part rfl h
  obtain ⟨_, _, _, _, rfl, rfl, hname, hcapture⟩ :=
    (takes_element_iff (by simp)).mp helements
  rw [takes_lastElement_iff (by simp)] at hcapture
  obtain ⟨n, rfl, rfl⟩ := exists_name hname
  obtain ⟨capture, rfl, rfl⟩ := exists_capture hcapture
  refine ⟨.ref n capture, by rw [Form.bytes], ?_⟩
  rw [Form.bytes, Form.inner, Form.label]
  rfl

theorem exists_form (hbelow : SelectionsBelow size) (hsize : bytes.length ≤ size)
    (h : Takes metaGrammar
      (.rule (oneOf [part .distinction, part .completion, part .group,
        part .option, part .terminal, part .string, part .ref])) offset bytes rest
      found) :
    ∃ f : Form, bytes = f.bytes ∧
      found = spelled [around f.label offset f.bytes (f.inner offset)] := by
  obtain ⟨r, hr, hpart⟩ := exists_takes_of_alternatives (takes_selection_iff.mp h)
  simp only [List.mem_cons, List.not_mem_nil, or_false] at hr
  rcases hr with rfl | rfl | rfl | rfl | rfl | rfl | rfl
  · obtain ⟨rfl, rfl⟩ := (takes_sign_iff rfl).mp hpart
    exact ⟨.distinction, by rw [Form.bytes], by rw [Form.bytes, Form.inner, Form.label]⟩
  · obtain ⟨rfl, rfl⟩ := (takes_sign_iff rfl).mp hpart
    exact ⟨.completion, by rw [Form.bytes], by rw [Form.bytes, Form.inner, Form.label]⟩
  · exact exists_nested hbelow hsize .round hpart
  · exact exists_nested hbelow hsize .square hpart
  · obtain ⟨t, rfl, rfl⟩ := exists_terminal hpart
    exact ⟨.terminal t, by rw [Form.bytes], by rw [Form.bytes, Form.inner, Form.label]⟩
  · obtain ⟨text, hunquoted, rfl, rfl⟩ := exists_string hpart
    exact ⟨.string text hunquoted, rfl, by rw [Form.inner, Form.label]⟩
  · exact exists_ref hpart

theorem exists_element (hbelow : SelectionsBelow size) (hsize : bytes.length ≤ size)
    (h : Takes metaGrammar (.rule (part .element)) offset bytes rest found) :
    ∃ e : Element, bytes = e.bytes ∧
      found = spelled [around .element offset e.bytes (e.inner offset)] := by
  obtain ⟨_, helements, rfl⟩ := elements_of_part rfl h
  obtain ⟨_, _, _, _, rfl, rfl, hform, hbound⟩ :=
    (takes_element_iff (by simp)).mp helements
  rw [takes_lastElement_iff (by simp)] at hbound
  rw [List.length_append] at hsize
  obtain ⟨form, rfl, rfl⟩ := exists_form hbelow (by omega) hform
  rcases takes_optional_cases hbound with ⟨rfl, rfl⟩ | hbound
  · refine ⟨.mk form none, ?_, ?_⟩
    · rw [Element.bytes, List.append_nil]
    · rw [Element.bytes, Element.inner, List.append_nil, List.append_nil]
      rfl
  · obtain ⟨o, rfl, rfl⟩ := exists_occurrence hbound
    refine ⟨.mk form (some o), by rw [Element.bytes], ?_⟩
    rw [Element.bytes, Element.inner]
    rfl

/-- What rounds take behind an element makes a sequence with it. -/
theorem exists_later_elements (hbelow : SelectionsBelow size)
    (hsize : bytes.length ≤ size) {start wanted room : Nat} (h : Takes metaGrammar
      (.rounds (inTurn [space .mayIndent, part .element]) wanted room) start bytes
      rest found) :
    ∀ (e : Element) (offset : Nat), start = offset + e.bytes.length →
      ∃ s : Sequence, s.bytes = e.bytes ++ bytes ∧ spelled (s.inner offset) =
        .node Label.element.text offset start (spelled (e.inner offset)) :: found := by
  revert hsize
  refine h.rounds_induction (motive := fun start bytes found => bytes.length ≤ size →
    ∀ (e : Element) (offset : Nat), start = offset + e.bytes.length →
      ∃ s : Sequence, s.bytes = e.bytes ++ bytes ∧ spelled (s.inner offset) =
        .node Label.element.text offset start (spelled (e.inner offset)) :: found) ?_ ?_
  · rintro _ _ e offset rfl
    exact ⟨.last e, by rw [Sequence.bytes, List.append_nil], by rw [Sequence.inner]; rfl⟩
  · rintro _ _ back _ more hround ih hsize e offset rfl
    obtain ⟨_, _, _, _, rfl, rfl, hgap, helement⟩ :=
      (takes_element_iff (by simp)).mp (takes_sequence_iff.mp hround)
    rw [takes_lastElement_iff (by simp)] at helement
    simp only [List.length_append] at hsize
    obtain ⟨gap, rfl, rfl⟩ := exists_indent hgap
    obtain ⟨next, rfl, rfl⟩ := exists_element hbelow (by omega) helement
    obtain ⟨s, hbytes, hinner⟩ :=
      ih (by omega) next (offset + e.bytes.length + gap.bytes.length)
        (by simp only [List.length_append, Nat.add_assoc])
    refine ⟨.more e gap s, ?_, ?_⟩
    · rw [Sequence.bytes, hbytes, List.append_assoc]
    · rw [Sequence.inner, spelled_cons, hinner, List.length_append, ← Nat.add_assoc]
      rfl

theorem exists_sequence (hbelow : SelectionsBelow size) (hsize : bytes.length ≤ size)
    (h : Takes metaGrammar (.rule (part .sequence)) offset bytes rest found) :
    ∃ s : Sequence, bytes = s.bytes ∧
      found = spelled [around .sequence offset s.bytes (s.inner offset)] := by
  obtain ⟨_, helements, rfl⟩ := elements_of_part rfl h
  obtain ⟨_, _, _, _, rfl, rfl, hfirst, hothers⟩ :=
    (takes_element_iff (by simp)).mp helements
  rw [takes_lastElement_iff (by simp), takes_iteration_iff] at hothers
  rw [List.length_append] at hsize
  obtain ⟨e, rfl, rfl⟩ := exists_element hbelow (by omega) hfirst
  obtain ⟨s, hbytes, hinner⟩ :=
    exists_later_elements hbelow (by omega) hothers e offset rfl
  refine ⟨s, hbytes.symm, ?_⟩
  show _ = [Stretch.node _ _ _ (spelled (s.inner offset))]
  rw [hinner, hbytes]
  rfl

theorem exists_later_sequences (hbelow : SelectionsBelow size)
    (hsize : bytes.length ≤ size) {start wanted room : Nat}
    (h : Takes metaGrammar (.rounds (inTurn [space .mayIndent,
      lit [0x7C], space .mayIndent, part .sequence]) wanted room) start
        bytes rest found) :
    ∀ (s : Sequence) (offset : Nat), start = offset + s.bytes.length →
      ∃ t : Selection, t.bytes = s.bytes ++ bytes ∧ spelled (t.inner offset) =
        .node Label.sequence.text offset start (spelled (s.inner offset)) :: found := by
  revert hsize
  refine h.rounds_induction (motive := fun start bytes found => bytes.length ≤ size →
    ∀ (s : Sequence) (offset : Nat), start = offset + s.bytes.length →
      ∃ t : Selection, t.bytes = s.bytes ++ bytes ∧ spelled (t.inner offset) =
        .node Label.sequence.text offset start (spelled (s.inner offset)) :: found) ?_ ?_
  · rintro _ _ s offset rfl
    exact ⟨.last
      s, by rw [Selection.bytes, List.append_nil], by rw [Selection.inner]; rfl⟩
  · rintro _ _ back _ more hround ih hsize s offset rfl
    obtain ⟨_, _, _, _, rfl, rfl, hbefore, hlater⟩ :=
      (takes_element_iff (by simp)).mp (takes_sequence_iff.mp hround)
    obtain ⟨_, _, _, _, rfl, rfl, hsign, hlater⟩ :=
      (takes_element_iff (by simp)).mp hlater
    obtain ⟨_, _, _, _, rfl, rfl, hafter, hsequence⟩ :=
      (takes_element_iff (by simp)).mp hlater
    rw [takes_lastElement_iff (by simp)] at hsequence
    simp only [List.length_append] at hsize
    obtain ⟨before, rfl, rfl⟩ := exists_indent hbefore
    obtain ⟨rfl, rfl⟩ := takes_literal_iff.mp hsign
    obtain ⟨after, rfl, rfl⟩ := exists_indent hafter
    obtain ⟨next, rfl, rfl⟩ := exists_sequence hbelow (by omega) hsequence
    obtain ⟨t, hbytes, hinner⟩ := ih (by omega) next
      (offset + s.bytes.length + before.bytes.length + 1 + after.bytes.length)
      (by simp only [List.length_append, List.length_singleton, Nat.add_assoc])
    refine ⟨.more s before after t, ?_, ?_⟩
    · simp [Selection.bytes, hbytes]
    · rw [Selection.inner, spelled_cons, hinner]
      simp only [List.length_append, List.length_singleton, ← Nat.add_assoc]
      rfl

theorem exists_selection_step (hbelow : SelectionsBelow size)
    (hsize : bytes.length ≤ size)
    (h : Takes metaGrammar (.rule (part .selection)) offset bytes rest found) :
    ∃ s : Selection, bytes = s.bytes ∧
      found = spelled [around .selection offset s.bytes (s.inner offset)] := by
  obtain ⟨_, helements, rfl⟩ := elements_of_part rfl h
  obtain ⟨_, _, _, _, rfl, rfl, hfirst, hothers⟩ :=
    (takes_element_iff (by simp)).mp helements
  rw [takes_lastElement_iff (by simp), takes_iteration_iff] at hothers
  rw [List.length_append] at hsize
  obtain ⟨s, rfl, rfl⟩ := exists_sequence hbelow (by omega) hfirst
  obtain ⟨t, hbytes, hinner⟩ :=
    exists_later_sequences hbelow (by omega) hothers s offset rfl
  refine ⟨t, hbytes.symm, ?_⟩
  show _ = [Stretch.node _ _ _ (spelled (t.inner offset))]
  rw [hinner, hbytes]
  rfl

theorem selectionsBelow (size : Nat) : SelectionsBelow size := by
  induction size with
  | zero => exact fun h => absurd h (Nat.not_lt_zero _)
  | succ size ih => exact fun h => exists_selection_step ih (Nat.le_of_lt_succ h)

theorem exists_selection
    (h : Takes metaGrammar (.rule (part .selection)) offset bytes rest found) :
    ∃ s : Selection, bytes = s.bytes ∧
      found = spelled [around .selection offset s.bytes (s.inner offset)] :=
  exists_selection_step (selectionsBelow bytes.length) (Nat.le_refl _) h

/-! ## Documents -/

theorem exists_member
    (h : Takes metaGrammar (.rule (part .member)) offset bytes rest found) :
    ∃ m : Member, bytes = m.bytes ∧ found = spelled [m.stretch offset] := by
  obtain ⟨r, hr, _, hpart, rfl⟩ := alternative_of_part rfl h
  simp only [List.mem_cons, List.not_mem_nil, or_false] at hr
  rcases hr with rfl | rfl
  · obtain ⟨_, helements, rfl⟩ := elements_of_part rfl hpart
    obtain ⟨_, _, _, _, rfl, rfl, hopen, hlater⟩ :=
      (takes_element_iff (by simp)).mp helements
    obtain ⟨_, text, _, _, rfl, rfl, hsearch, hclose⟩ :=
      (takes_element_iff (by simp)).mp hlater
    rw [takes_lastElement_iff (by simp)] at hclose
    obtain ⟨rfl, rfl⟩ := takes_literal_iff.mp hopen
    obtain ⟨htext, -, rfl⟩ := takes_completion_iff.mp hsearch
    obtain ⟨rfl, rfl⟩ := takes_literal_iff.mp hclose
    exact ⟨.comment _ fun b hb heq => htext (heq ▸ hb), rfl, rfl⟩
  · obtain ⟨_, helements, rfl⟩ := elements_of_part rfl hpart
    obtain ⟨_, _, _, _, rfl, rfl, hname, hlater⟩ :=
      (takes_element_iff (by simp)).mp helements
    obtain ⟨_, _, _, _, rfl, rfl, hbefore, hlater⟩ :=
      (takes_element_iff (by simp)).mp hlater
    obtain ⟨_, _, _, _, rfl, rfl, hsign, hlater⟩ :=
      (takes_element_iff (by simp)).mp hlater
    obtain ⟨_, _, _, _, rfl, rfl, hafter, hbody⟩ :=
      (takes_element_iff (by simp)).mp hlater
    rw [takes_lastElement_iff (by simp)] at hbody
    obtain ⟨name, rfl, rfl⟩ := exists_name hname
    obtain ⟨before, rfl, rfl⟩ := exists_indent hbefore
    obtain ⟨rfl, rfl⟩ := takes_literal_iff.mp hsign
    obtain ⟨after, rfl, rfl⟩ := exists_indent hafter
    obtain ⟨body, rfl, rfl⟩ := exists_selection hbody
    exact ⟨.rule name before after body, rfl, rfl⟩

theorem exists_document
    (h : Takes metaGrammar (.rule (part .grammar)) 0 bytes rest found) :
    ∃ d : Document, bytes = d.bytes ∧ found = spelled d.forest := by
  obtain ⟨_, helements, rfl⟩ := elements_of_part rfl h
  obtain ⟨_, _, _, _, rfl, rfl, hbefore, hmembers⟩ :=
    (takes_element_iff (by simp)).mp helements
  rw [takes_lastElement_iff (by simp)] at hmembers
  obtain ⟨before, rfl, rfl⟩ := exists_pad hbefore
  obtain ⟨members, rfl, rfl⟩ := exists_padded (by simp) exists_member hmembers
  refine ⟨⟨before, members⟩, rfl, ?_⟩
  rw [Nat.zero_add before.bytes.length]
  rfl

/-- A source that is read is a document, and what is found in it is what there
is in the document. -/
theorem exists_document_of_parse {source : Bytes} {p : Parse Label}
    (h : parse source = .ok p) : ∃ d : Document, source = d.bytes ∧ p = d.parsed := by
  unfold parse at h
  cases hmatch : metaGrammar.matchWith usualLimit metaStart source with
  | error e => rw [hmatch] at h; cases h
  | ok q =>
    rw [hmatch] at h
    replace h : (if q.isComplete then (labelled q).mapError Error.tokens
      else .error (.matching (.noMatch q.stop))) = .ok p := h
    split at h
    · rename_i hcomplete
      obtain ⟨stop, forest, hmeans, rfl⟩ := exists_forest_of_match hmatch
      obtain ⟨bytes, rest, rfl, rfl, htakes⟩ := Means.exists_takes hmeans
      obtain ⟨d, rfl, rfl⟩ := exists_document htakes
      obtain rfl : rest = [] := by
        simpa [Parse.isComplete] using hcomplete
      rw [labelled_spelled] at h
      cases mapError_eq_ok h
      exact ⟨d, List.append_nil _, by rw [Document.parsed, List.append_nil, Nat.zero_add]⟩
    · cases h

end RuleGraph.Hosted
