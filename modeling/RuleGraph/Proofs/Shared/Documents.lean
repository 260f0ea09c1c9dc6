import RuleGraph.Proofs.Shared.Notation
import RuleGraph.Proofs.Hosted.Rendering
import RuleGraph.Proofs.Hosted.Translation

/-!
# Shared sources as hosted documents

The tree that the hosted reader finds in a shared source. Nearly everything goes
into its counterpart. Only a quoted text of a single character is no string there
but a set with that character in it, and comes to a string in the end.

The document is written as the source is and stands for the same rules. It is
clear, since no string in it is that short, and all its leaves are sound.
-/

namespace RuleGraph

open Hosted
  (Form Occurrence Member Document Sound sound_append sound_singleton paddedBytes
    paddedLeaves choice series cutOf)

theorem Rule.repeated_once {r : Rule} (h : r.isRepetition = false) :
    r.repeated Bound.once = r := by
  rw [repeated_of_not_isRepetition h, if_pos rfl]

theorem Rule.isRepetition_named (r : Rule) {name : String} (h : isQuiet name = false) :
    (r.named name).isRepetition = false := by
  rw [Rule.named, if_neg (by simp [h])]
  split <;> rfl

namespace Shared

/-! ## Names, texts and suffixes -/

def Name.hosted (n : Name) : Hosted.Name :=
  ⟨false, n.first, n.others, n.first_letter, n.others_word⟩

theorem Name.not_quiet (n : Name) : isQuiet n.name = false := by
  have hfirst := n.first_letter
  rw [isQuiet, Name.name, String.toList_ofList]
  refine beq_eq_false_iff_ne.mpr fun h => ?_
  rw [Option.some.inj h] at hfirst
  exact absurd hfirst (by decide)

theorem isRepetition_captured {r : Rule} {capture : Option Name}
    (h : r.isRepetition = true → capture.isSome = true) :
    (captured r capture).isRepetition = false := by
  cases capture with
  | none => exact Bool.eq_false_iff.mpr fun hr => nomatch h hr
  | some n => exact r.isRepetition_named n.not_quiet

theorem bytes_capture (capture : Option Name) :
    Hosted.Capture.bytes (capture.map Name.hosted) = captureBytes capture := by
  cases capture <;> rfl

theorem name_capture (r : Rule) (capture : Option Name) :
    Hosted.Capture.name r (capture.map Name.hosted) = captured r capture := by
  cases capture <;> rfl

theorem utf8_singleton (c : Char) : utf8 [c] = String.utf8EncodeChar c := by
  rw [utf8_cons, utf8_nil, List.append_nil]

/-- Only a text of one character is written as a glyph is. -/
theorem utf8_ne_glyph {text : List Char} (h : ∀ c, text ≠ [c]) (g : Utf8.Glyph) :
    utf8 text ≠ g.bytes := by
  intro heq
  obtain ⟨c, rfl⟩ := Hosted.Glyph.exists_char ⟨text, heq.symm⟩
  have hread : Utf8.text? (utf8 text) = some [c] := by
    rw [Utf8.text?_eq_some_iff, heq, utf8_singleton]
    rfl
  rw [Utf8.text?_utf8] at hread
  exact h c (Option.some.inj hread)

namespace Quote

variable (q : Quote)

/-- What stands in the quotes. -/
def form (q : Quote) : Form :=
  match q with
  | ⟨[c], h⟩ => .terminal (.ranges ⟨false, .single (.quoted (.char c)
      (toNat_ne (h c (List.mem_singleton_self c))))⟩)
  | ⟨text, h⟩ => .string (utf8 text) (unquoted_utf8 ⟨text, h⟩)

theorem form_cases :
    (∃ c h, q.text = [c] ∧
      q.form = .terminal (.ranges ⟨false, .single (.quoted (.char c) h)⟩)) ∨
    (∀ c, q.text ≠ [c]) ∧ ∃ h, q.form = .string (utf8 q.text) h := by
  obtain ⟨text, h⟩ := q
  match text with
  | [] => exact .inr ⟨nofun, _, rfl⟩
  | [c] => exact .inl ⟨c, _, rfl, rfl⟩
  | c :: d :: rest => exact .inr ⟨nofun, _, rfl⟩

theorem bytes_form : q.form.bytes = q.bytes := by
  rcases q.form_cases with ⟨c, h, htext, hform⟩ | ⟨-, h, hform⟩
  · rw [hform, Quote.bytes, htext, utf8_singleton, Form.bytes]
    rfl
  · rw [hform, Form.bytes, Quote.bytes]

theorem rule?_form (written : Bound) :
    q.form.rule? written = some ((Rule.string q.text).repeated written) := by
  rcases q.form_cases with ⟨c, h, htext, hform⟩ | ⟨-, h, hform⟩
  · have hset : CharSet.character c.toNat = ⟨[⟨c.toNat, c.toNat⟩]⟩ := by
      have hmin : min c.toNat maxCodePoint = c.toNat :=
        Nat.min_eq_left (Utf8.Glyph.char c).code_le
      rw [CharSet.character, CharSet.range, hmin, if_pos (Nat.le_refl _)]
    have hwritten :
        (Hosted.Terminal.ranges ⟨false, .single (.quoted (.char c) h)⟩).written =
          Rule.terminal ⟨[⟨c.toNat, c.toNat⟩]⟩ := congrArg Rule.terminal hset
    have hrule : (Hosted.Terminal.ranges ⟨false, .single (.quoted (.char c) h)⟩).rule =
        Rule.string [c] := by
      rw [Hosted.Terminal.rule, hwritten]
      show (if c.toNat = c.toNat ∧ c.toNat.isValidChar then
        Rule.string [Char.ofNat c.toNat]
        else _) = _
      rw [if_pos ⟨rfl, c.valid⟩, Char.ofNat_toNat]
    rw [hform, htext, Form.rule?, hrule]
  · rw [hform, Form.rule?, Rule.string]

theorem clear_form : q.form.Clear := by
  rcases q.form_cases with ⟨c, h, -, hform⟩ | ⟨htext, h, hform⟩
  · rw [hform, Form.Clear]
    trivial
  · rw [hform, Form.Clear]
    exact utf8_ne_glyph htext

theorem sound_form : Sound q.form.leaves := by
  rcases q.form_cases with ⟨c, h, -, hform⟩ | ⟨-, h, hform⟩
  · rw [hform, Form.leaves]
    exact sound_singleton.mpr ⟨[c], (utf8_singleton c).symm⟩
  · rw [hform, Form.leaves]
    exact sound_singleton.mpr ⟨q.text, rfl⟩

end Quote

namespace Suffix

def occurrence : Suffix → Occurrence
  | optional => .qmark
  | star => .star
  | plus => .plus
  | exactly n => .exactly n.toNumeral
  | between n m => .between n.toNumeral m.toNumeral

theorem bytes_occurrence (s : Suffix) : s.occurrence.bytes = s.bytes := by
  cases s <;> rfl

theorem bound_occurrence (s : Suffix) : s.occurrence.bound = s.bound := by
  cases s with
  | between n m =>
    show (⟨n.value, max n.value m.value⟩ : Bound) = ⟨n.value, max m.value n.value⟩
    rw [Nat.max_comm]
  | _ => rfl

theorem sound_occurrence (s : Suffix) : Sound s.occurrence.leaves := by
  cases s with
  | exactly n => exact sound_singleton.mpr n.fits
  | between n m => exact List.forall_mem_cons.mpr ⟨n.fits, sound_singleton.mpr m.fits⟩
  | _ => exact Hosted.sound_nil

end Suffix

section Forms

variable {f : Form} {suffix : Option Suffix}

theorem bytes_mk : (Hosted.Element.mk f (suffix.map Suffix.occurrence)).bytes =
    f.bytes ++ suffixBytes suffix := by
  cases suffix with
  | none => rw [suffixBytes, List.append_nil]; rfl
  | some s => rw [suffixBytes, ← s.bytes_occurrence]; rfl

theorem rule?_mk {r : Rule} (hf : ∀ written, f.rule? written = some (r.repeated written))
    (hr : r.isRepetition = true → suffix.isSome = true) :
    (Hosted.Element.mk f (suffix.map Suffix.occurrence)).rule? =
      some (suffixed r suffix) := by
  cases suffix with
  | none =>
    have hnone : r.isRepetition = false := Bool.eq_false_iff.mpr fun h => nomatch hr h
    show f.rule? Bound.once = some r
    rw [hf, Rule.repeated_once hnone]
  | some s =>
    show f.rule? s.occurrence.bound = some (r.repeated s.bound)
    rw [hf, s.bound_occurrence]

theorem sound_mk (hf : Sound f.leaves) :
    Sound (Hosted.Element.mk f (suffix.map Suffix.occurrence)).leaves := by
  cases suffix with
  | none => exact hf
  | some s => exact sound_append.mpr ⟨hf, s.sound_occurrence⟩

end Forms

/-! ## Bodies -/

mutual

def Element.hosted : Element → Hosted.Element
  | .literal q suffix => .mk q.form (suffix.map Suffix.occurrence)
  | .reference n capture suffix =>
    .mk (.ref n.hosted (capture.map Name.hosted)) (suffix.map Suffix.occurrence)
  | .spacing contract suffix =>
    .mk (.terminal (.spacing contract)) (suffix.map Suffix.occurrence)
  | .group before body after capture suffix =>
    .mk (.nested .round before body.hosted after (capture.map Name.hosted))
      (suffix.map Suffix.occurrence)
  | .completion => .mk .completion none

def Sequence.hosted : Sequence → Hosted.Sequence
  | .last e => .last e.hosted
  | .more e gap _ rest => .more e.hosted gap rest.hosted

def Selection.hosted : Selection → Hosted.Selection
  | .last s => .last s.hosted
  | .more s before after rest => .more s.hosted before after rest.hosted

end

mutual

theorem Element.bytes_hosted : ∀ e : Element, e.hosted.bytes = e.bytes
  | .literal q suffix => by
    rw [Element.hosted, bytes_mk, q.bytes_form, Element.bytes]
  | .reference n capture suffix => by
    rw [Element.hosted, bytes_mk, Form.bytes, bytes_capture, List.append_assoc,
      Element.bytes]
    rfl
  | .spacing contract suffix => by
    rw [Element.hosted, bytes_mk, Form.bytes, Element.bytes]
    rfl
  | .group before body after capture suffix => by
    rw [Element.hosted, bytes_mk, Form.bytes, bytes_capture, body.bytes_hosted,
      Element.bytes]
    simp only [List.cons_append, List.append_assoc]
    rfl
  | .completion => rfl

theorem Sequence.bytes_hosted : ∀ s : Sequence, s.hosted.bytes = s.bytes
  | .last e => by
    rw [Sequence.hosted, Hosted.Sequence.bytes, e.bytes_hosted, Sequence.bytes]
  | .more e gap _ rest => by
    rw [Sequence.hosted, Hosted.Sequence.bytes, e.bytes_hosted, rest.bytes_hosted,
      Sequence.bytes]

theorem Selection.bytes_hosted : ∀ s : Selection, s.hosted.bytes = s.bytes
  | .last s => by
    rw [Selection.hosted, Hosted.Selection.bytes, s.bytes_hosted, Selection.bytes]
  | .more s before after rest => by
    rw [Selection.hosted, Hosted.Selection.bytes, s.bytes_hosted, rest.bytes_hosted,
      Selection.bytes]

end

theorem cutOf_map_some (rules : List Rule) : cutOf (rules.map some) = none := by
  induction rules with
  | nil => rfl
  | cons r rest ih => rw [List.map_cons, cutOf, ih]; rfl

theorem series_map_some (rules : List Rule) :
    series (rules.map some) = Rule.chain rules := by
  have hrules : (rules.map some).filterMap id = rules := by
    rw [List.filterMap_map, Function.id_comp, List.filterMap_some]
  rw [series, hrules, cutOf_map_some]
  rfl

mutual

theorem Element.rule?_hosted : ∀ e : Element, e.Marked → e.hosted.rule? = some e.rule
  | .literal q suffix, _ => by
    rw [Element.hosted, Element.rule]
    exact rule?_mk q.rule?_form nofun
  | .reference n capture suffix, _ => by
    rw [Element.hosted, Element.rule]
    have hreference : (Rule.reference n.name).isRepetition = false := rfl
    have hcaptured : (captured (Rule.reference n.name) capture).isRepetition = false :=
      isRepetition_captured fun h => nomatch hreference.symm.trans h
    refine rule?_mk (fun written => ?_) fun h => nomatch hcaptured.symm.trans h
    rw [Form.rule?, name_capture]
    rfl
  | .spacing contract suffix, _ => by
    rw [Element.hosted, Element.rule]
    exact rule?_mk (fun _ => rfl) nofun
  | .group before body after capture suffix, h => by
    rw [Element.Marked] at h
    obtain ⟨hbody, hmarked⟩ := h
    rw [Element.hosted, Element.rule]
    refine rule?_mk (fun written => ?_) fun hrepeats => ?_
    · rw [Form.rule?, name_capture, body.rules_hosted hbody]
      rfl
    · cases suffix with
      | none =>
        rw [isRepetition_captured fun h => (hmarked h).resolve_right nofun] at hrepeats
        cases hrepeats
      | some s => rfl
  | .completion, _ => rfl

theorem Sequence.rules_hosted :
    ∀ s : Sequence, s.Marked → s.hosted.rules = s.rules.map some
  | .last e, h => by
    rw [Sequence.Marked] at h
    rw [Sequence.hosted, Hosted.Sequence.rules, e.rule?_hosted h, Sequence.rules]
    rfl
  | .more e gap _ rest, h => by
    rw [Sequence.Marked] at h
    rw [Sequence.hosted, Hosted.Sequence.rules, e.rule?_hosted h.1, rest.rules_hosted h.2,
      Sequence.rules]
    rfl

theorem Selection.rules_hosted : ∀ s : Selection, s.Marked → s.hosted.rules = s.rules
  | .last s, h => by
    rw [Selection.Marked] at h
    rw [Selection.hosted, Hosted.Selection.rules, s.rules_hosted h, series_map_some,
      Selection.rules]
  | .more s before after rest, h => by
    rw [Selection.Marked] at h
    rw [Selection.hosted, Hosted.Selection.rules, s.rules_hosted h.1, series_map_some,
      rest.rules_hosted h.2, Selection.rules]

end

mutual

theorem Element.clear_hosted : ∀ e : Element, e.hosted.Clear
  | .literal q suffix => by
    rw [Element.hosted, Hosted.Element.Clear]
    exact q.clear_form
  | .reference _ _ _ | .spacing _ _ | .completion => trivial
  | .group before body after capture suffix => by
    rw [Element.hosted, Hosted.Element.Clear, Form.Clear]
    exact body.clear_hosted

theorem Sequence.clear_hosted : ∀ s : Sequence, s.hosted.Clear
  | .last e => by
    rw [Sequence.hosted, Hosted.Sequence.Clear]
    exact e.clear_hosted
  | .more e gap apart rest => by
    rw [Sequence.hosted, Hosted.Sequence.Clear]
    exact ⟨e.clear_hosted, apart, rest.clear_hosted⟩

theorem Selection.clear_hosted : ∀ s : Selection, s.hosted.Clear
  | .last s => by
    rw [Selection.hosted, Hosted.Selection.Clear]
    exact s.clear_hosted
  | .more s before after rest => by
    rw [Selection.hosted, Hosted.Selection.Clear]
    exact ⟨s.clear_hosted, rest.clear_hosted⟩

end

mutual

theorem Element.sound_hosted : ∀ e : Element, Sound e.hosted.leaves
  | .literal q suffix => by
    rw [Element.hosted]
    exact sound_mk q.sound_form
  | .reference n capture suffix | .spacing contract suffix => by
    rw [Element.hosted]
    exact sound_mk Hosted.sound_nil
  | .group before body after capture suffix => by
    rw [Element.hosted]
    exact sound_mk (by rw [Form.leaves]; exact body.sound_hosted)
  | .completion => Hosted.sound_nil

theorem Sequence.sound_hosted : ∀ s : Sequence, Sound s.hosted.leaves
  | .last e => by
    rw [Sequence.hosted, Hosted.Sequence.leaves]
    exact e.sound_hosted
  | .more e gap apart rest => by
    rw [Sequence.hosted, Hosted.Sequence.leaves]
    exact sound_append.mpr ⟨e.sound_hosted, rest.sound_hosted⟩

theorem Selection.sound_hosted : ∀ s : Selection, Sound s.hosted.leaves
  | .last s => by
    rw [Selection.hosted, Hosted.Selection.leaves]
    exact s.sound_hosted
  | .more s before after rest => by
    rw [Selection.hosted, Hosted.Selection.leaves]
    exact sound_append.mpr ⟨s.sound_hosted, rest.sound_hosted⟩

end

/-! ## Sources -/

namespace Line

def hosted : Line → Member
  | comment text h => .comment text h
  | rule name before after body => .rule name.hosted before after body.hosted

theorem bytes_hosted (l : Line) : l.hosted.bytes = l.bytes := by
  cases l with
  | comment text h => rfl
  | rule name before after body =>
    rw [hosted, Member.bytes, body.bytes_hosted]
    rfl

theorem rule?_hosted {l : Line} (h : l.Marked) : l.hosted.rule? = l.rule? := by
  cases l with
  | comment text h => rfl
  | rule name before after body =>
    rw [hosted, Member.rule?, body.rules_hosted h]
    rfl

theorem clear_hosted (l : Line) : l.hosted.Clear := by
  cases l with
  | comment text h => trivial
  | rule name before after body => exact body.clear_hosted

theorem sound_hosted (l : Line) : Sound l.hosted.leaves := by
  cases l with
  | comment text h => exact Hosted.sound_nil
  | rule name before after body => exact body.sound_hosted

end Line

namespace Source

variable (s : Source)

def document : Document :=
  ⟨s.before, s.lines.map fun item => (item.1.hosted, item.2)⟩

theorem bytes_document : s.document.bytes = s.bytes := by
  have hlines (lines : List (Line × Hosted.Pad)) :
      paddedBytes Member.bytes (lines.map fun item => (item.1.hosted, item.2)) =
        paddedBytes Line.bytes lines := by
    induction lines with
    | nil => rfl
    | cons item rest ih =>
      rw [List.map_cons, paddedBytes, item.1.bytes_hosted, ih]
      rfl
  rw [Document.bytes, document, hlines, Source.bytes]

theorem rules_document : s.document.rules = s.rules := by
  have hlines (lines : List (Line × Hosted.Pad))
      (hmarked : ∀ item ∈ lines, item.1.Marked) :
      (lines.map fun item => (item.1.hosted, item.2)).filterMap
        (fun item => item.1.rule?) = lines.filterMap fun item => item.1.rule? := by
    induction lines with
    | nil => rfl
    | cons item rest ih =>
      obtain ⟨hitem, hrest⟩ := List.forall_mem_cons.mp hmarked
      rw [List.map_cons, List.filterMap_cons, List.filterMap_cons, ih hrest,
        Line.rule?_hosted hitem]
  exact hlines s.lines s.marked

theorem clear_document : s.document.Clear where
  members := by
    rw [document]
    exact List.forall_mem_map.mpr fun item _ => item.1.clear_hosted
  lines := by
    rw [document, ← List.map_dropLast]
    exact List.forall_mem_map.mpr s.apart

theorem sound_document : Sound s.document.leaves := by
  rw [Document.leaves, paddedLeaves, document, List.flatMap_map]
  intro leaf hleaf
  obtain ⟨item, -, hleaf⟩ := List.mem_flatMap.mp hleaf
  exact item.1.sound_hosted leaf hleaf

end Source

end Shared

end RuleGraph
