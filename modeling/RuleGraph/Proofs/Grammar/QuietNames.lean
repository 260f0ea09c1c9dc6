import RuleGraph.Proofs.Hosted.Legibility
import RuleGraph.Proofs.Matching.Labels
import RuleGraph.Proofs.Terse.Keeping

/-!
# Quiet names leave no tokens

A name that begins with the quiet sign is there to label a rule without leaving
a token. In a terse source there are no such names except in references, so the
captures of its rules all have other names, and so have the tokens.

In a hosted source a quiet name can be put on a group, an option or a whole
body. Where that is a capture already, it is the capture that gets the quiet
name, and it goes on leaving tokens. `Discreet` says that this happens nowhere in
a document, and then no token has a quiet name either.
-/

namespace RuleGraph

open Rule (Labelled)

/-- Names that leave a token. -/
abbrev Loud (name : String) : Prop := isQuiet name = false

/-! ## Terse sources -/

namespace Terse

theorem kept_labelled {limits : Limits} : Kept limits (Labelled Loud) :=
  kept_everywhere (Labelled.aboutCaptures Loud) fun _ w h =>
    Labelled.named h (fun hquiet => Bool.noConfusion (w.isQuiet_name.symm.trans hquiet))
      fun _ => w.isQuiet_name

end Terse

/-! ## Hosted sources -/

namespace Hosted

theorem Name.isQuiet_text (n : Name) : isQuiet (String.ofList n.text) = n.quiet := by
  obtain ⟨quiet, first, others, hfirst, hothers⟩ := n
  cases quiet with
  | true => simp [Name.text, isQuiet, quietSign]
  | false =>
    have hne : first ≠ quietSign := by
      rintro rfl
      exact absurd hfirst (by decide)
    simp [Name.text, isQuiet, hne]

/-- A name may be put on this rule. -/
def Name.Suits (n : Name) (r : Rule) : Prop :=
  n.quiet = true → r.isCapture = false

mutual

/-- No quiet name is put on a capture. -/
def Form.Discreet : Form → Prop
  | .nested _ _ selection _ capture =>
    selection.Discreet ∧ ∀ n ∈ capture, Name.Suits n (choice selection.rules)
  | .distinction | .completion | .terminal _ | .string _ _ | .ref _ _ => True

def Element.Discreet : Element → Prop
  | .mk form _ => form.Discreet

def Sequence.Discreet : Sequence → Prop
  | .last e => e.Discreet
  | .more e _ rest => e.Discreet ∧ rest.Discreet

def Selection.Discreet : Selection → Prop
  | .last s => s.Discreet
  | .more s _ _ rest => s.Discreet ∧ rest.Discreet

end

def Member.Discreet : Member → Prop
  | .comment _ _ => True
  | .rule name _ _ body => body.Discreet ∧ name.Suits (choice body.rules)

def Document.Discreet (d : Document) : Prop :=
  ∀ m ∈ d.members, m.1.Discreet

theorem labelled_name {r : Rule} {n : Name} (h : r.Labelled Loud) (hn : n.Suits r) :
    (r.named (String.ofList n.text)).Labelled Loud :=
  h.named (fun hquiet => hn (n.isQuiet_text.symm.trans hquiet)) id

theorem labelled_capture {r : Rule} {capture : Capture} (h : r.Labelled Loud)
    (hcapture : ∀ n ∈ capture, Name.Suits n r) :
    (Capture.name r capture).Labelled Loud := by
  cases capture with
  | none => exact h
  | some n => exact labelled_name h (hcapture n rfl)

theorem labelled_series {rules : List (Option Rule)}
    (h : ∀ r ∈ rules, ∀ s ∈ r, s.Labelled Loud) : (series rules).Labelled Loud := by
  have hall : ∀ r ∈ rules.filterMap id, r.Labelled Loud := by
    intro r hr
    obtain ⟨r', hr', hsome⟩ := List.mem_filterMap.mp hr
    exact h r' hr' r hsome
  unfold series
  split
  · rename_i r heq
    rw [heq] at hall
    exact List.forall_mem_singleton.mp hall
  · exact .sequenceCut hall _

theorem labelled_choice {rules : List Rule} (h : ∀ r ∈ rules, r.Labelled Loud) :
    (choice rules).Labelled Loud := by
  unfold choice
  split
  · exact List.forall_mem_singleton.mp h
  · exact .selection h

/-- Neither the references nor the sets of figures are captures, so whatever name
is put on them does no harm. -/
theorem labelled_figures (f : Figures) : f.rule.Labelled Loud := by
  have hall : ∀ r ∈ f.alternatives, r.Labelled Loud ∧ r.isCapture = false := by
    intro r hr
    rcases List.mem_append.mp hr with hr | hr
    · obtain ⟨figure, -, hreference⟩ := List.mem_filterMap.mp hr
      cases figure with
      | ranges r => cases hreference
      | name n =>
        cases hreference
        exact ⟨.of_children rfl nofun, rfl⟩
    · split at hr
      · cases hr
      · obtain rfl := List.mem_singleton.mp hr
        exact ⟨.of_children rfl nofun, rfl⟩
  unfold Figures.rule
  split
  · exact labelled_capture (.of_children rfl nofun) fun _ _ _ => rfl
  · rename_i r heq
    obtain ⟨hr, hcapture⟩ := hall r (heq ▸ List.mem_singleton_self r)
    exact labelled_capture hr fun _ _ _ => hcapture
  · exact labelled_capture (.selection fun r hr => (hall r hr).1) fun _ _ _ => rfl

theorem labelled_terminal (t : Terminal) : t.rule.Labelled Loud := by
  have hwritten : t.written.Labelled Loud := by
    cases t with
    | ranges r => exact .of_children rfl nofun
    | figures f => exact labelled_figures f
    | spacing s => exact .of_children rfl nofun
  unfold Terminal.rule
  split
  · split
    · exact .of_children rfl nofun
    · exact hwritten
  · exact hwritten

mutual

theorem Form.labelled : ∀ (f : Form) (written : Bound), f.Discreet →
    ∀ r ∈ f.rule? written, r.Labelled Loud
  | .distinction, _, _ => nofun
  | .completion, _, _ => by
    rintro _ ⟨⟩
    exact .of_children rfl nofun
  | .nested bracket _ selection _ capture, written, h => by
    rw [Form.Discreet] at h
    rintro _ ⟨⟩
    have hinner := labelled_choice (Selection.labelled selection h.1)
    exact (labelled_capture hinner h.2).repeated _
  | .terminal t, written, _ => by
    rintro _ ⟨⟩
    exact (labelled_terminal t).repeated written
  | .string _ _, written, _ => by
    rintro _ ⟨⟩
    exact Labelled.repeated (.of_children rfl nofun) written
  | .ref name capture, written, _ => by
    rintro _ ⟨⟩
    have href : (Rule.reference (String.ofList name.text)).Labelled Loud :=
      .of_children rfl nofun
    exact (labelled_capture href fun _ _ _ => rfl).repeated written

theorem Element.labelled : ∀ e : Element, e.Discreet → ∀ r ∈ e.rule?, r.Labelled Loud
  | .mk form none, h => by
    rw [Element.Discreet] at h
    exact Form.labelled form Bound.once h
  | .mk form (some o), h => by
    rw [Element.Discreet] at h
    exact Form.labelled form o.bound h

theorem Sequence.labelled :
    ∀ s : Sequence, s.Discreet → ∀ r ∈ s.rules, ∀ s ∈ r, s.Labelled Loud
  | .last e, h => by
    rw [Sequence.Discreet] at h
    rw [Sequence.rules]
    exact List.forall_mem_singleton.mpr (Element.labelled e h)
  | .more e _ rest, h => by
    rw [Sequence.Discreet] at h
    rw [Sequence.rules]
    exact List.forall_mem_cons.mpr ⟨Element.labelled e h.1, Sequence.labelled rest h.2⟩

theorem Selection.labelled : ∀ s : Selection, s.Discreet → ∀ r ∈ s.rules, r.Labelled Loud
  | .last s, h => by
    rw [Selection.Discreet] at h
    rw [Selection.rules]
    exact List.forall_mem_singleton.mpr (labelled_series (Sequence.labelled s h))
  | .more s _ _ rest, h => by
    rw [Selection.Discreet] at h
    rw [Selection.rules]
    exact List.forall_mem_cons.mpr
      ⟨labelled_series (Sequence.labelled s h.1), Selection.labelled rest h.2⟩

end

theorem Document.labelled {d : Document} (h : d.Discreet) :
    ∀ r ∈ d.rules, r.Labelled Loud := by
  intro r hr
  obtain ⟨⟨member, pad⟩, hmember, hrule⟩ := List.mem_filterMap.mp hr
  have hdiscreet := h _ hmember
  cases member with
  | comment _ _ => cases hrule
  | rule name _ _ body =>
    cases hrule
    exact labelled_name
      (labelled_choice (Selection.labelled body hdiscreet.1)) hdiscreet.2

end Hosted

/-! ## Grammars -/

namespace Grammar

/-- The rules of a grammar that is made from a terse source. -/
theorem labelled_of_ofTerse {source : Bytes} {g : Grammar} (h : ofTerse source = .ok g) :
    ∀ r ∈ g.rules, r.Labelled Loud := by
  obtain ⟨d, hd, hfinish⟩ := bind_eq_ok h
  obtain ⟨rules, hrules, hadded⟩ := bind_eq_ok hd
  cases hadded
  obtain ⟨rfl, -⟩ := Draft.finish_eq_ok_iff.mp hfinish
  have hnone : Terse.Filed Limits.usual (Labelled Loud) [] :=
    ⟨List.forall_mem_nil _, Nat.zero_le _⟩
  exact (Terse.compile_keeps Terse.kept_labelled hnone source rules hrules).each

theorem filed_of_foldlM {limits : Limits} {rules : List Rule} :
    ∀ {filed filed' : List Rule},
    rules.foldlM (Terse.file limits) filed = .ok filed' → filed' = filed ++ rules := by
  induction rules with
  | nil =>
    intro filed filed' h
    cases h
    exact (List.append_nil filed).symm
  | cons r rest ih =>
    intro filed filed' h
    rw [List.foldlM_cons] at h
    obtain ⟨next, hnext, hrest⟩ := bind_eq_ok h
    unfold Terse.file at hnext
    split at hnext
    · cases hnext
      rw [ih hrest, List.append_assoc]
      rfl
    · cases hnext

/-- The rules of a grammar that is made from a hosted source are those of the
document. -/
theorem rules_of_ofHosted {d : Hosted.Document} {source : Bytes} {g : Grammar}
    (hd : Hosted.parse source = .ok d.parsed) (h : ofHosted source = .ok g) :
    g.rules = d.rules := by
  obtain ⟨rules, hrules, h⟩ := bind_eq_ok h
  obtain ⟨draft, hdraft, hfinish⟩ := bind_eq_ok h
  obtain ⟨filed, hfiled, hadded⟩ := bind_eq_ok (mapError_eq_ok hdraft)
  cases hadded
  obtain ⟨rfl, -⟩ := Draft.finish_eq_ok_iff.mp (mapError_eq_ok hfinish)
  rw [Hosted.rules, hd] at hrules
  have hread := mapError_eq_ok hrules
  have hsettles := Hosted.rulesOf_document d d.parsed rfl rfl
  have hrulesd : rules = d.rules := by
    by_cases hsound : Hosted.Sound d.leaves
    · exact Except.ok.inj (hread.symm.trans (hsettles.1 hsound))
    · obtain ⟨label, index, herror⟩ := hsettles.2 hsound
      cases hread.symm.trans herror
  rw [← hrulesd]
  exact filed_of_foldlM hfiled

theorem loud_of_matchWith {g : Grammar} (hg : ∀ r ∈ g.rules, r.Labelled Loud)
    {limit : Nat} {start : String} {input : Bytes} {p : Parse String}
    (h : g.matchWith limit start input = .ok p) :
    ∀ t ∈ p.overlay.tokens, isQuiet t.label = false :=
  labels_of_matchWith hg h

/-- In a match of a grammar that is made from a terse source no token has a quiet
name, and neither is there one in a match of a grammar that is made from a hosted
source, unless the document puts a quiet name on a capture. -/
theorem tokens_are_loud (g : Grammar) (limit : Nat) (start : String) (input : Bytes)
    (p : Parse String) (h : g.matchWith limit start input = .ok p) :
    (∀ source, ofTerse source = .ok g → ∀ t ∈ p.overlay.tokens, isQuiet t.label = false) ∧
      ∀ source, ofHosted source = .ok g →
        (∃ d : Hosted.Document, Hosted.parse source = .ok d.parsed) ∧
          ∀ d : Hosted.Document, Hosted.parse source = .ok d.parsed → d.Discreet →
            ∀ t ∈ p.overlay.tokens, isQuiet t.label = false := by
  refine ⟨fun source hsource => loud_of_matchWith (labelled_of_ofTerse hsource) h,
    fun source hsource => ⟨?_, fun d hd hdiscreet => loud_of_matchWith ?_ h⟩⟩
  · obtain ⟨rules, hrules, -⟩ := bind_eq_ok hsource
    obtain ⟨q, hq, -⟩ := bind_eq_ok hrules
    obtain ⟨d, -, rfl⟩ := Hosted.exists_document_of_parse hq
    exact ⟨d, hq⟩
  · rw [rules_of_ofHosted hd hsource]
    exact Hosted.Document.labelled hdiscreet

/-- A label in a terse source, and quiet names on a body and on a group that are no
captures. -/
theorem tokens_are_loud_suppressed :
    let terse := stringBytes "r = 'xy' 'zz'@b"
    let hosted := stringBytes "-r = ('xy')@-q b\nb = 'zz'"
    let input := stringBytes "xyzz"
    (∃ g p, ofTerse terse = .ok g ∧ g.matchWith Matching.usualLimit "-r" input = .ok p ∧
      p.overlay.tokens.toList = [⟨"b", 2, 4, 0⟩] ∧
      ∀ t ∈ p.overlay.tokens, isQuiet t.label = false) ∧
    ∃ (d : Hosted.Document) (g : Grammar) (p : Parse String), ofHosted hosted = .ok g ∧
      Hosted.parse hosted = .ok d.parsed ∧
      d.Discreet ∧ g.matchWith Matching.usualLimit "-r" input = .ok p ∧
      p.overlay.tokens.toList = [⟨"b", 2, 4, 0⟩] ∧
      ∀ t ∈ p.overlay.tokens, isQuiet t.label = false := by
  intro terse hosted input
  let b := Rule.capture "b" (Rule.string ['z', 'z'])
  let p : Parse String := ⟨input, ⟨#[⟨"b", 2, 4, 0⟩], []⟩, 4⟩
  constructor
  · let g : Grammar := ⟨[Rule.capture "r" (Rule.sequence [Rule.string ['x', 'y'], b])]⟩
    have hg : ofTerse terse = .ok g := eq_ok_of_toOption (by decide +kernel)
    have hp : g.matchWith Matching.usualLimit "-r" input = .ok p :=
      eq_ok_of_toOption (by decide +kernel)
    exact ⟨g, p, hg, hp, rfl, (tokens_are_loud g _ _ input p hp).1 terse hg⟩
  · let nothing : Hosted.Pad := ⟨[], List.forall_mem_nil _⟩
    let blank : Hosted.Indent := ⟨[0x20], List.forall_mem_singleton.mpr rfl⟩
    let lineBreak : Hosted.Pad := ⟨[0x0A], List.forall_mem_singleton.mpr rfl⟩
    let name : Hosted.Name := ⟨false, 'b', [], by decide, List.forall_mem_nil _⟩
    let pair (b c : UInt8) (hb : b ≠ 0x27) (hc : c ≠ 0x27) : Hosted.Element :=
      .mk (.string [b, c]
        (List.forall_mem_cons.mpr ⟨hb, List.forall_mem_singleton.mpr hc⟩)) none
    let xy := pair 0x78 0x79 (by decide) (by decide)
    let zz := pair 0x7A 0x7A (by decide) (by decide)
    let group : Hosted.Element :=
      .mk (.nested .round nothing (.last (.last xy)) nothing
        (some ⟨true, 'q', [], by decide, List.forall_mem_nil _⟩)) none
    let d : Hosted.Document := ⟨nothing, [
      (.rule ⟨true, 'r', [], by decide, List.forall_mem_nil _⟩ blank blank
        (.last (.more group blank (.last (.mk (.ref name none) none)))), lineBreak),
      (.rule name blank blank (.last (.last zz)), nothing)]⟩
    let r : Rule :=
      ⟨"-r", .sequence [⟨"-q", .literal (utf8 ['x', 'y'])⟩, Rule.reference "b"] none⟩
    let g : Grammar := ⟨[r, b]⟩
    have hparse : Hosted.parse hosted = .ok d.parsed := by
      apply eq_ok_of_toOption
      rw [Hosted.parse, Hosted.metaGrammar_eq]
      decide +kernel
    have hg : ofHosted hosted = .ok g := by
      rw [ofHosted, Hosted.rules, hparse]
      exact eq_ok_of_toOption (by decide +kernel)
    have hp : g.matchWith Matching.usualLimit "-r" input = .ok p :=
      eq_ok_of_toOption (by decide +kernel)
    have hdiscreet : d.Discreet := by
      refine List.forall_mem_cons.mpr
        ⟨⟨?_, fun _ => rfl⟩, List.forall_mem_singleton.mpr ⟨?_, ?_⟩⟩
      · exact ⟨⟨trivial, fun n hn _ => rfl⟩, trivial⟩
      · trivial
      · rintro ⟨⟩
    exact ⟨d, g, p, hg, hparse, hdiscreet, hp, rfl,
      ((tokens_are_loud g _ _ input p hp).2 hosted hg).2 d hparse hdiscreet⟩

/-- Here `b@c` is a capture, and the quiet name of the declaration is put on it. -/
theorem tokens_of_renamed_capture :
    let source := stringBytes "-r = b@c\nb = 'x'"
    ∃ g p, ofHosted source = .ok g ∧ g.matchWith Matching.usualLimit "-r" [0x78] = .ok p ∧
      p.overlay.tokens.toList = [⟨"-r", 0, 1, 0⟩, ⟨"b", 0, 1, 1⟩] ∧
      isQuiet "-r" = true := by
  intro source
  let r := Rule.capture "-r" (Rule.reference "b")
  let b := Rule.capture "b" (Rule.string ['x'])
  let g : Grammar := ⟨[r, b]⟩
  let p : Parse String := ⟨[0x78], ⟨#[⟨"-r", 0, 1, 0⟩, ⟨"b", 0, 1, 1⟩], []⟩, 1⟩
  have hg : ofHosted source = .ok g := by
    apply eq_ok_of_toOption
    rw [ofHosted, Hosted.rules, Hosted.parse, Hosted.metaGrammar_eq]
    decide +kernel
  have hp : g.matchWith Matching.usualLimit "-r" [0x78] = .ok p :=
    eq_ok_of_toOption (by decide +kernel)
  exact ⟨g, p, hg, hp, rfl, rfl⟩

end Grammar

end RuleGraph
