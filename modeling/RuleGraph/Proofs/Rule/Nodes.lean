import RuleGraph.Rule.Walk

/-!
# What holds of every node of a rule

The combinators put rules together, and all but two of them leave what they are
given as it is. So a property of single nodes that the new nodes have is kept.
The two are the binding of completions, which goes down through captures, and
naming, which may change the name of a node that is there already.

Properties of interest are about captures. One is what their names are like. A
quiet name takes the place of the name that a rule has, and if the rule is a
capture it goes on leaving tokens, now of the quiet name. Another one is that no
capture captures just a capture.
-/

namespace RuleGraph.Rule

/-! ## What combinators look for -/

def isRepetition (r : Rule) : Bool :=
  match r.shape with
  | .iteration _ _ => true
  | _ => false

theorem repeated_of_not_isRepetition {r : Rule} (h : r.isRepetition = false)
    (bound : Bound) :
    r.repeated bound = if bound = Bound.once then r else bare (.iteration r bound) := by
  unfold repeated
  split
  · rename_i hshape
    rw [isRepetition, hshape] at h
    cases h
  · rfl

def isDecision (r : Rule) : Bool :=
  match r.shape with
  | .decision => true
  | _ => false

theorem isDecision_iff {r : Rule} : r.isDecision = true ↔ r.shape = .decision := by
  unfold isDecision
  split <;> simp_all

theorem decision_congr {r r' : Rule} (h : r.isDecision = r'.isDecision) :
    r.shape = .decision ↔ r'.shape = .decision := by
  rw [← isDecision_iff, h, isDecision_iff]

/-- A completion that does not know yet what it runs up to. -/
def isOpen (r : Rule) : Bool :=
  match r.shape with
  | .completion none => true
  | _ => false

/-! ## Every node -/

/-- A rule and everything below it are like this. -/
def Everywhere (like : Rule → Prop) (r : Rule) : Prop :=
  ∀ s ∈ r.walk, like s

variable {like : Rule → Prop} {r next : Rule}

theorem everywhere_iff :
    r.Everywhere like ↔ like r ∧ ∀ c ∈ r.children, c.Everywhere like := by
  unfold Everywhere
  rw [walk_eq, List.forall_mem_cons]
  simp only [List.mem_flatMap, forall_exists_index, and_imp]
  exact and_congr_right fun _ =>
    ⟨fun h c hc s hs => h s c hc hs, fun h s c hc hs => h c hc s hs⟩

/-- Binding a completion leaves captures captures and makes no decision. -/
theorem kind_upTo? {bound : Rule} (h : upTo? next r = some bound) :
    bound.isCapture = r.isCapture ∧ bound.isDecision = r.isDecision := by
  obtain ⟨name, shape⟩ := r
  cases shape with
  | completion stop =>
    cases stop with
    | none =>
      cases h
      exact ⟨rfl, rfl⟩
    | some stop => cases h
  | capture child =>
    obtain ⟨inner, -, rfl⟩ := Option.map_eq_some_iff.mp h
    exact ⟨rfl, rfl⟩
  | _ => cases h

/-- A property that asks nothing of completions, and of captures nothing that the
binding of a completion in them could change. -/
structure Bindable (like : Rule → Prop) : Prop where
  completion {name : String} {stop : Option Rule} : like ⟨name, .completion stop⟩
  bound {next child child' : Rule} {name : String} : upTo? next child = some child' →
    like (capture name child) → like (capture name child')

/-- A property that asks nothing of repetitions and lookaheads either. -/
structure Tolerant (like : Rule → Prop) : Prop extends Bindable like where
  iteration {name : String} {child : Rule} {bound : Bound} :
    like ⟨name, .iteration child bound⟩
  lookahead {child : Rule} : like (Rule.lookahead child)

/-- A property that asks something of captures only, and nothing that the binding
of a completion in them could change. -/
structure AboutCaptures (like : Rule → Prop) : Prop where
  others {r : Rule} : r.isCapture = false → like r
  bound {next child child' : Rule} {name : String} : upTo? next child = some child' →
    like (capture name child) → like (capture name child')

/-- A property that asks nothing of captures, and of other rules nothing that their
names could change. -/
structure AboutShapes (like : Rule → Prop) : Prop where
  capture {name : String} {child : Rule} : like (capture name child)
  renamed {name name' : String} {shape : Shape Rule} : like ⟨name, shape⟩ →
  like ⟨name', shape⟩

theorem AboutCaptures.tolerant (h : AboutCaptures like) : Tolerant like where
  iteration := h.others rfl
  lookahead := h.others rfl
  completion := h.others rfl
  bound := h.bound

namespace Everywhere

theorem child {c : Rule} (h : r.Everywhere like) (hc : c ∈ r.children) :
    c.Everywhere like :=
  (everywhere_iff.mp h).2 c hc

theorem body (h : r.Everywhere like) : r.body.Everywhere like := by
  obtain ⟨name, shape⟩ := r
  cases shape with
  | capture inner => exact h.child (List.mem_singleton_self inner)
  | _ => exact h

theorem capture {name : String} (h : r.Everywhere like)
    (hcapture : like (Rule.capture name r)) : (Rule.capture name r).Everywhere like :=
  everywhere_iff.mpr ⟨hcapture, List.forall_mem_singleton.mpr h⟩

theorem of_children (hr : like r) (h : ∀ c ∈ r.children, c.Everywhere like) :
    r.Everywhere like :=
  everywhere_iff.mpr ⟨hr, h⟩

/-- A name that leaves a token makes a capture. -/
theorem named {name : String} (h : r.Everywhere like) (hname : isQuiet name = false)
    (hcapture : ∀ child, like (Rule.capture name child)) :
    (r.named name).Everywhere like := by
  unfold Rule.named
  rw [hname, if_neg Bool.false_ne_true]
  split
  · rename_i child hshape
    refine Everywhere.capture (h.child ?_) (hcapture child)
    rw [children, hshape]
    exact List.mem_singleton_self child
  · exact h.capture (hcapture r)

theorem named_shape {name : String} (hlike : AboutShapes like) (h : r.Everywhere like) :
    (r.named name).Everywhere like := by
  cases hquiet : isQuiet name with
  | true =>
    obtain ⟨old, shape⟩ := r
    obtain ⟨hnode, hparts⟩ := everywhere_iff.mp h
    rw [Rule.named, hquiet, if_pos rfl]
    exact of_children (hlike.renamed hnode) hparts
  | false => exact h.named hquiet fun _ => hlike.capture

theorem selection {rules : List Rule} (hselection : like (Rule.selection rules))
    (h : ∀ r ∈ rules, r.Everywhere like) : (Rule.selection rules).Everywhere like :=
  of_children hselection h

section

variable (hlike : Tolerant like)

include hlike

theorem lookahead (h : r.Everywhere like) : (Rule.lookahead r).Everywhere like :=
  of_children hlike.lookahead (List.forall_mem_singleton.mpr h)

theorem repeated (h : r.Everywhere like) (bound : Bound) :
    (r.repeated bound).Everywhere like := by
  have hiterated {child : Rule} (hchild : child.Everywhere like) (name : String) :
      Everywhere like ⟨name, .iteration child bound⟩ :=
    of_children hlike.iteration (List.forall_mem_singleton.mpr hchild)
  unfold Rule.repeated
  split
  · rename_i child _ hshape
    have hchild : child.Everywhere like := by
      refine h.child ?_
      rw [children, hshape]
      exact List.mem_singleton_self child
    split
    · exact hchild
    · exact hiterated hchild r.name
  · split
    · exact h
    · exact hiterated h ""

end

variable (hlike : Bindable like)

include hlike

theorem upTo (hnext : next.Everywhere like) (h : r.Everywhere like) :
    ∀ r' ∈ upTo? next r, r'.Everywhere like := by
  induction r using childInduction with
  | step r ih =>
    intro r' hr'
    obtain ⟨name, shape⟩ := r
    cases shape with
    | completion stop =>
      cases stop with
      | some stop => cases hr'
      | none =>
        cases hr'
        exact of_children hlike.completion (List.forall_mem_singleton.mpr hnext)
    | capture inner =>
      obtain ⟨bound, hbound, rfl⟩ := Option.map_eq_some_iff.mp hr'
      have hinner := ih inner (List.mem_singleton_self inner)
        (h.child (List.mem_singleton_self inner)) bound hbound
      exact hinner.capture (hlike.bound hbound (everywhere_iff.mp h).1)
    | _ => cases hr'

theorem join {rules : List Rule} (h : r.Everywhere like)
    (hrules : ∀ s ∈ rules, s.Everywhere like) : ∀ s ∈ Rule.join r rules,
    s.Everywhere like := by
  cases rules with
  | nil => exact List.forall_mem_singleton.mpr h
  | cons next rest =>
    refine List.forall_mem_cons.mpr ⟨?_, hrules⟩
    cases hup : upTo? next r with
    | none => exact h
    | some r' => exact upTo hlike (List.forall_mem_cons.mp hrules).1 h r' hup

theorem sequenceCut {rules : List Rule} {cut : Option Nat}
    (hsequence : like (Rule.sequenceCut rules cut)) (h : ∀ r ∈ rules, r.Everywhere like) :
    (Rule.sequenceCut rules cut).Everywhere like := by
  refine of_children hsequence ?_
  show ∀ s ∈ rules.foldr Rule.join [], s.Everywhere like
  clear hsequence
  induction rules with
  | nil => exact nofun
  | cons r rest ih =>
    obtain ⟨hr, hrest⟩ := List.forall_mem_cons.mp h
    exact join hlike hr (ih hrest)

theorem chain {rules : List Rule} (hsequence : like (Rule.sequence rules))
    (h : ∀ r ∈ rules, r.Everywhere like) : (Rule.chain rules).Everywhere like := by
  unfold Rule.chain
  split
  · exact List.forall_mem_singleton.mp h
  · exact sequenceCut hlike hsequence h

end Everywhere

/-! ## Captures of captures -/

theorem named_of_not_isCapture (hr : r.isCapture = false) {name : String}
    (hname : isQuiet name = false) : r.named name = capture name r := by
  unfold named
  rw [hname, if_neg Bool.false_ne_true]
  split
  · rename_i hshape
    rw [isCapture, hshape] at hr
    cases hr
  · rfl

/-- No capture in a rule captures just another one. -/
def Unnested : Rule → Prop :=
  Everywhere fun s => s.isCapture = true → s.body.isCapture = false

namespace Unnested

theorem aboutCaptures :
    AboutCaptures fun s => s.isCapture = true → s.body.isCapture = false where
  others hr hcapture := Bool.noConfusion (hr.symm.trans hcapture)
  bound hbound h hcapture := (kind_upTo? hbound).1.trans (h hcapture)

/-- Naming a capture gives it another name, so it does not capture a capture. -/
theorem named {name : String} (h : r.Unnested) (hname : isQuiet name = false) :
    (r.named name).Unnested := by
  cases hr : r.isCapture with
  | false =>
    rw [named_of_not_isCapture hr hname]
    exact Everywhere.capture h fun _ => hr
  | true =>
    have hbody := (everywhere_iff.mp h).1 hr
    obtain ⟨old, shape⟩ := r
    cases shape with
    | capture child =>
      unfold Rule.named
      rw [hname, if_neg Bool.false_ne_true]
      exact Everywhere.capture (Everywhere.body h) fun _ => hbody
    | _ => cases hr

theorem isCapture_body (h : r.Unnested) : r.body.isCapture = false := by
  cases hr : r.isCapture with
  | true => exact (everywhere_iff.mp h).1 hr
  | false =>
    obtain ⟨name, shape⟩ := r
    cases shape with
    | capture child => cases hr
    | _ => rfl

end Unnested

/-! ## The names of captures -/

/-- Captures in a rule and below it have names like this. -/
def Labelled (fit : String → Prop) : Rule → Prop :=
  Everywhere fun s => s.isCapture = true → fit s.name

namespace Labelled

variable {fit : String → Prop}

theorem aboutCaptures (fit : String → Prop) :
    AboutCaptures fun s => s.isCapture = true → fit s.name where
  others hr hcapture := Bool.noConfusion (hr.symm.trans hcapture)
  bound _ h := h

theorem of_children (hr : r.isCapture = false) (h : ∀ c ∈ r.children, c.Labelled fit) :
    r.Labelled fit :=
  Everywhere.of_children ((aboutCaptures fit).others hr) h

theorem child {c : Rule} (h : r.Labelled fit) (hc : c ∈ r.children) : c.Labelled fit :=
  Everywhere.child h hc

theorem name (h : r.Labelled fit) (hr : r.isCapture = true) : fit r.name :=
  (everywhere_iff.mp h).1 hr

theorem body (h : r.Labelled fit) : r.body.Labelled fit :=
  Everywhere.body h

theorem repeated (h : r.Labelled fit) (bound : Bound) : (r.repeated bound).Labelled fit :=
  Everywhere.repeated (aboutCaptures fit).tolerant h bound

theorem selection {rules : List Rule} (h : ∀ r ∈ rules, r.Labelled fit) :
    (Rule.selection rules).Labelled fit :=
  Everywhere.selection ((aboutCaptures fit).others rfl) h

theorem sequenceCut {rules : List Rule} (h : ∀ r ∈ rules, r.Labelled fit)
    (cut : Option Nat) : (Rule.sequenceCut rules cut).Labelled fit :=
  Everywhere.sequenceCut (aboutCaptures fit).tolerant.toBindable
    ((aboutCaptures fit).others rfl) h

/-- A quiet name does no harm except on a capture. -/
theorem named {name : String} (h : r.Labelled fit)
    (hquiet : isQuiet name = true → r.isCapture = false)
    (hname : isQuiet name = false → fit name) : (r.named name).Labelled fit := by
  cases hsign : isQuiet name with
  | true =>
    rw [Rule.named, hsign, if_pos rfl]
    exact .of_children (hquiet hsign) fun c hc => h.child hc
  | false => exact Everywhere.named h hsign fun _ _ => hname hsign

end Labelled

end RuleGraph.Rule
