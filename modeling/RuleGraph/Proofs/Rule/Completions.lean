import RuleGraph.Proofs.Rule.Nodes

/-!
# What completions run up to

A completion in a sequence runs up to the element behind it, whether it is captured or
not, and any other completion to the end of the input. Sequences see to that when they
are made, from right to left, so the element behind is bound itself by then. Whatever
else is done to rules leaves a completion where it was, or takes it out of a rule that
was no sequence, and then it runs up to the end still.

A completion holds a copy of the element that it runs up to. The copy may be a completion
that is bound in turn, to what comes behind the original. So what is asked of a copy is
only what is asked inside of it.
-/

namespace RuleGraph.Rule

/-- What the completion runs up to that a rule is under any captures. Where that is
nothing, it is the end of the input. -/
def aim? : Rule → Option (Option Rule)
  | ⟨_, .completion stop⟩ => some stop
  | ⟨_, .capture child⟩ => aim? child
  | _ => none

/-- What comes behind the part of a rule at a position: the next element in a sequence,
and nothing in anything else. -/
def behind? (r : Rule) (i : Nat) : Option Rule :=
  match r.shape with
  | .sequence elements _ => elements[i + 1]?
  | _ => none

/-- The completions among the parts of a rule run up to what comes behind them. The part
of a captured completion is that completion itself, and the part of a bound one is a
copy. -/
def Aims (r : Rule) : Prop :=
  r.aim? = none → ∀ i part aim, r.children[i]? = some part → part.aim? = some aim →
    aim = r.behind? i

/-- Every completion in a rule runs up to what comes behind it, and behind the rule itself
there is nothing. -/
structure Aimed (r : Rule) : Prop where
  inside : r.Everywhere Aims
  last : ∀ aim, r.aim? = some aim → aim = none

variable {r next : Rule} {rules : List Rule}

theorem aims_capture {name : String} {child : Rule} : Aims ⟨name, .capture child⟩ := by
  intro hnone i part aim hpart haim
  obtain rfl : part = child := List.mem_singleton.mp (List.mem_of_getElem? hpart)
  cases hnone.symm.trans haim

theorem aims_bindable : Bindable Aims where
  completion := nofun
  bound _ _ := aims_capture

/-! ## Binding -/

theorem aim?_of_upTo? {bound : Rule} (h : upTo? next r = some bound) :
    bound.aim? = some (some next) := by
  induction r using childInduction generalizing bound with
  | step r ih =>
    obtain ⟨name, shape⟩ := r
    cases shape with
    | completion stop =>
      cases stop with
      | none =>
        cases h
        rfl
      | some stop => cases h
    | capture child =>
      obtain ⟨inner, hinner, rfl⟩ := Option.map_eq_some_iff.mp h
      have haim := ih child (List.mem_singleton_self child) hinner
      exact haim
    | _ => cases h

/-- A completion that does not know what it runs up to can be told. -/
theorem upTo?_ne_none (h : r.aim? = some none) : upTo? next r ≠ none := by
  induction r using childInduction with
  | step r ih =>
    obtain ⟨name, shape⟩ := r
    cases shape with
    | completion stop =>
      cases h
      exact nofun
    | capture child =>
      have hchild := ih child (List.mem_singleton_self child) h
      exact fun hnone => hchild (Option.map_eq_none_iff.mp hnone)
    | _ => cases h

/-- In front of an element, an aimed rule runs up to that element if it is a
completion. -/
theorem Aimed.aim?_join (h : r.Aimed) {aim : Option Rule}
    (haim : ((upTo? next r).getD r).aim? = some aim) : aim = some next := by
  cases hup : upTo? next r with
  | some bound =>
    rw [hup] at haim
    exact (Option.some.inj ((aim?_of_upTo? hup).symm.trans haim)).symm
  | none =>
    rw [hup] at haim
    obtain rfl := h.last aim haim
    exact absurd hup (upTo?_ne_none haim)

/-- Elements that are put one in front of the other run up to the next one. -/
theorem aim?_foldr_join (h : ∀ r ∈ rules, r.Aimed) : ∀ i part aim,
    (rules.foldr join [])[i]? = some part → part.aim? = some aim →
      aim = (rules.foldr join [])[i + 1]? := by
  induction rules with
  | nil => exact nofun
  | cons r rest ih =>
    obtain ⟨hr, hrest⟩ := List.forall_mem_cons.mp h
    intro i part aim hpart haim
    rw [List.foldr_cons] at hpart ⊢
    cases hjoined : rest.foldr join [] with
    | nil =>
      rw [hjoined] at hpart
      obtain rfl : part = r := List.mem_singleton.mp (List.mem_of_getElem? hpart)
      rw [hr.last aim haim]
      cases i <;> rfl
    | cons next later =>
      rw [hjoined] at hpart
      cases i with
      | zero =>
        cases hpart
        exact hr.aim?_join haim
      | succ i =>
        have hlater := ih hrest i part aim
        rw [hjoined] at hlater
        exact hlater hpart haim

/-! ## What combinators make of aimed rules -/

theorem aim?_congr {r r' : Rule} (h : r.shape = r'.shape) : r.aim? = r'.aim? := by
  obtain ⟨name, shape⟩ := r
  obtain ⟨name', shape'⟩ := r'
  cases h
  cases shape <;> rfl

namespace Aimed

/-- Where nothing comes behind a part, every part has to be aimed by itself. -/
theorem of_parts (hr : r.aim? = none) (hbehind : ∀ i, r.behind? i = none)
    (h : ∀ c ∈ r.children, c.Aimed) : r.Aimed := by
  refine ⟨.of_children ?_ fun c hc => (h c hc).inside, fun aim haim => ?_⟩
  · intro _ i part aim hpart haim
    rw [hbehind i]
    exact (h part (List.mem_of_getElem? hpart)).last aim haim
  · cases hr.symm.trans haim

theorem part {c : Rule} (h : r.Aimed) (hr : r.aim? = none)
    (hbehind : ∀ i, r.behind? i = none) (hc : c ∈ r.children) : c.Aimed := by
  refine ⟨h.inside.child hc, fun aim haim => ?_⟩
  obtain ⟨i, hi⟩ := List.getElem?_of_mem hc
  rw [← hbehind i]
  exact (everywhere_iff.mp h.inside).1 hr i c aim hi haim

theorem leaf (hr : r.aim? = none) (hparts : r.children = []) : r.Aimed := by
  refine ⟨.of_children ?_ ?_, fun aim haim => ?_⟩
  · intro _ i part aim hpart
    rw [hparts] at hpart
    cases hpart
  · rw [hparts]
    exact List.forall_mem_nil _
  · cases hr.symm.trans haim

theorem completion : Rule.completion.Aimed :=
  ⟨.of_children aims_bindable.completion nofun, fun _ haim => (Option.some.inj haim).symm⟩

theorem capture (h : r.Aimed) (name : String) : (Rule.capture name r).Aimed :=
  ⟨h.inside.capture aims_capture, h.last⟩

theorem child {name : String} {c : Rule} (h : Aimed ⟨name, .capture c⟩) : c.Aimed :=
  ⟨h.inside.child (List.mem_singleton_self c), h.last⟩

theorem body (h : r.Aimed) : r.body.Aimed := by
  obtain ⟨name, shape⟩ := r
  cases shape with
  | capture c => exact h.child
  | _ => exact h

/-- The name of a rule makes no difference. -/
theorem renamed {r' : Rule} (h : r.Aimed) (hshape : r.shape = r'.shape) : r'.Aimed := by
  have haim := aim?_congr hshape
  have hchildren : r.children = r'.children := congrArg Shape.parts hshape
  have hbehind (i : Nat) : r.behind? i = r'.behind? i := by
    unfold behind?
    rw [hshape]
  obtain ⟨hnode, hparts⟩ := everywhere_iff.mp h.inside
  refine ⟨.of_children ?_ (hchildren ▸ hparts), haim ▸ h.last⟩
  intro hnone i part aim hpart hpartAim
  rw [← hbehind i]
  exact hnode (haim.trans hnone) i part aim (hchildren ▸ hpart) hpartAim

theorem named (h : r.Aimed) (name : String) : (r.named name).Aimed := by
  unfold Rule.named
  split
  · exact h.renamed rfl
  · split
    · rename_i c hshape
      obtain ⟨old, shape⟩ := r
      cases hshape
      exact h.child.capture name
    · exact h.capture name

theorem lookahead (h : r.Aimed) : (Rule.lookahead r).Aimed :=
  .of_parts rfl (fun _ => rfl) (List.forall_mem_singleton.mpr h)

theorem repeated (h : r.Aimed) (bound : Bound) : (r.repeated bound).Aimed := by
  have hiterated {c : Rule} (hc : c.Aimed) (name : String) :
      Aimed ⟨name, .iteration c bound⟩ :=
    .of_parts rfl (fun _ => rfl) (List.forall_mem_singleton.mpr hc)
  unfold Rule.repeated
  split
  · rename_i c _ hshape
    obtain ⟨name, shape⟩ := r
    cases hshape
    have hc : c.Aimed := h.part rfl (fun _ => rfl) (List.mem_singleton_self c)
    split
    · exact hc
    · exact hiterated hc name
  · split
    · exact h
    · exact hiterated h ""

theorem selection (h : ∀ r ∈ rules, r.Aimed) : (Rule.selection rules).Aimed :=
  .of_parts rfl (fun _ => rfl) h

theorem sequenceCut (h : ∀ r ∈ rules, r.Aimed) (cut : Option Nat) :
    (Rule.sequenceCut rules cut).Aimed :=
  ⟨.sequenceCut aims_bindable (fun _ => aim?_foldr_join h) fun r hr =>
    (h r hr).inside, nofun⟩

theorem chain (h : ∀ r ∈ rules, r.Aimed) : (Rule.chain rules).Aimed := by
  unfold Rule.chain
  split
  · exact List.forall_mem_singleton.mp h
  · exact sequenceCut h none

end Aimed

end RuleGraph.Rule
