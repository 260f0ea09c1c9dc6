import Mathlib.Data.List.Forall2
import RuleGraph.Proofs.Chains
import RuleGraph.Proofs.Rule.Nodes

/-!
# A rule in the place of a reference

An inclusion either puts a rule into another one or leaves a reference to it
there, and `Spliced` compares the two: it holds of rules that differ only in
this, at any number of places.

The combinators look at what they are given, and where they do, a reference may
be treated in another way than the rule that it stands for. `repeated` looks for
a repetition, `named` for a capture, and a sequence for completions among its
elements. Matching a sequence looks for decisions. So each combinator respects
the comparison only if the rule is not what it looks for, or does not stand where
it looks.
-/

namespace RuleGraph.Rule

/-- What is left of a rule without any captures around it. -/
def uncaptured : Rule → Rule
  | ⟨_, .capture child⟩ => uncaptured child
  | r => r

/-- The second rule is the first one with `inserted` in the place of some of the
references to `target`. -/
inductive Spliced (target : String) (inserted : Rule) : Rule → Rule → Prop
  | here : Spliced target inserted (reference target) inserted
  | literal {name bytes} :
      Spliced target inserted ⟨name, .literal bytes⟩ ⟨name, .literal bytes⟩
  | terminal {name set} :
      Spliced target inserted ⟨name, .terminal set⟩ ⟨name, .terminal set⟩
  | spacing {name contract} :
      Spliced target inserted ⟨name, .spacing contract⟩ ⟨name, .spacing contract⟩
  | iteration {name child child' bound} : Spliced target inserted child child' →
      Spliced target inserted ⟨name, .iteration child bound⟩
        ⟨name, .iteration child' bound⟩
  /-- Decisions stand at the same positions. -/
  | sequence {name elements elements' cut} :
      List.Forall₂ (Spliced target inserted) elements elements' →
      elements.map isDecision = elements'.map isDecision →
      Spliced target inserted ⟨name, .sequence elements cut⟩
        ⟨name, .sequence elements' cut⟩
  | selection {name alternatives alternatives'} :
      List.Forall₂ (Spliced target inserted) alternatives alternatives' →
      Spliced target inserted ⟨name, .selection alternatives⟩
        ⟨name, .selection alternatives'⟩
  | toEnd {name} :
      Spliced target inserted ⟨name, .completion none⟩ ⟨name, .completion none⟩
  | completion {name stop stop'} : Spliced target inserted stop stop' →
      Spliced target inserted ⟨name, .completion (some stop)⟩
        ⟨name, .completion (some stop')⟩
  | lookahead {name child child'} : Spliced target inserted child child' →
      Spliced target inserted ⟨name, .lookahead child⟩ ⟨name, .lookahead child'⟩
  | capture {name child child'} : Spliced target inserted child child' →
      Spliced target inserted ⟨name, .capture child⟩ ⟨name, .capture child'⟩
  | decision {name} : Spliced target inserted ⟨name, .decision⟩ ⟨name, .decision⟩
  | reference {name other} :
      Spliced target inserted ⟨name, .reference other⟩ ⟨name, .reference other⟩

namespace Spliced

variable {target : String} {inserted r r' next next' : Rule}

theorem refl (target : String) (inserted r : Rule) : Spliced target inserted r r := by
  induction r using childInduction with
  | step r ih =>
    obtain ⟨name, shape⟩ := r
    have hlist (rules : List Rule) (h : ∀ c ∈ rules, Spliced target inserted c c) :
        List.Forall₂ (Spliced target inserted) rules rules := List.forall₂_same.mpr h
    cases shape with
    | literal => exact .literal
    | terminal => exact .terminal
    | spacing => exact .spacing
    | iteration child => exact .iteration (ih child (List.mem_singleton_self child))
    | sequence elements => exact .sequence (hlist elements ih) rfl
    | selection alternatives => exact .selection (hlist alternatives ih)
    | completion stop =>
      cases stop with
      | none => exact .toEnd
      | some stop => exact .completion (ih stop (List.mem_singleton_self stop))
    | lookahead child => exact .lookahead (ih child (List.mem_singleton_self child))
    | capture child => exact .capture (ih child (List.mem_singleton_self child))
    | decision => exact .decision
    | reference => exact .reference

/-- What is looked for is the same in both rules, unless they are the reference and
what was put in its place. -/
theorem here_or_alike (h : Spliced target inserted r r') :
    (r = Rule.reference target ∧ r' = inserted) ∨
      (r.isDecision = r'.isDecision ∧ r.isRepetition = r'.isRepetition ∧
        r.isCapture = r'.isCapture) := by
  cases h with
  | here => exact .inl ⟨rfl, rfl⟩
  | _ => exact .inr ⟨rfl, rfl, rfl⟩

theorem isDecision_eq (h : Spliced target inserted r r')
    (hlone : inserted.isDecision = true → r ≠ Rule.reference target) :
    r.isDecision = r'.isDecision := by
  rcases h.here_or_alike with ⟨rfl, rfl⟩ | ⟨heq, -⟩
  · exact (Bool.eq_false_iff.mpr fun h => hlone h rfl).symm
  · exact heq

theorem isRepetition_eq (h : Spliced target inserted r r')
    (hlone : inserted.isRepetition = true → r ≠ Rule.reference target) :
    r.isRepetition = r'.isRepetition := by
  rcases h.here_or_alike with ⟨rfl, rfl⟩ | ⟨-, heq, -⟩
  · exact (Bool.eq_false_iff.mpr fun h => hlone h rfl).symm
  · exact heq

theorem isCapture_eq (h : Spliced target inserted r r')
    (hinserted : inserted.isCapture = false) : r.isCapture = r'.isCapture := by
  rcases h.here_or_alike with ⟨rfl, rfl⟩ | ⟨-, -, heq⟩
  · exact hinserted.symm
  · exact heq

end Spliced

theorem upTo?_eq_none {r : Rule} (hcapture : r.isCapture = false)
    (hopen : r.isOpen = false) (next : Rule) : upTo? next r = none := by
  obtain ⟨name, shape⟩ := r
  cases shape with
  | capture child => cases hcapture
  | completion stop =>
    cases stop with
    | none => cases hopen
    | some stop => rfl
  | _ => rfl

/-- Binding completions moves no decision. -/
theorem map_isDecision_foldr_join (rules : List Rule) :
    (rules.foldr join []).map isDecision = rules.map isDecision := by
  induction rules with
  | nil => rfl
  | cons r rest ih =>
    rw [List.foldr_cons, List.map_cons, ← ih]
    cases rest.foldr join [] with
    | nil => rfl
    | cons next more =>
      rw [join, List.map_cons]
      cases hup : upTo? next r with
      | none => rfl
      | some bound => rw [Option.getD_some, (kind_upTo? hup).2]

/-! ## The combinators -/

/-- If the inserted rule is a decision or an open completion, the references to
it do not stand where a sequence would tell the difference. -/
structure Apart (target : String) (inserted : Rule) (rules : List Rule) : Prop where
  decision : inserted.isDecision = true → 2 ≤ rules.length → ∀ r ∈ rules,
  r ≠ reference target
  completion : inserted.isOpen = true → ∀ r ∈ rules.dropLast,
  r.uncaptured ≠ reference target

/-- For any other rule there is nothing to ask. -/
theorem Apart.of_kind {target : String} {inserted : Rule}
    (hdecision : inserted.isDecision = false) (hopen : inserted.isOpen = false)
    (rules : List Rule) : Apart target inserted rules where
  decision h := absurd h (Bool.eq_false_iff.mp hdecision)
  completion h := absurd h (Bool.eq_false_iff.mp hopen)

namespace Spliced

variable {target : String} {inserted r r' next next' : Rule}

theorem repeated (h : Spliced target inserted r r')
    (hlone : inserted.isRepetition = true → r ≠ Rule.reference target) (bound : Bound) :
    Spliced target inserted (r.repeated bound) (r'.repeated bound) := by
  have heq := h.isRepetition_eq hlone
  cases hr : r.isRepetition with
  | false =>
    rw [repeated_of_not_isRepetition hr, repeated_of_not_isRepetition (heq.symm.trans hr)]
    split
    · exact h
    · exact .iteration h
  | true =>
    cases h with
    | iteration hchild =>
      unfold Rule.repeated
      dsimp only
      split
      · exact hchild
      · exact .iteration hchild
    | _ => cases hr

theorem named (h : Spliced target inserted r r') (hcapture : inserted.isCapture = false)
    {name : String} (hname : isQuiet name = false) :
    Spliced target inserted (r.named name) (r'.named name) := by
  have heq := h.isCapture_eq hcapture
  cases hr : r.isCapture with
  | false =>
    rw [named_of_not_isCapture hr hname, named_of_not_isCapture (heq.symm.trans hr) hname]
    exact .capture h
  | true =>
    cases h with
    | capture hchild =>
      unfold Rule.named
      rw [hname, if_neg Bool.false_ne_true]
      exact .capture hchild
    | _ => cases hr

theorem upTo (hnext : Spliced target inserted next next')
    (hcapture : inserted.isCapture = false) (h : Spliced target inserted r r')
    (hopen : inserted.isOpen = true → r.uncaptured ≠ Rule.reference target) :
    Option.Rel (Spliced target inserted) (upTo? next r) (upTo? next' r') := by
  induction r using childInduction generalizing r' with
  | step r ih =>
    cases h with
    | here =>
      have hclosed : inserted.isOpen = false := Bool.eq_false_iff.mpr fun h => hopen h rfl
      rw [upTo?_eq_none hcapture hclosed]
      exact .none
    | toEnd => exact .some (.completion hnext)
    | capture hchild =>
      rw [upTo?, upTo?]
      exact rel_map (ih _ (List.mem_singleton_self _) hchild hopen) fun _ _ h =>
        .capture h
    | _ => exact .none

theorem join (hcapture : inserted.isCapture = false) (h : Spliced target inserted r r')
    {rules rules' : List Rule}
    (hrules : List.Forall₂ (Spliced target inserted) rules rules')
    (hopen : inserted.isOpen = true → r.uncaptured ≠ Rule.reference target) :
    List.Forall₂ (Spliced target inserted) (Rule.join r rules) (Rule.join r' rules') := by
  cases hrules with
  | nil => exact .cons h .nil
  | cons hnext hrest =>
    exact .cons (rel_getD (hnext.upTo hcapture h hopen) h) (.cons hnext hrest)

theorem joined (hcapture : inserted.isCapture = false) {rules rules' : List Rule}
    (h : List.Forall₂ (Spliced target inserted) rules rules') :
    (inserted.isOpen = true → ∀ r ∈ rules.dropLast,
      r.uncaptured ≠ Rule.reference target) →
      List.Forall₂ (Spliced target inserted) (rules.foldr Rule.join [])
        (rules'.foldr Rule.join []) := by
  induction h with
  | nil => exact fun _ => .nil
  | @cons r r' rest rest' hr hrest ih =>
    intro hopen
    cases rest with
    | nil =>
      cases hrest
      exact .cons hr .nil
    | cons next more =>
      have hopen := fun hinserted => List.forall_mem_cons.mp (hopen hinserted)
      exact join hcapture hr (ih fun hinserted => (hopen hinserted).2)
        fun hinserted => (hopen hinserted).1

theorem map_isDecision {rules rules' : List Rule}
    (h : List.Forall₂ (Spliced target inserted) rules rules')
    (hlone : inserted.isDecision = true → ∀ r ∈ rules, r ≠ Rule.reference target) :
    rules.map isDecision = rules'.map isDecision := by
  rw [← List.forall₂_eq_eq_eq, List.forall₂_map_left_iff, List.forall₂_map_right_iff]
  have hboth :=
    (List.forall₂_and_left _ _).mpr ⟨fun r hr hinserted => hlone hinserted r hr, h⟩
  exact hboth.imp fun r r' h => h.2.isDecision_eq h.1

theorem chain (hcapture : inserted.isCapture = false) {rules rules' : List Rule}
    (h : List.Forall₂ (Spliced target inserted) rules rules')
    (hapart : Apart target inserted rules) :
    Spliced target inserted (Rule.chain rules) (Rule.chain rules') := by
  have hsequence (hdecision : rules.map isDecision = rules'.map isDecision) :
      Spliced target inserted (Rule.sequence rules) (Rule.sequence rules') := by
    refine .sequence (joined hcapture h hapart.completion) ?_
    rw [map_isDecision_foldr_join, map_isDecision_foldr_join, hdecision]
  match rules, rules', h with
  | [], _, .nil => exact refl _ _ _
  | [r], [r'], .cons hr .nil => exact hr
  | r :: next :: rest, r' :: next' :: rest', h =>
    exact hsequence (map_isDecision h fun hinserted =>
      hapart.decision hinserted (Nat.le_add_left 2 rest.length))

theorem body (h : Spliced target inserted r r') (hcapture : inserted.isCapture = false) :
    Spliced target inserted r.body r'.body := by
  have hbody {s : Rule} (hs : s.isCapture = false) : s.body = s := by
    unfold Rule.body
    split
    · rename_i hshape
      rw [isCapture, hshape] at hs
      cases hs
    · rfl
  have heq := h.isCapture_eq hcapture
  cases hr : r.isCapture with
  | false => rwa [hbody hr, hbody (heq.symm.trans hr)]
  | true =>
    cases h with
    | capture hchild => exact hchild
    | _ => cases hr

/-- A reference has no character set, so no rule in its place can change one. -/
theorem charSet (h : Spliced target inserted r r') {set : CharSet}
    (hset : r.charSet? = some set) : r'.charSet? = some set := by
  induction r using childInduction generalizing r' with
  | step r ih =>
    cases h with
    | literal | terminal => exact hset
    | @capture _ _ child' hchild =>
      show child'.charSet? = some set
      exact ih _ (List.mem_singleton_self _) hchild hset
    | _ => cases hset

end Spliced

/-! ## References -/

/-- References in a rule and below it are to names like this. -/
def RefersTo (fit : String → Prop) : Rule → Prop :=
  Everywhere fun s => ∀ other, s.shape = .reference other → fit other

theorem forall_mem_congr {p q : Rule → Prop} {rules rules' : List Rule}
    (h : List.Forall₂ (fun r r' => p r ↔ q r') rules rules') :
    (∀ r ∈ rules, p r) ↔ ∀ r' ∈ rules', q r' := by
  induction h with
  | nil => simp
  | cons hr _ ih => rw [List.forall_mem_cons, List.forall_mem_cons, hr, ih]

namespace Spliced

variable {target : String} {inserted r r' : Rule}

theorem here_or_below (h : Spliced target inserted r r') :
    (r = Rule.reference target ∧ r' = inserted) ∨
      ((∀ other, r.shape = .reference other ↔ r'.shape = .reference other) ∧
        List.Forall₂ (Spliced target inserted) r.children r'.children) := by
  cases h with
  | here => exact .inl ⟨rfl, rfl⟩
  | literal | terminal | spacing | toEnd | decision | reference =>
    exact .inr ⟨by simp, .nil⟩
  | sequence h _ | selection h => exact .inr ⟨by simp, h⟩
  | iteration h | completion h | lookahead h | capture h =>
    exact .inr ⟨by simp, .cons h .nil⟩

theorem refersTo_iff {fit : String → Prop} (htarget : fit target)
    (hinserted : inserted.RefersTo fit) (h : Spliced target inserted r r') :
    r.RefersTo fit ↔ r'.RefersTo fit := by
  induction r using childInduction generalizing r' with
  | step r ih =>
    rcases h.here_or_below with ⟨rfl, rfl⟩ | ⟨hshape, hchildren⟩
    · refine iff_of_true (everywhere_iff.mpr ⟨?_, nofun⟩) hinserted
      rintro other ⟨⟩
      exact htarget
    · have hboth :=
        (List.forall₂_and_left _ _).mpr ⟨fun c hc r' => @ih c hc r', hchildren⟩
      rw [RefersTo, everywhere_iff, everywhere_iff]
      exact and_congr (forall_congr' fun other => by rw [hshape])
        (forall_mem_congr (hboth.imp fun c c' h => h.1 c' h.2))

end Spliced

end RuleGraph.Rule
