import RuleGraph.Proofs.Rule.Completions
import RuleGraph.Rule.Equality

/-!
# Rules are in normal form

There are two things that no combinator leaves behind: a repetition that says nothing, or
that could be said by its child, and a completion that does not know what it runs up to
although something comes behind it. `Tidy` says so of one node. Nothing is asked of how a
rule has come about but that it was made with the constructors and combinators, which is
`Composed`, so a rule may also be taken out of a capture and used somewhere else.

A repetition that is repeated is the repetition of its child, which is none itself. That
is why the bound that is given last is the one that counts.
-/

namespace RuleGraph

/-- The bounds that there are: between two counts in either order, or with a name. -/
inductive Bound.Made : Bound → Prop
  | between (least most : Nat) : Made (between least most)
  | once : Made once
  | optional : Made optional
  | star : Made star
  | plus : Made plus
  | never : Made never

theorem Bound.Made.least_le_most {b : Bound} (h : b.Made) : b.least ≤ b.most := by
  cases h with
  | between least most => exact Nat.le_max_right most least
  | _ => decide

namespace Rule

/-- What can be made with the constructors and combinators. Literals of a text or of one
character are literals, and sequences that are not cut have nothing for a position. -/
inductive Composed : Rule → Prop
  | literal (bytes : Bytes) : Composed (literal bytes)
  | terminal (set : CharSet) : Composed (terminal set)
  | spacing (contract : Spacing) : Composed (spacing contract)
  | completion : Composed completion
  | decision : Composed decision
  | reference (target : String) : Composed (reference target)
  | sequenceCut {rules : List Rule} (cut : Option Nat) : (∀ r ∈ rules, Composed r) →
      Composed (sequenceCut rules cut)
  | selection {rules : List Rule} : (∀ r ∈ rules, Composed r) → Composed (selection rules)
  | lookahead {r : Rule} : Composed r → Composed (lookahead r)
  | capture {r : Rule} (name : String) : Composed r → Composed (capture name r)
  | repeated {r : Rule} {bound : Bound} : bound.Made → Composed r →
      Composed (r.repeated bound)
  | named {r : Rule} (name : String) : Composed r → Composed (r.named name)
  | body {r : Rule} : Composed r → Composed r.body

/-- A repetition is neither of a repetition nor exactly once, and its bound is not empty.
In a sequence only the last element may be a completion that runs up to nothing, under any
captures. -/
def Tidy (r : Rule) : Prop :=
  match r.shape with
  | .iteration child bound =>
    child.isRepetition = false ∧ bound ≠ Bound.once ∧ bound.least ≤ bound.most
  | .sequence elements _ =>
    ∀ i c, elements[i]? = some c → i + 1 < elements.length → c.aim? ≠ some none
  | _ => True

variable {r : Rule} {rules : List Rule}

theorem tidy_bindable : Bindable Tidy where
  completion := trivial
  bound _ _ := trivial

theorem tidy_aboutShapes : AboutShapes Tidy where
  capture := trivial
  renamed h := h

/-! ## What combinators make of tidy rules -/

/-- Of elements that are put one in front of the other, only the last can be a completion
that runs up to nothing. -/
theorem aim?_of_not_last (rules : List Rule) : ∀ i c, (rules.foldr join [])[i]? = some c →
    i + 1 < (rules.foldr join []).length → c.aim? ≠ some none := by
  induction rules with
  | nil => exact nofun
  | cons r rest ih =>
    rw [List.foldr_cons]
    cases hjoined : rest.foldr join [] with
    | nil => exact fun i c _ hlt => absurd hlt (by simp [join])
    | cons next later =>
      rw [hjoined] at ih
      intro i c hc hlt
      cases i with
      | zero =>
        cases hc
        cases hup : upTo? next r with
        | some bound =>
          rw [Option.getD_some, aim?_of_upTo? hup]
          nofun
        | none =>
          rw [Option.getD_none]
          exact fun haim => upTo?_ne_none haim hup
      | succ i => exact ih i c hc (Nat.lt_of_succ_lt_succ hlt)

theorem tidy_sequenceCut (rules : List Rule) (cut : Option Nat) :
    (sequenceCut rules cut).Tidy :=
  aim?_of_not_last rules

theorem repeated_iteration (name : String) (child : Rule) (old bound : Bound) :
    repeated ⟨name, .iteration child old⟩ bound =
      if bound = Bound.once then child else ⟨name, .iteration child bound⟩ := rfl

theorem tidy_repeated {bound : Bound} (hbound : bound.Made) (h : r.Everywhere Tidy) :
    (r.repeated bound).Everywhere Tidy := by
  have hiterated {child : Rule} (name : String) (hne : bound ≠ Bound.once)
      (hchild : child.isRepetition = false) (hinside : child.Everywhere Tidy) :
      Everywhere Tidy ⟨name, .iteration child bound⟩ :=
    .of_children ⟨hchild, hne, hbound.least_le_most⟩
      (List.forall_mem_singleton.mpr hinside)
  cases hr : r.isRepetition with
  | false =>
    rw [repeated_of_not_isRepetition hr]
    split
    · exact h
    · exact hiterated "" ‹_› hr h
  | true =>
    obtain ⟨name, shape⟩ := r
    cases shape with
    | iteration child old =>
      have hnode : Tidy ⟨name, .iteration child old⟩ := (everywhere_iff.mp h).1
      have hinside : child.Everywhere Tidy := h.child (List.mem_singleton_self child)
      rw [repeated_iteration]
      split
      · exact hinside
      · exact hiterated name ‹_› hnode.1 hinside
    | _ => cases hr

theorem Composed.tidy (h : r.Composed) : r.Everywhere Tidy := by
  induction h with
  | literal | terminal | spacing | completion | decision | reference =>
    exact .of_children trivial nofun
  | sequenceCut cut _ ih => exact .sequenceCut tidy_bindable (tidy_sequenceCut _ cut) ih
  | selection _ ih => exact .selection trivial ih
  | lookahead _ ih => exact .of_children trivial (List.forall_mem_singleton.mpr ih)
  | capture name _ ih => exact ih.capture trivial
  | repeated hbound _ ih => exact tidy_repeated hbound ih
  | named name _ ih => exact ih.named_shape tidy_aboutShapes
  | body _ ih => exact ih.body

/-! ## Repeating twice -/

/-- The bound that is given last counts, and the one before makes no difference. -/
theorem shape_repeated_repeated (h : r.Tidy) (first last : Bound) :
    ((r.repeated first).repeated last).shape = (r.repeated last).shape := by
  cases hr : r.isRepetition with
  | false =>
    rw [repeated_of_not_isRepetition hr first, repeated_of_not_isRepetition hr last]
    split
    · rw [repeated_of_not_isRepetition hr last]
    · rw [bare, repeated_iteration]
      split <;> rfl
  | true =>
    obtain ⟨name, shape⟩ := r
    cases shape with
    | iteration child old =>
      have hchild : child.isRepetition = false := h.1
      rw [repeated_iteration, repeated_iteration name child old last]
      split
      · rw [repeated_of_not_isRepetition hchild]
        split <;> rfl
      · rw [repeated_iteration]
    | _ => cases hr

/-- Whatever is made with the constructors and combinators is in normal form, at every
node, and so it makes no difference to what a rule consists of if it was repeated within
another bound before. -/
theorem Composed.normal_form (h : r.Composed) :
    (∀ s ∈ r.walk,
      (∀ child bound, s.shape = .iteration child bound →
        (∀ inner bound', child.shape ≠ .iteration inner bound') ∧ bound ≠ Bound.once ∧
          bound.least ≤ bound.most) ∧
      ∀ elements cut, s.shape = .sequence elements cut →
        ∀ i c, elements[i]? = some c → i + 1 < elements.length → c.aim? ≠ some none) ∧
      ∀ first last : Bound,
        ((r.repeated first).repeated last).shape = (r.repeated last).shape := by
  have htidy := h.tidy
  refine ⟨fun s hs => ⟨fun child bound hshape => ?_, fun elements cut hshape => ?_⟩,
    shape_repeated_repeated (everywhere_iff.mp htidy).1⟩
  · have hs := htidy s hs
    rw [Tidy, hshape] at hs
    obtain ⟨hchild, hbound⟩ := hs
    refine ⟨fun inner bound' hinner => ?_, hbound⟩
    rw [isRepetition, hinner] at hchild
    cases hchild
  · have hs := htidy s hs
    rwa [Tidy, hshape] at hs

/-- A completion under two captures, in front of a repetition that a quiet name was put on
before it was repeated again. -/
theorem normal_form_captured :
    let x := symbol 'x'
    let twice := ((x.repeated Bound.star).named "-q").repeated (Bound.between 2 0)
    let r := sequence [capture "a" (capture "b" completion), twice, completion]
    let first := capture "a" (capture "b" ⟨"", .completion (some twice)⟩)
    r.Composed ∧ twice = ⟨"-q", .iteration x ⟨2, 2⟩⟩ ∧
      r.shape = .sequence [first, twice, completion] none ∧ first.aim? ≠ some none ∧
      (∀ inner bound, x.shape ≠ .iteration inner bound) ∧
      ((r.repeated Bound.plus).repeated Bound.once).shape =
        (r.repeated Bound.once).shape := by
  intro x twice r first
  have htwice : twice.Composed :=
    .repeated (.between 2 0) (.named "-q" (.repeated .star (.literal _)))
  have hr : r.Composed := by
    refine .sequenceCut none (List.forall_mem_cons.mpr ⟨.capture "a" ?_, ?_⟩)
    · exact .capture "b" .completion
    exact List.forall_mem_cons.mpr ⟨htwice, List.forall_mem_singleton.mpr .completion⟩
  have hshape : r.shape = .sequence [first, twice, completion] none := rfl
  obtain ⟨hnodes, htwo⟩ := Composed.normal_form hr
  refine ⟨hr, rfl, hshape, ?_, ?_, htwo Bound.plus Bound.once⟩
  · exact (hnodes r (List.mem_of_getElem? (i := 0) rfl)).2 _ none hshape 0 first
      rfl (by decide)
  · exact ((hnodes twice (by decide)).1 x ⟨2, 2⟩ rfl).1

end Rule

end RuleGraph
