import RuleGraph.Grammar.Draft
import RuleGraph.Proofs.Grammar.Names
import RuleGraph.Proofs.Terse.Growth
import RuleGraph.Proofs.Terse.Keeping

/-!
# What limits do

A limit turns some successes into errors and changes nothing else. Which ones is
a matter of how full the buffers become, and that shows in the rules: whatever
the reader puts together, it has taken from buffers that the limits apply to.

There are two ways to say this of the rules of a draft. `Made` follows how a rule
has come about, so it bounds every list that has been folded, also where the
rules that were added from elsewhere are larger. `Rule.extent?` looks at a node of
a finished rule and at nothing else.
-/

namespace RuleGraph

/-! ## The size of a node -/

namespace Rule

/-- The buffer that a node has been taken from, and how full it was. The sign of a
quiet reference has not been in it. -/
def extent? (r : Rule) : Option Terse.Growth :=
  match r.shape with
  | .literal bytes => some ⟨.text, bytes.length⟩
  | .sequence elements _ => some ⟨.sequence, elements.length⟩
  | .selection alternatives => some ⟨.alternatives, alternatives.length⟩
  | .capture _ => some ⟨.text, (utf8 r.name.toList).length⟩
  | .reference target => some ⟨.text, (utf8 ((loud? target).getD target).toList).length⟩
  | .terminal _ | .spacing _ | .iteration _ _ | .completion _ | .lookahead _
  | .decision => none

/-- A node keeps to the limits, unless it has the size of a node in a given
rule. -/
def Sized (limits : Limits) (given : List Rule) (r : Rule) : Prop :=
  (∀ extent ∈ r.extent?, extent.Within limits) ∨
    ∃ s ∈ given, ∃ node ∈ s.walk, r.extent? = node.extent?

variable {limits : Limits} {given : List Rule}

theorem sized_of_given {r : Rule} (hr : r ∈ given) : r.Everywhere (Sized limits given) :=
  fun node hnode => .inr ⟨r, hr, node, hnode, rfl⟩

theorem sized_of_extent {r : Rule} {buffer : Buffer} {size : Nat}
    (hextent : r.extent? = some ⟨buffer, size⟩) (hsize : size ≤ limits.of buffer) :
    Sized limits given r := by
  refine .inl fun extent h => ?_
  rw [hextent] at h
  cases h
  exact hsize

theorem sized_tolerant : Tolerant (Sized limits given) where
  iteration := .inl nofun
  lookahead := .inl nofun
  completion := .inl nofun
  bound _ h := h

theorem length_foldr_join (rules : List Rule) :
    (rules.foldr join []).length = rules.length := by
  induction rules with
  | nil => rfl
  | cons r rest ih =>
    rw [List.foldr_cons, List.length_cons, ← ih]
    cases rest.foldr join [] <;> rfl

end Rule

namespace Terse

open Rule (Sized)

variable {limits : Limits} {given : List Rule}

theorem Word.length_utf8 (w : Word) : (utf8 w.name.toList).length = w.letters.length := by
  rw [Word.name, String.toList_ofList, ← ascii_eq_utf8 w.admitted, ascii, List.length_map]

theorem Word.Fits.utf8 {w : Word} (h : w.Fits limits) :
    (utf8 w.name.toList).length ≤ limits.text :=
  Nat.le_trans (Nat.le_of_eq w.length_utf8) h

theorem sized_reference {w : Word} (h : w.Fits limits) {target : String}
    (htarget : (loud? target).getD target = w.name) :
    (Rule.reference target).Everywhere (Sized limits given) := by
  refine .of_children (Rule.sized_of_extent rfl ?_) nofun
  rw [htarget]
  exact h.utf8

theorem kept_sized : Kept limits (Rule.Everywhere (Sized limits given)) where
  toKeepsSets := .of_any fun _ => .of_children (.inl nofun) nofun
  literal h := .of_children (Rule.sized_of_extent rfl h) nofun
  spacing _ := .of_children (.inl nofun) nofun
  completion := .of_children (.inl nofun) nofun
  decision := .of_children (.inl nofun) nofun
  reference {w} h :=
    sized_reference h (by rw [loud?_of_isQuiet w.isQuiet_name, Option.getD_none])
  quiet {w} h := sized_reference h (by rw [loud?_quiet, Option.getD_some])
  chain {rules} hlength hrules := by
    refine .chain Rule.sized_tolerant.toBindable (Rule.sized_of_extent rfl ?_) hrules
    rw [Rule.length_foldr_join]
    exact hlength
  selection hlength hrules := .selection (Rule.sized_of_extent rfl hlength) hrules
  repeated bound h := h.repeated Rule.sized_tolerant bound
  lookahead h := h.lookahead Rule.sized_tolerant
  named {r w} hfits h :=
    h.named w.isQuiet_name fun _ => Rule.sized_of_extent rfl hfits.utf8
  body h := h.body

/-! ## How rules come about -/

/-- What the reader makes within the limits, from nothing and from given rules. -/
inductive Made (limits : Limits) (given : List Rule) : Rule → Prop
  | given {r : Rule} : r ∈ given → Made limits given r
  | literal {bytes : Bytes} : bytes.length ≤ limits.text →
      Made limits given (Rule.literal bytes)
  | terminal (set : CharSet) : Made limits given (Rule.terminal set)
  | spacing (contract : Spacing) : Made limits given (Rule.spacing contract)
  | completion : Made limits given Rule.completion
  | decision : Made limits given Rule.decision
  | reference {w : Word} : w.Fits limits → Made limits given (Rule.reference w.name)
  | quiet {w : Word} : w.Fits limits → Made limits given (Rule.reference (quiet w.name))
  | chain {rules : List Rule} : rules.length ≤ limits.sequence →
      (∀ r ∈ rules, Made limits given r) → Made limits given (Rule.chain rules)
  | selection {rules : List Rule} : rules.length ≤ limits.alternatives →
      (∀ r ∈ rules, Made limits given r) → Made limits given (Rule.selection rules)
  | repeated {r : Rule} (bound : Bound) : Made limits given r →
      Made limits given (r.repeated bound)
  | lookahead {r : Rule} : Made limits given r → Made limits given (Rule.lookahead r)
  | named {r : Rule} {w : Word} : w.Fits limits → Made limits given r →
      Made limits given (r.named w.name)
  | body {r : Rule} : Made limits given r → Made limits given r.body

theorem kept_made : Kept limits (Made limits given) where
  toKeepsSets := .of_any .terminal
  literal := .literal
  spacing := .spacing
  completion := .completion
  decision := .decision
  reference := .reference
  quiet := .quiet
  chain := .chain
  selection := .selection
  repeated := .repeated
  lookahead := .lookahead
  named := .named
  body := .body

end Terse

/-! ## Drafts -/

namespace Draft

open Terse (Filed Kept Made)

/-- One more source for a draft, or rules from elsewhere. -/
inductive Step
  | source (source : Bytes)
  | added (rules : List Rule)

def Step.given : Step → List Rule
  | source _ => []
  | added rules => rules

def follow (d : Draft) : Step → Except GrammarError Draft
  | .source source => d.source source
  | .added rules => d.add rules

/-- The draft holds what it may hold, and what is put into it keeps to the same
limits. -/
structure Holds (limits : Limits) (kind : Rule → Prop) (d : Draft) : Prop where
  under : d.limits = limits
  filed : Filed limits kind d.rules

variable {limits : Limits} {kind : Rule → Prop} (hkind : Kept limits kind)

include hkind

theorem follow_holds {d : Draft} (h : d.Holds limits kind) (step : Step)
    (hgiven : ∀ r ∈ step.given, kind r) :
    Ensures (d.follow step) (Holds limits kind) := by
  obtain ⟨rfl, hfiled⟩ := h
  cases step with
  | source source =>
    exact (Terse.compile_keeps hkind hfiled source).bind fun _ hrules => .ok ⟨rfl, hrules⟩
  | added rules =>
    have hadded : Ensures (rules.foldlM (Terse.file d.limits) d.rules)
        (Filed d.limits kind) :=
      .foldlM (fun _ hfiled r hr => hfiled.file (hgiven r hr)) hfiled
    exact hadded.bind fun _ hrules => .ok ⟨rfl, hrules⟩

theorem steps_hold {steps : List Step} (hgiven : ∀ r ∈ steps.flatMap Step.given, kind r) :
    Ensures (steps.foldlM follow (start.within limits)) (Holds limits kind) :=
  .foldlM (fun _ h step hstep =>
      follow_holds hkind h step fun r hr =>
        hgiven r (List.mem_flatMap.mpr ⟨step, hstep, hr⟩))
    ⟨rfl, List.forall_mem_nil _, Nat.zero_le _⟩

omit hkind

/-- Of two limits, none of which is lower in the second: what is compiled under the
first without exceeding it has the same outcome under the second. What is compiled
under the second to some rules is compiled under the first to the same rules,
exactly if no buffer becomes fuller than the first allows. And a draft that is made
under the first has room for its rules, which are made of the rules that were added
within these limits and have no larger nodes than they allow, if the added rules
have none of the same size. -/
theorem limits_exact (low high : Limits) (h : low.Below high) :
    (∀ filed source, ¬Terse.Exceeds (Terse.compile low filed source) →
        Terse.compile high filed source = Terse.compile low filed source) ∧
      (∀ filed source rules, Terse.compile low filed source = .ok rules ↔
        Terse.compile high filed source = .ok rules ∧
          ∀ g ∈ Terse.compileGrowths high filed source, g.Within low) ∧
      (∀ filed source rules, Terse.compile low filed source = .ok rules →
        ∀ g ∈ Terse.compileGrowths low filed source, g.Within low) ∧
      ∀ (steps : List Step) (d : Draft), steps.foldlM follow (start.within low) = .ok d →
        d.rules.length ≤ low.rules ∧
          (∀ r ∈ d.rules, Made low (steps.flatMap Step.given) r) ∧
          ∀ r ∈ d.rules, ∀ node ∈ r.walk, node.Sized low (steps.flatMap Step.given) := by
  refine ⟨fun filed source => ?_, fun filed source => ?_,
    fun filed source rules hrules => ?_, fun steps d hd => ?_⟩
  · exact (Terse.compile_gauged h filed source).eq_of_not_exceeds
  · exact (Terse.compile_gauged h filed source).eq_ok_iff
  · exact (((Terse.compile_gauged (.refl low) filed source).eq_ok_iff rules).mp hrules).2
  · have hmade := steps_hold Terse.kept_made (fun _ => .given) d hd
    have hsized := steps_hold Terse.kept_sized (fun _ => Rule.sized_of_given) d hd
    exact ⟨hmade.filed.room, hmade.filed.each, hsized.filed.each⟩

/-- A source that fills every buffer, and includes a literal that was added and that
it could not have written. -/
theorem limits_exact_full :
    let low : Limits :=
      { text := 2, sequence := 2, alternatives := 2, rules := 3, nesting := 1 }
    let given := Rule.capture "l" (Rule.string ['w', 'x', 'y', 'z'])
    let source := stringBytes "b=(\\l c|'xy')* c=[ab]"
    low.Below Limits.usual ∧
      ∃ rules, Terse.compile Limits.usual [given] source = .ok rules ∧
        (∀ g ∈ Terse.compileGrowths Limits.usual [given] source, g.Within low) ∧
        Terse.compile low [given] source = .ok rules ∧ rules.length = 3 ∧
        ∀ r ∈ rules, Made low [given] r ∧ ∀ node ∈ r.walk, node.Sized low [given] := by
  intro low given source
  let rules := [given,
    Rule.capture "b" ((Rule.selection
      [Rule.sequence [Rule.string ['w', 'x', 'y', 'z'], Rule.reference "c"],
        Rule.string ['x', 'y']]).repeated .star),
    Rule.capture "c"
      (Rule.terminal (CharSet.character 0x61 |>.union (CharSet.character 0x62)))]
  have hbelow : low.Below Limits.usual :=
    ⟨by decide, by decide, by decide, by decide, by decide⟩
  obtain ⟨-, hgauged, -, hdrafts⟩ := limits_exact low Limits.usual hbelow
  have hrules : Terse.compile Limits.usual [given] source = .ok rules :=
    eq_ok_of_toOption (by decide +kernel)
  have hgrowths : ∀ g ∈ Terse.compileGrowths Limits.usual [given] source,
      g.Within low := by
    show ∀ g ∈ Terse.compileGrowths Limits.usual [given] source, g.size ≤ low.of g.buffer
    decide +kernel
  have hlow := (hgauged [given] source rules).mpr ⟨hrules, hgrowths⟩
  have hsteps : [Step.added [given], .source source].foldlM follow (start.within low) =
      Terse.compile low [given] source >>= fun rules => .ok ⟨low, rules⟩ := rfl
  rw [hlow] at hsteps
  obtain ⟨-, hmade, hsized⟩ := hdrafts _ _ hsteps
  exact ⟨hbelow, rules, hrules, hgrowths, hlow, rfl,
    fun r hr => ⟨hmade r hr, hsized r hr⟩⟩

end Draft

end RuleGraph
