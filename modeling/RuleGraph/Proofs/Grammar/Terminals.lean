import RuleGraph.Proofs.CharSet.Complements
import RuleGraph.Proofs.Grammar.Completions

/-!
# Terminals of compiled grammars

A source can name numbers that are no code points, in whatever order, and it can take a
set out of one rule to carry it into another or to turn it into its complement. None of
this gives a terminal that could not be written in order: its ranges ascend, no two of
them meet or touch, and there are code points in them only.

The sets that rules are read with are built, and everything that a reader does with sets
is one of the ways to build them. A complement is the one that could fail, since that of a
set beyond the code points is too large. So what has to be kept up is that all sets are
built of code points, those in the rules that a set may be taken from included.
-/

namespace RuleGraph

namespace Rule

/-- If this is a terminal, its set is built of code points. -/
def BuiltSet (r : Rule) : Prop :=
  ∀ set, r.shape = .terminal set → set.Built maxCodePoint

theorem builtSet_aboutShapes : AboutShapes BuiltSet where
  capture := nofun
  renamed h := h

theorem builtSet_tolerant : Tolerant BuiltSet where
  completion := nofun
  bound _ _ := nofun
  iteration := nofun
  lookahead := nofun

theorem everywhere_terminal {set : CharSet} :
    (terminal set).Everywhere BuiltSet ↔ set.Built maxCodePoint := by
  refine ⟨fun h => (everywhere_iff.mp h).1 set rfl, fun h => .of_children ?_ nofun⟩
  rintro _ ⟨⟩
  exact h

/-- The set of a rule is that of a terminal or of a literal in it. -/
theorem built_charSet {r : Rule} (h : r.Everywhere BuiltSet) {set : CharSet}
    (hset : r.charSet? = some set) : set.Built maxCodePoint := by
  induction r using childInduction with
  | step r ih =>
    obtain ⟨name, shape⟩ := r
    cases shape with
    | terminal _ =>
      cases hset
      exact (everywhere_iff.mp h).1 set rfl
    | literal bytes =>
      cases hset
      exact CharSet.built_ofLiteral (Nat.le_refl _) bytes
    | capture child =>
      have hchild := List.mem_singleton_self child
      exact ih child hchild (h.child hchild) hset
    | _ => cases hset

end Rule

open Rule (BuiltSet everywhere_terminal)

theorem Terse.keepsSets_built : KeepsSets (Rule.Everywhere BuiltSet) where
  built := everywhere_terminal.mpr
  union ha hb :=
    everywhere_terminal.mpr
      ((everywhere_terminal.mp ha).union (everywhere_terminal.mp hb))
  negate h :=
    everywhere_terminal.mpr ((everywhere_terminal.mp h).negate_of_lt (by decide))
  members h hset := everywhere_terminal.mpr (Rule.built_charSet h hset)

theorem Terse.kept_built {limits : Limits} : Kept limits (Rule.Everywhere BuiltSet) :=
  kept_of_others keepsSets_built Rule.builtSet_tolerant
    (fun _ hne set hset => absurd hset (hne set))
    fun _ _ h => h.named_shape Rule.builtSet_aboutShapes

theorem Hosted.kept_built : Kept (Rule.Everywhere BuiltSet) where
  literal _ := .of_children nofun nofun
  terminal := everywhere_terminal.mpr
  spacing _ := .of_children nofun nofun
  completion := .of_children nofun nofun
  reference _ := .of_children nofun nofun
  sequence _ := .sequenceCut Rule.builtSet_tolerant.toBindable nofun
  selection := .selection nofun
  repeated bound h := h.repeated Rule.builtSet_tolerant bound
  named _ h := h.named_shape Rule.builtSet_aboutShapes

/-! ## Proper sets -/

/-- No range is empty or goes beyond the code points, and before the next one there is a
code point that is in none. -/
def CharSet.Proper (set : CharSet) : Prop :=
  (∀ r ∈ set.ranges, r.low ≤ r.high ∧ r.high ≤ maxCodePoint) ∧
    set.ranges.Pairwise fun r r' => r.high + 1 < r'.low

/-- If this is a terminal, its set is proper. -/
def Rule.ProperSet (r : Rule) : Prop :=
  ∀ set, r.shape = .terminal set → set.Proper

theorem CharSet.Built.proper {set : CharSet} (h : set.Built maxCodePoint) :
    set.Proper := by
  obtain ⟨hle, hapart⟩ := h.canonical.apart
  have hhigh := h.canonical.high_le h.within
  exact ⟨fun r hr => ⟨hle r hr, hhigh r hr⟩, hapart⟩

theorem Rule.BuiltSet.proper {r : Rule} (h : r.BuiltSet) : r.ProperSet :=
  fun set hshape => (h set hshape).proper

theorem Draft.follow_source {d : Draft} {source : Bytes} {rules : List Rule}
    (h : Terse.compile d.limits d.rules source = .ok rules) :
    d.follow (.source source) = .ok ⟨d.limits, rules⟩ := by
  rw [follow, Draft.source, h]
  rfl

/-- Whatever sources a draft is made of, the ranges of every terminal in its rules, that
of one which a completion runs up to included, ascend without touching and hold code
points only. The same goes for grammars, whether they come of one source or of several. -/
theorem Grammar.terminals_proper :
    (∀ (limits : Limits) (steps : List Draft.Step) (d : Draft),
      (∀ step ∈ steps, step.Compiled) →
      steps.foldlM Draft.follow (Draft.start.within limits) = .ok d →
        ∀ r ∈ d.rules, r.Everywhere Rule.ProperSet) ∧
      ∀ g : Grammar, g.Compiled → ∀ r ∈ g.rules, r.Everywhere Rule.ProperSet := by
  have hdraft {limits : Limits} {steps : List Draft.Step}
      (hsteps : ∀ step ∈ steps, step.Compiled)
      {d : Draft} (hd : steps.foldlM Draft.follow (Draft.start.within limits) = .ok d) :
      ∀ r ∈ d.rules, r.Everywhere Rule.ProperSet := by
    have hbuilt := Draft.compiled_hold Terse.kept_built Hosted.kept_built hsteps d hd
    exact fun r hr s hs => (hbuilt r hr s hs).proper
  refine ⟨fun _ _ _ hsteps => hdraft hsteps, fun g hg => ?_⟩
  obtain ⟨limits, steps, d, hsteps, hd, hrules⟩ := hg.exists_draft
  exact hrules ▸ hdraft hsteps hd

/-- A class is carried into another one, which is turned into its complement behind a
completion. Numbers beyond the code points are cut off in the source before. -/
theorem Grammar.terminals_proper_complement :
    let first :=
      stringBytes "lower = [\x7b'a'-'z'\x7d_] high = [\x7b#10FFF0-#FFFFFFFF\x7d]"
    let second := stringBytes "r = ~ lower& [\\high '\u00E9'] ^"
    let set : CharSet := ⟨[⟨0, 0x5E⟩, ⟨0x60, 0x60⟩, ⟨0x7B, 0xE8⟩, ⟨0xEA, 0x10FFEF⟩]⟩
    let r := Rule.capture "r" (Rule.sequence [Rule.completion, Rule.terminal set])
    let steps := [Draft.Step.source first, .source second]
    ∃ d, steps.foldlM Draft.follow (Draft.start.within Limits.usual) = .ok d ∧
      r ∈ d.rules ∧ ⟨"", .completion (some (Rule.terminal set))⟩ ∈ r.walk ∧
      set.Proper := by
  intro first second set r steps
  let lower := Rule.capture "lower" (Rule.terminal ⟨[⟨0x5F, 0x5F⟩, ⟨0x61, 0x7A⟩]⟩)
  let high := Rule.capture "high" (Rule.terminal ⟨[⟨0x10FFF0, 0x10FFFF⟩]⟩)
  have hfirst : Terse.compile Limits.usual [] first = .ok [lower, high] :=
    eq_ok_of_toOption (by decide +kernel)
  have hsecond : Terse.compile Limits.usual [lower, high] second = .ok [lower, high, r] :=
    eq_ok_of_toOption (by decide +kernel)
  have hd : steps.foldlM Draft.follow (Draft.start.within Limits.usual) =
      .ok ⟨Limits.usual, [lower, high, r]⟩ := by
    rw [List.foldlM_cons,
      Draft.follow_source (d := Draft.start.within Limits.usual) hfirst]
    exact Draft.follow_alone
      (Draft.follow_source (d := ⟨Limits.usual, [lower, high]⟩) hsecond)
  have hr : r ∈ [lower, high, r] := by simp only [List.mem_cons, true_or, or_true]
  have hset : Rule.terminal set ∈ r.walk := by decide +kernel
  have hsteps : ∀ step ∈ steps, step.Compiled :=
    List.forall_mem_cons.mpr ⟨nofun, List.forall_mem_singleton.mpr nofun⟩
  refine ⟨_, hd, hr, by decide +kernel, ?_⟩
  exact terminals_proper.1 Limits.usual steps _ hsteps hd r hr _ hset set rfl

end RuleGraph
