import RuleGraph.Proofs.Grammar.References
import RuleGraph.Proofs.Matching.Splicing
import RuleGraph.Proofs.Terse.Declarations
import RuleGraph.Proofs.Terse.Inclusion

/-!
# Two declarations in either order

If the rule that a body includes is declared before, the body has a copy of it.
If it is declared after, the body has a reference to it. In the two grammars
every name then stands for spliced rules, so they match alike.

This holds where the body is indifferent to what it includes. It need not hold
elsewhere: a bound takes the place of the bound of a copied repetition, but on a
reference it is a repetition of what the name stands for.
-/

namespace RuleGraph

namespace Grammar

variable {n early late : Rule}

/-- A grammar with a rule behind the one that refers to it, and one with the rule
in front of the one that it is spliced into. -/
theorem named?_spliced {target : String} {inserted : Rule} (hnames : n.name ≠ late.name)
    (hsame : early.name = late.name) (hspliced : Rule.Spliced target inserted late early)
    (name : String) :
    Option.Rel (Rule.Spliced target inserted) ((⟨[late, n]⟩ : Grammar).named? name)
      ((⟨[n, early]⟩ : Grammar).named? name) := by
  unfold named?
  split
  · exact .none
  · by_cases hn : n.name = name
    · have hlate : late.name ≠ name := fun h => hnames (hn.trans h.symm)
      simp only [List.find?_cons, beq_eq_false_iff_ne.mpr hlate, beq_iff_eq.mpr hn]
      exact .some (.refl _ _ _)
    · by_cases hlate : late.name = name
      · have hearly : early.name = name := hsame.trans hlate
        simp only [List.find?_cons, beq_eq_false_iff_ne.mpr hn, beq_iff_eq.mpr hlate,
          beq_iff_eq.mpr hearly]
        exact .some hspliced
      · have hearly : early.name ≠ name := fun h => hlate (hsame.symm.trans h)
        simp only [List.find?_cons, List.find?_nil, beq_eq_false_iff_ne.mpr hn,
          beq_eq_false_iff_ne.mpr hlate, beq_eq_false_iff_ne.mpr hearly]
        exact .none

/-- What an inclusion refers to that stands in front of the declaration. -/
theorem resolve?_inclusion (hnames : n.name ≠ late.name) (hn : isQuiet n.name = false)
    (hlate : isQuiet late.name = false) (hne : n.name ≠ "") :
    (⟨[late, n]⟩ : Grammar).resolve? (quiet n.name) = some n.body := by
  refine resolve?_quiet ?_ ?_
  · rw [named?, if_neg hne]
    simp [hnames.symm]
  · intro r hr
    rw [List.mem_pair] at hr
    rcases hr with rfl | rfl
    · exact ne_quiet hlate _
    · exact ne_quiet hn _

variable (hcapture : n.body.isCapture = false) (hnames : n.name ≠ late.name)
  (hsame : early.name = late.name)
  (hspliced : Rule.Spliced (quiet n.name) n.body late early)

include hcapture hnames hsame hspliced

theorem spliced_orders :
    (⟨[late, n]⟩ : Grammar).Spliced (quiet n.name) n.body ⟨[n, early]⟩ := by
  intro name
  have hnamed := named?_spliced hnames hsame hspliced
  have hloud : Option.Rel (Rule.Spliced (quiet n.name) n.body)
      ((⟨[late, n]⟩ : Grammar).loudRule? name)
        ((⟨[n, early]⟩ : Grammar).loudRule? name) := by
    unfold loudRule?
    cases loud? name with
    | none => exact .none
    | some loud => exact hnamed loud
  rw [resolve?_eq, resolve?_eq]
  exact rel_or (hnamed name) (rel_map hloud fun _ _ h => h.body hcapture)

/-- If all references stand for something in one order, they do in the other. -/
theorem closed_orders
    (hresolve : (⟨[late, n]⟩ : Grammar).resolve? (quiet n.name) = some n.body) :
    (⟨[n, early]⟩ : Grammar).Closed ↔ (⟨[late, n]⟩ : Grammar).Closed := by
  have hsome :=
    fun name => isSome_eq_of_rel (spliced_orders hcapture hnames hsame hspliced name)
  have hknown (r : Rule) : r.Known ⟨[n, early]⟩ ↔ r.Known ⟨[late, n]⟩ := by
    simp only [Rule.Known, hsome]
  have hspliced (hn : n.Known ⟨[late, n]⟩) : late.Known ⟨[late, n]⟩ ↔
      early.Known ⟨[late, n]⟩ :=
    hspliced.refersTo_iff (by rw [hresolve]; rfl) hn.body
  rw [closed_iff, closed_iff]
  simp only [List.forall_mem_cons, hknown]
  constructor
  · rintro ⟨hn, hearly, hnil⟩
    exact ⟨(hspliced hn).mpr hearly, hn, hnil⟩
  · rintro ⟨hlate, hn, hnil⟩
    exact ⟨hn, (hspliced hn).mp hlate, hnil⟩

end Grammar

namespace Draft

open Terse (Declaration FreeOf Written)
open Matching (Denotes Reports)

theorem source_written {limits : Limits} {declarations : List Declaration}
    {rules : List Rule} {source : Bytes} (hwritten : Written declarations source)
    (hrules : Terse.rules? [] declarations = some rules)
    (hfits : ∀ d ∈ declarations, d.Fits limits)
    (hroom : declarations.length ≤ limits.rules) :
    (start.within limits).source source = .ok ⟨limits, rules⟩ := by
  have hcompile : Terse.compile limits [] source = .ok ([] ++ rules) :=
    Terse.Resting.declarations hfits hrules (by simpa using hroom) hwritten .between
  show Terse.compile limits [] source >>= _ = _
  rw [hcompile]
  rfl

/-- Two declarations of different names are read from a source in either order.
Each stands for a rule on its own, the first does not include the second, and the
second uses its inclusions of the first only where it makes no difference what
they stand for. Then both sources are read, both make a grammar or neither does,
and the second rule means the same in both grammars. -/
theorem source_in_either_order (limits : Limits) (n r : Declaration)
    (included late : Rule) (before after : Bytes) (hbefore : Written [n, r] before)
    (hafter : Written [r, n] after) (hn : n.rule? [] = some included)
    (hr : r.rule? [] = some late)
    (hfits : n.Fits limits ∧ r.Fits limits ∧ 2 ≤ limits.rules)
    (hnames : n.title.name ≠ r.title.name) (hfree : FreeOf r.title.name n.tokens)
    (hindifferent : r.Indifferent (quiet n.title.name) included.body) :
    ∃ d d' : Draft, (start.within limits).source before = .ok d ∧
      (start.within limits).source after = .ok d' ∧
      d.rules.map Rule.name = [n.title.name, r.title.name] ∧
      d'.rules.map Rule.name = [r.title.name, n.title.name] ∧
      ((∃ g, d.finish = .ok g) ↔ ∃ g, d'.finish = .ok g) ∧
      ∀ g g', d.finish = .ok g → d'.finish = .ok g' →
        ∀ input limit limit',
        g.matchWith limit r.title.name input ≠ .error (.tooDeep limit) →
          g'.matchWith limit' r.title.name input ≠ .error (.tooDeep limit') →
          ∃ m, Denotes g r.title.name input m ∧ Denotes g' r.title.name input m ∧
            Reports input m (g.matchWith limit r.title.name input) ∧
            Reports input m (g'.matchWith limit' r.title.name input) := by
  obtain ⟨hfitsN, hfitsR, hroom⟩ := hfits
  have hnameN : included.name = n.title.name := Declaration.name_of_rule? hn
  have hnameR : late.name = r.title.name := Declaration.name_of_rule? hr
  have hfree' : FreeOf late.name n.tokens := hnameR ▸ hfree
  have hrules : Terse.rules? [] [r, n] = some [late, included] := by
    simp [Terse.rules?, hr, Declaration.rule?_of_free hfree' hn]
  have hafter := source_written hafter hrules (by simp [hfitsN, hfitsR]) hroom
  have hcapture : included.body.isCapture = false := by
    obtain ⟨rules, hcompile, heq⟩ := bind_eq_ok hafter
    cases heq
    have hnone : Terse.Filed limits Rule.Unnested [] :=
      ⟨List.forall_mem_nil _, Nat.zero_le _⟩
    have hunnested := Terse.compile_keeps Terse.kept_unnested hnone after _ hcompile
    exact (hunnested.each included (by simp)).isCapture_body
  rw [← hnameN] at hindifferent
  obtain ⟨early, hearly, hspliced⟩ := Declaration.rule?_spliced hcapture hindifferent hr
  have hnameE : early.name = late.name :=
    (Declaration.name_of_rule? hearly).trans hnameR.symm
  have hrules' : Terse.rules? [] [n, r] = some [included, early] := by
    simp [Terse.rules?, hn, hearly]
  have hbefore := source_written hbefore hrules' (by simp [hfitsN, hfitsR]) hroom
  have hnames : included.name ≠ late.name := by rwa [hnameN, hnameR]
  have hresolve := Grammar.resolve?_inclusion hnames (hnameN ▸ n.title.isQuiet_name)
    (hnameR ▸ r.title.isQuiet_name) (hnameN ▸ n.title.name_ne_empty)
  have hclosed := Grammar.closed_orders hcapture hnames hnameE hspliced hresolve
  refine ⟨_, _, hbefore, hafter, ?_, ?_, ?_, ?_⟩
  · simp [hnameN, hnameE, hnameR]
  · simp [hnameN, hnameR]
  · simpa [finish_eq_ok_iff] using hclosed
  · intro g g' hg hg' input limit limit' hlimit hlimit'
    obtain ⟨rfl, -⟩ := finish_eq_ok_iff.mp hg
    obtain ⟨rfl, -⟩ := finish_eq_ok_iff.mp hg'
    obtain ⟨m, hlate, hearly, hreports, hreports'⟩ := Matching.reports_spliced hresolve
      (Grammar.spliced_orders hcapture hnames hnameE hspliced) hlimit' hlimit
    exact ⟨m, hearly, hlate, hreports', hreports⟩

/-- A repetition that is included in a group and, captured, as an option. -/
theorem source_in_either_order_repetition :
    let w : Terse.Word := ⟨['n'], by decide, List.forall_mem_singleton.mpr rfl⟩
    let x : Terse.Word := ⟨['x'], by decide, List.forall_mem_singleton.mpr rfl⟩
    let a : Terse.Quote := ⟨[0x61], List.forall_mem_singleton.mpr (by decide)⟩
    let b : Terse.Quote := ⟨[0x62], List.forall_mem_singleton.mpr (by decide)⟩
    let n : Declaration := ⟨w, [.atom (.literal a) [.star]], []⟩
    let r : Declaration := ⟨⟨['r'], by decide, List.forall_mem_singleton.mpr rfl⟩,
      [.group [.atom (.inclusion w) [], .atom (.literal b) []] [] [.plus],
        .atom (.inclusion w) [.named x, .optional]], []⟩
    let included := Rule.capture "n" ((Rule.symbol 'a').repeated .star)
    let reference := Rule.reference "-n"
    let late := Rule.capture "r" (Rule.sequence
      [(Rule.sequence [reference, Rule.symbol 'b']).repeated .plus,
        (Rule.capture "x" reference).repeated .optional])
    let before := stringBytes "n='a'* r=(\\n 'b')+\\n@x?"
    let after := stringBytes "r=(\\n 'b')+\\n@x? n='a'*"
    let input := stringBytes "aabba"
    let answer := ⟨input, ⟨#[⟨"r", 0, 5, 0⟩, ⟨"x", 4, 5, 1⟩], []⟩, 5⟩
    Written [n, r] before ∧ Written [r, n] after ∧ n.rule? [] = some included ∧
      r.rule? [] = some late ∧ FreeOf r.title.name n.tokens ∧
      r.Indifferent (quiet n.title.name) included.body ∧
      ∃ g g' m, Grammar.ofTerse before = .ok g ∧ Grammar.ofTerse after = .ok g' ∧
        g.matchWith 16 "r" input = .ok answer ∧ g'.matchWith 16 "r" input = .ok answer ∧
        Reports input m (g.matchWith 16 "r" input) ∧
        Reports input m (g'.matchWith 16 "r" input) := by
  intro w x a b n r included reference late before after input answer
  have hblank : Terse.Gap [0x20] := .blank (by decide) .nothing
  have hbefore : Written [n, r] before := by
    have hlaid : Written [n, r] _ :=
      .item .nothing ⟨[], by decide, rfl⟩ <|
      .item .nothing rfl <|
      .item .nothing rfl <|
      .item hblank ⟨[], by decide, rfl⟩ <|
      .item .nothing rfl <|
      .item .nothing ⟨rfl, by decide⟩ <|
      .item hblank rfl <|
      .item .nothing rfl <|
      .item .nothing rfl <|
      .item .nothing ⟨rfl, by decide⟩ <|
      .item .nothing ⟨rfl, by decide⟩ <|
      .item .nothing rfl <|
      .done .nothing
    exact hlaid
  have hafter : Written [r, n] after := by
    have hlaid : Written [r, n] _ :=
      .item .nothing ⟨[], by decide, rfl⟩ <|
      .item .nothing rfl <|
      .item .nothing ⟨rfl, by decide⟩ <|
      .item hblank rfl <|
      .item .nothing rfl <|
      .item .nothing rfl <|
      .item .nothing ⟨rfl, by decide⟩ <|
      .item .nothing ⟨rfl, by decide⟩ <|
      .item .nothing rfl <|
      .item hblank ⟨[], by decide, rfl⟩ <|
      .item .nothing rfl <|
      .item .nothing rfl <|
      .done .nothing
    exact hlaid
  have hn : n.rule? [] = some included := by decide +kernel
  have hr : r.rule? [] = some late := by decide +kernel
  have hfree : FreeOf r.title.name n.tokens := by
    simp [FreeOf, Declaration.tokens, n, Terse.alternative, Terse.alternatives,
      Terse.Phrase.tokens]
  have hapart (phrases : List Terse.Phrase) :
      Terse.AlternativeApart (quiet n.title.name) included.body phrases :=
    fun elements _ => Rule.Apart.of_kind rfl rfl elements
  have hindifferent : r.Indifferent (quiet n.title.name) included.body := by
    refine ⟨hapart _,
      ⟨⟨hapart _, ⟨fun _ _ => trivial, fun _ _ => trivial, trivial⟩, trivial, ?_⟩,
        ?_, trivial⟩, trivial⟩
    · rintro _ ⟨⟩ _ ⟨⟩ _ ⟨⟩
      exact ⟨fun _ _ => by decide +kernel, fun _ _ => trivial⟩
    · rintro _ ⟨⟩
      constructor
      · rintro ⟨⟩
      · rintro _ ⟨⟩
        exact ⟨fun _ _ => by decide +kernel, fun _ _ => trivial⟩
  have hfits : n.Fits Limits.usual ∧ r.Fits Limits.usual ∧ 2 ≤ Limits.usual.rules := by
    simp [n, r, Declaration.Fits, Terse.Fits, Terse.OthersFit, Terse.Phrase.Fits,
      Terse.Atom.Fits, Terse.Suffix.Fits, Terse.Word.Fits, Terse.Quote.Fits,
      Limits.usual, w, x, a, b]
  obtain ⟨d, d', hd, hd', -, -, -, hagree⟩ :=
    source_in_either_order Limits.usual n r included late
      before after hbefore hafter hn hr hfits (by decide) hfree hindifferent
  let star := (Rule.symbol 'a').repeated .star
  let early := Rule.capture "r" (Rule.sequence
    [(Rule.sequence [star, Rule.symbol 'b']).repeated .plus,
      (Rule.capture "x" star).repeated .optional])
  have hg : Grammar.ofTerse before = .ok ⟨[included, early]⟩ :=
    eq_ok_of_toOption (by decide +kernel)
  have hg' : Grammar.ofTerse after = .ok ⟨[late, included]⟩ :=
    eq_ok_of_toOption (by decide +kernel)
  have hanswer : (⟨[included, early]⟩ : Grammar).matchWith 16 "r" input = .ok answer :=
    eq_ok_of_toOption (by decide +kernel)
  have hanswer' : (⟨[late, included]⟩ : Grammar).matchWith 16 "r" input = .ok answer :=
    eq_ok_of_toOption (by decide +kernel)
  obtain ⟨e, he, hfinish⟩ := bind_eq_ok hg
  obtain ⟨e', he', hfinish'⟩ := bind_eq_ok hg'
  cases hd.symm.trans he
  cases hd'.symm.trans he'
  obtain ⟨m, -, -, hreports, hreports'⟩ := hagree _ _ hfinish hfinish' input 16 16
    (fun h => by cases hanswer.symm.trans h) (fun h => by cases hanswer'.symm.trans h)
  exact ⟨hbefore, hafter, hn, hr, hfree, hindifferent, _, _, m, hg, hg',
    hanswer, hanswer', hreports, hreports'⟩

/-- Four uses of an inclusion that make a difference: a bound on a repetition, an
open completion in front of an element, a decision behind one, and a negation,
which needs a declared rule. -/
theorem source_orders_differ :
    let answer (source input : String) : Option (Except Matching.Failure Nat) :=
      (Grammar.ofTerse (stringBytes source)).toOption.map fun g =>
        (g.matchWith 16 "r" (stringBytes input)).map Parse.stop
    (answer "n='a'* r=\\n?" "aa" = some (.ok 1) ∧
        answer "r=\\n? n='a'*" "aa" = some (.ok 2)) ∧
      (answer "n=~ r=\\n 'b'" "ab" = some (.ok 2) ∧
        answer "r=\\n 'b' n=~" "ab" = some (.error (.noMatch 2))) ∧
      (answer "n=< r='a' \\n 'b' | 'a'" "a" = some (.error (.noMatch 1)) ∧
        answer "r='a' \\n 'b' | 'a' n=<" "a" = some (.ok 1)) ∧
      answer "n='a' r=(\\n)^" "b" = some (.ok 1) ∧
      answer "r=(\\n)^ n='a'" "b" = none := by
  decide +kernel

end Draft

end RuleGraph
