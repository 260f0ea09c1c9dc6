import RuleGraph.Proofs.Grammar.References

/-!
# Rules behind a grammar

A name is looked for among the rules in their order, so rules that come after those of
a grammar do not hide any of them, whatever they are called. One kind of name is found
in another way: a quiet name that no rule carries stands for the body of the plain
name's rule. A rule of that quiet name would take its place, and this is the only thing
that more rules behind a grammar can change.

A match of the longer grammar is then the match of the shorter one, step by step, since
it enters nothing but what names stand for and the parts of that. Steps enter rules
through an attempt that they are given. They do the same in both grammars if the
attempts are the same for the parts of the rule and for what it refers to (`step_congr`),
and the known rules of a closed grammar lead to no others.
-/

namespace RuleGraph

/-! ## Steps that enter the same -/

namespace Matching

variable {g full : Grammar} {enter enter' : Rule → Attempt}

theorem inOrder_congr {rules : List Rule} (h : ∀ r ∈ rules, enter' r = enter r)
    (mark : Nat) (passed : Bool) :
    inOrder enter' mark passed rules = inOrder enter mark passed rules := by
  induction rules generalizing passed with
  | nil => rfl
  | cons r rest ih =>
    obtain ⟨hr, hrest⟩ := List.forall_mem_cons.mp h
    funext here t
    simp only [inOrder, hr, ih hrest]

theorem firstOf_congr {rules : List Rule} (h : ∀ r ∈ rules, enter' r = enter r) :
    firstOf enter' rules = firstOf enter rules := by
  induction rules with
  | nil => rfl
  | cons r rest ih =>
    obtain ⟨hr, hrest⟩ := List.forall_mem_cons.mp h
    funext here t
    simp only [firstOf, hr, ih hrest]

/-- A step enters the parts of its rule, or what it refers to. -/
theorem step_congr {r : Rule} (hparts : ∀ c ∈ r.children, enter' c = enter c)
    (htarget : ∀ target, r.shape = .reference target →
      full.resolve? target = g.resolve? target ∧
        ∀ s, g.resolve? target = some s → enter' s = enter s) :
    step full enter' r = step g enter r := by
  obtain ⟨name, shape⟩ := r
  funext here t
  unfold step
  cases shape with
  | literal _ | terminal _ | spacing _ | decision => rfl
  | iteration child _ | lookahead child | capture child =>
    simp only [hparts child (List.mem_singleton_self child)]
  | sequence elements _ => exact congrFun (congrFun (inOrder_congr hparts _ _) here) t
  | selection alternatives => exact congrFun (congrFun (firstOf_congr hparts) here) t
  | completion stop =>
    cases stop with
    | none => rfl
    | some stop => simp only [hparts stop (List.mem_singleton_self stop)]
  | reference target =>
    obtain ⟨hsame, henter⟩ := htarget target rfl
    dsimp only
    rw [hsame]
    cases hresolve : g.resolve? target with
    | none => rfl
    | some s => simp only [henter s hresolve]

end Matching

/-! ## Grammars with more names -/

namespace Grammar

variable {g full : Grammar}

/-- What a name stands for in the one grammar it stands for in the other. -/
def Extends (full g : Grammar) : Prop :=
  ∀ name r, g.resolve? name = some r → full.resolve? name = some r

namespace Extends

theorem resolve?_eq (h : full.Extends g) {name : String}
    (hname : (g.resolve? name).isSome) : full.resolve? name = g.resolve? name := by
  obtain ⟨r, hr⟩ := Option.isSome_iff_exists.mp hname
  rw [hr, h name r hr]

/-- Known rules are matched alike, with the same record. -/
theorem attempt_eq (h : full.Extends g) (hclosed : g.Closed) (room : Nat) :
    ∀ r : Rule, r.Known g → Matching.attempt full room r = Matching.attempt g room r := by
  induction room with
  | zero => exact fun _ _ => rfl
  | succ room ih =>
    intro r hr
    have hstep : Matching.step full (Matching.attempt full room) r =
        Matching.step g (Matching.attempt g room) r := by
      refine Matching.step_congr (fun c hc => ih c (hr.child hc)) fun target htarget => ?_
      exact ⟨h.resolve?_eq (hr.target htarget), fun s hs => ih s (hclosed.resolved hs)⟩
    funext here t
    rw [Matching.attempt, Matching.attempt, hstep]

theorem matchWith_eq (h : full.Extends g) (hclosed : g.Closed) {start : String}
    (hstart : (g.resolve? start).isSome) (limit : Nat) (input : Bytes) :
    full.matchWith limit start input = g.matchWith limit start input := by
  obtain ⟨r, hr⟩ := Option.isSome_iff_exists.mp hstart
  have hsame : Matching.within full limit r = Matching.within g limit r := by
    funext here t
    rw [Matching.within, Matching.within, h.attempt_eq hclosed _ r (hclosed.resolved hr)]
  simp only [matchWith, h start r hr, hr, hsame]

end Extends

/-! ## Rules behind others -/

variable {rules extra : List Rule} {name : String} {r : Rule}

theorem named?_append_of_some (h : (⟨rules⟩ : Grammar).named? name = some r) :
    (⟨rules ++ extra⟩ : Grammar).named? name = some r := by
  unfold named? at h ⊢
  split at h
  · cases h
  · rename_i hne
    rw [if_neg hne, List.find?_append, h, Option.some_or]

theorem named?_append_of_none (h : (⟨rules⟩ : Grammar).named? name = none)
    (hextra : ∀ e ∈ extra, e.name ≠ name) :
    (⟨rules ++ extra⟩ : Grammar).named? name = none := by
  unfold named? at h ⊢
  split
  · rfl
  · rename_i hne
    have hnone : extra.find? (·.name == name) = none :=
      List.find?_eq_none.mpr fun e he heq => hextra e he (beq_iff_eq.mp heq)
    rw [if_neg hne] at h
    rw [List.find?_append, h, hnone, Option.none_or]

/-- Rules behind others leave every name as it is, unless one of them has the quiet form
of a name that is there. -/
theorem extends_append
    (hquiet : ∀ r ∈ rules, r.name ≠ "" → ∀ e ∈ extra, e.name ≠ quiet r.name) :
    (⟨rules ++ extra⟩ : Grammar).Extends ⟨rules⟩ := by
  intro name r hr
  unfold resolve? at hr
  split at hr
  · rename_i s hs
    rw [resolve?_of_named? (named?_append_of_some hs), hr]
  · rename_i hnone
    obtain ⟨body, hbody, rfl⟩ := Option.map_eq_some_iff.mp hr
    obtain ⟨plain, hplain, hnamed⟩ := Option.bind_eq_some_iff.mp hbody
    obtain rfl := eq_quiet_of_loud? hplain
    obtain rfl := name_of_named? hnamed
    have hne : body.name ≠ "" := by
      intro hempty
      rw [named?, if_pos hempty] at hnamed
      cases hnamed
    have hfull := named?_append_of_none hnone (hquiet body (mem_of_named? hnamed) hne)
    simp [resolve?, loudRule?, hfull, hplain, named?_append_of_some hnamed]

/-- More rules behind those of a closed grammar change no match that begins at a name of
it, whichever names they repeat, as long as none of them is the quiet form of a name that
is there. -/
theorem matchWith_append (rules extra : List Rule) (hclosed : (⟨rules⟩ : Grammar).Closed)
    (hquiet : ∀ r ∈ rules, r.name ≠ "" → ∀ e ∈ extra, e.name ≠ quiet r.name)
    (start : String) (hstart : ((⟨rules⟩ : Grammar).lookup? start).isSome) (limit : Nat)
    (input : Bytes) :
    (⟨rules ++ extra⟩ : Grammar).matchWith limit start input =
      (⟨rules⟩ : Grammar).matchWith limit start input := by
  rw [isSome_lookup?] at hstart
  exact (extends_append hquiet).matchWith_eq hclosed hstart limit input

/-- A rule that refers to a quiet name and to itself, followed by other rules of the same
names and by one that refers to nothing that is there. -/
theorem matchWith_append_repeated :
    let r := Rule.capture "r"
      (.sequence [.reference "-s", (Rule.reference "r").repeated .optional])
    let s := Rule.capture "s" (.symbol 'a')
    let extra := [Rule.capture "s" (.symbol 'b'), Rule.capture "r" (.symbol 'b'),
      Rule.capture "-t" (.reference "u")]
    (⟨[r, s]⟩ : Grammar).Closed ∧
      (∀ rule ∈ [r, s], rule.name ≠ "" → ∀ e ∈ extra, e.name ≠ quiet rule.name) ∧
      ((⟨[r, s]⟩ : Grammar).lookup? "r").isSome ∧
      (⟨[r, s] ++ extra⟩ : Grammar).matchWith 16 "r" (stringBytes "aab") =
        .ok ⟨stringBytes "aab", ⟨#[⟨"r", 0, 2, 0⟩, ⟨"r", 1, 2, 1⟩], []⟩, 2⟩ := by
  intro r s extra
  have hclosed : (⟨[r, s]⟩ : Grammar).Closed := by
    have hspec := dangling?_spec ⟨[r, s]⟩
    have hnone : (⟨[r, s]⟩ : Grammar).dangling? = none := by decide +kernel
    rwa [hnone] at hspec
  have hquiet : ∀ rule ∈ [r, s], rule.name ≠ "" → ∀ e ∈ extra,
      e.name ≠ quiet rule.name := by
    decide +kernel
  have hstart : ((⟨[r, s]⟩ : Grammar).lookup? "r").isSome := by decide +kernel
  have hanswer : (⟨[r, s]⟩ : Grammar).matchWith 16 "r" (stringBytes "aab") =
      .ok ⟨stringBytes "aab", ⟨#[⟨"r", 0, 2, 0⟩, ⟨"r", 1, 2, 1⟩], []⟩, 2⟩ := by
    rfl
  have h := matchWith_append [r, s] extra hclosed hquiet "r" hstart 16 (stringBytes "aab")
  exact ⟨hclosed, hquiet, hstart, h.trans hanswer⟩

end Grammar

end RuleGraph
