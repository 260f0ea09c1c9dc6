import RuleGraph.Grammar.Draft
import RuleGraph.Proofs.Chains
import RuleGraph.Proofs.Grammar.Names
import RuleGraph.Proofs.Matching.Refinement
import RuleGraph.Proofs.Rule.Addresses

/-!
# A finished grammar knows every name

A draft is finished only if each reference in its rules stands for something. The
check goes along the walks of the rules and resolves each name once. Matching
goes another way: from rule to rule as the input has it, through the bodies that
quiet names stand for, into what completions run up to, and around cycles. Yet
it only ever enters rules that are declared, or that lie below declared ones, and
there the check has been.

So `Rule.Known` is the invariant of a match: the references in a rule and below
it stand for something. It goes down to children, and in a closed grammar
whatever a name stands for has it. What matching means is one relation, and the
proof that no name is missing in it is one induction.
-/

namespace RuleGraph

namespace Rule

def target? (r : Rule) : Option String :=
  match r.shape with
  | .reference target => some target
  | _ => none

theorem target?_eq_some_iff {r : Rule} {target : String} :
    r.target? = some target ↔ r.shape = .reference target := by
  unfold target?
  split <;> simp_all

end Rule

namespace Grammar

/-- At this address of the grammar there is a reference to a name. -/
def RefersAt (g : Grammar) (address : List Nat) (target : String) : Prop :=
  ∃ r, Rule.at? g.rules address = some r ∧ r.shape = .reference target

/-- Whatever is referred to stands for something. -/
def Closed (g : Grammar) : Prop :=
  ∀ address target, g.RefersAt address target → (g.resolve? target).isSome

/-! ## The check -/

variable {g : Grammar}

/-- Names that stand for something can be left out of the check. -/
theorem firstDangling?_eq_find? (targets : List String) :
    ∀ known, (∀ target ∈ known, (g.resolve? target).isSome) →
      g.firstDangling? known targets = targets.find? fun target =>
        (g.resolve? target).isNone := by
  induction targets with
  | nil => exact fun _ _ => rfl
  | cons target rest ih =>
    intro known hknown
    rw [firstDangling?, List.find?_cons]
    cases hresolve : g.resolve? target with
    | none =>
      have hnew : target ∉ known := fun hmem => by
        simpa [hresolve] using hknown target hmem
      rw [if_neg hnew]
      rfl
    | some r =>
      split
      · exact ih known hknown
      · exact ih (target :: known)
          (List.forall_mem_cons.mpr ⟨by rw [hresolve]; rfl, hknown⟩)

/-- Whether a rule refers to a name that stands for nothing. -/
def dangles (g : Grammar) (r : Rule) : Bool :=
  r.target?.any fun target => (g.resolve? target).isNone

theorem dangling?_eq (g : Grammar) :
    g.dangling? = ((g.rules.flatMap Rule.walk).find? g.dangles).bind Rule.target? := by
  rw [dangling?, firstDangling?_eq_find? _ [] (List.forall_mem_nil _)]
  exact List.find?_filterMap

theorem dangles_eq_false {r : Rule} {target : String} (h : g.dangles r = false)
    (hr : r.shape = .reference target) : (g.resolve? target).isSome := by
  rw [dangles, Rule.target?_eq_some_iff.mpr hr] at h
  simpa using h

/-- The check finds nothing in a closed grammar, and otherwise the reference with
the lowest address. -/
theorem dangling?_spec (g : Grammar) :
    match g.dangling? with
    | none => g.Closed
    | some target => g.resolve? target = none ∧ ∃ address, g.RefersAt address target ∧
        ∀ earlier < address, ∀ other, g.RefersAt earlier other →
        (g.resolve? other).isSome := by
  have hwalk := Rule.find?_walk g.dangles g.rules
  rw [dangling?_eq]
  cases hfind : (g.rules.flatMap Rule.walk).find? g.dangles with
  | none =>
    rw [hfind] at hwalk
    rintro address target ⟨r, hr, htarget⟩
    exact dangles_eq_false (hwalk address trivial r hr) htarget
  | some r =>
    rw [hfind] at hwalk
    obtain ⟨hdangles, address, haddress, hnone⟩ := hwalk
    obtain ⟨target, htarget, hresolve⟩ := (Option.any_eq_true _ _).mp hdangles
    rw [Option.bind_some, htarget]
    refine ⟨Option.isNone_iff_eq_none.mp hresolve, address,
      ⟨r, haddress, Rule.target?_eq_some_iff.mp htarget⟩, ?_⟩
    rintro earlier hlt other ⟨s, hs, hother⟩
    exact dangles_eq_false (hnone earlier hlt s hs) hother

end Grammar

/-! ## The match -/

/-- The references in a rule and below it stand for something. -/
def Rule.Known (g : Grammar) (r : Rule) : Prop :=
  ∀ s ∈ r.walk, ∀ target, s.shape = .reference target → (g.resolve? target).isSome

namespace Rule.Known

variable {g : Grammar} {r : Rule}

theorem child {c : Rule} (h : r.Known g) (hc : c ∈ r.children) : c.Known g := by
  intro s hs
  refine h s ?_
  rw [walk_eq]
  exact List.mem_cons_of_mem _ (List.mem_flatMap.mpr ⟨c, hc, hs⟩)

theorem target {target : String} (h : r.Known g) (hr : r.shape = .reference target) :
    (g.resolve? target).isSome := by
  refine h r ?_ target hr
  rw [walk_eq]
  exact List.mem_cons_self

theorem body (h : r.Known g) : r.body.Known g := by
  obtain ⟨name, shape⟩ := r
  cases shape with
  | capture inner => exact h.child (List.mem_singleton_self inner)
  | _ => exact h

end Rule.Known

namespace Grammar.Closed

variable {g : Grammar} {r : Rule} {target : String}

theorem rule (h : g.Closed) (hr : r ∈ g.rules) : r.Known g := by
  intro s hs target htarget
  obtain ⟨address, haddress⟩ :=
    Rule.exists_at?_of_mem_walk (List.mem_flatMap.mpr ⟨r, hr, hs⟩)
  exact h address target ⟨s, haddress, htarget⟩

theorem resolved (h : g.Closed) (hr : g.resolve? target = some r) : r.Known g := by
  obtain ⟨declared, hmem, rfl | rfl⟩ := exists_rule_of_resolve? hr
  · exact h.rule hmem
  · exact (h.rule hmem).body

end Grammar.Closed

theorem Grammar.closed_iff {g : Grammar} : g.Closed ↔ ∀ r ∈ g.rules, r.Known g := by
  refine ⟨fun h r hr => h.rule hr, fun h => ?_⟩
  rintro address target ⟨s, haddress, htarget⟩
  obtain ⟨r, hr, hs⟩ := List.mem_flatMap.mp (Rule.mem_walk_of_at? haddress)
  exact h r hr s hs target htarget

namespace Matching

/-- The rules that a task is about. -/
def Task.rules : Task → List Rule
  | .rule r | .rounds r _ _ | .search r => [r]
  | .elements _ rules | .alternatives rules => rules

/-- No name was missing. -/
def Meaning.Resolved (m : Meaning) : Prop :=
  ∀ name, m ≠ .misses (.missing name)

theorem Meaning.Resolved.taking (here : Cursor) (width : Option Nat) :
    (Meaning.taking here width).Resolved := by
  cases width <;> exact nofun

theorem Meaning.Resolved.ending (here : Cursor) (wanted : Nat) :
    (Meaning.ending here wanted).Resolved := by
  cases wanted <;> exact nofun

theorem Meaning.Resolved.after {m : Meaning} (h : m.Resolved)
    (forest : List (Stretch String)) : (m.after forest).Resolved := by
  cases m with
  | arrives _ _ => exact nofun
  | misses reason => exact h

theorem Meaning.Resolved.leaving {reason : Reason} (h : (Meaning.misses reason).Resolved)
    (passed : Bool) : (Meaning.misses (reason.leaving passed)).Resolved := by
  cases reason with
  | soft => cases passed <;> exact nofun
  | committed => exact nofun
  | missing name => exact absurd rfl (h name)

theorem known_children {g : Grammar} {r : Rule} {task : Task}
    (h : ∀ s ∈ (Task.rule r).rules, s.Known g) (hsub : ∀ s ∈ task.rules, s ∈ r.children) :
    ∀ s ∈ task.rules, s.Known g :=
  fun s hs => (List.forall_mem_singleton.mp h).child (hsub s hs)

/-- In a closed grammar no name is missing in what known rules mean. -/
theorem Means.resolved {g : Grammar} (hclosed : g.Closed) {task : Task} {here : Cursor}
    {m : Meaning} (h : Means g task here m) (hknown : ∀ r ∈ task.rules, r.Known g) :
    m.Resolved := by
  induction h with
  | literal | terminal | spacing => exact .taking _ _
  | toEnd | decision | done | none | found | nowhere => exact nofun
  | full | last => exact .ending _ _
  | iteration _ ih => exact ih (known_children hknown fun _ h => h)
  | sequence _ ih => exact ih (known_children hknown fun _ h => h)
  | selection _ ih => exact ih (known_children hknown fun _ h => h)
  | completion _ ih => exact ih (known_children hknown fun _ h => h)
  | @lookahead _ _ _ m _ ih =>
    have hm := ih (known_children hknown fun _ h => h)
    cases m with
    | arrives _ _ => exact nofun
    | misses _ => exact hm
  | @capture _ _ _ m _ ih =>
    have hm := ih (known_children hknown fun _ h => h)
    cases m with
    | arrives _ _ => exact nofun
    | misses _ => exact hm
  | reference hr _ ih => exact ih (List.forall_mem_singleton.mpr (hclosed.resolved hr))
  | missing hr =>
    have hsome := (List.forall_mem_singleton.mp hknown).target rfl
    rw [hr] at hsome
    cases hsome
  | idle _ _ ih => exact nofun
  | round _ _ _ _ ih => exact (ih hknown).after _
  | broken _ _ ih => exact ih hknown
  | pass _ _ ih => exact ih (List.forall_mem_cons.mp hknown).2
  | element _ _ _ _ ih => exact (ih (List.forall_mem_cons.mp hknown).2).after _
  | stuck _ _ ih =>
    exact (ih
      (List.forall_mem_singleton.mpr (List.forall_mem_cons.mp hknown).1)).leaving _
  | chosen _ _ ih =>
    exact ih (List.forall_mem_singleton.mpr (List.forall_mem_cons.mp hknown).1)
  | other _ _ _ ih => exact ih (List.forall_mem_cons.mp hknown).2
  | further _ _ _ _ ih => exact ih hknown
  | astray _ _ ih => exact ih hknown

end Matching

/-- A closed grammar is matched without a name that is missing, from any name
that stands for something. -/
theorem Grammar.Closed.matchWith_ne_notFound {g : Grammar} (h : g.Closed) {start : String}
    (hstart : (g.lookup? start).isSome) (limit : Nat) (input : Bytes) (name : String) :
    g.matchWith limit start input ≠ .error (.notFound name) := by
  intro hmatch
  obtain ⟨m, hmeans, hreports⟩ :=
    Matching.matchWith_reports g limit start input (by rw [hmatch]; nofun)
  rw [isSome_lookup?] at hstart
  have hknown : (Rule.reference start).Known g := by
    intro s hs target htarget
    rw [Rule.walk_eq] at hs
    obtain rfl := List.mem_singleton.mp hs
    cases htarget
    exact hstart
  have hresolved :=
    Matching.Means.resolved h hmeans (List.forall_mem_singleton.mpr hknown)
  rw [hmatch] at hreports
  cases m with
  | arrives stop forest => cases hreports
  | misses reason =>
    cases reason with
    | soft | committed =>
      obtain ⟨position, heq⟩ := hreports
      cases heq
    | missing target => exact hresolved target rfl

/-! ## Finishing a draft -/

namespace Draft

theorem finish_eq_ok_iff {d : Draft} {g : Grammar} :
    d.finish = .ok g ↔ g = ⟨d.rules⟩ ∧ g.Closed := by
  have hspec := Grammar.dangling?_spec ⟨d.rules⟩
  unfold finish
  dsimp only
  cases hdangling : (⟨d.rules⟩ : Grammar).dangling? with
  | none =>
    rw [hdangling] at hspec
    constructor
    · rintro ⟨⟩
      exact ⟨rfl, hspec⟩
    · rintro ⟨rfl, -⟩
      rfl
  | some target =>
    rw [hdangling] at hspec
    obtain ⟨hresolve, address, hrefers, -⟩ := hspec
    constructor
    · rintro ⟨⟩
    · rintro ⟨rfl, hclosed⟩
      have hsome := hclosed address target hrefers
      rw [hresolve] at hsome
      cases hsome

/-- However a grammar is made from sources, it is a finished draft. -/
theorem finish_of_ofTerse {source : Bytes} {g : Grammar}
    (h : Grammar.ofTerse source = .ok g) : ∃ d : Draft, d.finish = .ok g := by
  obtain ⟨d, -, hd⟩ := bind_eq_ok h
  exact ⟨d, hd⟩

theorem finish_of_ofHosted {source : Bytes} {g : Grammar}
    (h : Grammar.ofHosted source = .ok g) : ∃ d : Draft, d.finish = .ok g := by
  obtain ⟨rules, -, h⟩ := bind_eq_ok h
  obtain ⟨d, -, hd⟩ := bind_eq_ok h
  exact ⟨d, mapError_eq_ok hd⟩

/-- A draft is finished, with the rules that it has, exactly if every reference at
any address stands for something. Otherwise the reference with the lowest address
of those that stand for nothing is reported. And a grammar that was finished,
from whatever sources, never misses a name when it is matched from a name that it
finds. -/
theorem finish_resolves :
    (∀ d : Draft,
      (∀ g, d.finish = .ok g ↔ g = ⟨d.rules⟩ ∧ g.Closed) ∧
        ∀ e, d.finish = .error e → ∃ address target, e = .undefined target ∧
          (⟨d.rules⟩ : Grammar).RefersAt address target ∧
          (⟨d.rules⟩ : Grammar).resolve? target = none ∧
          ∀ earlier < address, ∀ other, (⟨d.rules⟩ : Grammar).RefersAt earlier other →
            ((⟨d.rules⟩ : Grammar).resolve? other).isSome) ∧
      ∀ g : Grammar, (∃ d : Draft, d.finish = .ok g) ∨
      (∃ source, Grammar.ofTerse source = .ok g) ∨
          (∃ source, Grammar.ofHosted source = .ok g) →
        ∀ start, (g.lookup? start).isSome → ∀ limit input name,
          g.matchWith limit start input ≠ .error (.notFound name) := by
  refine ⟨fun d => ⟨fun g => finish_eq_ok_iff, fun e he => ?_⟩,
    fun g hg start hstart => ?_⟩
  · have hspec := Grammar.dangling?_spec ⟨d.rules⟩
    unfold finish at he
    dsimp only at he
    split at he
    · rename_i target hdangling
      cases he
      rw [hdangling] at hspec
      obtain ⟨hresolve, address, hrefers, hearlier⟩ := hspec
      exact ⟨address, target, rfl, hrefers, hresolve, hearlier⟩
    · cases he
  · have hfinish : ∃ d : Draft, d.finish = .ok g := by
      rcases hg with h | ⟨source, h⟩ | ⟨source, h⟩
      · exact h
      · exact finish_of_ofTerse h
      · exact finish_of_ofHosted h
    obtain ⟨d, hd⟩ := hfinish
    exact (finish_eq_ok_iff.mp hd).2.matchWith_ne_notFound hstart

/-- Two rules that refer to each other, in what a completion runs up to and by a
quiet name, first without and then with a third one. -/
theorem finish_resolves_cyclic :
    let r := Rule.capture "r" (.sequence [.completion, .reference "-s"])
    let s := Rule.capture "s" (.selection [.reference "r", .reference "t"])
    let dangling : Draft := ⟨Limits.usual, [r, s]⟩
    let closed : Draft := ⟨Limits.usual, [r, s, Rule.capture "t" (.symbol 'a')]⟩
    dangling.finish = .error (.undefined "t") ∧
      (∃ address, (⟨dangling.rules⟩ : Grammar).RefersAt address "t" ∧
        ∀ earlier < address, ∀ other,
        (⟨dangling.rules⟩ : Grammar).RefersAt earlier other →
          ((⟨dangling.rules⟩ : Grammar).resolve? other).isSome) ∧
      closed.finish = .ok ⟨closed.rules⟩ ∧
      ((⟨closed.rules⟩ : Grammar).lookup? "-s").isSome ∧
      ∀ limit input name,
        (⟨closed.rules⟩ : Grammar).matchWith limit "-s" input ≠
          .error (.notFound name) := by
  intro r s dangling closed
  have hfailed : dangling.finish = .error (.undefined "t") := by rfl
  have hfinished : closed.finish = .ok ⟨closed.rules⟩ := by rfl
  obtain ⟨address, target, heq, hrefers, -, hearlier⟩ :=
    (finish_resolves.1 dangling).2 _ hfailed
  cases heq
  have hlookup : ((⟨closed.rules⟩ : Grammar).lookup? "-s").isSome := by decide
  exact ⟨hfailed, ⟨address, hrefers, hearlier⟩, hfinished, hlookup,
    finish_resolves.2 _ (.inl ⟨closed, hfinished⟩) "-s" hlookup⟩

end Draft

end RuleGraph
