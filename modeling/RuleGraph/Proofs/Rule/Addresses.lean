import RuleGraph.Rule.Equality
import RuleGraph.Rule.Walk

/-!
# Where a rule stands among rules

An address leads from a list of rules to one of them, or to a rule below one of
them: it says which rule of the list, which of its children, and so on. Whatever
can be reached by going down through children has an address.

Parents come before children in a walk, and whatever is below a rule comes before
the rules beside it. That is the lexicographic order of the addresses, in which
an address comes before those that go on from it. `find?_walk` says so for the
use that walks are put to, which is to look for the first rule of some kind.
-/

namespace RuleGraph.Rule

/-- The rule at an address among some rules. -/
def at? : List Rule → List Nat → Option Rule
  | _, [] => none
  | rules, [i] => rules[i]?
  | rules, i :: j :: rest => rules[i]?.bind fun r => at? r.children (j :: rest)

@[simp] theorem at?_empty (address : List Nat) : at? [] address = none := by
  match address with
  | [] | [_] | _ :: _ :: _ => simp [at?]

@[simp] theorem at?_head (r : Rule) (rest : List Rule) :
    at? (r :: rest) [0] = some r := by
  simp [at?]

@[simp] theorem at?_below (r : Rule) (rest : List Rule) (j : Nat) (address : List Nat) :
    at? (r :: rest) (0 :: j :: address) = at? r.children (j :: address) := by
  simp [at?]

@[simp] theorem at?_later (r : Rule) (rest : List Rule) (i : Nat) (address : List Nat) :
    at? (r :: rest) ((i + 1) :: address) = at? rest (i :: address) := by
  cases address <;> simp [at?]

theorem exists_cons_of_at? {rules : List Rule} {address : List Nat} {r : Rule}
    (h : at? rules address = some r) : ∃ i below, address = i :: below :=
  List.exists_cons_of_ne_nil fun hnil => by rw [hnil] at h; cases h

/-- To prove something of every list of rules, prove it of one whose first rule
has children that have it, and that goes on with rules that have it. -/
theorem listInduction {motive : List Rule → Prop} (nil : motive [])
    (cons : ∀ r rest, motive r.children → motive rest → motive (r :: rest)) :
    ∀ rules, motive rules := by
  have hlist (rules : List Rule) (h : ∀ r ∈ rules, motive r.children) : motive rules := by
    induction rules with
    | nil => exact nil
    | cons r rest ih =>
      obtain ⟨hr, hrest⟩ := List.forall_mem_cons.mp h
      exact cons r rest hr (ih hrest)
  have hchildren (r : Rule) : motive r.children :=
    childInduction (fun r h => hlist r.children h) r
  exact fun rules => hlist rules fun r _ => hchildren r

/-- None of the rules at some addresses has a property. -/
def NoneAt (p : Rule → Bool) (rules : List Rule) (addresses : List Nat → Prop) : Prop :=
  ∀ address, addresses address → ∀ r, at? rules address = some r → p r = false

variable {p : Rule → Bool} {rules : List Rule} {addresses addresses' : List Nat → Prop}

theorem NoneAt.mono (h : NoneAt p rules addresses)
    (hsub : ∀ address, addresses' address → addresses address) :
    NoneAt p rules addresses' :=
  fun address haddress => h address (hsub address haddress)

/-- None among a rule, those below it, and those beside it. -/
theorem noneAt_cons {r : Rule} (hr : p r = false)
    (hbelow : NoneAt p r.children fun address => addresses (0 :: address))
    (hrest : NoneAt p rules fun
      | [] => False
      | i :: address => addresses ((i + 1) :: address)) :
    NoneAt p (r :: rules) addresses := by
  intro address haddress s hs
  match address with
  | [] => cases hs
  | [0] =>
    cases hs
    exact hr
  | 0 :: j :: address =>
    exact hbelow (j :: address) haddress s ((at?_below ..).symm.trans hs)
  | (i + 1) :: address =>
    exact hrest (i :: address) haddress s ((at?_later ..).symm.trans hs)

/-- Looking along a walk finds the rule with a property that has the lowest
address. -/
theorem find?_walk (p : Rule → Bool) (rules : List Rule) :
    match (rules.flatMap walk).find? p with
    | none => NoneAt p rules fun _ => True
    | some r => p r = true ∧
        ∃ address, at? rules address = some r ∧ NoneAt p rules (· < address) := by
  induction rules using listInduction with
  | nil =>
    intro address _ r hr
    rw [at?_empty] at hr
    cases hr
  | cons r rest ihBelow ihRest =>
    rw [List.flatMap_cons, walk_eq, List.cons_append, List.find?_cons]
    cases hr : p r with
    | true =>
      refine ⟨hr, [0], at?_head r rest, fun address hlt s hs => ?_⟩
      match address with
      | [] => cases hs
      | i :: address => simp [List.cons_lt_cons_iff] at hlt
    | false =>
      dsimp only
      rw [List.find?_append]
      cases hfound : (r.children.flatMap walk).find? p with
      | some s =>
        rw [hfound] at ihBelow
        obtain ⟨hs, address, haddress, hnone⟩ := ihBelow
        obtain ⟨j, below, rfl⟩ := exists_cons_of_at? haddress
        refine ⟨hs, 0 :: j :: below, (at?_below ..).trans haddress, noneAt_cons hr ?_ ?_⟩
        · exact hnone.mono fun address hlt => by simpa [List.cons_lt_cons_iff] using hlt
        · rintro (_ | ⟨i, address⟩) hlt
          · cases hlt
          · simp [List.cons_lt_cons_iff] at hlt
      | none =>
        rw [hfound] at ihBelow
        rw [Option.none_or]
        cases hlater : (rest.flatMap walk).find? p with
        | none =>
          rw [hlater] at ihRest
          exact noneAt_cons hr (ihBelow.mono fun _ _ => trivial)
            (ihRest.mono fun _ _ => trivial)
        | some s =>
          rw [hlater] at ihRest
          obtain ⟨hs, address, haddress, hnone⟩ := ihRest
          obtain ⟨i, below, rfl⟩ := exists_cons_of_at? haddress
          refine ⟨hs, (i + 1) :: below, (at?_later ..).trans haddress,
            noneAt_cons hr ?_ ?_⟩
          · exact ihBelow.mono fun _ _ => trivial
          · refine hnone.mono fun address hlt => ?_
            cases address with
            | nil => exact List.nil_lt_cons ..
            | cons => simpa [List.cons_lt_cons_iff] using hlt

theorem mem_walk_of_at? {r : Rule} {address : List Nat} : ∀ {rules : List Rule},
    at? rules address = some r → r ∈ rules.flatMap walk := by
  induction address with
  | nil => exact fun h => nomatch h
  | cons i below ih =>
    intro rules h
    cases below with
    | nil =>
      refine List.mem_flatMap.mpr ⟨r, List.mem_of_getElem? h, ?_⟩
      rw [walk_eq]
      exact List.mem_cons_self
    | cons j rest =>
      obtain ⟨parent, hparent, hbelow⟩ := Option.bind_eq_some_iff.mp h
      refine List.mem_flatMap.mpr ⟨parent, List.mem_of_getElem? hparent, ?_⟩
      rw [walk_eq]
      exact List.mem_cons_of_mem _ (ih hbelow)

/-- Whatever is on a walk has an address. -/
theorem exists_at?_of_mem_walk {r : Rule} (h : r ∈ rules.flatMap walk) :
    ∃ address, at? rules address = some r := by
  have hwalk := find?_walk (fun s => decide (s = r)) rules
  cases hfind : (rules.flatMap walk).find? fun s => decide (s = r) with
  | none =>
    have hne := List.find?_eq_none.mp hfind r h
    simp at hne
  | some s =>
    rw [hfind] at hwalk
    obtain ⟨heq, address, haddress, -⟩ := hwalk
    exact ⟨address, of_decide_eq_true heq ▸ haddress⟩

end RuleGraph.Rule
