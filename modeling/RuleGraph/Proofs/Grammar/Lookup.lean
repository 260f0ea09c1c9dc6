import RuleGraph.Proofs.Grammar.Names
import RuleGraph.Terse.Text
import Std.Data.HashMap.Lemmas

/-!
# One meaning for a name

A name is looked up in three ways. A reader scans the rules that are declared so far. A
finished grammar keeps the position at which each name is declared first, so that matching
need not scan. And what is handed out under a quiet name that no rule carries is made for
the occasion. `positions` is the second way: the rules are gone through in order, and a
name that is there already stays where it is, so it finds what a scan would.

Whatever way a name takes, it leads to the rule that is declared first. Under quiet names
there may be a rule that was declared so, and then it counts, whether it stands in front
of the rule of the plain name or behind it.
-/

namespace RuleGraph.Grammar

/-- A name is declared as a rule: the first one that carries it. -/
def Declares (g : Grammar) (name : String) (r : Rule) : Prop :=
  ∃ before after, g.rules = before ++ r :: after ∧ r.name = name ∧ ∀ s ∈ before,
    s.name ≠ name

/-! ## The index -/

/-- Notes at which position a rule stands, unless it has no name or a name that has been
noted before. -/
def note (index : Std.HashMap String Nat) (entry : Rule × Nat) : Std.HashMap String Nat :=
  if entry.1.name = "" then index else index.insertIfNew entry.1.name entry.2

/-- The positions at which names are declared first. -/
def positions (g : Grammar) : Std.HashMap String Nat :=
  g.rules.zipIdx.foldl note ∅

/-- The rule of a name, by its position. -/
def indexed? (g : Grammar) (name : String) : Option Rule :=
  g.positions[name]?.bind (g.rules[·]?)

variable {g : Grammar} {name : String} {r : Rule}

theorem getElem?_note_self {index : Std.HashMap String Nat}
    (hname : r.name ≠ "") (i : Nat) :
    (note index (r, i))[r.name]? = index[r.name]?.or (some i) := by
  rw [note, if_neg hname, Std.HashMap.getElem?_insertIfNew]
  cases hold : index[r.name]? <;> simp [Std.HashMap.mem_iff_isSome_getElem?, hold]

theorem getElem?_note_of_ne {index : Std.HashMap String Nat}
    (hne : r.name ≠ name) (i : Nat) : (note index (r, i))[name]? = index[name]? := by
  unfold note
  split
  · rfl
  · rw [Std.HashMap.getElem?_insertIfNew, if_neg fun h => hne (beq_iff_eq.mp h.1)]

/-- Behind some rules a name is where it was, and otherwise at the first of them that
carries it. -/
theorem getElem?_foldl_note (hname : name ≠ "") (rules : List Rule) :
    ∀ (start : Nat) (index : Std.HashMap String Nat),
      ((rules.zipIdx start).foldl note index)[name]? =
        index[name]?.or ((rules.findIdx? (·.name == name)).map (start + ·)) := by
  induction rules with
  | nil => simp
  | cons r rest ih =>
    intro start index
    rw [List.zipIdx_cons, List.foldl_cons, ih, List.findIdx?_cons]
    by_cases hr : r.name = name
    · subst hr
      rw [getElem?_note_self hname, if_pos (beq_self_eq_true _)]
      cases index[r.name]? <;> simp
    · rw [getElem?_note_of_ne hr, if_neg fun h => hr (beq_iff_eq.mp h), Option.map_map]
      congr 2
      funext i
      exact Nat.add_right_comm start 1 i

/-- The empty name is never noted. -/
theorem getElem?_foldl_note_empty (entries : List (Rule × Nat)) :
    ∀ index : Std.HashMap String Nat, (entries.foldl note index)[""]? = index[""]? := by
  induction entries with
  | nil => exact fun _ => rfl
  | cons entry rest ih =>
    intro index
    rw [List.foldl_cons, ih]
    by_cases hr : entry.1.name = ""
    · rw [note, if_pos hr]
    · exact getElem?_note_of_ne hr entry.2

/-- The index finds what a scan finds. -/
theorem indexed?_eq (g : Grammar) (name : String) : g.indexed? name = g.named? name := by
  unfold indexed? named? positions
  split
  · rename_i hname
    subst hname
    rw [getElem?_foldl_note_empty, Std.HashMap.getElem?_empty]
    rfl
  · rename_i hname
    rw [getElem?_foldl_note hname, Std.HashMap.getElem?_empty, Option.none_or,
      List.find?_eq_bind_findIdx?_getElem?]
    cases g.rules.findIdx? (·.name == name) <;> simp

/-! ## The scan -/

theorem find?_rules (g : Grammar) (hname : name ≠ "") :
    Terse.find? g.rules name = g.named? name := by
  rw [named?, if_neg hname]
  rfl

theorem named?_eq_some_iff (hname : name ≠ "") :
    g.named? name = some r ↔ g.Declares name r := by
  rw [named?, if_neg hname, List.find?_eq_some_iff_append]
  simp only [beq_iff_eq, Bool.not_eq_true', beq_eq_false_iff_ne, Declares]
  constructor
  · rintro ⟨hr, before, after, hrules, hbefore⟩
    exact ⟨before, after, hrules, hr, hbefore⟩
  · rintro ⟨before, after, hrules, hr, hbefore⟩
    exact ⟨hr, before, after, hrules, hbefore⟩

/-! ## Quiet names -/

theorem isQuiet_quiet (name : String) : isQuiet (quiet name) = true := by
  rw [isQuiet, quiet, String.toList_ofList]
  simp

/-- A rule that is handed out under a quiet name is the body of the one that was
declared. -/
theorem shape_quietened (r : Rule) {plain : String} :
    (if r.isCapture then r.body.named (quiet plain) else r).shape = r.body.shape := by
  cases hr : r.isCapture with
  | true => rw [if_pos rfl, Rule.named, isQuiet_quiet, if_pos rfl]
  | false =>
    obtain ⟨name, shape⟩ := r
    cases shape with
    | capture child => cases hr
    | _ => rfl

/-- Looking a name up and resolving it is the same but for the name of what is found. -/
theorem map_shape_lookup? (g : Grammar) (name : String) :
    (g.lookup? name).map Rule.shape = (g.resolve? name).map Rule.shape := by
  unfold lookup? resolve?
  cases g.named? name with
  | some r => rfl
  | none =>
    dsimp only
    rw [Option.map_map, Option.map_map]
    unfold loudRule?
    cases hloud : loud? name with
    | none => rfl
    | some plain =>
      rw [Option.bind_some, eq_quiet_of_loud? hloud]
      congr 1
      funext r
      exact shape_quietened r

/-- Under the quiet form of a declared name there is the rule that is declared so, and
else the body of the declared rule. -/
theorem resolve?_quiet_of_declares (hname : name ≠ "") (h : g.Declares name r) :
    g.resolve? (quiet name) = some ((g.named? (quiet name)).getD r.body) := by
  rw [resolve?, loudRule?, loud?_quiet, Option.bind_some,
    (named?_eq_some_iff hname).mpr h]
  cases g.named? (quiet name) <;> rfl

/-- A reader that scans rules and a grammar that is made of them find the same rule under
a name, which is the first one that carries it. A name is looked up with success exactly
if it is resolved, and to rules of one kind. The quiet form of a declared name is looked
up with success as well: to the first rule that is declared so, and if there is none to
the body of the rule that the name is declared as. -/
theorem names_agree (rules : List Rule) :
    let g : Grammar := ⟨rules⟩
    (∀ name, name ≠ "" →
      Terse.find? rules name = g.indexed? name ∧ g.named? name = g.indexed? name ∧
        ∀ r, g.indexed? name = some r ↔ g.Declares name r) ∧
      (∀ name, (g.lookup? name).isSome = (g.resolve? name).isSome ∧
        ∀ r s, g.lookup? name = some r → g.resolve? name = some s → r.shape = s.shape) ∧
      ∀ name r, name ≠ "" → g.Declares name r →
        ∃ found, g.lookup? (quiet name) = some found ∧
          (∀ q, g.Declares (quiet name) q → found.shape = q.shape) ∧
          ((∀ q ∈ rules, q.name ≠ quiet name) → found.shape = r.body.shape) := by
  intro g
  refine ⟨fun name hname => ⟨?_, (g.indexed?_eq name).symm, fun r => ?_⟩,
    fun name => ⟨g.isSome_lookup? name, fun r s hr hs => ?_⟩, fun name r hname h => ?_⟩
  · rw [g.indexed?_eq]
    exact g.find?_rules hname
  · rw [g.indexed?_eq]
    exact named?_eq_some_iff hname
  · have hshape := g.map_shape_lookup? name
    rw [hr, hs] at hshape
    exact Option.some.inj hshape
  · have hshape := g.map_shape_lookup? (quiet name)
    rw [resolve?_quiet_of_declares hname h] at hshape
    obtain ⟨found, hfound, hshape⟩ := Option.map_eq_some_iff.mp hshape
    refine ⟨found, hfound, fun q hq => ?_, fun hnone => ?_⟩
    · rw [hshape, (named?_eq_some_iff (quiet_ne_empty name)).mpr hq, Option.getD_some]
    · have hquiet : g.named? (quiet name) = none := by
        cases hq : g.named? (quiet name) with
        | none => rfl
        | some q => exact absurd (name_of_named? hq) (hnone q (mem_of_named? hq))
      rw [hshape, hquiet, Option.getD_none]

/-- A name that is declared twice, and one whose quiet form is declared behind it. -/
theorem names_agree_duplicates :
    let a := Rule.capture "a" (Rule.capture "c" (Rule.symbol 'x'))
    let b := Rule.capture "b" (Rule.symbol 'y')
    let silent : Rule := ⟨"-b", .literal [0x7A]⟩
    let rules := [Rule.decision, a, b, Rule.capture "a" Rule.decision, silent]
    let g : Grammar := ⟨rules⟩
    g.Declares "a" a ∧ g.Declares "b" b ∧ g.Declares (quiet "b") silent ∧
      Terse.find? rules "a" = g.indexed? "a" ∧ g.indexed? "a" = some a ∧
      (∃ found, g.lookup? (quiet "a") = some found ∧ found.shape = a.body.shape) ∧
      ∃ found, g.lookup? (quiet "b") = some found ∧ found.shape = silent.shape := by
  intro a b silent rules g
  have ha : g.Declares "a" a :=
    ⟨[Rule.decision], [b, Rule.capture "a" Rule.decision, silent], rfl, rfl, by decide⟩
  have hb : g.Declares "b" b :=
    ⟨[Rule.decision, a], [Rule.capture "a" Rule.decision, silent], rfl, rfl, by decide⟩
  have hsilent : g.Declares (quiet "b") silent :=
    ⟨[Rule.decision, a, b, Rule.capture "a" Rule.decision], [], rfl, by decide, by decide⟩
  obtain ⟨hagree, -, hquiet⟩ := names_agree rules
  obtain ⟨hscan, -, hfirst⟩ := hagree "a" (by decide)
  obtain ⟨foundA, hfoundA, -, hbody⟩ := hquiet "a" a (by decide) ha
  obtain ⟨foundB, hfoundB, hdeclared, -⟩ := hquiet "b" b (by decide) hb
  exact ⟨ha, hb, hsilent, hscan, (hfirst a).mpr ha, ⟨foundA, hfoundA, hbody (by decide)⟩,
    foundB, hfoundB, hdeclared silent hsilent⟩

end RuleGraph.Grammar
