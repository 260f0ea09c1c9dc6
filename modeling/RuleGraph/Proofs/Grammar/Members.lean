import RuleGraph.Proofs.Grammar.Extension
import RuleGraph.Proofs.Matching.Taking
import RuleGraph.Proofs.Terse.Members

/-!
# A class matches what it lists

From the text of a class to the characters that are matched: the parts of the way are
there and are put together here. Reading leaves a terminal that captures under the
declared name, its set is the union of what the items stand for, and a terminal takes the
character in front of it, whatever comes behind.
-/

namespace RuleGraph

open Matching

theorem Grammar.matchWith_terminal {g : Grammar} {name : String} {set : CharSet}
    (h : g.resolve? name = some (Rule.capture name (Rule.terminal set))) {limit : Nat}
    (hlimit : 2 ≤ limit) (input : Bytes) :
    g.matchWith limit name input =
      (terminalWidth set input).elim (.error (.noMatch 0)) fun width =>
      .ok ⟨input, ⟨#[⟨name, 0, width, 0⟩], []⟩, width⟩ := by
  obtain ⟨room, rfl⟩ : ∃ room, limit = room + 2 := ⟨limit - 2, by omega⟩
  rw [matchWith, h]
  dsimp only [within, Track.start, Nat.sub_zero]
  rw [Rule.capture, attempt, step]
  dsimp only
  rw [attempt_terminal]
  dsimp only [Cursor.atStart]
  cases terminalWidth set input with
  | none => rfl
  | some width =>
    have hstop :=
      congrArg (fun stop : Nat => (Except.ok ⟨input, ⟨#[⟨name, 0, stop, 0⟩], []⟩, stop⟩ :
        Except Failure (Parse String))) (Nat.zero_add width)
    exact hstop

namespace Terse

variable {filed : List Rule}

/-- The rule of a new name is the one that has been declared last. -/
theorem resolve?_declared {r : Rule} {name : String} (hname : name ≠ "")
    (hr : r.name = name) (hnew : ∀ s ∈ filed, s.name ≠ name) :
    (⟨filed ++ [r]⟩ : Grammar).resolve? name = some r := by
  refine Grammar.resolve?_of_named? ?_
  have hnone : filed.find? (·.name == name) = none :=
    List.find?_eq_none.mpr fun s hs heq => hnew s hs (beq_iff_eq.mp heq)
  rw [Grammar.named?, if_neg hname, List.find?_append, hnone]
  simp [hr]

/-- A class of items with white space between them compiles to a rule under the declared
name. Where a name stands for that rule, a match against it takes the character that an
input begins with if one of the items stands for that character, and nothing else
matches. -/
theorem class_matches_members (limits : Limits) (filed : List Rule) (w : Word)
    (items : List Item) (text : List Char) (hspaced : Spaced items text)
    (hw : w.Fits limits) (hfits : ∀ item ∈ items, item.Fits limits)
    (hknown : ∀ item ∈ items, item.Known filed) (hsequence : 0 < limits.sequence)
    (halternatives : 0 < limits.alternatives) (hrules : filed.length < limits.rules) :
    ∃ rule,
      compile limits filed (utf8 (w.letters ++ (" = [".toList ++ (text ++ [']'])))) =
        .ok (filed ++ [rule]) ∧
      ((∀ r ∈ filed, r.name ≠ w.name) →
        (⟨filed ++ [rule]⟩ : Grammar).resolve? w.name = some rule) ∧
      ∀ (g : Grammar) (limit : Nat), g.resolve? w.name = some rule → 2 ≤ limit →
        ∀ (c : Char) (rest : Bytes),
          ((∃ p, g.matchWith limit w.name (String.utf8EncodeChar c ++ rest) = .ok p ∧
              p.stop = (String.utf8EncodeChar c).length) ↔
            ∃ item ∈ items, item.Holds filed c) ∧
          ((¬∃ item ∈ items, item.Holds filed c) →
            g.matchWith limit w.name (String.utf8EncodeChar c ++ rest) =
              .error (.noMatch 0)) := by
  obtain ⟨total, htotal, hcontains⟩ := Item.exists_union hknown CharSet.empty
  have hmember (c : Char) : total.contains c.toNat = true ↔
      ∃ item ∈ items, item.Holds filed c := by
    rw [hcontains]
    exact or_iff_right Bool.false_ne_true
  refine ⟨Rule.capture w.name (Rule.terminal total),
    compile_class w hspaced hw hfits hsequence halternatives hrules htotal,
    resolve?_declared w.name_ne_empty rfl, fun g limit hresolve hlimit c rest => ?_⟩
  rw [Grammar.matchWith_terminal hresolve hlimit, terminalWidth_encode, ← hmember]
  cases total.contains c.toNat with
  | true => exact ⟨⟨fun _ => rfl, fun _ => ⟨_, rfl, rfl⟩⟩, fun h => absurd rfl h⟩
  | false =>
    refine ⟨⟨?_, fun h => absurd h Bool.false_ne_true⟩, fun _ => rfl⟩
    rintro ⟨p, ⟨⟩, -⟩

/-- A range, a number and a name. Of the listed characters `ö` is matched in front of an
`x`, and `d` is not listed. -/
theorem class_matches_members_listed :
    let r : Word := ⟨['r'], by decide, List.forall_mem_singleton.mpr rfl⟩
    let v : Word := ⟨['v'], by decide, List.forall_mem_singleton.mpr rfl⟩
    let filed := [Rule.capture v.name (Rule.string ['ä', 'ö'])]
    let items : List Item :=
      [.range (.character 'a' (by decide)) (.character 'c' (by decide)),
        .single (.hexadecimal (.ofCode 0x20AC (by decide))), .inclusion v]
    let source := stringBytes "r = [\x7b'a'-'c'\x7d \x7b#20AC\x7d\n\\v ]"
    ∃ text rule, Spaced items text ∧
      source = utf8 (r.letters ++ (" = [".toList ++ (text ++ [']']))) ∧
      compile Limits.usual filed source = .ok (filed ++ [rule]) ∧
      (∃ p, (⟨filed ++ [rule]⟩ : Grammar).matchWith 2 r.name
        (String.utf8EncodeChar 'ö' ++ [0x78]) = .ok p ∧ p.stop = 2) ∧
      (⟨filed ++ [rule]⟩ : Grammar).matchWith 2 r.name (String.utf8EncodeChar 'd' ++ []) =
        .error (.noMatch 0) := by
  intro r v filed items source
  let text :=
    [] ++ (items[0].text ++
      ([' '] ++ (items[1].text ++ (['\n'] ++ (items[2].text ++ [' '])))))
  have hspaced : Spaced items text :=
    .item (List.forall_mem_nil _) (.item (by decide) (.item (by decide)
      (.nothing (by decide)) (.inl rfl)) (.inr ⟨'\n', rfl, by decide⟩))
      (.inr ⟨' ', rfl, by decide⟩)
  have hsource : source = utf8 (r.letters ++ (" = [".toList ++ (text ++ [']']))) := by
    decide +kernel
  have hfind : find? filed v.name = some (Rule.capture v.name (Rule.string ['ä', 'ö'])) :=
    rfl
  have hvowels : (Rule.capture v.name (Rule.string ['ä', 'ö'])).charSet? =
      some (CharSet.ofLiteral (utf8 ['ä', 'ö'])) := rfl
  have hknown : ∀ item ∈ items, item.Known filed :=
    List.forall_mem_cons.mpr ⟨trivial, List.forall_mem_cons.mpr ⟨trivial,
      List.forall_mem_singleton.mpr ⟨_, _, hfind, hvowels⟩⟩⟩
  have hone (c : Char) (h : (String.utf8EncodeChar c).length ≤ 256)
      {unquoted : c ≠ '\''} :
      (Value.character c unquoted).Fits Limits.usual := h
  have hletter (w : Word) (h : w.letters.length = 1) : w.Fits Limits.usual :=
    Nat.le_trans (Nat.le_of_eq h) (by decide)
  have hfits : ∀ item ∈ items, item.Fits Limits.usual :=
    List.forall_mem_cons.mpr ⟨⟨hone 'a' (by decide), hone 'c' (by decide)⟩,
      List.forall_mem_cons.mpr ⟨trivial, List.forall_mem_singleton.mpr (hletter v rfl)⟩⟩
  obtain ⟨rule, hcompile, hresolve, hmatches⟩ :=
    class_matches_members Limits.usual filed r items
      text hspaced (hletter r rfl) hfits hknown (by decide) (by decide) (by decide)
  have hrule := hresolve (List.forall_mem_singleton.mpr (by decide))
  have hlisted : ∃ item ∈ items, item.Holds filed 'ö' :=
    ⟨.inclusion v, by simp [items], _, _, hfind, hvowels, by decide +kernel⟩
  have hunlisted : ¬∃ item ∈ items, item.Holds filed 'd' := by
    rintro ⟨item, hitem, hholds⟩
    simp only [items, List.mem_cons, List.not_mem_nil, or_false] at hitem
    rcases hitem with rfl | rfl | rfl
    · exact absurd hholds.2 (by decide)
    · exact absurd (show 'd'.toNat = 0x20AC from hholds) (by decide)
    · obtain ⟨_, _, hr, hset, hcontains⟩ := hholds
      obtain rfl := Option.some.inj (hfind.symm.trans hr)
      obtain rfl := Option.some.inj (hset.symm.trans hvowels)
      exact absurd hcontains (by decide +kernel)
  refine ⟨text, rule, hspaced, hsource, hsource ▸ hcompile, ?_, ?_⟩
  · exact (hmatches _ 2 hrule (by decide) 'ö' [0x78]).1.mpr hlisted
  · exact (hmatches _ 2 hrule (by decide) 'd' []).2 hunlisted

end Terse

end RuleGraph
