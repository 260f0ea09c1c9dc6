import RuleGraph.Grammar.Draft
import RuleGraph.Proofs.CharSet.Canonical
import RuleGraph.Proofs.Terse.Carrying
import RuleGraph.Proofs.Terse.Members

/-!
# Printed sets as sources

A set prints as a bracket class, and most sets are read back as they are printed: ranges
stand in braces, where the notation has quotes and base sixteen, and a visible character
stands in quotes. What remains is a code point without a neighbour that is not visible.
It prints in base sixteen and without braces, and in brackets there are no numerals.

So reading a declaration of a printed set either gives the set or stops at the first such
code point. To see that it stops just there, the ranges in front of it are taken for a
class of their own: where a bracket would end that class, a number sign is an error.
-/

namespace RuleGraph

open Terse

namespace CharSet

/-- The declaration of a rule with this set for its body. -/
def declaration (s : CharSet) : Bytes :=
  utf8 ("r = ".toList ++ s.text)

/-- A range that is read in brackets as it is printed. -/
def Readable (r : Range) : Prop :=
  r.low = r.high → isPlain r.low = true

instance (r : Range) : Decidable (Readable r) :=
  inferInstanceAs (Decidable (r.low = r.high → isPlain r.low = true))

end CharSet

open CharSet (Readable rangeText)

namespace Terse

variable {limits : Limits} {filed : List Rule} {set : CharSet}

/-- A number sign cannot stand where a class can end. -/
theorem Brackets.step_stray {c : Brackets} {offset : Nat}
    (h : c.step limits filed offset (']').toUInt8 = .ok (.done set)) :
    c.step limits filed offset ('#').toUInt8 =
      .error (.unexpected .brackets offset 0x23) := by
  obtain ⟨opened, before, member⟩ := c
  cases member with
  | idle => rfl
  | comment _ => cases h
  | literal _ text =>
    obtain ⟨_, _, h⟩ := bind_eq_ok h
    cases h
  | inclusion start text =>
    have hword : Sign.of (']').toUInt8 ≠ .word := by decide
    have hword' : Sign.of ('#').toUInt8 ≠ .word := by decide
    unfold Brackets.step at h ⊢
    dsimp only at h ⊢
    rw [if_neg hword] at h
    rw [if_neg hword']
    split at h
    · cases h
    · rename_i htext
      obtain ⟨adopted, hadopted, -⟩ := bind_eq_ok h
      rw [if_neg htext, hadopted]
      rfl
  | range braces =>
    obtain ⟨reading, -, h⟩ := bind_eq_ok h
    cases reading <;> cases h

/-- What could be all of a class is read up to a number sign behind it. -/
theorem complete_stray {front : Bytes} (rest : Bytes) :
    ∀ {s : State} {body : Body} {c : Brackets},
    s.phase = .body body → body.lexeme = .brackets c →
    Reads (Brackets.step limits s.filed) set c s.offset (front ++ ascii [']']) →
    s.complete limits (front ++ ('#').toUInt8 :: rest) =
      .error (.unexpected .brackets (s.offset + front.length) 0x23) := by
  induction front with
  | nil =>
    intro s body c hphase hlexeme hreads
    rw [List.nil_append, State.complete_step, State.stepPhase_brackets hphase hlexeme]
    cases hreads with
    | last hstep =>
      rw [Brackets.step_stray hstep]
      rfl
    | going _ hrest => cases hrest
  | cons b front ih =>
    intro s body c hphase hlexeme hreads
    rw [List.cons_append, State.complete_step, State.stepPhase_brackets hphase hlexeme]
    generalize hsource : b :: front ++ ascii [']'] = source at hreads
    cases hreads with
    | last _ => cases front <;> cases hsource
    | going hstep hrest =>
      cases hsource
      rw [hstep]
      refine (ih rfl rfl hrest).trans ?_
      rw [List.length_cons, Nat.add_assoc, Nat.add_comm 1]

end Terse

namespace CharSet

variable {s : CharSet}

theorem ofTerse_of_compile {source : Bytes} (h : compile Limits.usual [] source =
    .ok [Rule.capture "r" (Rule.terminal s)]) :
    Grammar.ofTerse source = .ok ⟨[Rule.capture "r" (Rule.terminal s)]⟩ := by
  unfold Grammar.ofTerse Draft.source Draft.start
  dsimp only
  rw [h]
  rfl

theorem Legible.ofTerse_declaration (h : s.Legible) :
    Grammar.ofTerse s.declaration = .ok ⟨[Rule.capture "r" (Rule.terminal s)]⟩ := by
  obtain ⟨parts, hparts, hlaid, hfits⟩ := exists_parts_of_ranges [] h
  let r : Word := ⟨['r'], by decide, List.forall_mem_singleton.mpr rfl⟩
  have hroom : 0 < Limits.usual.text := by decide
  exact ofTerse_of_compile
    (compile_parts r hlaid hroom (hfits Limits.usual hroom) (by decide)
      (by decide) (by decide) (hparts []))

/-- The bytes in front of the first range that cannot be read are those of a class. -/
theorem reads_front {before after : List Range} (hcanonical : s.Canonical)
    (hwithin : s.Within maxCodePoint) (hranges : s.ranges = before ++ after)
    (hbefore : ∀ r ∈ before, Readable r) (offset : Nat) :
    Reads (Brackets.step Limits.usual []) ⟨before⟩ (Brackets.start 4 empty) offset
      (utf8 (before.flatMap rangeText) ++ ascii [']']) := by
  have hlegible : (⟨[] ++ before⟩ : CharSet).Legible := by
    refine ⟨?_, fun r hr => hcanonical.high_le hwithin r ?_, hbefore⟩
    · rw [Canonical, hranges] at hcanonical
      exact hcanonical.of_append
    · rw [hranges]
      exact List.mem_append_left _ hr
  obtain ⟨parts, hparts, hlaid, hfits⟩ := exists_parts_of_ranges [] hlegible
  have hroom : 0 < Limits.usual.text := by decide
  exact reads_brackets (hfits Limits.usual hroom) (hparts []) hlaid offset

theorem ofTerse_stray {front rest : Bytes}
    (hfront : Reads (Brackets.step Limits.usual []) s (Brackets.start 4 empty) 5
      (front ++ ascii [']'])) :
    Grammar.ofTerse (utf8 "r = [".toList ++ (front ++ ('#').toUInt8 :: rest)) =
      .error (.unexpected .brackets (5 + front.length) 0x23) := by
  obtain ⟨opened, body, hrun, hphase, hlexeme, hfiled, hoffset⟩ :
      ∃ (opened : State) (body : Body),
        (State.start []).run Limits.usual (utf8 "r = [".toList) = .ok opened ∧
        opened.phase = .body body ∧ body.lexeme = .brackets (Brackets.start 4 empty) ∧
        opened.filed = [] ∧ opened.offset = 5 :=
    ⟨_, _, rfl, rfl, rfl, rfl, rfl⟩
  rw [← hfiled, ← hoffset] at hfront
  have hcompile :=
    (compile_append hrun _).trans (complete_stray rest hphase hlexeme hfront)
  unfold Grammar.ofTerse Draft.source Draft.start
  dsimp only
  rw [hcompile, hoffset]
  rfl

/-- A range that cannot be read begins with a number sign. -/
theorem exists_text_of_stray {r : Range} (h : ¬Readable r) :
    ∃ text, rangeText r = '#' :: text := by
  obtain ⟨hone, hplain⟩ := Classical.not_imp.mp h
  rw [rangeText, if_pos hone, codePointText, if_neg hplain]
  exact ⟨_, rfl⟩

/-- A printed set is read back as the terminal of the set, as far as it can be: the first
code point without a neighbour that is not visible is where the source is refused. -/
theorem ofTerse_declaration_eq (hcanonical : s.Canonical)
    (hwithin : s.Within maxCodePoint) :
    ((∀ r ∈ s.ranges, Readable r) →
      Grammar.ofTerse s.declaration = .ok ⟨[Rule.capture "r" (Rule.terminal s)]⟩) ∧
    ∀ before r after, s.ranges = before ++ r :: after → (∀ r ∈ before, Readable r) →
      ¬Readable r → Grammar.ofTerse s.declaration =
        .error (.unexpected .brackets
          (5 + (utf8 (before.flatMap rangeText)).length) 0x23) := by
  refine ⟨fun hreadable =>
      Legible.ofTerse_declaration ⟨hcanonical, hcanonical.high_le hwithin, hreadable⟩,
    fun before r after hranges hbefore hr => ?_⟩
  obtain ⟨text, htext⟩ := exists_text_of_stray hr
  have hsource : s.declaration =
      utf8 "r = [".toList ++ (utf8 (before.flatMap rangeText) ++
        ('#').toUInt8 :: utf8 (text ++ (after.flatMap rangeText ++ [']']))) := by
    have hprinted : "r = ".toList ++ s.text =
        "r = [".toList ++ (before.flatMap rangeText ++
          '#' :: (text ++ (after.flatMap rangeText ++ [']']))) := by
      rw [CharSet.text, hranges, List.flatMap_append, List.flatMap_cons, htext]
      simp
    rw [declaration, hprinted, utf8_append, utf8_append, utf8_cons]
    rfl
  rw [hsource]
  exact ofTerse_stray (reads_front hcanonical hwithin hranges hbefore 5)

/-- Code points that are not visible are read back in a range, and refused alone. -/
theorem ofTerse_declaration_eq_blanks :
    Grammar.ofTerse (declaration ⟨[⟨0, 0x20⟩, ⟨0x5F, 0x5F⟩, ⟨0xD800, maxCodePoint⟩]⟩) =
        .ok ⟨[Rule.capture "r"
          (Rule.terminal ⟨[⟨0, 0x20⟩, ⟨0x5F, 0x5F⟩, ⟨0xD800, maxCodePoint⟩]⟩)]⟩ ∧
      Grammar.ofTerse (declaration ⟨[⟨9, 10⟩, ⟨0x20, 0x20⟩, ⟨0x27, 0x27⟩]⟩) =
        .error (.unexpected .brackets 12 0x23) := by
  have hread := ofTerse_declaration_eq
    (s := ⟨[⟨0, 0x20⟩, ⟨0x5F, 0x5F⟩, ⟨0xD800, maxCodePoint⟩]⟩)
      ⟨by decide, by decide, by decide, by decide, by decide, by decide, trivial⟩
        (Within.of_high_le (by decide))
  have hrefused := ofTerse_declaration_eq (s := ⟨[⟨9, 10⟩, ⟨0x20, 0x20⟩, ⟨0x27, 0x27⟩]⟩)
    ⟨by decide, by decide, by decide, by decide, by decide, by decide, trivial⟩
    (Within.of_high_le (by decide))
  exact ⟨hread.1 (by decide),
    hrefused.2 [⟨9, 10⟩] ⟨0x20, 0x20⟩ [⟨0x27, 0x27⟩] rfl (by decide) (by decide)⟩

/-- A line feed by itself prints as a number, and a number cannot stand in brackets. -/
theorem ofTerse_line_feed :
    (character 10).Canonical ∧ (character 10).Within maxCodePoint ∧
    (character 10).text = "[#A]".toList ∧
    Grammar.ofTerse (character 10).declaration = .error (.unexpected .brackets 5 0x23) :=
  ⟨canonical_range 10 10, fun _ hc => (contains_range.mp hc).2.2, rfl, rfl⟩

end CharSet

end RuleGraph
