import RuleGraph.Hosted.Declarations
import RuleGraph.Proofs.CharSet.Members
import RuleGraph.Proofs.Matching.Taking

/-!
# A literal for a terminal of one character

A terminal that admits one character only is made a literal. The two are nearly the same
matcher: where there is a character in front, a terminal takes its bytes if it is the
admitted one, and a literal takes its own bytes, which are in front exactly then.

They differ where there is no character in front. A terminal takes a stray byte for the
character with that number, so from `80` to `FF` it may find its character there. A
literal never does, since its bytes encode a character.
-/

namespace RuleGraph.Matching

open Utf8

/-- A byte in front that begins no character but has the number of this one. -/
def Stray (c : Char) (bytes : Bytes) : Prop :=
  (0x80 ≤ c.toNat ∧ c.toNat ≤ 0xFF) ∧ bytes.head? = some (UInt8.ofNat c.toNat) ∧
    ¬∃ d rest, bytes = String.utf8EncodeChar d ++ rest

variable {c : Char}

/-- Where a character is in front, the literal and the terminal take the same. -/
theorem literalWidth_eq_terminalWidth (d : Char) (rest : Bytes) :
    literalWidth (String.utf8EncodeChar c) (String.utf8EncodeChar d ++ rest) =
      terminalWidth (CharSet.character c.toNat) (String.utf8EncodeChar d ++ rest) := by
  rw [terminalWidth_encode]
  by_cases hd : d = c
  · subst hd
    rw [if_pos (CharSet.contains_character.mpr rfl), literalWidth_eq_some_iff]
    exact ⟨rfl, List.prefix_append ..⟩
  · have hcontains : ¬(CharSet.character c.toNat).contains d.toNat = true := fun h =>
      hd (Char.toNat_inj.mp (CharSet.contains_character.mp h))
    rw [if_neg hcontains, Option.eq_none_iff_forall_not_mem]
    intro n hn
    obtain ⟨-, more, hmore⟩ := literalWidth_eq_some_iff.mp hn
    exact hd (encode_append_inj hmore).1.symm

/-- Where none is in front, the literal takes nothing, and the terminal one byte if it has
the number of its character. -/
theorem widths_of_no_char {bytes : Bytes}
    (h : ¬∃ d rest, bytes = String.utf8EncodeChar d ++ rest) :
    literalWidth (String.utf8EncodeChar c) bytes = none ∧
      ∀ n, terminalWidth (CharSet.character c.toNat) bytes = some n ↔
        n = 1 ∧ Stray c bytes := by
  refine ⟨?_, fun n => ?_⟩
  · rw [Option.eq_none_iff_forall_not_mem]
    intro n hn
    obtain ⟨-, more, hmore⟩ := literalWidth_eq_some_iff.mp hn
    exact h ⟨c, more, hmore.symm⟩
  · constructor
    · intro hn
      obtain ⟨glyph, rest, hcode, rfl, rfl⟩ := exists_glyph_of_terminalWidth hn
      rw [CharSet.contains_character] at hcode
      cases glyph with
      | char d => exact absurd ⟨d, rest, rfl⟩ h
      | stray b high =>
        have hlt := b.toNat_lt
        rw [Glyph.code] at hcode
        refine ⟨rfl, ⟨by omega, by omega⟩, ?_, h⟩
        rw [← hcode, UInt8.ofNat_toNat]
        rfl
    · rintro ⟨rfl, ⟨hlow, hhigh⟩, hhead, -⟩
      obtain ⟨rest, rfl⟩ := List.head?_eq_some_iff.mp hhead
      have hnat := toNat_ofNat (show c.toNat < 256 by omega)
      cases hscalar : scalar? (UInt8.ofNat c.toNat :: rest) with
      | some result =>
        obtain ⟨d, more, -, hd⟩ := exists_char_of_scalar? hscalar
        exact absurd ⟨d, more, hd⟩ h
      | none =>
        rw [terminalWidth, unit?, hscalar, Option.getD_none]
        dsimp only
        rw [hnat, if_pos (CharSet.contains_character.mpr rfl)]

end RuleGraph.Matching

namespace RuleGraph.Hosted

open Matching

theorem simplified_terminal (c : Char) :
    simplified (Rule.terminal (CharSet.character c.toNat)) = Rule.symbol c := by
  have hvalid := Utf8.toNat_valid c
  have hranges : (CharSet.character c.toNat).ranges = [⟨c.toNat, c.toNat⟩] := by
    have hmin : min c.toNat maxCodePoint = c.toNat :=
      Nat.min_eq_left (by rw [maxCodePoint]; omega)
    rw [CharSet.character, CharSet.range, hmin]
    exact congrArg CharSet.ranges (if_pos (Nat.le_refl _))
  have hsingle : (CharSet.character c.toNat).single? = some c.toNat := by
    rw [CharSet.single?, hranges]
    exact if_pos rfl
  rw [simplified, Rule.terminal, Rule.bare]
  dsimp only
  rw [hsingle]
  dsimp only
  rw [if_pos (show c.toNat.isValidChar from c.valid), Char.ofNat_toNat]

/-- What the literal matches that is put for a terminal of one character, the terminal
matches too. And the literal matches what the terminal matches, in every place except
exactly where a stray byte in front has the number of the character. -/
theorem symbol_for_terminal (c : Char) :
    simplified (Rule.terminal (CharSet.character c.toNat)) = Rule.symbol c ∧
      ∀ (g : Grammar) (room : Nat) (here : Cursor) (t : Track),
        (∀ stop t', attempt g (room + 1) (Rule.symbol c) here t = (.ok stop, t') →
          attempt g (room + 1) (Rule.terminal (CharSet.character c.toNat)) here t =
            (.ok stop, t')) ∧
        ((∀ stop t',
            attempt g (room + 1) (Rule.terminal (CharSet.character c.toNat)) here t =
              (.ok stop, t') →
            attempt g (room + 1) (Rule.symbol c) here t = (.ok stop, t')) ↔
          ¬Stray c here.rest) := by
  refine ⟨simplified_terminal c, fun g room here t => ?_⟩
  rw [attempt_symbol, attempt_terminal]
  by_cases hchar : ∃ d rest, here.rest = String.utf8EncodeChar d ++ rest
  · have hwidths : literalWidth (String.utf8EncodeChar c) here.rest =
        terminalWidth (CharSet.character c.toNat) here.rest := by
      obtain ⟨d, rest, hrest⟩ := hchar
      rw [hrest]
      exact literalWidth_eq_terminalWidth d rest
    rw [hwidths]
    exact ⟨fun _ _ h => h, fun _ hstray => hstray.2.2 hchar, fun _ _ _ h => h⟩
  · obtain ⟨hliteral, hterminal⟩ := widths_of_no_char (c := c) hchar
    rw [hliteral]
    refine ⟨nofun, fun h hstray => ?_, fun hstray => ?_⟩
    · rw [(hterminal 1).mpr ⟨rfl, hstray⟩] at h
      cases h _ _ rfl
    · have hnone : terminalWidth (CharSet.character c.toNat) here.rest = none :=
        Option.eq_none_iff_forall_not_mem.mpr fun n hn => hstray ((hterminal n).mp hn).2
      rw [hnone]
      nofun

/-- An `é` in Latin-1 is taken by the terminal only, one in UTF-8 by both. -/
theorem symbol_for_terminal_latin :
    let g : Grammar := ⟨[]⟩
    let terminal := Rule.terminal (CharSet.character 0xE9)
    let latin := Cursor.atStart [0xE9, 0x41]
    let unicode := Cursor.atStart [0xC3, 0xA9, 0x41]
    Stray 'é' latin.rest ∧
      ¬(∀ stop t', attempt g 1 terminal latin .start = (.ok stop, t') →
        attempt g 1 (Rule.symbol 'é') latin .start = (.ok stop, t')) ∧
      ∃ t', attempt g 1 (Rule.symbol 'é') unicode .start = (.ok (unicode.advance 2), t') ∧
        attempt g 1 terminal unicode .start = (.ok (unicode.advance 2), t') := by
  intro g terminal latin unicode
  have hstray : Stray 'é' latin.rest := by
    refine ⟨⟨by decide, by decide⟩, rfl, fun ⟨d, rest, hchar⟩ => ?_⟩
    have hscalar := Utf8.scalar?_encode d rest
    rw [← hchar] at hscalar
    cases hscalar
  obtain ⟨-, hmatches⟩ := symbol_for_terminal 'é'
  have hsymbol : attempt g 1 (Rule.symbol 'é') unicode .start =
      (.ok (unicode.advance 2), .start) := rfl
  exact ⟨hstray, fun h => (hmatches g 0 latin .start).2.mp h hstray, .start, hsymbol,
    (hmatches g 0 unicode .start).1 _ _ hsymbol⟩

end RuleGraph.Hosted
