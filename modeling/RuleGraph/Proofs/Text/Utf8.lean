import RuleGraph.Text.Utf8

/-!
# Text as bytes and back

The table behind the three readings accepts what encodes a character and nothing
else. `scalar?_encode` and `exists_char_of_scalar?` are the two halves of that,
for one character in front of anything. All the rest follows from them by going
through a text character by character: bytes read as a text exactly if they are
its encoding.

The bytes of a character are either one byte below `80` or all of them `80` and
above. So a byte below `80` never lies inside of another character, and a text
can be cut at it.
-/

namespace RuleGraph

@[simp] theorem utf8_nil : utf8 [] = [] := rfl

theorem utf8_cons (c : Char) (text : List Char) :
    utf8 (c :: text) = String.utf8EncodeChar c ++ utf8 text :=
  List.flatMap_cons

theorem utf8_append (first second : List Char) :
    utf8 (first ++ second) = utf8 first ++ utf8 second :=
  List.flatMap_append

namespace Utf8

/-! ## The table -/

theorem toNat_ofNat {n : Nat} (h : n < 256) : (UInt8.ofNat n).toNat = n := by
  rw [UInt8.toNat_ofNat', Nat.mod_eq_of_lt h]

theorem lead_eq (b : UInt8) : lead b =
    if b.toNat ≤ 0x7F then some (b.toNat, [])
    else if b.toNat < 0xC2 then none
    else if b.toNat ≤ 0xDF then some (b.toNat - 0xC0, [anyTail])
    else if b.toNat = 0xE0 then some (0, [⟨0xA0, 0xBF⟩, anyTail])
    else if b.toNat = 0xED then some (0xD, [⟨0x80, 0x9F⟩, anyTail])
    else if b.toNat ≤ 0xEF then some (b.toNat - 0xE0, [anyTail, anyTail])
    else if b.toNat = 0xF0 then some (0, [⟨0x90, 0xBF⟩, anyTail, anyTail])
    else if b.toNat ≤ 0xF3 then some (b.toNat - 0xF0, [anyTail, anyTail, anyTail])
    else if b.toNat = 0xF4 then some (4, [⟨0x80, 0x8F⟩, anyTail, anyTail])
    else none := by
  unfold lead
  simp only [UInt8.le_iff_toNat_le, UInt8.lt_iff_toNat_lt, ← UInt8.toNat_inj]
  rfl

/-- Which bytes lie in a span. -/
def Span.Admits (s : Span) (p : Nat → Prop) : Prop :=
  ∀ b : UInt8, s.holds b = true ↔ p b.toNat

theorem admits_mk (least most : UInt8) :
    (⟨least, most⟩ : Span).Admits fun n => least.toNat ≤ n ∧ n ≤ most.toNat := by
  intro b
  simp [Span.holds, UInt8.le_iff_toNat_le]

theorem anyTail_admits : anyTail.Admits fun n => 0x80 ≤ n ∧ n ≤ 0xBF :=
  admits_mk 0x80 0xBF

theorem Span.Admits.imp {s : Span} {p q : Nat → Prop} (h : s.Admits p)
    (hpq : ∀ n, p n ↔ q n) : s.Admits q :=
  fun b => (h b).trans (hpq b.toNat)

theorem lead_one {b : UInt8} (h : b.toNat ≤ 0x7F) : lead b = some (b.toNat, []) := by
  rw [lead_eq, if_pos h]

theorem lead_two {b : UInt8} (hlow : 0xC2 ≤ b.toNat) (hhigh : b.toNat ≤ 0xDF) :
    lead b = some (b.toNat - 0xC0, [anyTail]) := by
  rw [lead_eq, if_neg (by omega), if_neg (by omega), if_pos hhigh]

/-- What starts with `E0` is not overlong, and what starts with `ED` is no
surrogate. -/
theorem lead_three {b : UInt8} (hlow : 0xE0 ≤ b.toNat) (hhigh : b.toNat ≤ 0xEF) :
    ∃ s : Span, lead b = some (b.toNat - 0xE0, [s, anyTail]) ∧ s.Admits fun n =>
      0x80 ≤ n ∧ n ≤ 0xBF ∧ (b.toNat = 0xE0 → 0xA0 ≤ n) ∧
        (b.toNat = 0xED → n ≤ 0x9F) := by
  rw [lead_eq, if_neg (by omega), if_neg (by omega), if_neg (by omega)]
  by_cases hfirst : b.toNat = 0xE0
  · refine ⟨⟨0xA0, 0xBF⟩, by simp [hfirst], (admits_mk 0xA0 0xBF).imp fun n => ?_⟩
    simp only [UInt8.reduceToNat]
    omega
  by_cases hlast : b.toNat = 0xED
  · refine ⟨⟨0x80, 0x9F⟩, by simp [hlast], (admits_mk 0x80 0x9F).imp fun n => ?_⟩
    simp only [UInt8.reduceToNat]
    omega
  · exact ⟨anyTail, by simp [hfirst, hlast, hhigh], anyTail_admits.imp fun n => by omega⟩

/-- What starts with `F0` is not overlong, and what starts with `F4` is not
beyond the last code point. -/
theorem lead_four {b : UInt8} (hlow : 0xF0 ≤ b.toNat) (hhigh : b.toNat ≤ 0xF4) :
    ∃ s : Span, lead b = some (b.toNat - 0xF0, [s, anyTail, anyTail]) ∧ s.Admits fun n =>
      0x80 ≤ n ∧ n ≤ 0xBF ∧ (b.toNat = 0xF0 → 0x90 ≤ n) ∧
        (b.toNat = 0xF4 → n ≤ 0x8F) := by
  rw [lead_eq, if_neg (by omega), if_neg (by omega), if_neg (by omega), if_neg (by omega),
    if_neg (by omega), if_neg (by omega)]
  by_cases hfirst : b.toNat = 0xF0
  · refine ⟨⟨0x90, 0xBF⟩, by simp [hfirst], (admits_mk 0x90 0xBF).imp fun n => ?_⟩
    simp only [UInt8.reduceToNat]
    omega
  by_cases hlast : b.toNat = 0xF4
  · refine ⟨⟨0x80, 0x8F⟩, by simp [hlast], (admits_mk 0x80 0x8F).imp fun n => ?_⟩
    simp only [UInt8.reduceToNat]
    omega
  · have hmiddle : b.toNat ≤ 0xF3 := by omega
    exact ⟨anyTail, by simp [hfirst, hmiddle], anyTail_admits.imp fun n => by omega⟩

theorem cases_of_lead {b : UInt8} (h : lead b ≠ none) : b.toNat ≤ 0x7F ∨
    (0xC2 ≤ b.toNat ∧ b.toNat ≤ 0xDF) ∨ (0xE0 ≤ b.toNat ∧ b.toNat ≤ 0xEF) ∨
      (0xF0 ≤ b.toNat ∧ b.toNat ≤ 0xF4) := by
  rw [lead_eq] at h
  by_cases hlow : b.toNat ≤ 0x7F
  · exact .inl hlow
  by_cases hgap : b.toNat < 0xC2
  · rw [if_neg hlow, if_pos hgap] at h
    exact absurd rfl h
  by_cases hhigh : b.toNat ≤ 0xF4
  · omega
  · repeat rw [if_neg (by omega)] at h
    exact absurd rfl h

theorem complete_cons {s : Span} {p : Nat → Prop} (hs : s.Admits p) {spans : List Span}
    {b : UInt8} {rest : Bytes} {value : Nat} (hb : p b.toNat) :
    complete value (s :: spans) (b :: rest) =
      complete (value * 64 + (b.toNat - 0x80)) spans rest := by
  rw [complete, if_pos ((hs b).mpr hb)]

theorem complete_cons_eq_some {s : Span} {p : Nat → Prop} (hs : s.Admits p)
    {spans : List Span} {bytes : Bytes} {value result : Nat}
    (h : complete value (s :: spans) bytes = some result) :
    ∃ b rest, bytes = b :: rest ∧ p b.toNat ∧
      complete (value * 64 + (b.toNat - 0x80)) spans rest = some result := by
  cases bytes with
  | nil => cases h
  | cons b rest =>
    rw [complete] at h
    split at h
    · rename_i hholds
      exact ⟨b, rest, rfl, (hs b).mp hholds, h⟩
    · cases h

/-! ## One character -/

theorem toNat_valid (c : Char) :
    c.toNat < 0xD800 ∨ 0xDFFF < c.toNat ∧ c.toNat < 0x110000 :=
  c.valid

theorem encode_eq (c : Char) : String.utf8EncodeChar c =
    if c.toNat ≤ 0x7F then [UInt8.ofNat c.toNat]
    else if c.toNat ≤ 0x7FF then
      [UInt8.ofNat (c.toNat / 64 + 0xC0), UInt8.ofNat (c.toNat % 64 + 0x80)]
    else if c.toNat ≤ 0xFFFF then
      [UInt8.ofNat (c.toNat / 4096 + 0xE0), UInt8.ofNat (c.toNat / 64 % 64 + 0x80),
        UInt8.ofNat (c.toNat % 64 + 0x80)]
    else
      [UInt8.ofNat (c.toNat / 262144 + 0xF0), UInt8.ofNat (c.toNat / 4096 % 64 + 0x80),
        UInt8.ofNat (c.toNat / 64 % 64 + 0x80), UInt8.ofNat (c.toNat % 64 + 0x80)] := by
  have hvalid := toNat_valid c
  have hval : c.val.toNat = c.toNat := rfl
  unfold String.utf8EncodeChar
  rw [hval]
  dsimp only
  split
  · rfl
  split
  · rw [Nat.mod_eq_of_lt (show c.toNat / 64 < 32 by omega)]
  split
  · rw [Nat.mod_eq_of_lt (show c.toNat / 4096 < 16 by omega)]
  · rw [Nat.mod_eq_of_lt (show c.toNat / 262144 < 8 by omega)]

theorem scalar?_encode (c : Char) (rest : Bytes) :
    scalar? (String.utf8EncodeChar c ++ rest) =
      some (c.toNat, (String.utf8EncodeChar c).length - 1) := by
  have hvalid := toNat_valid c
  rw [encode_eq]
  generalize c.toNat = v at *
  have htail (n : Nat) : (UInt8.ofNat (n % 64 + 0x80)).toNat = n % 64 + 0x80 :=
    toNat_ofNat (by omega)
  split
  · have hlead : (UInt8.ofNat v).toNat = v := toNat_ofNat (by omega)
    rw [List.singleton_append, scalar?, lead_one (by omega), hlead]
    rfl
  split
  · have hlead : (UInt8.ofNat (v / 64 + 0xC0)).toNat = v / 64 + 0xC0 :=
      toNat_ofNat (by omega)
    have hvalue : (v / 64 + 0xC0 - 0xC0) * 64 + (v % 64 + 0x80 - 0x80) = v := by omega
    rw [List.cons_append, List.singleton_append, scalar?, lead_two (by omega) (by omega)]
    dsimp only
    rw [complete_cons anyTail_admits (by rw [htail]; omega), complete,
      hlead, htail, hvalue]
    rfl
  split
  · have hlead : (UInt8.ofNat (v / 4096 + 0xE0)).toNat = v / 4096 + 0xE0 :=
      toNat_ofNat (by omega)
    have hvalue : ((v / 4096 + 0xE0 - 0xE0) * 64 + (v / 64 % 64 + 0x80 - 0x80)) * 64 +
        (v % 64 + 0x80 - 0x80) = v := by omega
    obtain ⟨s, hrow, hs⟩ :=
      lead_three (b := UInt8.ofNat (v / 4096 + 0xE0)) (by omega) (by omega)
    rw [List.cons_append, List.cons_append, List.singleton_append, scalar?, hrow]
    dsimp only
    rw [complete_cons hs (by rw [htail]; omega),
      complete_cons anyTail_admits (by rw [htail]; omega), complete,
      hlead, htail, htail, hvalue]
    rfl
  · have hlead : (UInt8.ofNat (v / 262144 + 0xF0)).toNat = v / 262144 + 0xF0 :=
      toNat_ofNat (by omega)
    have hvalue :
        (((v / 262144 + 0xF0 - 0xF0) * 64 + (v / 4096 % 64 + 0x80 - 0x80)) * 64 +
          (v / 64 % 64 + 0x80 - 0x80)) * 64 + (v % 64 + 0x80 - 0x80) = v := by omega
    obtain ⟨s, hrow, hs⟩ :=
      lead_four (b := UInt8.ofNat (v / 262144 + 0xF0)) (by omega) (by omega)
    rw [List.cons_append, List.cons_append, List.cons_append, List.singleton_append,
      scalar?, hrow]
    dsimp only
    rw [complete_cons hs (by rw [htail]; omega),
      complete_cons anyTail_admits (by rw [htail]; omega),
      complete_cons anyTail_admits (by rw [htail]; omega), complete,
      hlead, htail, htail, htail, hvalue]
    rfl

theorem exists_char_of_scalar? {bytes : Bytes} {value tail : Nat}
    (h : scalar? bytes = some (value, tail)) :
    ∃ c rest, value = c.toNat ∧ bytes = String.utf8EncodeChar c ++ rest := by
  cases bytes with
  | nil => cases h
  | cons b rest =>
    rw [scalar?] at h
    split at h
    · cases h
    · rename_i start spans hlead
      obtain ⟨_, hvalue, h⟩ := Option.map_eq_some_iff.mp h
      cases h
      have hchar (hvalid : value.isValidChar) : ∃ c : Char, c.toNat = value :=
        ⟨Char.ofNatAux value hvalid, rfl⟩
      rcases cases_of_lead (by rw [hlead]; simp)
        with hone | ⟨hlow, hhigh⟩ | ⟨hlow, hhigh⟩ | ⟨hlow, hhigh⟩
      · rw [lead_one hone] at hlead
        obtain ⟨rfl, rfl⟩ := Prod.mk.inj (Option.some.inj hlead)
        have hvalue := Option.some.inj hvalue
        obtain ⟨c, hnat⟩ := hchar (by left; omega)
        refine ⟨c, rest, hnat.symm, ?_⟩
        rw [encode_eq, hnat, if_pos (by omega), ← hvalue, UInt8.ofNat_toNat]
        rfl
      · rw [lead_two hlow hhigh] at hlead
        obtain ⟨rfl, rfl⟩ := Prod.mk.inj (Option.some.inj hlead)
        obtain ⟨b₁, rest, rfl, h₁, hvalue⟩ := complete_cons_eq_some anyTail_admits hvalue
        have hvalue := Option.some.inj hvalue
        obtain ⟨c, hnat⟩ := hchar (by left; omega)
        refine ⟨c, rest, hnat.symm, ?_⟩
        have hb : value / 64 + 0xC0 = b.toNat := by omega
        have hb₁ : value % 64 + 0x80 = b₁.toNat := by omega
        rw [encode_eq, hnat, if_neg (by omega), if_pos (by omega), hb, hb₁]
        simp only [UInt8.ofNat_toNat]
        rfl
      · obtain ⟨s, hrow, hs⟩ := lead_three hlow hhigh
        rw [hrow] at hlead
        obtain ⟨rfl, rfl⟩ := Prod.mk.inj (Option.some.inj hlead)
        obtain ⟨b₁, _, rfl, h₁, hvalue⟩ := complete_cons_eq_some hs hvalue
        obtain ⟨b₂, rest, rfl, h₂, hvalue⟩ := complete_cons_eq_some anyTail_admits hvalue
        have hvalue := Option.some.inj hvalue
        obtain ⟨c, hnat⟩ := hchar (by
          unfold Nat.isValidChar
          omega)
        refine ⟨c, rest, hnat.symm, ?_⟩
        have hb : value / 4096 + 0xE0 = b.toNat := by omega
        have hb₁ : value / 64 % 64 + 0x80 = b₁.toNat := by omega
        have hb₂ : value % 64 + 0x80 = b₂.toNat := by omega
        rw [encode_eq, hnat, if_neg (by omega), if_neg (by omega), if_pos (by omega),
          hb, hb₁, hb₂]
        simp only [UInt8.ofNat_toNat]
        rfl
      · obtain ⟨s, hrow, hs⟩ := lead_four hlow hhigh
        rw [hrow] at hlead
        obtain ⟨rfl, rfl⟩ := Prod.mk.inj (Option.some.inj hlead)
        obtain ⟨b₁, _, rfl, h₁, hvalue⟩ := complete_cons_eq_some hs hvalue
        obtain ⟨b₂, _, rfl, h₂, hvalue⟩ := complete_cons_eq_some anyTail_admits hvalue
        obtain ⟨b₃, rest, rfl, h₃, hvalue⟩ := complete_cons_eq_some anyTail_admits hvalue
        have hvalue := Option.some.inj hvalue
        obtain ⟨c, hnat⟩ := hchar (by
          unfold Nat.isValidChar
          omega)
        refine ⟨c, rest, hnat.symm, ?_⟩
        have hb : value / 262144 + 0xF0 = b.toNat := by omega
        have hb₁ : value / 4096 % 64 + 0x80 = b₁.toNat := by omega
        have hb₂ : value / 64 % 64 + 0x80 = b₂.toNat := by omega
        have hb₃ : value % 64 + 0x80 = b₃.toNat := by omega
        rw [encode_eq, hnat, if_neg (by omega), if_neg (by omega), if_neg (by omega),
          hb, hb₁, hb₂, hb₃]
        simp only [UInt8.ofNat_toNat]
        rfl

/-- The bytes of a character are one below `80`, or all of them are not. -/
theorem encode_plain_or_high (c : Char) :
    (c.toNat < 0x80 ∧ String.utf8EncodeChar c = [UInt8.ofNat c.toNat]) ∨
      (0x80 ≤ c.toNat ∧ ∀ b ∈ String.utf8EncodeChar c, 0x80 ≤ b.toNat) := by
  have hvalid := toNat_valid c
  have htail (n : Nat) : 0x80 ≤ (UInt8.ofNat (n % 64 + 0x80)).toNat := by
    rw [toNat_ofNat (by omega)]
    omega
  rw [encode_eq]
  split
  · exact .inl ⟨by omega, rfl⟩
  refine .inr ⟨by omega, ?_⟩
  split
  · simp only [List.forall_mem_cons]
    refine ⟨?_, htail _, nofun⟩
    rw [toNat_ofNat (by omega)]
    omega
  split
  · simp only [List.forall_mem_cons]
    refine ⟨?_, htail _, htail _, nofun⟩
    rw [toNat_ofNat (by omega)]
    omega
  · simp only [List.forall_mem_cons]
    refine ⟨?_, htail _, htail _, htail _, nofun⟩
    rw [toNat_ofNat (by omega)]
    omega

theorem encode_of_ge {c : Char} (h : 0x80 ≤ c.toNat) :
    ∃ b₁ b₂ more, String.utf8EncodeChar c = b₁ :: b₂ :: more := by
  rw [encode_eq, if_neg (by omega)]
  split
  · exact ⟨_, _, _, rfl⟩
  split <;> exact ⟨_, _, _, rfl⟩

theorem encode_of_lt {c : Char} (h : c.toNat < 0x80) :
    String.utf8EncodeChar c = [UInt8.ofNat c.toNat] := by
  rw [encode_eq, if_pos (by omega)]

/-! ## Whole texts -/

theorem scalarsAfter_append (first rest : Bytes) :
    scalarsAfter first.length (first ++ rest) = scalars? rest := by
  induction first with
  | nil => rfl
  | cons b first ih => exact ih

theorem scalars?_encode (c : Char) (rest : Bytes) :
    scalars? (String.utf8EncodeChar c ++ rest) = (scalars? rest).map (c.toNat :: ·) := by
  have hscalar := scalar?_encode c rest
  have hne : String.utf8EncodeChar c ≠ [] := String.utf8EncodeChar_ne_nil
  generalize String.utf8EncodeChar c = bytes at hscalar hne ⊢
  cases bytes with
  | nil => exact absurd rfl hne
  | cons b more =>
    rw [scalars?, List.cons_append, scalarsAfter, ← List.cons_append, hscalar]
    exact congrArg (Option.map _) (scalarsAfter_append more rest)

theorem scalars?_utf8_append (text : List Char) (rest : Bytes) :
    scalars? (utf8 text ++ rest) = (scalars? rest).map (text.map Char.toNat ++ ·) := by
  induction text with
  | nil => simp
  | cons c text ih =>
    rw [utf8_cons, List.append_assoc, scalars?_encode, ih, Option.map_map]
    rfl

theorem scalars?_utf8 (text : List Char) :
    scalars? (utf8 text) = some (text.map Char.toNat) := by
  have h := scalars?_utf8_append text []
  simpa [scalars?, scalarsAfter] using h

theorem text?_utf8 (text : List Char) : text? (utf8 text) = some text := by
  rw [text?, scalars?_utf8, Option.map_some, List.map_map]
  have hround : Char.ofNat ∘ Char.toNat = id := funext Char.ofNat_toNat
  rw [hround, List.map_id]

theorem exists_text_of_scalars? {bytes : Bytes} (h : (scalars? bytes).isSome) :
    ∃ text, bytes = utf8 text := by
  induction hlength : bytes.length using Nat.strongRecOn generalizing bytes with
  | ind length ih =>
    cases bytes with
    | nil => exact ⟨[], rfl⟩
    | cons b more =>
      obtain ⟨⟨value, tail⟩, hscalar⟩ : ∃ result, scalar? (b :: more) = some result := by
        rw [scalars?, scalarsAfter] at h
        split at h
        · cases h
        · rename_i value tail hscalar
          exact ⟨_, hscalar⟩
      obtain ⟨c, rest, -, heq⟩ := exists_char_of_scalar? hscalar
      rw [heq, scalars?_encode, Option.isSome_map] at h
      have hshorter : rest.length < length := by
        have := List.length_pos_iff.mpr (String.utf8EncodeChar_ne_nil (c := c))
        rw [← hlength, heq, List.length_append]
        omega
      obtain ⟨text, rfl⟩ := ih rest.length hshorter h rfl
      exact ⟨c :: text, by rw [heq, utf8_cons]⟩

/-- Bytes read as a text exactly if they are its encoding. -/
theorem text?_eq_some_iff {bytes : Bytes} {text : List Char} :
    text? bytes = some text ↔ bytes = utf8 text := by
  constructor
  · intro h
    have hsome : (scalars? bytes).isSome := by
      rw [← Option.isSome_map, ← text?, h]
      rfl
    obtain ⟨text', rfl⟩ := exists_text_of_scalars? hsome
    rw [text?_utf8] at h
    rw [Option.some.inj h]
  · rintro rfl
    exact text?_utf8 text

/-- A text with a plain byte in it is a text in front of it and one behind it. -/
theorem exists_texts_around {q : UInt8} (hq : q.toNat < 0x80) {text : List Char} :
    ∀ {front back : Bytes}, front ++ q :: back = utf8 text →
      (∃ text', front = utf8 text') ∧ ∃ text', back = utf8 text' := by
  induction text with
  | nil =>
    intro front back h
    simp at h
  | cons c text ih =>
    intro front back h
    rw [utf8_cons] at h
    rcases List.append_eq_append_iff.mp h with ⟨more, hc, hq'⟩ | ⟨more, hfront, hback⟩
    · -- the character begins with the front, and then the plain byte must be all of it
      cases more with
      | nil =>
        rw [List.append_nil] at hc
        rw [List.nil_append] at hq'
        have hback : ∃ text', back = utf8 text' :=
          (ih (show [] ++ q :: back = _ from hq')).2
        exact ⟨⟨[c], by rw [utf8_cons, ← hc, utf8_nil, List.append_nil]⟩, hback⟩
      | cons q' more =>
        rw [List.cons_append, List.cons.injEq] at hq'
        obtain ⟨rfl, rfl⟩ := hq'
        rcases encode_plain_or_high c with ⟨-, hplain⟩ | ⟨-, hhigh⟩
        · rw [hc] at hplain
          cases front with
          | nil =>
            rw [List.nil_append, List.cons.injEq] at hplain
            exact ⟨⟨[], rfl⟩, text, by rw [hplain.2, List.nil_append]⟩
          | cons b front => simp at hplain
        · have := hhigh q (by rw [hc]; simp)
          omega
    · obtain ⟨⟨text', htext'⟩, hrest⟩ := ih hback.symm
      exact ⟨⟨c :: text', by rw [utf8_cons, hfront, htext']⟩, hrest⟩

/-! ## Where characters begin -/

/-- Only the first byte of a character does not continue one. -/
theorem encode_eq_cons (c : Char) : ∃ b more, String.utf8EncodeChar c = b :: more ∧
    anyTail.holds b = false ∧ ∀ tail ∈ more, anyTail.holds tail = true := by
  have hvalid := toNat_valid c
  have hfirst {b : UInt8} (h : b.toNat < 0x80 ∨ 0xBF < b.toNat) :
      anyTail.holds b = false := by
    rw [← Bool.not_eq_true, anyTail_admits b]
    omega
  have htail (n : Nat) : anyTail.holds (UInt8.ofNat (n % 64 + 0x80)) = true := by
    rw [anyTail_admits, toNat_ofNat (by omega)]
    omega
  rw [encode_eq]
  split
  · refine ⟨_, _, rfl, hfirst ?_, List.forall_mem_nil _⟩
    rw [toNat_ofNat (by omega)]
    omega
  split
  · refine ⟨_, _, rfl, hfirst ?_, List.forall_mem_singleton.mpr (htail _)⟩
    rw [toNat_ofNat (by omega)]
    omega
  split
  · refine ⟨_, _, rfl, hfirst ?_, List.forall_mem_cons.mpr
      ⟨htail _, List.forall_mem_singleton.mpr (htail _)⟩⟩
    rw [toNat_ofNat (by omega)]
    omega
  · refine ⟨_, _, rfl, hfirst ?_,
      List.forall_mem_cons.mpr ⟨htail _, List.forall_mem_cons.mpr
        ⟨htail _, List.forall_mem_singleton.mpr (htail _)⟩⟩⟩
    rw [toNat_ofNat (by omega)]
    omega

/-- One character is not the beginning of another. -/
theorem encode_append_inj {c d : Char} {first second : Bytes}
    (h : String.utf8EncodeChar c ++ first = String.utf8EncodeChar d ++ second) :
    c = d ∧ first = second := by
  have hscalar := scalar?_encode c first
  rw [h, scalar?_encode d second, Option.some.injEq, Prod.mk.injEq] at hscalar
  obtain rfl : d = c := Char.toNat_inj.mp hscalar.1
  exact ⟨rfl, List.append_cancel_left h⟩

/-- A text at the front of a text is one at the front of its characters. -/
theorem exists_rest_of_utf8_append {taken : List Char} {tail : Bytes} :
    ∀ {text : List Char}, utf8 text = utf8 taken ++ tail →
      ∃ rest, text = taken ++ rest ∧ tail = utf8 rest := by
  induction taken with
  | nil => exact fun {text} h => ⟨text, rfl, h.symm⟩
  | cons c taken ih =>
    intro text h
    rw [utf8_cons, List.append_assoc] at h
    cases text with
    | nil =>
      exact absurd (List.append_eq_nil_iff.mp h.symm).1 String.utf8EncodeChar_ne_nil
    | cons d text =>
      rw [utf8_cons] at h
      obtain ⟨rfl, hlater⟩ := encode_append_inj h
      obtain ⟨rest, rfl, htail⟩ := ih hlater
      exact ⟨rest, rfl, htail⟩

/-- Wherever the bytes of a text have those of a character in them, a character begins. -/
theorem exists_texts_of_encode {c : Char} {tail : Bytes} {text : List Char} :
    ∀ {skipped : Bytes}, utf8 text = skipped ++ (String.utf8EncodeChar c ++ tail) →
      ∃ taken rest, text = taken ++ rest ∧ skipped = utf8 taken := by
  induction text with
  | nil =>
    intro skipped h
    rw [utf8_nil, eq_comm, List.append_eq_nil_iff, List.append_eq_nil_iff] at h
    exact absurd h.2.1 String.utf8EncodeChar_ne_nil
  | cons d text ih =>
    intro skipped h
    cases skipped with
    | nil => exact ⟨[], d :: text, rfl, rfl⟩
    | cons b skipped =>
      rw [utf8_cons] at h
      rcases List.append_eq_append_iff.mp h
        with ⟨more, hskipped, hlater⟩ | ⟨more, hd, hlater⟩
      · obtain ⟨taken, rest, rfl, rfl⟩ := ih hlater
        exact ⟨d :: taken, rest, rfl, by rw [hskipped, utf8_cons]⟩
      · -- what is left of `d` would begin like `c` does
        cases more with
        | nil =>
          rw [List.append_nil] at hd
          exact ⟨[d], text, rfl, by rw [utf8_cons, utf8_nil, List.append_nil, hd]⟩
        | cons q more =>
          obtain ⟨first, others, hc, hfirst, -⟩ := encode_eq_cons c
          obtain ⟨b', tails, hd', -, htails⟩ := encode_eq_cons d
          rw [hc, List.cons_append, List.cons_append, List.cons.injEq] at hlater
          rw [hd, List.cons_append, List.cons.injEq] at hd'
          have hq : anyTail.holds q = true := htails q (by rw [← hd'.2]; simp)
          rw [← hlater.1, hfirst] at hq
          cases hq

/-- The longest run of plain bytes of a kind is a text. -/
theorem exists_texts_of_takeWhile (kind : UInt8 → Bool)
    (hkind : ∀ b, kind b → b.toNat < 0x80) (text : List Char) :
    ∃ taken rest, text = taken ++ rest ∧ (utf8 text).takeWhile kind = utf8 taken := by
  induction text with
  | nil => exact ⟨[], [], rfl, rfl⟩
  | cons c text ih =>
    obtain ⟨taken, rest, htext, hrun⟩ := ih
    cases hc : (String.utf8EncodeChar c).all kind with
    | true =>
      refine ⟨c :: taken, rest, congrArg (c :: ·) htext, ?_⟩
      rw [utf8_cons, utf8_cons,
        List.takeWhile_append_of_pos (List.all_eq_true.mp hc), hrun]
    | false =>
      refine ⟨[], c :: text, rfl, ?_⟩
      obtain ⟨b, more, hencode, -, -⟩ := encode_eq_cons c
      have hb : ¬kind b := by
        intro hb
        rcases encode_plain_or_high c with ⟨-, hplain⟩ | ⟨-, hhigh⟩
        · rw [hplain, List.cons.injEq] at hencode
          rw [hplain, hencode.1, List.all_cons, hb] at hc
          cases hc
        · have := hhigh b (by simp [hencode])
          have := hkind b hb
          omega
      rw [utf8_cons, hencode, List.cons_append, List.takeWhile_cons_of_neg hb, utf8_nil]

/-! ## What a matcher reads at a time -/

/-- One character for a matcher. -/
inductive Glyph
  | char (c : Char)
  /-- A byte that begins no character. -/
  | stray (b : UInt8) (high : 0x80 ≤ b.toNat)

namespace Glyph

def bytes : Glyph → Bytes
  | char c => String.utf8EncodeChar c
  | stray b _ => [b]

def code : Glyph → Nat
  | char c => c.toNat
  | stray b _ => b.toNat

theorem code_le (g : Glyph) : g.code ≤ 0x10FFFF := by
  cases g with
  | char c =>
    have := toNat_valid c
    rw [code]
    omega
  | stray b high =>
    have := b.toNat_lt
    rw [code]
    omega

theorem bytes_ne_nil (g : Glyph) : g.bytes ≠ [] := by
  cases g with
  | char c => exact String.utf8EncodeChar_ne_nil
  | stray b high => simp [bytes]

/-- A glyph that is below `80` is one byte, and any other has none below. -/
theorem bytes_plain_or_high (g : Glyph) :
    (g.code < 0x80 ∧ g.bytes = [UInt8.ofNat g.code]) ∨
      (0x80 ≤ g.code ∧ ∀ b ∈ g.bytes, 0x80 ≤ b.toNat) := by
  cases g with
  | char c => exact encode_plain_or_high c
  | stray b high => exact .inr ⟨high, by simpa [bytes] using high⟩

end Glyph

theorem scalar?_stray {b : UInt8} (hb : 0x80 ≤ b.toNat) {rest : Bytes}
    (hrest : ∀ q ∈ rest.head?, q.toNat < 0x80) : scalar? (b :: rest) = none := by
  cases hscalar : scalar? (b :: rest) with
  | none => rfl
  | some result =>
    obtain ⟨c, more, -, heq⟩ := exists_char_of_scalar? hscalar
    rcases encode_plain_or_high c with ⟨hlt, hplain⟩ | ⟨hge, hhigh⟩
    · rw [hplain, List.singleton_append, List.cons.injEq] at heq
      rw [heq.1, toNat_ofNat (by omega)] at hb
      omega
    · obtain ⟨b₁, b₂, tail, hencode⟩ := encode_of_ge hge
      have hb₂ : 0x80 ≤ b₂.toNat := hhigh b₂ (by simp [hencode])
      rw [hencode, List.cons_append, List.cons.injEq] at heq
      have := hrest b₂ (by simp [heq.2])
      omega

theorem unit?_encode (c : Char) (rest : Bytes) :
    unit? (String.utf8EncodeChar c ++ rest) =
      some (c.toNat, (String.utf8EncodeChar c).length - 1) := by
  have hscalar := scalar?_encode c rest
  have hne : String.utf8EncodeChar c ≠ [] := String.utf8EncodeChar_ne_nil
  generalize String.utf8EncodeChar c = bytes at hscalar hne ⊢
  cases bytes with
  | nil => exact absurd rfl hne
  | cons b more =>
    rw [List.cons_append] at hscalar ⊢
    rw [unit?, hscalar]
    rfl

theorem unit?_glyph (g : Glyph) {rest : Bytes}
    (hrest : ∀ q ∈ rest.head?, q.toNat < 0x80) :
    unit? (g.bytes ++ rest) = some (g.code, g.bytes.length - 1) := by
  cases g with
  | char c => exact unit?_encode c rest
  | stray b high =>
    rw [Glyph.bytes, List.singleton_append, unit?, scalar?_stray high hrest]
    rfl

theorem exists_glyph_of_unit? {bytes : Bytes} {code tail : Nat}
    (h : unit? bytes = some (code, tail)) :
    ∃ (g : Glyph) (rest : Bytes), code = g.code ∧ bytes = g.bytes ++ rest ∧
      tail + 1 = g.bytes.length := by
  cases bytes with
  | nil => cases h
  | cons b more =>
    rw [unit?] at h
    have h := Option.some.inj h
    cases hscalar : scalar? (b :: more) with
    | some result =>
      rw [hscalar] at h
      obtain rfl : result = (code, tail) := h
      obtain ⟨c, rest, hcode, heq⟩ := exists_char_of_scalar? hscalar
      have hlength := scalar?_encode c rest
      rw [← heq, hscalar, Option.some.injEq, Prod.mk.injEq] at hlength
      have := List.length_pos_iff.mpr (String.utf8EncodeChar_ne_nil (c := c))
      exact ⟨.char c, rest, hcode, heq, by rw [Glyph.bytes]; omega⟩
    | none =>
      rw [hscalar] at h
      obtain ⟨rfl, rfl⟩ := Prod.mk.inj h
      have hhigh : 0x80 ≤ b.toNat := by
        by_cases hlow : b.toNat ≤ 0x7F
        · rw [scalar?, lead_one hlow] at hscalar
          cases hscalar
        · omega
      exact ⟨.stray b hhigh, more, rfl, rfl, rfl⟩

end Utf8

end RuleGraph
