import RuleGraph.Proofs.CharSet.Sorting

/-!
# How sets are built

A set is built of ranges and of listed numbers, of two sets together and of the
complement of one. `Built` is what is reached in this way, from numbers that keep to a
limit. There is one thing that it leaves out: the complement of a set that goes up to the
greatest word, since behind that word there is none where the next gap could begin.

A range is cut off at the last code point, a list is not. So how far a set goes is decided
by its lists, and complements and unions go no further.
-/

namespace RuleGraph.CharSet

open Range (search)

/-- The sets that are built of numbers up to this one. A complement is taken only of a
set without the greatest word, behind which there is nothing to go on with. -/
inductive Built (most : Nat) : CharSet → Prop
  | range (low high : Nat) : Built most (range low high)
  | of {members : List Nat} (h : ∀ m ∈ members, m ≤ most) : Built most (of members)
  | union {a b : CharSet} : Built most a → Built most b → Built most (a.union b)
  | negate {s : CharSet} : Built most s → s.contains maxWord = false → Built most s.negate

variable {a b s t : CharSet} {most : Nat}

theorem Built.foldl_union {sets : List CharSet} (hs : Built most s)
    (h : ∀ t ∈ sets, Built most t) : Built most (sets.foldl CharSet.union s) := by
  induction sets generalizing s with
  | nil => exact hs
  | cons t rest ih =>
    obtain ⟨ht, hrest⟩ := List.forall_mem_cons.mp h
    exact ih (hs.union ht) hrest

/-! ## Sets with a name -/

theorem built_empty : Built most empty :=
  .of (List.forall_mem_nil _)

theorem built_character (c : Nat) : Built most (character c) :=
  .range c c

theorem built_ofLiteral (h : maxCodePoint ≤ most) (bytes : Bytes) :
    Built most (ofLiteral bytes) := by
  refine .of fun m hm => Nat.le_trans ?_ h
  by_cases htext : (Utf8.scalars? bytes).isSome
  · obtain ⟨text, rfl⟩ := Utf8.exists_text_of_scalars? htext
    rw [Utf8.scalars?_utf8, Option.getD_some] at hm
    obtain ⟨c, -, rfl⟩ := List.mem_map.mp hm
    exact toNat_le_maxCodePoint c
  · rw [Option.not_isSome_iff_eq_none.mp htext, Option.getD_none] at hm
    obtain ⟨b, -, rfl⟩ := List.mem_map.mp hm
    exact Nat.le_trans (Nat.le_of_lt b.toNat_lt) (by decide)

/-- The classes that have a name are built like the others. -/
theorem built_named (h : maxCodePoint ≤ most) :
    ∀ s ∈ [wildcard, upperLetters, lowerLetters, letters, digits, hexDigits, octalDigits,
      binaryDigits, whitespace], Built most s := by
  have hwhitespace : Built most whitespace :=
    .of fun m hm =>
      Nat.le_trans ((by decide : ∀ m ∈ [0x20, 0x09, 0x0A, 0x0D], m ≤ maxCodePoint) m hm) h
  simp only [List.forall_mem_cons]
  exact ⟨.range .., .range .., .range .., .union (.range ..) (.range ..), .range ..,
    .union (.union (.range ..) (.range ..)) (.range ..), .range .., .range ..,
    hwhitespace, List.forall_mem_nil _⟩

/-! ## Built sets are canonical -/

theorem Built.canonical (h : Built most s) : s.Canonical := by
  induction h with
  | range low high => exact canonical_range low high
  | of _ => exact canonical_of _
  | union _ _ iha ihb => exact iha.union ihb
  | negate _ _ ih => exact ih.negate

/-- What is built goes no further than the limit, or to the last code point. -/
theorem Built.within (h : Built most s) : s.Within (max most maxCodePoint) := by
  induction h with
  | range low high =>
    exact fun c hc => Nat.le_trans (contains_range.mp hc).2.2 (Nat.le_max_right _ _)
  | of h => exact fun c hc => Nat.le_trans (h c (contains_of.mp hc)) (Nat.le_max_left _ _)
  | union _ _ iha ihb => exact iha.union ihb
  | negate hbuilt _ ih =>
    have := ih.negate hbuilt.canonical
    rwa [Nat.max_eq_left (Nat.le_max_right _ _)] at this

theorem Built.within_words (h : Built maxWord s) : s.Within maxWord :=
  h.within

/-- The ranges of a built set are sorted and apart, so that halving finds the members
among them, and so that sets with the same members are the same. To put sets together or
to list numbers is to sort and to merge. -/
theorem Built.canonical_form (hs : Built maxWord s) (ht : Built maxWord t) :
    (∀ r ∈ s.ranges, r.low ≤ r.high ∧ r.high ≤ maxWord) ∧
      (s.ranges.Pairwise fun r r' => r.high + 1 < r'.low) ∧
      (∀ c, s.contains c = true ↔ ∃ r ∈ s.ranges, r.low ≤ c ∧ c ≤ r.high) ∧
      (∀ c, search c s.ranges = s.contains c) ∧
      (∀ c, (s.union t).contains c = true ↔ s.contains c = true ∨ t.contains c = true) ∧
      s.union t = normalized (s.ranges ++ t.ranges) ∧
      (∀ members : List Nat, (∀ m ∈ members, m ≤ maxWord) →
        CharSet.of members = normalized (members.map fun c => ⟨c, c⟩)) ∧
      ((∀ c ≤ maxWord, s.contains c = t.contains c) → s = t) := by
  obtain ⟨hle, hapart⟩ := hs.canonical.apart
  have hhigh := hs.canonical.high_le hs.within_words
  refine ⟨fun r hr => ⟨hle r hr, hhigh r hr⟩, hapart, fun c => contains_iff,
    fun c => hs.canonical.search_eq, fun c => contains_union,
    union_eq_normalized hs.canonical ht.canonical hs.within_words ht.within_words,
    fun _ => of_eq_normalized, fun hsame => hs.canonical.ext ht.canonical fun c => ?_⟩
  constructor
  · exact fun hc => hsame c (hs.within_words c hc) ▸ hc
  · exact fun hc => hsame c (ht.within_words c hc) ▸ hc

/-- The greatest word, and ranges that touch at 5 and at 1, put together in two orders. -/
theorem canonical_form_touching :
    search 5 ((range 0 4).union (of [maxWord, 6, 5])).ranges = true ∧
      (range 0 4).union (of [maxWord, 6, 5]) =
        (of [maxWord, 1, 0]).union (range 1 6) := by
  have hs : Built maxWord ((range 0 4).union (of [maxWord, 6, 5])) :=
    .union (.range 0 4) (.of (by decide))
  have ht : Built maxWord ((of [maxWord, 1, 0]).union (range 1 6)) :=
    .union (.of (by decide)) (.range 1 6)
  obtain ⟨-, -, -, hsearch, -, -, -, hext⟩ := Built.canonical_form hs ht
  refine ⟨(hsearch 5).trans (by decide), hext fun c _ => ?_⟩
  rw [Bool.eq_iff_iff]
  simp only [contains_union, contains_range, contains_of, List.mem_cons,
    List.not_mem_nil, or_false, maxCodePoint, maxWord]
  omega

end RuleGraph.CharSet
