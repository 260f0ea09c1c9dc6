import RuleGraph.Proofs.Grammar.References
import RuleGraph.Proofs.Matching.Taking
import RuleGraph.Proofs.Rule.Nodes

/-!
# Matching text by characters

The input is bytes, and a match counts in bytes. If the input is a text, the offsets are
boundaries between characters nonetheless, for every grammar that has no literal with half
a character in it. A terminal takes a character at a time, since there is one wherever a
match has come to, and spacing is plain bytes.

A completion is the exception. It tries its rule at every byte, inside of characters too,
where terminals and rules that match nothing would match. A literal does not: it begins
with the first byte of a character, and that is not found elsewhere in a text
(`exists_texts_of_encode`).
-/

namespace RuleGraph

/-- The node keeps to characters: a literal is a text, and what a completion runs up to is
a literal that is not empty. -/
def Rule.keepsCharacters : Rule → Bool
  | ⟨_, .literal bytes⟩ => (Utf8.text? bytes).isSome
  | ⟨_, .completion (some ⟨_, .literal bytes⟩)⟩ => !bytes.isEmpty
  | ⟨_, .completion (some _)⟩ => false
  | _ => true

namespace Matching

open Stretch

/-- An offset between two characters of a text, or at one of its ends. -/
def Boundary (text : List Char) (offset : Nat) : Prop :=
  ∃ front back, text = front ++ back ∧ offset = (utf8 front).length

variable {text : List Char} {g : Grammar}

/-- Two boundaries have a text between them. -/
theorem Boundary.exists_slice {start stop : Nat} (hstart : Boundary text start)
    (hstop : Boundary text stop) (hle : start ≤ stop) :
    ∃ part, Parse.slice? (utf8 text) start stop = some (utf8 part) := by
  obtain ⟨front, back, rfl, rfl⟩ := hstart
  obtain ⟨front', back', htext, rfl⟩ := hstop
  have hpart : ∃ part, front' = front ++ part ∧ back = part ++ back' := by
    rcases List.append_eq_append_iff.mp htext
      with ⟨part, hfront, hback⟩ | ⟨part, rfl, hback⟩
    · exact ⟨part, hfront, hback⟩
    · rw [utf8_append, List.length_append] at hle
      cases part with
      | nil => exact ⟨[], by simp, by simpa using hback.symm⟩
      | cons c part =>
        have := List.length_pos_iff.mpr (String.utf8EncodeChar_ne_nil (c := c))
        rw [utf8_cons, List.length_append] at hle
        omega
  obtain ⟨part, rfl, rfl⟩ := hpart
  refine ⟨part, ?_⟩
  simp [Parse.slice?, utf8_append]

/-- A place between two characters, with the text from there on left to read. -/
def Between (text : List Char) (here : Cursor) : Prop :=
  ∃ front back, text = front ++ back ∧ here = ⟨(utf8 front).length, utf8 back⟩

theorem between_atStart : Between text (.atStart (utf8 text)) :=
  ⟨[], text, rfl, rfl⟩

theorem Between.boundary {here : Cursor} (h : Between text here) :
    Boundary text here.offset := by
  obtain ⟨front, back, htext, rfl⟩ := h
  exact ⟨front, back, htext, rfl⟩

/-- Taking a text leads from between characters to between characters. -/
theorem Between.advance {here : Cursor} (h : Between text here) {taken : List Char}
    {tail : Bytes} (hrest : here.rest = utf8 taken ++ tail) :
    Between text (here.advance (utf8 taken).length) := by
  obtain ⟨front, back, rfl, rfl⟩ := h
  obtain ⟨rest, rfl, rfl⟩ := Utf8.exists_rest_of_utf8_append hrest
  refine ⟨front ++ taken, rest, (List.append_assoc ..).symm, ?_⟩
  rw [Cursor.advance, utf8_append, utf8_append, List.length_append, List.drop_left]

/-! ## What is taken at a time -/

/-- As many bytes as the beginning of an input has that is a text. -/
def TextWidth (input : Bytes) (n : Nat) : Prop :=
  ∃ taken tail, input = utf8 taken ++ tail ∧ n = (utf8 taken).length

theorem textWidth_literal {bytes input : Bytes} {n : Nat}
    (hbytes : (Utf8.text? bytes).isSome) (h : literalWidth bytes input = some n) :
    TextWidth input n := by
  obtain ⟨taken, htaken⟩ := Option.isSome_iff_exists.mp hbytes
  obtain rfl := Utf8.text?_eq_some_iff.mp htaken
  obtain ⟨rfl, tail, rfl⟩ := literalWidth_eq_some_iff.mp h
  exact ⟨taken, tail, rfl, rfl⟩

theorem textWidth_terminal {set : CharSet} {back : List Char} {n : Nat}
    (h : terminalWidth set (utf8 back) = some n) : TextWidth (utf8 back) n := by
  cases back with
  | nil => cases h
  | cons c back =>
    rw [utf8_cons, terminalWidth_encode, Option.ite_none_right_eq_some] at h
    refine ⟨[c], utf8 back, by rw [utf8_cons, utf8_cons, utf8_nil, List.append_nil], ?_⟩
    rw [utf8_cons, utf8_nil, List.append_nil]
    exact (Option.some.inj h.2).symm

theorem lt_of_isBlank {b : UInt8} (h : isBlank b) : b.toNat < 0x80 := by
  simp only [isBlank, isIndent, Bool.or_eq_true, beq_iff_eq] at h
  rcases h with ((rfl | rfl) | rfl) | rfl <;> decide

theorem textWidth_spacing {contract : Spacing} {back : List Char} {n : Nat}
    (h : contract.length? (utf8 back) = some n) : TextWidth (utf8 back) n := by
  have hrun : ∃ taken rest, back = taken ++ rest ∧
      contract.run (utf8 back) = utf8 taken := by
    have hblank := Utf8.exists_texts_of_takeWhile isBlank (fun b => lt_of_isBlank) back
    have hindent := Utf8.exists_texts_of_takeWhile isIndent
      (fun b hb => lt_of_isBlank (by simp [isBlank, hb])) back
    cases contract with
    | mayIndent | mustIndent => exact hindent
    | mayBreak | mustSeparate | mustWrap => exact hblank
  obtain ⟨taken, rest, rfl, hrun⟩ := hrun
  rw [Spacing.length?, hrun] at h
  rw [Option.ite_none_right_eq_some] at h
  exact ⟨taken, utf8 rest, utf8_append .., (Option.some.inj h.2).symm⟩

/-! ## What is found -/

/-- A token with a text in it. -/
def Whole (text : List Char) (t : Token String) : Prop :=
  Boundary text t.start ∧ Boundary text t.stop ∧ t.start ≤ t.stop

/-- It arrives between two characters and has found stretches that are texts. -/
def Meaning.Whole (text : List Char) (m : Meaning) : Prop :=
  ∀ stop forest, m = .arrives stop forest →
    Between text stop ∧ ∀ depth, ∀ t ∈ listing depth forest, Matching.Whole text t

namespace Meaning.Whole

variable {m : Meaning} {here : Cursor}

theorem misses (reason : Reason) : (Meaning.misses reason).Whole text := nofun

theorem empty (h : Between text here) : (Meaning.arrives here []).Whole text := by
  rintro _ _ ⟨⟩
  refine ⟨h, fun depth => ?_⟩
  rw [listing_nil]
  exact List.forall_mem_nil _

theorem taking (h : Between text here) {width : Option Nat}
    (hwidth : ∀ n, width = some n → TextWidth here.rest n) :
    (Meaning.taking here width).Whole text := by
  cases width with
  | none => exact misses _
  | some n =>
    obtain ⟨taken, tail, hrest, rfl⟩ := hwidth n rfl
    exact empty (h.advance hrest)

theorem ending (h : Between text here) (wanted : Nat) :
    (Meaning.ending here wanted).Whole text := by
  cases wanted with
  | zero => exact empty h
  | succ n => exact misses _

theorem after {stop : Cursor} {found : List (Stretch String)}
    (hfound : (Meaning.arrives stop found).Whole text) (h : m.Whole text) :
    (m.after found).Whole text := by
  cases m with
  | misses reason => exact h
  | arrives last forest =>
    rintro _ _ ⟨⟩
    refine ⟨(h last forest rfl).1, fun depth => ?_⟩
    rw [listing_append]
    exact List.forall_mem_append.mpr
      ⟨(hfound stop found rfl).2 depth, (h last forest rfl).2 depth⟩

theorem ahead (h : Between text here) (m : Meaning) : (m.ahead here).Whole text := by
  cases m with
  | arrives _ _ => exact empty h
  | misses _ => exact misses _

theorem captured (name : String) (hhere : Between text here) (hforward : m.Forward here)
    (h : m.Whole text) : (m.captured name here.offset).Whole text := by
  cases m with
  | misses reason => exact h
  | arrives last forest =>
    rintro _ _ ⟨⟩
    obtain ⟨hlast, hforest⟩ := h last forest rfl
    refine ⟨hlast, fun depth => ?_⟩
    rw [listing_cons, listing_nil, List.append_nil]
    obtain ⟨_, -, hoffset⟩ := hforward
    exact List.forall_mem_cons.mpr
      ⟨⟨hhere.boundary, hlast.boundary, hoffset ▸ Nat.le_add_right _ _⟩, hforest _⟩

end Meaning.Whole

/-- A search finds nothing on the way, and ends where the rule arrives that it looks
for. -/
theorem Means.exists_found {stop : Rule} {here there : Cursor}
    {forest : List (Stretch String)}
    (h : Means g (.search stop) here (.arrives there forest)) :
    forest = [] ∧ ∃ next inner, Means g (.rule stop) there (.arrives next inner) := by
  generalize htask : Task.search stop = task at h
  generalize hm : Meaning.arrives there forest = m at h
  induction h with
  | found hstop =>
    cases htask
    cases hm
    exact ⟨rfl, _, _, hstop⟩
  | further _ _ _ _ ih => exact ih htask hm
  | nowhere _ _ | astray _ _ => cases hm
  | _ => cases htask

/-- A search for a literal that is a text ends between two characters. -/
theorem Means.between_of_search {name : String} {bytes : Bytes}
    (hbytes : (Utf8.text? bytes).isSome) (hne : bytes ≠ []) {here there : Cursor}
    {forest : List (Stretch String)} (hhere : Between text here)
    (h : Means g (.search ⟨name, .literal bytes⟩) here (.arrives there forest)) :
    Between text there := by
  obtain ⟨-, next, inner, hfound⟩ := h.exists_found
  obtain ⟨skipped, hskipped, hoffset⟩ := h.forward
  obtain ⟨offset, back⟩ := there
  obtain ⟨more, hback⟩ : bytes <+: back := by
    cases hwidth : literalWidth bytes back with
    | none =>
      have hmeans := hfound.unique .literal
      rw [hwidth] at hmeans
      cases hmeans
    | some n => exact (literalWidth_eq_some_iff.mp hwidth).2
  obtain ⟨literal, hliteral⟩ := Option.isSome_iff_exists.mp hbytes
  obtain rfl := Utf8.text?_eq_some_iff.mp hliteral
  cases literal with
  | nil => exact absurd rfl hne
  | cons c literal =>
    obtain ⟨front, tail, htext, rfl⟩ := hhere
    rw [utf8_cons, List.append_assoc] at hback
    dsimp only at hskipped hoffset
    rw [← hback] at hskipped
    obtain ⟨taken, rest, rfl, rfl⟩ := Utf8.exists_texts_of_encode hskipped
    refine ⟨front ++ taken, rest, htext.trans (List.append_assoc ..).symm, ?_⟩
    rw [utf8_append, List.append_cancel_left_eq] at hskipped
    rw [hoffset, ← hback, ← hskipped, utf8_append, List.length_append]

/-- Where all nodes keep to characters, whatever is matched between two characters is
whole. -/
theorem Means.whole (hg : ∀ r ∈ g.rules, r.Everywhere (·.keepsCharacters)) {task : Task}
    {here : Cursor} {m : Meaning} (h : Means g task here m)
    (hrules : ∀ r ∈ task.rules, r.Everywhere (·.keepsCharacters))
    (hhere : Between text here) (hsearch : ∀ stop, task ≠ .search stop) :
    m.Whole text := by
  induction h with
  | @literal name bytes _ =>
    have hbytes := (Rule.everywhere_iff.mp (List.forall_mem_singleton.mp hrules)).1
    exact .taking hhere fun n => textWidth_literal hbytes
  | terminal =>
    obtain ⟨front, back, htext, rfl⟩ := hhere
    exact .taking ⟨front, back, htext, rfl⟩ fun n => textWidth_terminal
  | spacing =>
    obtain ⟨front, back, htext, rfl⟩ := hhere
    exact .taking ⟨front, back, htext, rfl⟩ fun n => textWidth_spacing
  | toEnd =>
    obtain ⟨front, back, htext, rfl⟩ := hhere
    have hlast :=
      Between.advance ⟨front, back, htext, rfl⟩ (List.append_nil (utf8 back)).symm
    exact .empty hlast
  | decision | done => exact .empty hhere
  | found | further | nowhere | astray => exact absurd rfl (hsearch _)
  | missing | none | broken | stuck => exact .misses _
  | full | last => exact .ending hhere _
  | iteration _ ih | sequence _ ih | selection _ ih =>
    exact ih (fun s hs => (List.forall_mem_singleton.mp hrules).child hs) hhere nofun
  | @completion name stop _ _ h _ =>
    obtain ⟨hstop, hchild⟩ := Rule.everywhere_iff.mp (List.forall_mem_singleton.mp hrules)
    obtain ⟨stopName, shape⟩ := stop
    cases shape with
    | literal bytes =>
      have hbytes := (Rule.everywhere_iff.mp (hchild _ (List.mem_singleton_self _))).1
      have hne : bytes ≠ [] := by
        rintro rfl
        cases hstop
      rintro there forest rfl
      obtain ⟨rfl, -⟩ := h.exists_found
      exact Meaning.Whole.empty (h.between_of_search hbytes hne hhere) _ _ rfl
    | _ => cases hstop
  | lookahead _ _ => exact .ahead hhere _
  | capture h ih =>
    have hr := List.forall_mem_singleton.mp hrules
    exact (ih (fun s hs => hr.child hs) hhere nofun).captured _ hhere h.forward
  | reference hr _ ih =>
    obtain ⟨rule, hrule, rfl | rfl⟩ := Grammar.exists_rule_of_resolve? hr
    · exact ih (List.forall_mem_singleton.mpr (hg _ hrule)) hhere nofun
    · exact ih (List.forall_mem_singleton.mpr (hg _ hrule).body) hhere nofun
  | idle _ heq ih =>
    rintro _ _ ⟨⟩
    exact ⟨hhere, (ih hrules hhere nofun _ _ rfl).2⟩
  | round _ _ _ ih ihRest =>
    have hfound := ih hrules hhere nofun
    exact hfound.after (ihRest hrules (hfound _ _ rfl).1 nofun)
  | pass _ _ ih => exact ih (List.forall_mem_cons.mp hrules).2 hhere nofun
  | element _ _ _ ih ihRest =>
    obtain ⟨hr, hrest⟩ := List.forall_mem_cons.mp hrules
    have hfound := ih (List.forall_mem_singleton.mpr hr) hhere nofun
    exact hfound.after (ihRest hrest (hfound _ _ rfl).1 nofun)
  | chosen _ _ ih =>
    exact ih (List.forall_mem_singleton.mpr (List.forall_mem_cons.mp hrules).1) hhere
      nofun
  | other _ _ _ ih => exact ih (List.forall_mem_cons.mp hrules).2 hhere nofun

end Matching

open Matching Stretch in
/-- Where all literals are texts and completions run up to literals only, a match of a
text ends at a boundary between characters, its tokens begin and end at boundaries, and
the text of each token is one. -/
theorem Grammar.boundaries_of_matchWith (g : Grammar)
    (hg : ∀ r ∈ g.rules, r.Everywhere (·.keepsCharacters)) (limit : Nat) (start : String)
    (input : Bytes) (text : List Char) (hinput : Utf8.text? input = some text)
    (p : Parse String) (h : g.matchWith limit start input = .ok p) :
    Boundary text p.stop ∧
      (∀ t ∈ p.overlay.tokens, Boundary text t.start ∧ Boundary text t.stop) ∧
      ∀ index < p.overlay.tokens.size, ∃ part, p.text? index = some (utf8 part) := by
  obtain rfl := Utf8.text?_eq_some_iff.mp hinput
  obtain ⟨stop, forest, hmeans, rfl⟩ := exists_forest_of_match h
  have hstart : (Rule.reference start).Everywhere (·.keepsCharacters) :=
    .of_children rfl nofun
  obtain ⟨hstop, hforest⟩ := hmeans.whole hg (List.forall_mem_singleton.mpr hstart)
    between_atStart nofun stop forest rfl
  have htokens : ∀ t ∈ (listing 0 forest).toArray, Whole text t :=
    fun t ht => hforest 0 t (List.mem_toArray.mp ht)
  refine ⟨hstop.boundary, fun t ht => ⟨(htokens t ht).1, (htokens t ht).2.1⟩,
    fun index hindex => ?_⟩
  obtain ⟨hstart, hstop, hle⟩ := htokens _ (Array.getElem_mem hindex)
  rw [Parse.text?, Array.getElem?_eq_getElem hindex, Option.bind_some]
  exact hstart.exists_slice hstop hle

open Matching in
/-- The two bytes of `é` stand in `ã©` too, but not one behind the other. -/
theorem Grammar.boundaries_of_matchWith_completion :
    let g : Grammar := ⟨[(Rule.sequence [Rule.completion.named "a", .symbol 'é',
      .terminal (CharSet.character 0xFC)]).named "r"]⟩
    let text := ['ã', '©', 'é', 'ü', 'x']
    (∀ r ∈ g.rules, r.Everywhere (·.keepsCharacters)) ∧
    Utf8.text? (utf8 text) = some text ∧
      ∃ p, g.matchWith 8 "r" (utf8 text) = .ok p ∧ p.stop = 8 ∧ Boundary text p.stop ∧
        (∀ t ∈ p.overlay.tokens, Boundary text t.start ∧ Boundary text t.stop) ∧
        p.overlay.tokens.size = 2 ∧ ∃ part, p.text? 1 = some (utf8 part) := by
  intro g text
  have hg : ∀ r ∈ g.rules, r.Everywhere (·.keepsCharacters) := by
    refine List.forall_mem_singleton.mpr ?_
    unfold Rule.Everywhere
    decide +kernel
  have hinput : Utf8.text? (utf8 text) = some text := Utf8.text?_utf8 text
  obtain ⟨p, hp, hstop, hsize⟩ : ∃ p, g.matchWith 8 "r" (utf8 text) = .ok p ∧ p.stop = 8 ∧
      p.overlay.tokens.size = 2 := ⟨_, rfl, rfl, rfl⟩
  obtain ⟨hboundary, htokens, htexts⟩ :=
    boundaries_of_matchWith g hg 8 "r" _ text hinput p hp
  exact ⟨hg, hinput, p, hp, hstop, hboundary, htokens, hsize, htexts 1 (by omega)⟩

end RuleGraph
