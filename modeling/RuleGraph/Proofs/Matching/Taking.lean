import RuleGraph.Proofs.Matching.Overlays
import RuleGraph.Proofs.Text.Utf8

/-!
# What a rule takes

`Means` goes from place to place. To say of a grammar what its rules match it is
better to speak of the bytes in between: a task takes bytes in front of a rest.
The rest stays in the picture because a repetition and a choice look at it.

There is one equivalence for each construct, so that a statement about a
concrete rule can be opened from either side: to see what the bytes must be that
it has taken, and to see that it takes given ones. The equivalences say nothing
that `Means` does not, but they say it in terms of appends, and an append can be
split and joined where a cursor cannot.

A choice takes a later alternative only if the earlier ones refuse, and the usual
reason is the first byte. `openings` works out which bytes a rule may begin with.
It follows references, so it would not end on its own, and it knows that some
rules refuse for another reason.
-/

namespace RuleGraph.Matching

variable {g : Grammar}

/-- A task takes bytes in front of a rest, and finds the stretches of a forest
in them. -/
def Takes (g : Grammar) (task : Task) (offset : Nat) (bytes rest : Bytes)
    (forest : List (Stretch String)) : Prop :=
  Means g task ⟨offset, bytes ++ rest⟩ (.arrives ⟨offset + bytes.length, rest⟩ forest)

def Refuses (g : Grammar) (task : Task) (offset : Nat) (input : Bytes) : Prop :=
  Means g task ⟨offset, input⟩ (.misses .soft)

/-! ## Arriving is taking -/

namespace Meaning

/-- Where a meaning arrives, bytes have been taken. -/
def Forward (here : Cursor) : Meaning → Prop
  | arrives stop _ =>
    ∃ bytes, here.rest = bytes ++ stop.rest ∧ stop.offset = here.offset + bytes.length
  | misses _ => True

theorem forward_self (here : Cursor) (forest : List (Stretch String)) :
    (arrives here forest).Forward here :=
  ⟨[], rfl, rfl⟩

theorem forward_taking {here : Cursor} {width : Option Nat}
    (h : ∀ n, width = some n → n ≤ here.rest.length) :
    (taking here width).Forward here := by
  cases width with
  | none => trivial
  | some n =>
    refine ⟨here.rest.take n, (List.take_append_drop n here.rest).symm, ?_⟩
    show here.offset + n = here.offset + (here.rest.take n).length
    rw [List.length_take, Nat.min_eq_left (h n rfl)]

theorem forward_ending (here : Cursor) (wanted : Nat) :
    (ending here wanted).Forward here := by
  cases wanted with
  | zero => exact forward_self here []
  | succ _ => trivial

theorem Forward.trans {here next stop : Cursor} {first second : List (Stretch String)}
    (hfirst : (arrives next first).Forward here)
    (hsecond : (arrives stop second).Forward next) (forest : List (Stretch String)) :
    (arrives stop forest).Forward here := by
  obtain ⟨bytes, hrest, hoffset⟩ := hfirst
  obtain ⟨more, hrest', hoffset'⟩ := hsecond
  refine ⟨bytes ++ more, ?_, ?_⟩
  · rw [hrest, hrest', List.append_assoc]
  · rw [hoffset', hoffset, List.length_append, Nat.add_assoc]

theorem Forward.after {here next : Cursor} {found : List (Stretch String)} {m : Meaning}
    (hfound : (arrives next found).Forward here) (hrest : m.Forward next) :
    (m.after found).Forward here := by
  cases m with
  | arrives stop forest => exact hfound.trans hrest _
  | misses _ => trivial

theorem after_eq_arrives {m : Meaning} {found forest : List (Stretch String)}
    {stop : Cursor} (h : m.after found = arrives stop forest) :
    ∃ more, m = arrives stop more ∧ forest = found ++ more := by
  cases m with
  | arrives stop' more =>
    cases h
    exact ⟨more, rfl, rfl⟩
  | misses _ => cases h

end Meaning

theorem Means.forward {task : Task} {here : Cursor} {m : Meaning}
    (h : Means g task here m) : m.Forward here := by
  induction h with
  | literal => exact Meaning.forward_taking fun n hn => literalWidth_le hn
  | terminal => exact Meaning.forward_taking fun n hn => terminalWidth_le hn
  | spacing => exact Meaning.forward_taking fun n hn => Spacing.length?_le hn
  | iteration _ ih | sequence _ ih | selection _ ih | completion _ ih | reference _ _ ih
  | pass _ _ ih | other _ _ _ ih | chosen _ _ ih => exact ih
  | @toEnd _ here =>
    refine ⟨here.rest, ?_, rfl⟩
    show here.rest = here.rest ++ here.rest.drop here.rest.length
    rw [List.drop_length, List.append_nil]
  | @lookahead _ _ here m _ _ =>
    cases m with
    | arrives _ _ => exact Meaning.forward_self here []
    | misses _ => trivial
  | @capture _ _ _ m _ ih =>
    cases m with
    | arrives _ _ => exact ih
    | misses _ => trivial
  | decision | done | found _ _ => exact Meaning.forward_self _ []
  | full | last _ _ => exact Meaning.forward_ending _ _
  | @idle _ _ _ here next forest _ heq ih =>
    obtain ⟨bytes, hrest, hoffset⟩ := ih
    exact Meaning.forward_self here forest
  | round _ _ _ ih ihRest | element _ _ _ ih ihRest => exact ih.after ihRest
  | @further _ offset b rest _ m _ _ _ _ ih =>
    cases m with
    | arrives stop forest =>
      have hstep : (Meaning.arrives ⟨offset + 1, rest⟩ []).Forward ⟨offset, b :: rest⟩ :=
        ⟨[b], rfl, rfl⟩
      exact hstep.trans ih forest
    | misses _ => trivial
  | missing _ | broken _ _ _ | stuck _ _ _ | none | nowhere _ _ _
  | astray _ _ _ => trivial

/-- Whatever arrives somewhere has taken the bytes up to there. -/
theorem Means.exists_takes {task : Task} {offset : Nat} {input : Bytes} {stop : Cursor}
    {forest : List (Stretch String)}
    (h : Means g task ⟨offset, input⟩ (.arrives stop forest)) :
    ∃ bytes rest, input = bytes ++ rest ∧ stop = ⟨offset + bytes.length, rest⟩ ∧
      Takes g task offset bytes rest forest := by
  obtain ⟨offset', rest⟩ := stop
  obtain ⟨bytes, hrest, hoffset⟩ := h.forward
  obtain rfl : input = bytes ++ rest := hrest
  obtain rfl : offset' = offset + bytes.length := hoffset
  exact ⟨bytes, rest, rfl, rfl, h⟩

/-- One task after another takes what the two take. -/
theorem exists_takes_of_two {first second : Task} {offset : Nat} {bytes rest : Bytes}
    {next : Cursor} {found more : List (Stretch String)}
    (hfirst : Means g first ⟨offset, bytes ++ rest⟩ (.arrives next found))
    (hsecond : Means g second next (.arrives ⟨offset + bytes.length, rest⟩ more)) :
    ∃ front back, bytes = front ++ back ∧ next = ⟨offset + front.length, back ++ rest⟩ ∧
      Takes g first offset front (back ++ rest) found ∧
      Takes g second (offset + front.length) back rest more := by
  obtain ⟨front, _, hinput, rfl, htakes⟩ := hfirst.exists_takes
  obtain ⟨back, _, rfl, hstop, hmore⟩ := hsecond.exists_takes
  injection hstop with _ hrest
  subst hrest
  rw [← List.append_assoc] at hinput
  exact ⟨front, back, List.append_cancel_right hinput, rfl, htakes, hmore⟩

theorem Takes.next {task : Task} {offset : Nat} {front back rest : Bytes}
    {forest : List (Stretch String)}
    (h : Takes g task offset front (back ++ rest) forest) :
    Means g task ⟨offset, front ++ back ++ rest⟩
      (.arrives ⟨offset + front.length, back ++ rest⟩ forest) := by
  rw [List.append_assoc]
  exact h

theorem Takes.last {task : Task} {offset : Nat} {front back rest : Bytes}
    {forest : List (Stretch String)}
    (h : Takes g task (offset + front.length) back rest forest) :
    Means g task ⟨offset + front.length, back ++ rest⟩
      (.arrives ⟨offset + (front ++ back).length, rest⟩ forest) := by
  rw [List.length_append, ← Nat.add_assoc]
  exact h

/-! ## What each construct takes -/

variable {offset room wanted : Nat} {bytes rest : Bytes} {forest : List (Stretch String)}
  {name : String} {passed : Bool} {r child : Rule} {rules : List Rule}

theorem takes_taking_iff {task : Task} {width : Option Nat}
    (h : Means g task ⟨offset, bytes ++ rest⟩ (.taking ⟨offset, bytes ++ rest⟩ width)) :
    Takes g task offset bytes rest forest ↔ width = some bytes.length ∧ forest = [] := by
  constructor
  · intro htakes
    have heq := htakes.unique h
    cases width with
    | none => cases heq
    | some n =>
      injection heq with hstop hforest
      injection hstop with hoffset _
      exact ⟨congrArg some (Nat.add_left_cancel hoffset).symm, hforest⟩
  · rintro ⟨rfl, rfl⟩
    simpa [Takes, Meaning.taking, Cursor.advance] using h

theorem takes_literal_iff {literal : Bytes} :
    Takes g (.rule ⟨name, .literal literal⟩) offset bytes rest forest ↔
      bytes = literal ∧ forest = [] := by
  rw [takes_taking_iff .literal, literalWidth]
  refine and_congr_left' ?_
  constructor
  · intro h
    split at h
    · rename_i hprefix
      have hlength := Option.some.inj h
      rw [List.isPrefixOf_iff_prefix] at hprefix
      exact (List.prefix_of_prefix_length_le hprefix (List.prefix_append bytes rest)
        (Nat.le_of_eq hlength)).eq_of_length hlength |>.symm
    · cases h
  · rintro rfl
    rw [if_pos (List.isPrefixOf_iff_prefix.mpr (List.prefix_append bytes rest))]

theorem takes_literal {literal : Bytes} :
    Takes g (.rule ⟨name, .literal literal⟩) offset literal rest [] :=
  takes_literal_iff.mpr ⟨rfl, rfl⟩

theorem takes_terminal_iff {set : CharSet} :
    Takes g (.rule ⟨name, .terminal set⟩) offset bytes rest forest ↔
      terminalWidth set (bytes ++ rest) = some bytes.length ∧ forest = [] :=
  takes_taking_iff .terminal

theorem takes_spacing_iff {contract : Spacing} :
    Takes g (.rule ⟨name, .spacing contract⟩) offset bytes rest forest ↔
      contract.length? (bytes ++ rest) = some bytes.length ∧ forest = [] :=
  takes_taking_iff .spacing

theorem takes_capture_iff :
    Takes g (.rule ⟨name, .capture child⟩) offset bytes rest forest ↔
      ∃ inner, Takes g (.rule child) offset bytes rest inner ∧
        forest = [.node name offset (offset + bytes.length) inner] := by
  constructor
  · intro h
    rw [Takes] at h
    generalize hm : Meaning.arrives _ forest = m at h
    cases h with
    | @capture _ _ _ m h =>
      cases m with
      | arrives stop inner => cases hm; exact ⟨inner, h, rfl⟩
      | misses _ => cases hm
  · rintro ⟨inner, h, rfl⟩
    exact .capture h

theorem takes_reference_iff {target : String} (hr : g.resolve? target = some r) :
    Takes g (.rule ⟨name, .reference target⟩) offset bytes rest forest ↔
      Takes g (.rule r) offset bytes rest forest := by
  constructor
  · intro h
    cases h with
    | reference hr' h =>
      cases hr.symm.trans hr'
      exact h
  · exact .reference hr

theorem takes_sequence_iff {cut : Option Nat} :
    Takes g (.rule ⟨name, .sequence rules cut⟩) offset bytes rest forest ↔
      Takes g (.elements false rules) offset bytes rest forest := by
  constructor
  · intro h
    cases h with
    | sequence h => exact h
  · exact .sequence

theorem eq_nil_of_length_add {offset : Nat} {bytes : Bytes}
    (h : offset + bytes.length = offset) : bytes = [] :=
  List.eq_nil_of_length_eq_zero (by omega)

theorem takes_done_iff :
    Takes g (.elements passed []) offset bytes rest forest ↔
      bytes = [] ∧ forest = [] := by
  constructor
  · intro h
    have heq := h.unique .done
    injection heq with hstop hforest
    injection hstop with hoffset _
    exact ⟨eq_nil_of_length_add hoffset, hforest⟩
  · rintro ⟨rfl, rfl⟩
    exact .done

theorem takes_element_iff (hr : r.shape ≠ .decision) :
    Takes g (.elements passed (r :: rules)) offset bytes rest forest ↔
      ∃ front back found more, bytes = front ++ back ∧ forest = found ++ more ∧
        Takes g (.rule r) offset front (back ++ rest) found ∧
        Takes g (.elements passed rules) (offset + front.length) back rest more := by
  constructor
  · intro h
    rw [Takes] at h
    generalize hm : Meaning.arrives _ forest = m at h
    cases h with
    | pass hr' _ => exact absurd hr' hr
    | element _ hfirst hlater =>
      obtain ⟨more, rfl, rfl⟩ := Meaning.after_eq_arrives hm.symm
      obtain ⟨front, back, rfl, -, hfirst, hlater⟩ := exists_takes_of_two hfirst hlater
      exact ⟨front, back, _, more, rfl, rfl, hfirst, hlater⟩
    | stuck _ _ => cases hm
  · rintro ⟨front, back, found, more, rfl, rfl, hfirst, hlater⟩
    exact .element hr hfirst.next hlater.last

/-- An element in front of what the later ones take. -/
theorem Takes.element {front back : Bytes} {found more : List (Stretch String)}
    (hfirst : Takes g (.rule r) offset front (back ++ rest) found)
    (hr : r.shape ≠ .decision)
    (hlater : Takes g (.elements passed rules) (offset + front.length) back rest more) :
    Takes g (.elements passed (r :: rules)) offset (front ++ back) rest (found ++ more) :=
  (takes_element_iff hr).mpr ⟨front, back, found, more, rfl, rfl, hfirst, hlater⟩

theorem takes_lastElement_iff (hr : r.shape ≠ .decision) :
    Takes g (.elements passed [r]) offset bytes rest forest ↔
      Takes g (.rule r) offset bytes rest forest := by
  constructor
  · intro h
    obtain ⟨front, back, found, more, rfl, rfl, hfirst, hlater⟩ :=
      (takes_element_iff hr).mp h
    obtain ⟨rfl, rfl⟩ := takes_done_iff.mp hlater
    rwa [List.append_nil, List.append_nil]
  · intro h
    have hdone : Takes g (.elements passed []) (offset + bytes.length) [] rest [] :=
      takes_done_iff.mpr ⟨rfl, rfl⟩
    have htakes := h.element hr hdone
    rwa [List.append_nil, List.append_nil] at htakes

theorem Takes.alone (h : Takes g (.rule r) offset bytes rest forest)
    (hr : r.shape ≠ .decision) :
    Takes g (.elements passed [r]) offset bytes rest forest :=
  (takes_lastElement_iff hr).mpr h

theorem takes_selection_iff :
    Takes g (.rule ⟨name, .selection rules⟩) offset bytes rest forest ↔
      Takes g (.alternatives rules) offset bytes rest forest := by
  constructor
  · intro h
    cases h with
    | selection h => exact h
  · exact .selection

theorem not_takes_none : ¬Takes g (.alternatives []) offset bytes rest forest := by
  intro h
  cases h.unique .none

theorem takes_alternative_iff :
    Takes g (.alternatives (r :: rules)) offset bytes rest forest ↔
      Takes g (.rule r) offset bytes rest forest ∨
        (Refuses g (.rule r) offset (bytes ++ rest) ∧
          Takes g (.alternatives rules) offset bytes rest forest) := by
  constructor
  · intro h
    cases h with
    | chosen h _ => exact .inl h
    | other hr h => exact .inr ⟨hr, h⟩
  · rintro (h | ⟨hr, h⟩)
    · exact .chosen h (by simp)
    · exact .other hr h

theorem exists_takes_of_alternatives
    (h : Takes g (.alternatives rules) offset bytes rest forest) :
    ∃ r ∈ rules, Takes g (.rule r) offset bytes rest forest := by
  induction rules with
  | nil => exact absurd h not_takes_none
  | cons r rules ih =>
    rcases takes_alternative_iff.mp h with h | ⟨-, h⟩
    · exact ⟨r, List.mem_cons_self, h⟩
    · obtain ⟨r', hr', h⟩ := ih h
      exact ⟨r', List.mem_cons_of_mem r hr', h⟩

/-- An alternative is chosen if all in front of it refuse. -/
theorem takes_choice (front : List Rule) {back : List Rule}
    (hrules : rules = front ++ r :: back)
    (hfront : ∀ r' ∈ front, Refuses g (.rule r') offset (bytes ++ rest))
    (h : Takes g (.rule r) offset bytes rest forest) :
    Takes g (.rule ⟨name, .selection rules⟩) offset bytes rest forest := by
  subst hrules
  rw [takes_selection_iff]
  induction front with
  | nil => exact takes_alternative_iff.mpr (.inl h)
  | cons r' front ih =>
    obtain ⟨hr', hfront⟩ := List.forall_mem_cons.mp hfront
    exact takes_alternative_iff.mpr (.inr ⟨hr', ih hfront⟩)

/-! ## Repetitions -/

theorem takes_iteration_iff {bound : Bound} :
    Takes g (.rule ⟨name, .iteration child bound⟩) offset bytes rest forest ↔
      Takes g (.rounds child bound.least bound.most) offset bytes rest forest := by
  constructor
  · intro h
    cases h with
    | iteration h => exact h
  · exact .iteration

theorem takes_full : Takes g (.rounds child 0 0) offset [] rest [] := .full

theorem takes_last (h : Refuses g (.rule child) offset rest) :
    Takes g (.rounds child 0 (room + 1)) offset [] rest [] :=
  Means.last h

theorem takes_no_round (h : Refuses g (.rule child) offset rest) :
    Takes g (.rounds child 0 room) offset [] rest [] := by
  cases room with
  | zero => exact takes_full
  | succ room => exact takes_last h

theorem takes_round {front back : Bytes} {found more : List (Stretch String)}
    (hne : front ≠ []) (hround : Takes g (.rule child) offset front (back ++ rest) found)
    (hmore :
      Takes g (.rounds child (wanted - 1) room) (offset + front.length) back rest more) :
    Takes g (.rounds child wanted (room + 1)) offset (front ++ back) rest
      (found ++ more) := by
  refine .round hround.next (fun h => hne ?_) hmore.last
  exact eq_nil_of_length_add h

/-- What rounds take is nothing, or what one round takes and then what rounds
take. -/
theorem exists_round (h : Takes g (.rounds child wanted room) offset bytes rest forest) :
    (bytes = [] ∧ forest = [] ∧ wanted = 0) ∨
      ∃ front back found more, bytes = front ++ back ∧ forest = found ++ more ∧
        Takes g (.rule child) offset front (back ++ rest) found ∧
        (back = [] ∧ more = [] ∨ ∃ wanted room',
          room = room' + 1 ∧ Takes g (.rounds child wanted room') (offset + front.length)
            back rest more) := by
  rw [Takes] at h
  generalize hm : Meaning.arrives _ forest = m at h
  cases h with
  | full | last _ =>
    cases wanted with
    | zero =>
      injection hm with hstop hforest
      injection hstop with hoffset _
      exact .inl ⟨eq_nil_of_length_add hoffset, hforest, rfl⟩
    | succ _ => cases hm
  | idle h heq =>
    injection hm with hstop hforest
    injection hstop with hoffset _
    obtain rfl := eq_nil_of_length_add hoffset
    subst hforest
    obtain ⟨front, rest', hinput, rfl, hround⟩ := h.exists_takes
    obtain rfl := eq_nil_of_length_add heq
    refine .inr ⟨[], [], forest, [], rfl, (List.append_nil forest).symm, ?_,
      .inl ⟨rfl, rfl⟩⟩
    rw [List.nil_append] at hinput ⊢
    rwa [hinput]
  | @round _ _ room' _ _ _ _ h _ hmore =>
    obtain ⟨more, rfl, rfl⟩ := Meaning.after_eq_arrives hm.symm
    obtain ⟨front, back, rfl, -, hround, hmore⟩ := exists_takes_of_two h hmore
    exact .inr ⟨front, back, _, more, rfl, rfl, hround, .inr ⟨_, room', rfl, hmore⟩⟩
  | broken _ _ => cases hm

theorem eq_nil_of_takes_full
    (h : Takes g (.rounds child wanted 0) offset bytes rest forest) :
    bytes = [] ∧ forest = [] := by
  rw [Takes] at h
  generalize hm : Meaning.arrives _ forest = m at h
  cases h with
  | full =>
    cases wanted with
    | zero =>
      injection hm with hstop hforest
      injection hstop with hoffset _
      exact ⟨eq_nil_of_length_add hoffset, hforest⟩
    | succ _ => cases hm

theorem takes_optional_cases
    (h : Takes g (.rule ⟨name, .iteration child .optional⟩) offset bytes rest forest) :
    bytes = [] ∧ forest = [] ∨ Takes g (.rule child) offset bytes rest forest := by
  rcases exists_round (takes_iteration_iff.mp h) with
    ⟨hbytes, hforest, -⟩ | ⟨front, back, found, more, rfl, rfl, hround, hmore⟩
  · exact .inl ⟨hbytes, hforest⟩
  · have hend : back = [] ∧ more = [] := by
      rcases hmore with hmore | ⟨_, room, hroom, hmore⟩
      · exact hmore
      · obtain rfl : room = 0 := (Nat.succ.inj hroom).symm
        exact eq_nil_of_takes_full hmore
    obtain ⟨rfl, rfl⟩ := hend
    rw [List.append_nil, List.append_nil]
    exact .inr hround

theorem takes_optional_some (hne : bytes ≠ [])
    (h : Takes g (.rule child) offset bytes rest forest) :
    Takes g (.rule ⟨name, .iteration child .optional⟩) offset bytes rest forest := by
  have hround : Takes g (.rounds child 0 1) offset (bytes ++ []) rest (forest ++ []) :=
    takes_round hne h takes_full
  rw [List.append_nil, List.append_nil] at hround
  exact takes_iteration_iff.mpr hround

theorem takes_optional_none (h : Refuses g (.rule child) offset rest) :
    Takes g (.rule ⟨name, .iteration child .optional⟩) offset [] rest [] :=
  takes_iteration_iff.mpr (takes_last h)

/-! Items with separators between them are an item, and then rounds of a separator
and an item. -/

section Joined

variable {item round : Rule}

theorem takes_lone (hitem : item.shape ≠ .decision)
    (h : Takes g (.rule item) offset bytes rest forest)
    (hround : Refuses g (.rule round) (offset + bytes.length) rest) :
    Takes g (.elements false [item, ⟨name, .iteration round ⟨0, room⟩⟩]) offset bytes rest
      forest := by
  have hnone : Takes g (.elements false [⟨name, .iteration round ⟨0, room⟩⟩])
      (offset + bytes.length) [] rest [] :=
    Takes.alone (takes_iteration_iff.mpr (takes_no_round hround)) (by simp)
  have htakes :
      Takes g (.elements false [item, ⟨name, .iteration round ⟨0, room⟩⟩]) offset
        (bytes ++ []) rest (forest ++ []) := Takes.element h hitem hnone
  rwa [List.append_nil, List.append_nil] at htakes

theorem takes_joined (hitem : item.shape ≠ .decision) {first separator : Bytes}
    {found : List (Stretch String)} (hne : separator ≠ [])
    (hfirst : Takes g (.rule item) offset first ((separator ++ bytes) ++ rest) found)
    (hround : ∀ offset front back found, bytes = front ++ back →
      Takes g (.rule item) (offset + separator.length) front (back ++ rest) found →
      Takes g (.rule round) offset (separator ++ front) (back ++ rest) found)
    (h : Takes g (.elements false [item, ⟨name, .iteration round ⟨0, room⟩⟩])
      (offset + first.length + separator.length) bytes rest forest) :
    Takes g (.elements false [item, ⟨name, .iteration round ⟨0, room + 1⟩⟩]) offset
      (first ++ (separator ++ bytes)) rest (found ++ forest) := by
  obtain ⟨front, back, found', more, rfl, rfl, hitem', hlater⟩ :=
    (takes_element_iff hitem).mp h
  rw [takes_lastElement_iff (by simp), takes_iteration_iff, Nat.add_assoc,
    ← List.length_append] at hlater
  have hrounds : Takes g (.rounds round 0 (room + 1)) (offset + first.length)
      (separator ++ (front ++ back)) rest (found' ++ more) := by
    rw [← List.append_assoc]
    exact takes_round (List.append_ne_nil_of_left_ne_nil hne front)
      (hround _ _ _ _ rfl hitem') hlater
  exact hfirst.element hitem (Takes.alone (takes_iteration_iff.mpr hrounds) (by simp))

end Joined

/-- To prove something of what rounds take, prove it of nothing and of a round
in front of what has it. -/
theorem Takes.rounds_induction {motive : Nat → Bytes → List (Stretch String) → Prop}
    (done : ∀ offset, motive offset [] [])
    (round : ∀ offset front back found more,
      Takes g (.rule child) offset front (back ++ rest) found →
      motive (offset + front.length) back more →
      motive offset (front ++ back) (found ++ more))
    (h : Takes g (.rounds child wanted room) offset bytes rest forest) :
    motive offset bytes forest := by
  induction room generalizing wanted offset bytes forest with
  | zero =>
    rcases exists_round h
      with ⟨rfl, rfl, -⟩ | ⟨front, back, found, more, rfl, rfl, hround, hmore⟩
    · exact done offset
    · rcases hmore with ⟨rfl, rfl⟩ | ⟨_, _, h, _⟩
      · exact round offset front [] found [] hround (done _)
      · cases h
  | succ room ih =>
    rcases exists_round h
      with ⟨rfl, rfl, -⟩ | ⟨front, back, found, more, rfl, rfl, hround, hmore⟩
    · exact done offset
    · rcases hmore with ⟨rfl, rfl⟩ | ⟨_, _, h, hmore⟩
      · exact round offset front [] found [] hround (done _)
      · cases h
        exact round offset front back found more hround (ih hmore)

/-! ## Refusing -/

theorem refuses_of_none {task : Task} {input : Bytes} {width : Option Nat}
    (h : Means g task ⟨offset, input⟩ (.taking ⟨offset, input⟩ width))
    (hwidth : width = none) : Refuses g task offset input := by
  subst hwidth
  exact h

variable {input : Bytes}

theorem refuses_literal {literal : Bytes} (h : ¬literal <+: input) :
    Refuses g (.rule ⟨name, .literal literal⟩) offset input :=
  refuses_of_none .literal
    (if_neg fun hprefix => h (List.isPrefixOf_iff_prefix.mp hprefix))

theorem refuses_terminal {set : CharSet} (h : terminalWidth set input = none) :
    Refuses g (.rule ⟨name, .terminal set⟩) offset input :=
  refuses_of_none .terminal h

theorem refuses_capture (h : Refuses g (.rule child) offset input) :
    Refuses g (.rule ⟨name, .capture child⟩) offset input :=
  .capture h

theorem refuses_reference {target : String} (hr : g.resolve? target = some r)
    (h : Refuses g (.rule r) offset input) :
    Refuses g (.rule ⟨name, .reference target⟩) offset input :=
  .reference hr h

theorem refuses_first {cut : Option Nat} (hr : r.shape ≠ .decision)
    (h : Refuses g (.rule r) offset input) :
    Refuses g (.rule ⟨name, .sequence (r :: rules) cut⟩) offset input :=
  .sequence (.stuck hr h)

theorem refuses_iteration {least most : Nat} (h : Refuses g (.rule child) offset input) :
    Refuses g (.rule ⟨name, .iteration child ⟨least + 1, most + 1⟩⟩) offset input :=
  .iteration (.last h)

/-- What comes later in a sequence refuses. -/
theorem refuses_later (hr : r.shape ≠ .decision)
    (hfirst : Takes g (.rule r) offset bytes rest forest)
    (h : Refuses g (.elements false rules) (offset + bytes.length) rest) :
    Refuses g (.elements false (r :: rules)) offset (bytes ++ rest) :=
  .element hr hfirst h

/-! ## Completions up to a byte -/

theorem refuses_byte {q b : UInt8} (h : b ≠ q) {input : Bytes} :
    Means g (.rule ⟨name, .literal [q]⟩) ⟨offset, b :: input⟩ (.misses .soft) := by
  have hmeans : Means g (.rule ⟨name, .literal [q]⟩) ⟨offset, b :: input⟩
      (.taking ⟨offset, b :: input⟩ (literalWidth [q] (b :: input))) := .literal
  rwa [literalWidth, if_neg (by simpa using fun heq => h heq.symm)] at hmeans

theorem takes_search_byte {q : UInt8} {back : Bytes} :
    ∀ {front : Bytes} {offset : Nat}, q ∉ front →
    Takes g (.search ⟨name, .literal [q]⟩) offset front (q :: back) [] := by
  intro front
  induction front with
  | nil =>
    intro offset _
    have htakes : Takes g (.rule ⟨name, .literal [q]⟩) offset [q] back [] := takes_literal
    exact .found htakes
  | cons b front ih =>
    intro offset h
    rw [List.mem_cons, not_or] at h
    have hrest : Takes g (.search ⟨name, .literal [q]⟩) (offset + 1) front (q :: back)
        [] := ih h.2
    rw [Takes, Nat.add_assoc, Nat.add_comm 1, ← List.length_cons (a := b)] at hrest
    exact .further (refuses_byte fun heq => h.1 heq.symm) rfl hrest

theorem misses_search_byte {q : UInt8} : ∀ {input : Bytes} {offset : Nat}, q ∉ input →
    Means g (.search ⟨name, .literal [q]⟩) ⟨offset, input⟩ (.misses .soft) := by
  intro input
  induction input with
  | nil => exact fun _ => .nowhere (refuses_literal nofun) rfl
  | cons b input ih =>
    intro offset h
    rw [List.mem_cons, not_or] at h
    exact .further (refuses_byte fun heq => h.1 heq.symm) rfl (ih h.2)

/-- A completion up to a byte takes what does not have the byte in it, and the
byte comes next. -/
theorem takes_completion_iff {name' : String} {q : UInt8} :
    Takes g (.rule ⟨name, .completion (some ⟨name', .literal [q]⟩)⟩) offset bytes
      rest forest ↔ q ∉ bytes ∧ rest.head? = some q ∧ forest = [] := by
  constructor
  · intro h
    cases h with
    | completion h =>
      by_cases hq : q ∈ bytes ++ rest
      · obtain ⟨front, back, heq, hfront⟩ := List.eq_append_cons_of_mem hq
        rw [heq] at h
        have hunique := h.unique (takes_search_byte hfront)
        injection hunique with hstop hforest
        injection hstop with hoffset hrest
        subst hrest
        obtain rfl := List.append_cancel_right heq
        exact ⟨hfront, rfl, hforest⟩
      · cases h.unique (misses_search_byte hq)
  · rintro ⟨hbytes, hrest, rfl⟩
    cases rest with
    | nil => cases hrest
    | cons b rest =>
      cases hrest
      exact .completion (takes_search_byte hbytes)

/-! ## Plain bytes

Most of what a grammar speaks of are characters of one byte. -/

/-- All members are below `80`, so each is one byte. -/
def Plain (set : CharSet) : Prop :=
  ∀ r ∈ set.ranges, r.high < 0x80

instance (set : CharSet) : Decidable (Plain set) :=
  inferInstanceAs (Decidable (∀ r ∈ set.ranges, _))

theorem Plain.lt {set : CharSet} (h : Plain set) {code : Nat}
    (hcode : set.contains code = true) : code < 0x80 := by
  obtain ⟨r, hr, hholds⟩ := List.any_eq_true.mp hcode
  have := h r hr
  simp only [Range.holds, Bool.and_eq_true, decide_eq_true_eq] at hholds
  omega

/-- An attempt to take that many bytes, as it is made when a rule has been entered. -/
def takeInside (width : Option Nat) (here : Cursor) (t : Track) : Outcome :=
  ((take width here t.enter).1, (take width here t.enter).2.leave)

theorem attempt_symbol (g : Grammar) (room : Nat) (c : Char) (here : Cursor) (t : Track) :
    attempt g (room + 1) (Rule.symbol c) here t =
      takeInside (literalWidth (String.utf8EncodeChar c) here.rest) here t :=
  rfl

theorem attempt_terminal (g : Grammar) (room : Nat) (set : CharSet) (here : Cursor)
    (t : Track) :
    attempt g (room + 1) (Rule.terminal set) here t =
      takeInside (terminalWidth set here.rest) here t :=
  rfl

/-- A character is taken whole if it belongs to the set, whatever comes behind it. -/
theorem terminalWidth_encode (set : CharSet) (c : Char) (rest : Bytes) :
    terminalWidth set (String.utf8EncodeChar c ++ rest) =
      if set.contains c.toNat then some (String.utf8EncodeChar c).length else none := by
  rw [terminalWidth, Utf8.unit?_encode]
  have := List.length_pos_iff.mpr (String.utf8EncodeChar_ne_nil (c := c))
  dsimp only
  rw [Nat.sub_add_cancel this]

/-- A glyph is taken whole if it belongs to the set. -/
theorem terminalWidth_glyph (set : CharSet) (glyph : Utf8.Glyph) {rest : Bytes}
    (hrest : ∀ b ∈ rest.head?, b.toNat < 0x80) :
    terminalWidth set (glyph.bytes ++ rest) =
      if set.contains glyph.code then some glyph.bytes.length else none := by
  rw [terminalWidth, Utf8.unit?_glyph glyph hrest]
  have := List.length_pos_iff.mpr glyph.bytes_ne_nil
  dsimp only
  rw [Nat.sub_add_cancel this]

theorem exists_glyph_of_terminalWidth {set : CharSet} {input : Bytes} {width : Nat}
    (h : terminalWidth set input = some width) :
    ∃ (glyph : Utf8.Glyph) (rest : Bytes), set.contains glyph.code = true ∧
      input = glyph.bytes ++ rest ∧ width = glyph.bytes.length := by
  rw [terminalWidth] at h
  split at h
  · cases h
  · rename_i code tail hunit
    split at h
    · rename_i hcode
      obtain ⟨glyph, rest, rfl, rfl, hwidth⟩ := Utf8.exists_glyph_of_unit? hunit
      exact ⟨glyph, rest, hcode, rfl, (Option.some.inj h).symm.trans hwidth⟩
    · cases h

theorem Plain.exists_byte {set : CharSet} (hset : Plain set) {input : Bytes} {width : Nat}
    (h : terminalWidth set input = some width) :
    ∃ b rest, input = b :: rest ∧ set.contains b.toNat = true ∧ width = 1 := by
  obtain ⟨glyph, rest, hcode, rfl, rfl⟩ := exists_glyph_of_terminalWidth h
  have hlt := hset.lt hcode
  rcases glyph.bytes_plain_or_high with ⟨-, hbytes⟩ | ⟨hge, -⟩
  · refine ⟨UInt8.ofNat glyph.code, rest, by rw [hbytes]; rfl, ?_, by rw [hbytes]; rfl⟩
    rw [Utf8.toNat_ofNat (by omega)]
    exact hcode
  · omega

theorem Plain.terminalWidth_cons {set : CharSet} (hset : Plain set) {b : UInt8}
    {rest : Bytes} (hb : set.contains b.toNat = true) :
    terminalWidth set (b :: rest) = some 1 := by
  have hlt := hset.lt hb
  rw [terminalWidth, Utf8.unit?, Utf8.scalar?, Utf8.lead_one (by omega)]
  exact if_pos hb

theorem Plain.terminalWidth_eq_none {set : CharSet} (hset : Plain set) {input : Bytes}
    (h : ∀ b ∈ input.head?, set.contains b.toNat = false) :
    terminalWidth set input = none := by
  cases hwidth : terminalWidth set input with
  | none => rfl
  | some width =>
    obtain ⟨b, rest, rfl, hb, -⟩ := hset.exists_byte hwidth
    rw [h b rfl] at hb
    cases hb

theorem takes_plain_iff {set : CharSet} (hset : Plain set) :
    Takes g (.rule ⟨name, .terminal set⟩) offset bytes rest forest ↔
      (∃ b, bytes = [b] ∧ set.contains b.toNat = true) ∧ forest = [] := by
  rw [takes_terminal_iff]
  refine and_congr_left' ?_
  constructor
  · intro h
    obtain ⟨b, tail, heq, hb, hlength⟩ := hset.exists_byte h
    obtain ⟨b', rfl⟩ := List.length_eq_one_iff.mp hlength
    rw [List.singleton_append, List.cons.injEq] at heq
    exact ⟨b', rfl, heq.1 ▸ hb⟩
  · rintro ⟨b, rfl, hb⟩
    exact hset.terminalWidth_cons hb

/-- Rounds of a plain terminal take a run of members. -/
theorem takes_plain_rounds {set : CharSet} (hset : Plain set)
    (hrest : ∀ b ∈ rest.head?, set.contains b.toNat = false) :
    ∀ {bytes : Bytes} {wanted room offset : Nat},
      (∀ b ∈ bytes, set.contains b.toNat = true) → wanted ≤ bytes.length →
      bytes.length ≤ room →
      Takes g (.rounds ⟨name, .terminal set⟩ wanted room) offset bytes rest [] := by
  intro bytes
  induction bytes with
  | nil =>
    intro wanted room offset _ hwanted _
    obtain rfl : wanted = 0 := Nat.le_zero.mp hwanted
    cases room with
    | zero => exact takes_full
    | succ room => exact takes_last (refuses_terminal (hset.terminalWidth_eq_none hrest))
  | cons b bytes ih =>
    intro wanted room offset hbytes hwanted hroom
    rw [List.length_cons] at hwanted hroom
    obtain ⟨room, rfl⟩ : ∃ room', room = room' + 1 := ⟨room - 1, by omega⟩
    obtain ⟨hb, hbytes⟩ := List.forall_mem_cons.mp hbytes
    have hround : Takes g (.rule ⟨name, .terminal set⟩) offset [b] (bytes ++ rest) [] :=
      (takes_plain_iff hset).mpr ⟨⟨b, rfl, hb⟩, rfl⟩
    exact takes_round (by simp) hround (ih hbytes (by omega) (by omega))

theorem run_of_takes_plain_rounds {set : CharSet} (hset : Plain set)
    (h : Takes g (.rounds ⟨name, .terminal set⟩ wanted room) offset bytes rest forest) :
    (∀ b ∈ bytes, set.contains b.toNat = true) ∧ forest = [] := by
  refine h.rounds_induction (motive := fun _ bytes forest =>
    (∀ b ∈ bytes, set.contains b.toNat = true) ∧ forest = []) ?_ ?_
  · exact fun _ => ⟨List.forall_mem_nil _, rfl⟩
  · rintro offset front back found more hround ⟨hback, rfl⟩
    obtain ⟨⟨b, rfl, hb⟩, rfl⟩ := (takes_plain_iff hset).mp hround
    exact ⟨List.forall_mem_cons.mpr ⟨hb, hback⟩, rfl⟩

theorem ne_nil_of_takes_plain_rounds {set : CharSet} (hset : Plain set)
    (hwanted : wanted ≠ 0)
    (h : Takes g (.rounds ⟨name, .terminal set⟩ wanted room) offset bytes rest forest) :
    bytes ≠ [] := by
  rcases exists_round h with ⟨-, -, hzero⟩ | ⟨front, back, found, more, rfl, -, hround, -⟩
  · exact absurd hzero hwanted
  · obtain ⟨⟨b, rfl, -⟩, -⟩ := (takes_plain_iff hset).mp hround
    simp

/-! ## By the first byte -/

/-- Nothing that is in the ranges comes first in the input. -/
def Avoids (ranges : List Range) (input : Bytes) : Prop :=
  ∀ b ∈ input.head?, ∀ r ∈ ranges, r.holds b.toNat = false

/-- What comes first in the input is in the ranges, if anything does. -/
def Next (ranges : List Range) (input : Bytes) : Prop :=
  ∀ b ∈ input.head?, ranges.any (·.holds b.toNat) = true

section Next

variable {ranges others : List Range} {set : CharSet} {b : UInt8}

theorem next_nil : Next ranges [] := nofun

theorem next_cons : Next ranges (b :: input) ↔ ranges.any (·.holds b.toNat) = true := by
  simp [Next]

theorem next_append (hne : bytes ≠ []) :
    Next ranges (bytes ++ input) ↔ Next ranges bytes := by
  cases bytes with
  | nil => exact absurd rfl hne
  | cons b bytes => rw [List.cons_append, next_cons, next_cons]

theorem avoids_nil : Avoids ranges [] := nofun

theorem avoids_cons :
    Avoids ranges (b :: input) ↔ ranges.any (·.holds b.toNat) = false := by
  simp [Avoids]

/-- Every range lies in one of the others. -/
def covered (ranges others : List Range) : Bool :=
  ranges.all fun r => others.any fun s => s.low ≤ r.low && r.high ≤ s.high

/-- No range meets one of the others. -/
def disjoint (ranges others : List Range) : Bool :=
  ranges.all fun r => others.all fun s => r.high < s.low || s.high < r.low

theorem any_of_covered (h : covered ranges others = true) {n : Nat}
    (hn : ranges.any (·.holds n) = true) : others.any (·.holds n) = true := by
  obtain ⟨r, hr, hholds⟩ := List.any_eq_true.mp hn
  obtain ⟨s, hs, hle⟩ := List.any_eq_true.mp (List.all_eq_true.mp h r hr)
  simp only [Range.holds, Bool.and_eq_true, decide_eq_true_eq] at hholds hle
  refine List.any_eq_true.mpr ⟨s, hs, ?_⟩
  simp only [Range.holds, Bool.and_eq_true, decide_eq_true_eq]
  omega

theorem Next.mono (h : Next ranges input) (hcovered : covered ranges others = true) :
    Next others input :=
  fun b hb => any_of_covered hcovered (h b hb)

theorem Next.avoids (h : Next ranges input) (hdisjoint : disjoint ranges others = true) :
    Avoids others input := by
  intro b hb s hs
  obtain ⟨r, hr, hholds⟩ := List.any_eq_true.mp (h b hb)
  have hapart := List.all_eq_true.mp (List.all_eq_true.mp hdisjoint r hr) s hs
  simp only [Range.holds, Bool.and_eq_true, Bool.or_eq_true, decide_eq_true_eq]
    at hholds hapart
  refine Bool.eq_false_iff.mpr fun hb => ?_
  simp only [Range.holds, Bool.and_eq_true, decide_eq_true_eq] at hb
  omega

theorem Avoids.mono (h : Avoids ranges input) (hcovered : covered others ranges = true) :
    Avoids others input := by
  intro b hb s hs
  refine Bool.eq_false_iff.mpr fun hholds => ?_
  obtain ⟨r, hr, hholds'⟩ := List.any_eq_true.mp
    (any_of_covered hcovered (List.any_eq_true.mpr ⟨s, hs, hholds⟩))
  rw [h b hb r hr] at hholds'
  cases hholds'

theorem Avoids.contains (h : Avoids set.ranges input) :
    ∀ b ∈ input.head?, set.contains b.toNat = false :=
  fun b hb => List.any_eq_false.mpr fun r hr => by simp [h b hb r hr]

/-- A literal that begins with what is avoided does not come next. -/
theorem Avoids.not_prefix (h : Avoids ranges input)
    (hb : ranges.any (·.holds b.toNat) = true) (literal : Bytes) :
    ¬b :: literal <+: input := by
  rintro ⟨tail, rfl⟩
  obtain ⟨r, hr, hholds⟩ := List.any_eq_true.mp hb
  rw [h b rfl r hr] at hholds
  cases hholds

end Next

theorem avoids_append {first second : List Range} :
    Avoids (first ++ second) input ↔ Avoids first input ∧ Avoids second input := by
  simp only [Avoids, List.mem_append, or_imp, forall_and]

/-- What a sequence may begin with: an element, or what comes after it if the
element may be left out. -/
def openingsInOrder (openings : Rule → Option (List Range)) :
    List Rule → Option (List Range)
  | [] => none
  | ⟨name, shape⟩ :: rest =>
    match shape with
    | .iteration child ⟨0, _⟩ => do
      let first ← openings child
      let later ← openingsInOrder openings rest
      return first ++ later
    | .decision => none
    | shape => openings ⟨name, shape⟩

def openingsOfAll (openings : Rule → Option (List Range)) :
    List Rule → Option (List Range)
  | [] => some []
  | r :: rest => do
    let first ← openings r
    let later ← openingsOfAll openings rest
    return first ++ later

/-- The bytes that a rule may begin with, if it has to take something. The rules
set aside are known to refuse. -/
def openings (g : Grammar) (aside : List String) : Nat → Rule → Option (List Range)
  | 0, _ => none
  | steps + 1, ⟨_, shape⟩ =>
    match shape with
    | .literal (b :: _) => some [⟨b.toNat, b.toNat⟩]
    | .terminal set => if Plain set then some set.ranges else none
    | .iteration child ⟨_ + 1, _ + 1⟩ => openings g aside steps child
    | .sequence elements _ => openingsInOrder (openings g aside steps) elements
    | .selection alternatives => openingsOfAll (openings g aside steps) alternatives
    | .capture child => openings g aside steps child
    | .reference target =>
      if target ∈ aside then some []
      else (g.resolve? target).bind (openings g aside steps)
    | _ => none

variable {enter : Rule → Option (List Range)} {ranges : List Range}

theorem refuses_inOrder
    (henter : ∀ r ranges, enter r = some ranges → Avoids ranges input →
      Refuses g (.rule r) offset input) :
    ∀ {rules : List Rule} {ranges : List Range},
      openingsInOrder enter rules = some ranges →
      Avoids ranges input → Refuses g (.elements false rules) offset input := by
  intro rules
  induction rules with
  | nil => nofun
  | cons r rules ih =>
    intro ranges h havoids
    obtain ⟨name, shape⟩ := r
    unfold openingsInOrder at h
    split at h
    · rename_i child most
      obtain ⟨first, hfirst, h⟩ := Option.bind_eq_some_iff.mp h
      obtain ⟨later, hlater, h⟩ := Option.bind_eq_some_iff.mp h
      cases h
      obtain ⟨hchild, hrest⟩ := avoids_append.mp havoids
      have hskip : Takes g (.rule ⟨name, .iteration child ⟨0, most⟩⟩) offset
          [] input [] :=
        takes_iteration_iff.mpr (takes_no_round (henter child first hfirst hchild))
      exact refuses_later (by simp) hskip (ih hlater hrest)
    · cases h
    · rename_i hdecision
      exact .stuck hdecision (henter _ ranges h havoids)

theorem refuses_ofAll
    (henter : ∀ r ranges, enter r = some ranges → Avoids ranges input →
      Refuses g (.rule r) offset input) :
    ∀ {rules : List Rule} {ranges : List Range}, openingsOfAll enter rules = some ranges →
      Avoids ranges input → Refuses g (.alternatives rules) offset input := by
  intro rules
  induction rules with
  | nil => exact fun _ _ => .none
  | cons r rules ih =>
    intro ranges h havoids
    obtain ⟨first, hfirst, h⟩ := Option.bind_eq_some_iff.mp h
    obtain ⟨later, hlater, h⟩ := Option.bind_eq_some_iff.mp h
    cases h
    obtain ⟨hr, hrest⟩ := avoids_append.mp havoids
    exact .other (henter r first hfirst hr) (ih hlater hrest)

/-- A rule refuses an input that begins with none of its openings. -/
theorem refuses_of_avoids {aside : List String}
    (haside : ∀ target ∈ aside, ∀ name,
      Refuses g (.rule ⟨name, .reference target⟩) offset input)
    (steps : Nat) :
    ∀ r ranges, openings g aside steps r = some ranges → Avoids ranges input →
      Refuses g (.rule r) offset input := by
  induction steps with
  | zero => nofun
  | succ steps ih =>
    intro r ranges h havoids
    obtain ⟨name, shape⟩ := r
    unfold openings at h
    split at h
    · rename_i b literal
      cases h
      refine refuses_literal fun hprefix => ?_
      obtain ⟨tail, rfl⟩ := hprefix
      simpa [Range.holds] using havoids b rfl ⟨b.toNat, b.toNat⟩ List.mem_cons_self
    · rename_i set
      split at h
      · rename_i hset
        cases h
        exact refuses_terminal (hset.terminalWidth_eq_none havoids.contains)
      · cases h
    · exact refuses_iteration (ih _ _ h havoids)
    · exact .sequence (refuses_inOrder ih h havoids)
    · exact .selection (refuses_ofAll ih h havoids)
    · exact .capture (ih _ _ h havoids)
    · split at h
      · rename_i target hmem
        exact haside target hmem name
      · obtain ⟨r, hr, h⟩ := Option.bind_eq_some_iff.mp h
        exact refuses_reference hr (ih r ranges h havoids)
    · cases h

end RuleGraph.Matching
