import RuleGraph.Proofs.Matching.Meaning

/-!
# The matcher computes the meaning

The matcher records while it reads: an overlay that it appends to and rewinds,
the furthest offset of a miss, a count of entered rules. None of that has a part
in what a rule means. `Tells` is the invariant that connects the two. An attempt
that arrives has added exactly the tokens that list the forest of the meaning,
at the depth of the pending tokens, and an attempt that misses has left the
overlay as it was at the mark it goes back to. The mark is a parameter, `base`,
because a loop in its middle goes back further than to where it stands.

There is one lemma per loop, over any attempt that tells what its rule means,
one for the step that puts the loops together, and then `attempt_tells` by
induction on the rules that may still be entered. Running out of them is the one
miss that has no meaning, so whatever else a match reports is what the start
rule means, and by `Means.unique` it is all it means.
-/

namespace RuleGraph

/-- What a miss means, if it is not the limit that was hit. -/
def Miss.reason? : Miss → Option Matching.Reason
  | soft => some .soft
  | committed _ => some .committed
  | tooDeep => none
  | missing name => some (.missing name)

theorem Miss.reason?_leaving (passed : Bool) (furthest : Nat) (miss : Miss) :
    (miss.leaving passed furthest).reason? = miss.reason?.map (·.leaving passed) := by
  cases miss <;> cases passed <;> rfl

theorem Miss.reason?_of_isLocal {miss : Miss} (h : miss.isLocal = true) :
    ∃ reason, miss.reason? = some reason ∧ reason.isLocal = true := by
  cases miss with
  | soft => exact ⟨.soft, rfl, rfl⟩
  | committed _ => exact ⟨.committed, rfl, rfl⟩
  | tooDeep | missing _ => cases h

theorem Miss.isLocal_reason_of_not {miss : Miss} {reason : Matching.Reason}
    (h : ¬miss.isLocal = true) (hreason : miss.reason? = some reason) :
    reason.isLocal = false := by
  cases miss with
  | soft | committed _ => exact absurd rfl h
  | tooDeep => cases hreason
  | missing _ => cases hreason; rfl

namespace Matching

open Stretch

/-- The outcome of a task records what the task means: on arrival the tokens of
its forest behind what was there, on a miss nothing, counted from `base`. -/
def Tells (g : Grammar) (task : Task) (here : Cursor) (base : Overlay String)
    (t : Track) :
    Outcome → Prop
  | (.ok next, t') =>
    ∃ forest, Means g task here (.arrives next forest) ∧
      t'.overlay = t.overlay.grow (listing t.overlay.pending.length forest) ∧
      t'.depth = t.depth
  | (.error miss, t') =>
    (∀ reason, miss.reason? = some reason → Means g task here (.misses reason)) ∧
      t'.overlay = base ∧ t'.depth = t.depth

/-- An attempt at every rule that records what the rule means. -/
def Telling (g : Grammar) (enter : Rule → Attempt) : Prop :=
  ∀ r here (t : Track), t.overlay.InRange →
    Tells g (.rule r) here t.overlay t (enter r here t)

variable {g : Grammar} {enter : Rule → Attempt} {task : Task} {here : Cursor}
  {base : Overlay String}

theorem Tells.of_same {t t' : Track} {outcome : Outcome}
    (h : Tells g task here base t' outcome) (hoverlay : t'.overlay = t.overlay)
    (hdepth : t'.depth = t.depth) : Tells g task here base t outcome := by
  obtain ⟨result, last⟩ := outcome
  cases result with
  | ok next =>
    obtain ⟨forest, hmeans, hlast, hdepth'⟩ := h
    exact ⟨forest, hmeans, by rw [hlast, hoverlay], hdepth'.trans hdepth⟩
  | error miss => exact ⟨h.1, h.2.1, h.2.2.trans hdepth⟩

/-- What is told of a task whose meanings are those of another one, perhaps at
another place. -/
theorem Tells.imp {task' : Task} {there : Cursor} {t : Track} {outcome : Outcome}
    (h : Tells g task' there base t outcome)
    (hmeans : ∀ m, Means g task' there m → Means g task here m) :
    Tells g task here base t outcome := by
  obtain ⟨result, last⟩ := outcome
  cases result with
  | ok next =>
    obtain ⟨forest, hforest, hlast, hdepth⟩ := h
    exact ⟨forest, hmeans _ hforest, hlast, hdepth⟩
  | error miss => exact ⟨fun reason hr => hmeans _ (h.1 reason hr), h.2⟩

/-- What is told from a later place on, after some stretches have been found. -/
theorem Tells.after {task' : Task} {next : Cursor} {t t' : Track}
    {found : List (Stretch String)} {outcome : Outcome}
    (h : Tells g task' next base t' outcome)
    (hgrow : t'.overlay = t.overlay.grow (listing t.overlay.pending.length found))
    (hdepth : t'.depth = t.depth)
    (hmeans : ∀ m, Means g task' next m → Means g task here (m.after found)) :
    Tells g task here base t outcome := by
  obtain ⟨result, last⟩ := outcome
  cases result with
  | ok stop =>
    obtain ⟨forest, hforest, hlast, hdepth'⟩ := h
    refine ⟨found ++ forest, hmeans _ hforest, ?_, hdepth'.trans hdepth⟩
    rw [hlast, hgrow, Overlay.pending_grow, Overlay.grow_grow, listing_append]
  | error miss =>
    exact ⟨fun reason hr => hmeans _ (h.1 reason hr), h.2.1, h.2.2.trans hdepth⟩

/-! ## The loops -/

theorem take_tells {width : Option Nat} {t : Track}
    (hmeans : Means g task here (.taking here width)) :
    Tells g task here t.overlay t (take width here t) := by
  cases width with
  | none => exact ⟨fun reason hr => by cases hr; exact hmeans, rfl, rfl⟩
  | some n => exact ⟨[], hmeans, by simp, rfl⟩

/-- The end of a repetition, in the middle of which tokens have been added to
`base`. -/
theorem enough_tells {least count : Nat} {t : Track} {added : List (Token String)}
    (hbase : base.InRange) (ht : t.overlay = base.grow added)
    (hmeans : Means g task here (.ending here (least - count))) :
    Tells g task here base t (enough least base.count count here t) := by
  unfold enough
  split
  · rename_i hlt
    obtain ⟨n, hn⟩ : ∃ n, least - count = n + 1 := ⟨least - count - 1, by omega⟩
    rw [hn] at hmeans
    refine ⟨fun reason hr => by cases hr; exact hmeans, ?_, rfl⟩
    rw [Track.rewind, ht]
    exact Overlay.rewind_grow hbase added
  · rename_i hge
    have hzero : least - count = 0 := by omega
    rw [hzero] at hmeans
    exact ⟨[], hmeans, by simp, rfl⟩

theorem iterate_tells (henter : Telling g enter) (child : Rule) (least : Nat)
    (hbase : base.InRange) :
    ∀ (room count : Nat) (here : Cursor) (t : Track) (added : List (Token String)),
      t.overlay = base.grow added →
      Tells g (.rounds child (least - count) room) here base t
        (iterate (enter child) least base.count room count here t) := by
  intro room
  induction room with
  | zero =>
    intro count here t added ht
    exact enough_tells hbase ht .full
  | succ room ih =>
    intro count here t added ht
    have hround := henter child here t (ht ▸ hbase.grow added)
    rw [iterate]
    generalize enter child here t = outcome at hround ⊢
    obtain ⟨result, t'⟩ := outcome
    cases result with
    | ok next =>
      obtain ⟨forest, hmeans, hgrow, hdepth⟩ := hround
      dsimp only
      split
      · rename_i heq
        exact ⟨forest, .idle hmeans heq, hgrow, hdepth⟩
      · rename_i hne
        have hrest := ih (count + 1) next t'
          (added ++ listing t.overlay.pending.length forest)
          (by rw [hgrow, ht, Overlay.grow_grow])
        exact hrest.after hgrow hdepth fun m hm =>
          .round hmeans hne (by rwa [Nat.sub_sub])
    | error miss =>
      obtain ⟨hmeans, hsame, hdepth⟩ := hround
      have hback : (t'.rewind base.count).overlay = base := by
        rw [Track.rewind, hsame, ht]
        exact Overlay.rewind_grow hbase added
      cases miss with
      | soft =>
        exact (enough_tells hbase (hsame.trans ht) (.last (hmeans _ rfl))).of_same
          hsame hdepth
      | committed position | missing name =>
        exact ⟨fun reason hr => by cases hr; exact .broken (hmeans _ rfl) (by simp),
          hback, hdepth⟩
      | tooDeep => exact ⟨nofun, hback, hdepth⟩

theorem inOrder_tells (henter : Telling g enter) (hbase : base.InRange) :
    ∀ (rules : List Rule) (passed : Bool) (here : Cursor) (t : Track)
      (added : List (Token String)), t.overlay = base.grow added →
      Tells g (.elements passed rules) here base t
        (inOrder enter base.count passed rules here t) := by
  intro rules
  induction rules with
  | nil =>
    intro passed here t added ht
    exact ⟨[], .done, by simp, rfl⟩
  | cons r rest ih =>
    intro passed here t added ht
    rw [inOrder]
    split
    · rename_i hr
      exact (ih true here t added ht).imp fun m hm => .pass hr hm
    · rename_i hr
      have hfirst := henter r here t (ht ▸ hbase.grow added)
      generalize enter r here t = outcome at hfirst ⊢
      obtain ⟨result, t'⟩ := outcome
      cases result with
      | ok next =>
        obtain ⟨forest, hmeans, hgrow, hdepth⟩ := hfirst
        have hrest := ih passed next t' (added ++ listing t.overlay.pending.length forest)
          (by rw [hgrow, ht, Overlay.grow_grow])
        exact hrest.after hgrow hdepth fun m hm => .element hr hmeans hm
      | error miss =>
        obtain ⟨hmeans, hsame, hdepth⟩ := hfirst
        refine ⟨?_, ?_, hdepth⟩
        · intro reason hreason
          rw [Miss.reason?_leaving, Option.map_eq_some_iff] at hreason
          obtain ⟨inner, hinner, rfl⟩ := hreason
          exact .stuck hr (hmeans inner hinner)
        · rw [Track.rewind, hsame, ht]
          exact Overlay.rewind_grow hbase added

theorem firstOf_tells (henter : Telling g enter) :
    ∀ (rules : List Rule) (here : Cursor) (t : Track), t.overlay.InRange →
      Tells g (.alternatives rules) here t.overlay t (firstOf enter rules here t) := by
  intro rules
  induction rules with
  | nil =>
    intro here t _
    exact ⟨fun reason hr => by cases hr; exact .none, rfl, rfl⟩
  | cons r rest ih =>
    intro here t ht
    have hfirst := henter r here t ht
    rw [firstOf]
    generalize enter r here t = outcome at hfirst ⊢
    obtain ⟨result, t'⟩ := outcome
    cases result with
    | ok next =>
      obtain ⟨forest, hmeans, hgrow, hdepth⟩ := hfirst
      exact ⟨forest, .chosen hmeans (by simp), hgrow, hdepth⟩
    | error miss =>
      obtain ⟨hmeans, hsame, hdepth⟩ := hfirst
      cases miss with
      | soft =>
        have hrest := ih here t' (hsame ▸ ht)
        rw [hsame] at hrest
        exact (hrest.of_same hsame hdepth).imp fun m hm => .other (hmeans _ rfl) hm
      | committed position | missing name =>
        exact ⟨fun reason hr => by cases hr; exact .chosen (hmeans _ rfl) (by simp),
          hsame, hdepth⟩
      | tooDeep => exact ⟨nofun, hsame, hdepth⟩

theorem seek_tells (henter : Telling g enter) (stop : Rule) (origin : Cursor)
    (hbase : base.InRange) (offset : Nat) (rest : Bytes) (t : Track)
    (ht : t.overlay = base) :
    Tells g (.search stop) ⟨offset, rest⟩ base t
      (seek (enter stop) base.count origin offset rest t) := by
  have hstop (offset rest) (t : Track) (ht : t.overlay = base) :=
    henter stop ⟨offset, rest⟩ t (ht ▸ hbase)
  fun_induction seek (enter stop) base.count origin offset rest t with
  | case1 rest offset t next t' hout =>
    have h := hstop offset rest t ht
    rw [hout] at h
    obtain ⟨forest, hmeans, hgrow, hdepth⟩ := h
    refine ⟨[], .found hmeans, ?_, hdepth⟩
    rw [Track.rewind, hgrow, ht, listing_nil, Overlay.grow_nil]
    exact Overlay.rewind_grow hbase _
  | case2 offset t miss t' hlocal hout =>
    have h := hstop offset [] t ht
    rw [hout] at h
    obtain ⟨hmeans, hsame, hdepth⟩ := h
    obtain ⟨reason, hreason, hreasonLocal⟩ := Miss.reason?_of_isLocal hlocal
    refine ⟨fun _ hr => ?_, hsame.trans ht, hdepth⟩
    cases hr
    exact .nowhere (hmeans reason hreason) hreasonLocal
  | case3 offset t miss t' hlocal b rest hout ih =>
    have h := hstop offset (b :: rest) t ht
    rw [hout] at h
    obtain ⟨hmeans, hsame, hdepth⟩ := h
    obtain ⟨reason, hreason, hreasonLocal⟩ := Miss.reason?_of_isLocal hlocal
    exact ((ih (hsame.trans ht)).of_same hsame hdepth).imp fun m hm =>
      .further (hmeans reason hreason) hreasonLocal hm
  | case4 rest offset t miss t' hout hstray =>
    have h := hstop offset rest t ht
    rw [hout] at h
    obtain ⟨hmeans, hsame, hdepth⟩ := h
    refine ⟨fun reason hr => ?_, hsame.trans ht, hdepth⟩
    exact .astray (hmeans reason hr) (Miss.isLocal_reason_of_not hstray hr)

theorem step_tells (henter : Telling g enter) : Telling g (step g enter) := by
  intro r here t ht
  obtain ⟨name, shape⟩ := r
  cases shape with
  | literal bytes => exact take_tells .literal
  | terminal set => exact take_tells .terminal
  | spacing contract => exact take_tells .spacing
  | iteration child bound =>
    have h := iterate_tells henter child bound.least ht bound.most 0 here t [] (by simp)
    exact h.imp fun m hm => .iteration hm
  | sequence elements cut =>
    have h := inOrder_tells henter ht elements false here t [] (by simp)
    exact h.imp fun m hm => .sequence hm
  | selection alternatives =>
    have h := firstOf_tells henter alternatives here t ht
    exact h.imp fun m hm => .selection hm
  | completion stop =>
    cases stop with
    | none => exact ⟨[], .toEnd, by simp, rfl⟩
    | some stop =>
      have h := seek_tells henter stop here ht here.offset here.rest t rfl
      exact h.imp fun m hm => .completion hm
  | lookahead child =>
    have h := henter child here t ht
    unfold step
    dsimp only
    generalize enter child here t = outcome at h ⊢
    obtain ⟨result, t'⟩ := outcome
    cases result with
    | ok next =>
      obtain ⟨forest, hmeans, hgrow, hdepth⟩ := h
      refine ⟨[], .lookahead hmeans, ?_, hdepth⟩
      rw [Track.rewind, hgrow, listing_nil, Overlay.grow_nil]
      exact Overlay.rewind_grow ht _
    | error miss =>
      obtain ⟨hmeans, hsame, hdepth⟩ := h
      exact ⟨fun reason hr => .lookahead (hmeans reason hr), hsame, hdepth⟩
  | capture child =>
    have h := henter child here (t.begin name here.offset) (ht.begin name here.offset)
    unfold step
    dsimp only
    generalize enter child here (t.begin name here.offset) = outcome at h ⊢
    obtain ⟨result, t'⟩ := outcome
    cases result with
    | ok next =>
      obtain ⟨forest, hmeans, hgrow, hdepth⟩ := h
      refine ⟨_, .capture hmeans, ?_, hdepth⟩
      rw [Track.finish, hgrow, listing_cons, listing_nil, List.append_nil]
      exact Overlay.finish_grow_begin t.overlay name here.offset next.offset _
    | error miss =>
      obtain ⟨hmeans, hsame, hdepth⟩ := h
      refine ⟨fun reason hr => .capture (hmeans reason hr), ?_, hdepth⟩
      rw [Track.abandon, hsame]
      exact Overlay.abandon_begin t.overlay name here.offset
  | decision => exact ⟨[], .decision, by simp, rfl⟩
  | reference target =>
    unfold step
    dsimp only
    cases htarget : g.resolve? target with
    | none => exact ⟨fun reason hr => by cases hr; exact .missing htarget, rfl, rfl⟩
    | some r =>
      have h := henter r here t ht
      exact h.imp fun m hm => .reference htarget hm

/-- What an attempt records is what its rule means, however many rules may be
entered. -/
theorem attempt_tells (g : Grammar) (room : Nat) : Telling g (attempt g room) := by
  induction room with
  | zero =>
    intro r here t _
    exact ⟨nofun, rfl, rfl⟩
  | succ room ih =>
    intro r here t ht
    have h := step_tells ih r here t.enter ht
    rw [attempt]
    generalize step g (attempt g room) r here t.enter = outcome at h ⊢
    obtain ⟨result, t'⟩ := outcome
    cases result with
    | ok next =>
      obtain ⟨forest, hmeans, hgrow, hdepth⟩ := h
      exact ⟨forest, hmeans, hgrow, by simp [Track.leave, hdepth, Track.enter]⟩
    | error miss =>
      obtain ⟨hmeans, hsame, hdepth⟩ := h
      exact ⟨hmeans, hsame, by simp [Track.leave, hdepth, Track.enter]⟩

/-! ## The whole match -/

def Denotes (g : Grammar) (start : String) (input : Bytes) (m : Meaning) : Prop :=
  Means g (.rule (.reference start)) (.atStart input) m

/-- The answer that a meaning calls for. Where nothing matches, the position is
no part of the meaning. -/
def Reports (input : Bytes) : Meaning → Except Failure (Parse String) → Prop
  | .arrives stop forest, answer =>
    answer = .ok ⟨input, ⟨(listing 0 forest).toArray, []⟩, stop.offset⟩
  | .misses (.missing name), answer => answer = .error (.notFound name)
  | .misses _, answer => ∃ position, answer = .error (.noMatch position)

theorem matchWith_reports (g : Grammar) (limit : Nat) (start : String) (input : Bytes)
    (hroom : g.matchWith limit start input ≠ .error (.tooDeep limit)) :
    ∃ m, Denotes g start input m ∧ Reports input m (g.matchWith limit start input) := by
  unfold Grammar.matchWith at hroom ⊢
  cases hstart : g.resolve? start with
  | none => exact ⟨_, .missing hstart, rfl⟩
  | some r =>
    have htells := attempt_tells g limit r (.atStart input) .start nofun
    rw [hstart] at hroom
    dsimp only [within, Track.start, Nat.sub_zero] at hroom htells ⊢
    generalize attempt g limit r (.atStart input) ⟨.empty, 0, 0⟩ =
      outcome at hroom htells ⊢
    obtain ⟨result, t⟩ := outcome
    cases result with
    | ok stop =>
      obtain ⟨forest, hmeans, hgrow, -⟩ := htells
      refine ⟨_, .reference hstart hmeans, ?_⟩
      simp [Reports, hgrow, Overlay.grow, Overlay.empty]
    | error miss =>
      obtain ⟨hmeans, -, -⟩ := htells
      cases miss with
      | soft => exact ⟨_, .reference hstart (hmeans _ rfl), _, rfl⟩
      | committed position => exact ⟨_, .reference hstart (hmeans _ rfl), _, rfl⟩
      | tooDeep => exact absurd rfl hroom
      | missing name => exact ⟨_, .reference hstart (hmeans _ rfl), rfl⟩

/-- Behind every success stands a forest that the start rule means. -/
theorem exists_forest_of_match {g : Grammar} {limit : Nat} {start : String}
    {input : Bytes} {p : Parse String} (h : g.matchWith limit start input = .ok p) :
    ∃ stop forest, Denotes g start input (.arrives stop forest) ∧
      p = ⟨input, ⟨(listing 0 forest).toArray, []⟩, stop.offset⟩ := by
  obtain ⟨m, hmeans, hreports⟩ := matchWith_reports g limit start input (by rw [h]; nofun)
  rw [h] at hreports
  cases m with
  | misses reason => cases reason <;> simp [Reports] at hreports
  | arrives stop forest =>
    cases hreports
    exact ⟨stop, forest, hmeans, rfl⟩

/-- A match that does not hit the limit answers what the start rule means, which
is one thing at most: it succeeds exactly if the meaning arrives somewhere, with
the tokens of its forest, and a name is not found exactly if it is missing in the
meaning. -/
theorem matchWith_iff_denotes (g : Grammar) (limit : Nat) (start : String) (input : Bytes)
    (hroom : g.matchWith limit start input ≠ .error (.tooDeep limit)) :
    (∀ m m', Denotes g start input m → Denotes g start input m' → m = m') ∧
      (∀ p, g.matchWith limit start input = .ok p ↔
        ∃ stop forest, Denotes g start input (.arrives stop forest) ∧
          p = ⟨input, ⟨(listing 0 forest).toArray, []⟩, stop.offset⟩) ∧
      (∀ name, g.matchWith limit start input = .error (.notFound name) ↔
        Denotes g start input (.misses (.missing name))) ∧
      ((∃ position, g.matchWith limit start input = .error (.noMatch position)) ↔
        Denotes g start input (.misses .soft) ∨
        Denotes g start input (.misses .committed)) := by
  obtain ⟨m, hm, hreports⟩ := matchWith_reports g limit start input hroom
  have hdenotes (m' : Meaning) : Denotes g start input m' ↔ m' = m :=
    ⟨fun h => h.unique hm, fun h => h ▸ hm⟩
  simp only [hdenotes]
  refine ⟨fun _ _ h h' => h.trans h'.symm, ?_⟩
  cases m with
  | arrives stop forest =>
    rw [Reports] at hreports
    rw [hreports]
    refine ⟨fun p => ?_, by simp, by simp⟩
    constructor
    · intro h
      exact ⟨stop, forest, rfl, (Except.ok.inj h).symm⟩
    · rintro ⟨_, _, h, rfl⟩
      cases h
      rfl
  | misses reason =>
    cases reason with
    | soft | committed =>
      obtain ⟨position, hanswer⟩ := hreports
      simp [hanswer]
    | missing name =>
      rw [Reports] at hreports
      simp [hreports, eq_comm]

/-- A repetition of captured letters, a completion and the letter it runs up
to. -/
theorem matchWith_iff_denotes_completion :
    let g : Grammar := ⟨[(Rule.sequence [(Rule.reference "x").repeated .star, .completion,
      .symbol 'b']).named "r", (Rule.symbol 'a').named "x"]⟩
    g.matchWith 16 "r" (stringBytes "aacb") ≠ .error (.tooDeep 16) ∧
      ∃ stop forest, Denotes g "r" (stringBytes "aacb") (.arrives stop forest) ∧
        stop.offset = 4 ∧
        listing 0 forest = [⟨"r", 0, 4, 0⟩, ⟨"x", 0, 1, 1⟩, ⟨"x", 1, 2, 1⟩] := by
  intro g
  have hanswer : g.matchWith 16 "r" (stringBytes "aacb") =
      .ok ⟨stringBytes "aacb",
        ⟨#[⟨"r", 0, 4, 0⟩, ⟨"x", 0, 1, 1⟩, ⟨"x", 1, 2, 1⟩], []⟩, 4⟩ := by
    rfl
  have hroom : g.matchWith 16 "r" (stringBytes "aacb") ≠ .error (.tooDeep 16) := by
    rw [hanswer]
    exact nofun
  obtain ⟨-, hok, -, -⟩ := matchWith_iff_denotes g 16 "r" (stringBytes "aacb") hroom
  obtain ⟨stop, forest, hdenotes, hparse⟩ := (hok _).mp hanswer
  injection hparse with _ hoverlay hstop
  injection hoverlay with htokens _
  exact ⟨hroom, stop, forest, hdenotes, hstop.symm, (congrArg Array.toList htokens).symm⟩

end Matching

end RuleGraph
