import RuleGraph.Grammar.Draft
import RuleGraph.Proofs.Terse.Declarations
import RuleGraph.Proofs.Terse.Offsets
import RuleGraph.Proofs.Terse.Quoting

/-!
# One source after another

A source may end in the middle of a body, even right after a name, and its end
closes what is open. If another source follows behind a line break instead of
the end, the reader does not know that the body is complete until the next
declaration begins. The two come to the same: a state in which a source may end
is, after a line break, one between declarations or at the end of a body, and
there the title of a declaration starts the same body as it would at the
beginning of a source.

So the second source has to begin with a title, after a lead of white space,
comments and dashes, or to have nothing but a lead in it. And the first one must
not carry a set over, because that would still be there for the second one.
-/

namespace RuleGraph.Terse

/-- What may stand outside of declarations: white space, comments and dashes. -/
inductive Lead : Bytes → Prop
  | gap {g : Bytes} : Gap g → Lead g
  | dash {g rest : Bytes} : Gap g → Lead rest → Lead (g ++ (ascii ['-'] ++ rest))

/-- A source that declares nothing or begins with the title of a declaration. -/
inductive Opens : Bytes → Prop
  | nothing {lead : Bytes} : Lead lead → Opens lead
  | title {lead blanks rest : Bytes} (w : Word) : Lead lead → Blanks blanks →
      Opens (lead ++ (w.bytes ++ (blanks ++ (ascii ['='] ++ rest))))

variable {limits : Limits} {filed rules : List Rule} {rest : Bytes}

/-! ## The end of the first source -/

/-- A body in which nothing is being read and with which a source may end. -/
theorem Resting.of_closeBody {s : State} {body : Body} (hs : s.carried = CharSet.empty)
    (hidle : body.lexeme = .idle) (h : s.closeBody limits body = .ok filed)
    (offset : Nat) : Resting limits filed ⟨s.filed, s.carried, offset, .body body⟩ := by
  obtain ⟨title, groups, scope, lexeme⟩ := body
  cases groups with
  | cons g groups => cases h
  | nil =>
    obtain ⟨r, hr, hfile⟩ := bind_eq_ok h
    obtain ⟨folded, hfold, hr⟩ := bind_eq_ok hr
    cases hr
    cases hidle
    rw [hs]
    exact .body hfold hfile

theorem groups_of_closeBody {s : State} {body : Body}
    (h : s.closeBody limits body = .ok filed) : body.groups = [] := by
  unfold State.closeBody at h
  split at h
  · cases h
  · assumption

/-- A body in which something is being read that a line break ends. -/
theorem exists_resting_of_step {s : State} {body : Body} (body' : Body)
    (hs : s.carried = CharSet.empty) (hphase : s.phase = .body body)
    (hclose : s.closeBody limits body' = .ok filed)
    (hidle : body'.lexeme = .idle)
    (hstep : s.stepBody limits body 0x0A = .ok (s.toBody body')) :
    ∃ s', Resting limits filed s' ∧ ∀ rest, Undeclared rest →
      s.complete limits (0x0A :: rest) = s'.complete limits rest := by
  refine ⟨_, .of_closeBody hs hidle hclose (s.offset + 1), fun rest _ => ?_⟩
  have hnext : s.stepPhase limits 0x0A = .ok (s.toBody body') := by
    unfold State.stepPhase
    rw [hphase]
    exact hstep
  rw [State.complete_cons, State.step, hnext]
  rfl

/-- A body with a name after a sign of its own, which a line break ends. -/
theorem exists_resting_of_ended {s : State} {body : Body} {text : Text}
    {lexeme : Text → Lexeme} {finish : Except GrammarError Body}
    (hs : s.carried = CharSet.empty) (hphase : s.phase = .body body)
    (hstep : ∀ b, s.stepBody limits body b = s.inName limits body text lexeme finish b)
    (h : (if text.isEmpty then .error (.unclosed .name s.offset)
      else finish >>= s.closeBody limits) = .ok filed) :
    ∃ s', Resting limits filed s' ∧ ∀ rest, Undeclared rest →
      s.complete limits (0x0A :: rest) = s'.complete limits rest := by
  split at h
  · cases h
  · rename_i hne
    obtain ⟨body', hfinish, hclose⟩ := bind_eq_ok h
    refine exists_resting_of_step (body'.reading .idle) hs hphase hclose rfl ?_
    rw [hstep, State.inName, if_neg (by decide), if_neg hne, hfinish]
    rfl

/-- A body behind whose end a name stands. -/
theorem exists_resting_of_name {s : State} {body : Body} {text : Text}
    (hs : s.carried = CharSet.empty) (hphase : s.phase = .body body)
    (hlexeme : body.lexeme = .name text ∨ body.lexeme = .waiting text)
    (h : s.finish limits = .ok filed) :
    ∃ s', Resting limits filed s' ∧ ∀ rest, Undeclared rest →
      s.complete limits (0x0A :: rest) = s'.complete limits rest := by
  obtain ⟨before, carried, offset, phase⟩ := s
  obtain ⟨title, groups, scope, lexeme⟩ := body
  subst hs hphase
  have hend : ∃ body', Body.refer limits ⟨title, groups, scope, lexeme⟩ text = .ok body' ∧
      State.closeBody limits
        ⟨before, CharSet.empty, offset, .body ⟨title, groups, scope, lexeme⟩⟩
        body' = .ok filed := by
    rcases hlexeme with rfl | rfl <;> exact bind_eq_ok h
  obtain ⟨body', hrefer, hclose⟩ := hend
  obtain ⟨scope', hput, hbody'⟩ := bind_eq_ok hrefer
  cases hbody'
  cases groups_of_closeBody hclose
  refine ⟨_, .of_closeBody rfl rfl hclose (offset + 1), fun rest hrest => ?_⟩
  have hnext : State.stepPhase limits
      ⟨before, CharSet.empty, offset, .body ⟨title, [], scope, lexeme⟩⟩ 0x0A =
        .ok ((⟨title, [], scope⟩ : Desk).state before offset [] (.waiting text)) := by
    rcases hlexeme with rfl | rfl <;> rfl
  rw [State.complete_cons, State.step, hnext]
  exact Desk.complete_waiting hput hrest (offset + 1) []

/-- After a line break a state in which a source may end goes on like one
between declarations. -/
theorem exists_resting {s : State} (hs : s.carried = CharSet.empty)
    (h : s.finish limits = .ok filed) :
    ∃ s', Resting limits filed s' ∧ ∀ rest, Undeclared rest →
      s.complete limits (0x0A :: rest) = s'.complete limits rest := by
  cases hphase : s.phase with
  | between title =>
    obtain ⟨before, carried, offset, phase⟩ := s
    subst hs hphase
    cases title with
    | some title => cases h
    | none =>
      cases h
      exact ⟨_, .between, fun rest _ => rfl⟩
  | comment opened title => rw [State.finish, hphase] at h; cases h
  | naming start text => rw [State.finish, hphase] at h; cases h
  | body body =>
    have hfinish := h
    rw [State.finish, hphase] at h
    dsimp only [State.finishBody] at h
    cases hlexeme : body.lexeme with
    | idle =>
      rw [hlexeme] at h
      refine exists_resting_of_step (body.reading .idle) hs hphase h rfl ?_
      rw [State.stepBody, hlexeme]
      rfl
    | inclusion text =>
      rw [hlexeme] at h
      exact exists_resting_of_ended hs hphase (fun b => by rw [State.stepBody, hlexeme]) h
    | label opened text =>
      rw [hlexeme] at h
      exact exists_resting_of_ended hs hphase (fun b => by rw [State.stepBody, hlexeme]) h
    | name text =>
      exact exists_resting_of_name hs hphase (.inl hlexeme) hfinish
    | waiting text => exact exists_resting_of_name hs hphase (.inr hlexeme) hfinish
    | comment _ | literal _ _ | braces _ | brackets _ => rw [hlexeme] at h; cases h

/-! ## The lead of the second source -/

theorem Undeclared.lead {lead : Bytes} (hlead : Lead lead) (h : Undeclared rest) :
    Undeclared (lead ++ rest) := by
  induction hlead with
  | gap hg => exact .gap hg h
  | dash hg _ _ =>
    rw [List.append_assoc, List.append_assoc]
    exact .gap hg (.of_sign (by decide) (by decide))

theorem Opens.undeclared {source : Bytes} (h : Opens source) : Undeclared source := by
  cases h with
  | nothing hlead => exact List.append_nil source ▸ Undeclared.lead hlead trivial
  | title w hlead _ => exact .lead hlead (.word w _)

/-- A dash ends the body, if there is one. -/
theorem Resting.dash (h : ∀ offset, State.complete limits
      ⟨filed, CharSet.empty, offset, .between none⟩ rest = .ok rules) {s : State}
    (hs : Resting limits filed s) :
    s.complete limits (ascii ['-'] ++ rest) = .ok rules := by
  cases hs with
  | @between offset => exact State.complete_of_step rfl (h (offset + 1))
  | @body before title scope body offset hfold hfile =>
    have hnext :
        ((⟨title, [], scope⟩ : Desk).state before offset [] .idle).stepPhase limits
          ('-').toUInt8 = .ok ⟨filed, CharSet.empty, offset, .between none⟩ := by
      show ((scope.fold limits).bind _).bind _ = _
      rw [hfold]
      show (file limits before _).bind _ = _
      rw [hfile]
      rfl
    exact State.complete_of_step hnext (h (offset + 1))

theorem Resting.lead {lead : Bytes} (hlead : Lead lead)
    (h : ∀ {s : State}, Resting limits filed s → s.complete limits rest = .ok rules) :
    ∀ {s : State}, Resting limits filed s →
      s.complete limits (lead ++ rest) = .ok rules := by
  induction hlead with
  | gap hg => exact fun hs => hs.gap hg h
  | dash hg _ ih =>
    intro s hs
    rw [List.append_assoc, List.append_assoc]
    exact hs.gap hg fun hs => hs.dash fun _ => ih .between

/-! ## The second source by itself -/

/-- What a source leads to from one offset on, it leads to from every offset. -/
theorem Phase.Yields.of_complete {phase : Phase} {offset : Nat}
    (h : State.complete limits ⟨filed, CharSet.empty, offset, phase⟩ rest = .ok rules) :
    phase.Yields limits filed rules rest :=
  fun _ => State.complete_of_unplaced (by rfl) h

/-- What is behind a byte leads to the same as the byte with it. -/
theorem Phase.Yields.tail {phase next : Phase} {b : UInt8}
    (hstep : State.stepPhase limits ⟨filed, CharSet.empty, 0, phase⟩ b =
      .ok ⟨filed, CharSet.empty, 0, next⟩)
    (h : phase.Yields limits filed rules (b :: rest)) :
    next.Yields limits filed rules rest := by
  have hcons := h 0
  rw [State.complete_cons, State.step, hstep] at hcons
  exact .of_complete hcons

theorem Phase.Yields.behind_gap {g : Bytes} (hg : Gap g)
    (h : (Phase.between none).Yields limits filed rules (g ++ rest)) :
    (Phase.between none).Yields limits filed rules rest := by
  refine @Gap.read (fun source => (Phase.between none).Yields limits filed rules source →
    (Phase.between none).Yields limits filed rules rest) (fun source =>
      (Phase.comment 0 none).Yields limits filed rules source →
        (Phase.between none).Yields limits filed rules rest) ?_ ?_ ?_ ?_ g hg rest id h
  · intro b source hb ih h
    refine ih (h.tail ?_)
    show State.between _ _ _ _ = _
    unfold State.between
    rw [hb]
    rfl
  · exact fun ih h => ih (h.tail rfl)
  · intro b source hb ih h
    refine ih (h.tail ?_)
    unfold State.stepPhase
    dsimp only
    rw [if_neg hb]
    rfl
  · exact fun ih h => ih (h.tail rfl)

theorem Phase.Yields.behind_lead {lead : Bytes} (hlead : Lead lead)
    (h : (Phase.between none).Yields limits filed rules (lead ++ rest)) :
    (Phase.between none).Yields limits filed rules rest := by
  induction hlead with
  | gap hg => exact h.behind_gap hg
  | dash hg _ ih =>
    rw [List.append_assoc, List.append_assoc] at h
    exact ih ((h.behind_gap hg).tail rfl)

theorem Phase.Yields.behind_letters {more : Bytes} : ∀ {text : Text},
    (∀ b ∈ more, Sign.of b = .word) → text.size ≤ limits.text →
      (Phase.naming 0 text).Yields limits filed rules (more ++ rest) →
      text.size + more.length ≤ limits.text ∧
        (Phase.naming 0 (text ++ more.toArray)).Yields limits filed rules rest := by
  induction more with
  | nil => exact fun _ hfits h => ⟨hfits, by simpa using h⟩
  | cons b more ih =>
    intro text hword hfits h
    have hb := hword b List.mem_cons_self
    have hstep : State.stepPhase limits ⟨filed, CharSet.empty, 0, .naming 0 text⟩ b =
        (push limits text b).map fun text =>
          ⟨filed, CharSet.empty, 0, .naming 0 text⟩ := by
      unfold State.stepPhase
      dsimp only
      rw [if_pos hb]
      cases push limits text b <;> rfl
    by_cases hlt : text.size < limits.text
    · rw [push_of_lt hlt] at hstep
      obtain ⟨hfits', hend⟩ := ih (fun c hc => hword c (List.mem_cons_of_mem _ hc))
        (by rwa [Array.size_push]) (h.tail hstep)
      rw [Array.size_push] at hfits'
      rw [List.length_cons]
      have hpush : (text.push b) ++ more.toArray = text ++ (b :: more).toArray := by simp
      exact ⟨by omega, hpush ▸ hend⟩
    · have hcons := h 0
      rw [List.cons_append, State.complete_cons, State.step, hstep, push, if_neg hlt]
        at hcons
      cases hcons

theorem Phase.Yields.behind_blanks {blanks : Bytes} (hblanks : Blanks blanks)
    {title : Option Title}
    (h : (Phase.between title).Yields limits filed rules (blanks ++ rest)) :
    (Phase.between title).Yields limits filed rules rest := by
  induction blanks with
  | nil => exact h
  | cons b blanks ih =>
    refine ih (fun c hc => hblanks c (List.mem_cons_of_mem _ hc)) (h.tail ?_)
    show State.between _ _ _ _ = _
    unfold State.between
    rw [hblanks b List.mem_cons_self]
    rfl

/-- A title that has been read was short enough, and its body begins. -/
theorem Phase.Yields.behind_title {w : Word} {blanks : Bytes} (hblanks : Blanks blanks)
    (h : (Phase.between none).Yields limits filed rules
      (w.bytes ++ (blanks ++ (ascii ['='] ++ rest)))) :
    w.Fits limits ∧
      (⟨w.name, [], Scope.empty⟩ : Desk).Yields limits filed rules .idle rest := by
  have hbegin : (Phase.naming 0 #[]).Yields limits filed rules
      (w.bytes ++ (blanks ++ (ascii ['='] ++ rest))) := by
    refine @of_complete _ _ _ _ _ 0 ?_
    rw [← h 0]
    obtain ⟨b, more, hbytes⟩ := List.exists_cons_of_ne_nil w.bytes_ne_nil
    have hb : Sign.of b = .word := w.sign_bytes b (hbytes ▸ List.mem_cons_self)
    rw [hbytes, List.cons_append, State.complete_cons, State.complete_cons,
      State.step, State.step]
    unfold State.stepPhase State.between
    dsimp only
    rw [hb]
    rfl
  obtain ⟨hfits, hname⟩ := hbegin.behind_letters w.sign_bytes (Nat.zero_le _)
  have htitle : (Phase.between (some ⟨0, w.name⟩)).Yields limits filed rules
      (blanks ++ (ascii ['='] ++ rest)) := by
    intro offset
    rw [← hname offset, Array.empty_append]
    symm
    refine State.complete_congr rfl rfl fun b hb => ?_
    unfold State.stepPhase
    dsimp only
    rw [if_neg (closed_title hblanks b hb), w.nameOf_bytes]
    rfl
  have hbody : (Phase.body (Body.start w.name)).Yields limits filed rules rest :=
    (htitle.behind_blanks hblanks).tail rfl
  refine ⟨?_, fun offset groups hgroups => ?_⟩
  · simpa [Word.Fits, w.length_bytes] using hfits
  · cases List.map_eq_nil_iff.mp hgroups
    exact hbody offset

/-! ## Both sources -/

theorem Resting.opens {source : Bytes} (hopens : Opens source)
    (h : compile limits filed source = .ok rules) {s : State}
    (hs : Resting limits filed s) :
    s.complete limits source = .ok rules := by
  have hyields : (Phase.between none).Yields limits filed rules source := .of_complete h
  cases hopens with
  | nothing hlead =>
    have hnone : (Phase.between none).Yields limits filed rules [] :=
      Phase.Yields.behind_lead hlead (by rwa [List.append_nil])
    have hrules : filed = rules := Except.ok.inj (hnone 0)
    rw [← List.append_nil source]
    exact hs.lead hlead fun hs => hrules ▸ hs.done
  | title w hlead hblanks =>
    obtain ⟨hfits, hbody⟩ := (hyields.behind_lead hlead).behind_title hblanks
    exact hs.lead hlead fun hs => hs.title hfits hblanks hbody

/-- Rules that are declared by one source after another are declared by both as
one, with a line break in between. -/
theorem compile_joined {first second : Bytes} {declared : List Rule}
    (hfirst : Quoting.plain.Lacks .ampersand first) (hsecond : Opens second)
    (h : compile limits filed first = .ok declared)
    (h' : compile limits declared second = .ok rules) :
    compile limits filed (first ++ 0x0A :: second) = .ok rules := by
  obtain ⟨s, hrun, hfinish⟩ := bind_eq_ok h
  have hstart : (State.start filed).Stands .plain (some CharSet.empty) := ⟨rfl, rfl⟩
  have hcarried : s.carried = CharSet.empty := hstart.run hfirst s hrun
  obtain ⟨s', hresting, hgoes⟩ := exists_resting hcarried hfinish
  rw [compile_append hrun, hgoes second hsecond.undeclared]
  exact hresting.opens hsecond h'

end RuleGraph.Terse

namespace RuleGraph.Draft

open Terse

/-- Where two sources can be added to a draft one after the other, both can be
added as one, and this comes to the same draft. The first must not carry a set
over to the second, and the second has to begin with a title if it declares
anything. -/
theorem source_joined (d d' : Draft) (first second : Bytes)
    (hfirst : Quoting.plain.Lacks .ampersand first) (hsecond : Opens second)
    (h : (do (← d.source first).source second) = .ok d') :
    d.source (first ++ 0x0A :: second) = .ok d' := by
  obtain ⟨middle, hmiddle, h'⟩ := bind_eq_ok h
  obtain ⟨declared, hdeclared, hd⟩ := bind_eq_ok hmiddle
  cases hd
  obtain ⟨rules, hrules, hd'⟩ := bind_eq_ok h'
  cases hd'
  show compile d.limits d.rules _ >>= _ = _
  rw [compile_joined hfirst hsecond hdeclared hrules]
  rfl

/-- The first source ends in a body, right behind a name that could be the next
title, and the second begins with a comment and a dash. -/
theorem source_joined_open_body :
    let first := stringBytes "a = 'x&' n"
    let second := stringBytes "% = %-\nb = \\a?"
    let rules := [(Rule.sequence [Rule.string ['x', '&'], Rule.reference "n"]).named "a",
      ((Rule.sequence [Rule.string ['x', '&'], Rule.reference "n"]).repeated
        .optional).named "b"]
    Quoting.plain.Lacks .ampersand first ∧ Opens second ∧
      (do (← Draft.start.source first).source second) = .ok ⟨Limits.usual, rules⟩ ∧
      Draft.start.source (first ++ 0x0A :: second) = .ok ⟨Limits.usual, rules⟩ := by
  intro first second rules
  have hfirst : Quoting.plain.Lacks .ampersand first := by decide +kernel
  have hcomment : Gap (stringBytes "% = %") :=
    @Gap.comment (stringBytes " = ") [] (by decide +kernel) .nothing
  have hlead : Lead (stringBytes "% = %-\n") :=
    .dash hcomment (.gap (.blank (by decide) .nothing))
  have hsecond : Opens second :=
    @Opens.title _ [0x20] (stringBytes " \\a?")
      ⟨['b'], by decide, List.forall_mem_singleton.mpr rfl⟩ hlead (by decide)
  have h : (do (← Draft.start.source first).source second) =
      .ok ⟨Limits.usual, rules⟩ := by
    rfl
  exact ⟨hfirst, hsecond, h, source_joined _ _ first second hfirst hsecond h⟩

end RuleGraph.Draft
