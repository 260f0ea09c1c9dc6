import RuleGraph.Proofs.Terse.Bodies

/-!
# Declarations are compiled to what they stand for

What is left is to follow the tokens of a tree with its meaning at hand. A scope
is known by the alternatives that are finished and the elements of the one that
goes on, wherever the last element is kept, and `Scope.Holds` says just that.
The induction runs over phrases, alternatives and lists of alternatives at once,
and its statement is the same for all three: the tokens lead to a scope that
holds what was held before and what the tree contributes.

Between two declarations a reader has either declared all that came before, or
it stands in the body of the last declaration and does not know yet that this
was all of it. `Resting` takes the two as one.
-/

namespace RuleGraph.Terse

variable {limits : Limits} {filed rules : List Rule} {rest : Bytes}

/-! ## Scopes -/

/-- The finished alternatives of a scope, and the elements of the one that goes
on. -/
def Scope.Holds (s : Scope) (alternatives elements : List Rule) : Prop :=
  s.alternatives = alternatives ∧ s.sequence ++ s.current.toList = elements

namespace Scope

variable {s : Scope} {finished elements : List Rule}

theorem holds_empty : Scope.empty.Holds [] [] := ⟨rfl, rfl⟩

theorem Holds.settle (h : s.Holds finished elements)
    (hfits : elements.length ≤ limits.sequence) :
    s.settle limits = .ok ⟨none, elements, finished⟩ := by
  obtain ⟨current, sequence, alternatives⟩ := s
  obtain ⟨rfl, rfl⟩ := h
  cases current with
  | none =>
    rw [Option.toList_none, List.append_nil]
    rfl
  | some r =>
    rw [Option.toList_some, List.length_append, List.length_singleton] at hfits
    exact if_pos hfits

theorem Holds.put (h : s.Holds finished elements)
    (hfits : elements.length ≤ limits.sequence) (r : Rule) :
    s.put limits r = .ok ⟨some r, elements, finished⟩ := by
  unfold Scope.put
  rw [h.settle hfits]
  rfl

theorem Holds.alternate (h : s.Holds finished elements)
    (hfits : elements.length ≤ limits.sequence)
    (hroom : finished.length < limits.alternatives) :
    s.alternate limits = .ok ⟨none, [], finished ++ [Rule.chain elements]⟩ := by
  unfold Scope.alternate
  rw [h.settle hfits]
  exact if_pos hroom

/-- What a body comes to whose first alternatives are finished. -/
def closed (finished elements : List Rule) (others : List (List Rule)) : Option Rule :=
  if finished.isEmpty then folded elements others
  else some (Rule.selection (finished ++ (elements :: others).map Rule.chain))

theorem closed_snoc (finished elements next : List Rule) (others : List (List Rule)) :
    closed (finished ++ [Rule.chain elements]) next others =
      closed finished elements (next :: others) := by
  unfold closed
  cases finished with
  | nil => cases elements <;> rfl
  | cons r finished => simp

theorem Holds.fold (h : s.Holds finished elements)
    (hfits : elements.length ≤ limits.sequence)
    (hroom : finished.length < limits.alternatives) :
    s.fold limits = .ok (closed finished elements []) := by
  unfold Scope.fold closed
  rw [h.settle hfits]
  cases finished with
  | nil => cases elements <;> rfl
  | cons r finished =>
    have hsettled : (⟨none, elements, r :: finished⟩ : Scope).Holds
        (r :: finished) elements :=
      ⟨rfl, List.append_nil _⟩
    show ((⟨none, elements, r :: finished⟩ : Scope).alternate limits).bind _ = _
    rw [hsettled.alternate hfits hroom]
    rfl

end Scope

/-! ## Phrases -/

theorem path_suffixes {title : String} {outer : List Scope}
    {elements finished : List Rule} {suffixes : List Suffix}
    (hfits : ∀ s ∈ suffixes, s.Fits limits) :
    ∀ {r r' : Rule}, appliedAll? filed r suffixes = some r' →
      Path (Moves limits filed) ⟨title, outer, ⟨some r, elements, finished⟩⟩
        (suffixes.map .suffix) ⟨title, outer, ⟨some r', elements, finished⟩⟩ := by
  induction suffixes with
  | nil =>
    intro r r' h
    cases h
    exact .nil
  | cons s suffixes ih =>
    intro r r' h
    obtain ⟨next, happly, hrest⟩ := Option.bind_eq_some_iff.mp h
    exact .cons (.suffix (hfits s List.mem_cons_self) rfl happly)
      (ih (fun s hs => hfits s (List.mem_cons_of_mem _ hs)) hrest)

mutual

/-- The tokens of a phrase add what the phrase contributes, which is one element
at most. -/
theorem path_phrase (title : String) (outer : List Scope) (finished : List Rule) :
    ∀ (p : Phrase) {scope : Scope} {held added : List Rule}, p.Fits limits outer.length →
      p.elements? filed = some added → scope.Holds finished held →
      held.length ≤ limits.sequence →
      added.length ≤ 1 ∧ ∃ scope', scope'.Holds finished (held ++ added) ∧
        Path (Moves limits filed) ⟨title, outer, scope⟩ p.tokens ⟨title, outer, scope'⟩
  | .atom a suffixes, scope, held, added, hfits, hadded, hholds, hlength => by
    rw [Phrase.Fits] at hfits
    rw [Phrase.elements?] at hadded
    obtain ⟨r, hrule, hadded⟩ := Option.bind_eq_some_iff.mp hadded
    obtain ⟨r', happly, hadded⟩ := Option.bind_eq_some_iff.mp hadded
    cases hadded
    refine ⟨Nat.le_refl _, ⟨some r', held, finished⟩, ⟨rfl, rfl⟩, ?_⟩
    rw [Phrase.tokens]
    exact .cons (.atom hfits.1 hrule (hholds.put hlength r))
      (path_suffixes hfits.2 happly)
  | .group first others suffixes, scope, held, added, hfits, hadded, hholds, hlength => by
    rw [Phrase.Fits] at hfits
    obtain ⟨hnesting, hroom, hfirst, hfitsFirst, hfitsOthers, hfitsSuffixes⟩ := hfits
    rw [Phrase.elements?] at hadded
    obtain ⟨elements, helements, hadded⟩ := Option.bind_eq_some_iff.mp hadded
    obtain ⟨more, hmore, hadded⟩ := Option.bind_eq_some_iff.mp hadded
    let around : Scope := ⟨none, held, finished⟩
    have haround : around.Holds finished held := ⟨rfl, List.append_nil _⟩
    obtain ⟨hfew, inner, hinner, hpathFirst⟩ :=
      path_alternative title (around :: outer) [] first
        hfitsFirst helements Scope.holds_empty (by simpa using hfirst)
    obtain ⟨last, hfold, hpathOthers⟩ := path_alternatives title (around :: outer) others
      hfitsOthers hmore hinner (Nat.le_trans hfew hfirst) (by simpa using hroom)
    have hopening : Moves limits filed ⟨title, outer, scope⟩ .opening
        ⟨title, around :: outer, Scope.empty⟩ := .opening hnesting (hholds.settle hlength)
    have hopen := Path.cons hopening (hpathFirst.append hpathOthers)
    rw [Phrase.tokens, ← List.append_assoc]
    change last.fold limits = .ok (folded elements more) at hfold
    cases hbody : folded elements more with
    | none =>
      rw [hbody] at hadded hfold
      dsimp only at hadded
      split at hadded
      · rename_i hsuffixes
        cases hadded
        rw [List.isEmpty_iff.mp hsuffixes, List.append_nil]
        exact ⟨Nat.zero_le _, around, haround, hopen.append (.cons (.empty hfold) .nil)⟩
      · cases hadded
    | some r =>
      rw [hbody] at hadded hfold
      obtain ⟨r', happly, rfl⟩ := Option.map_eq_some_iff.mp hadded
      refine ⟨Nat.le_refl _, ⟨some r', held, finished⟩, ⟨rfl, rfl⟩, ?_⟩
      exact hopen.append (.cons (.closing hfold (haround.put hlength r))
        (path_suffixes hfitsSuffixes happly))

/-- The tokens of an alternative add its elements. -/
theorem path_alternative (title : String) (outer : List Scope) (finished : List Rule) :
    ∀ (phrases : List Phrase) {scope : Scope} {held added : List Rule},
      Fits limits outer.length phrases → elements? filed phrases = some added →
      scope.Holds finished held → held.length + phrases.length ≤ limits.sequence →
      added.length ≤ phrases.length ∧ ∃ scope', scope'.Holds finished (held ++ added) ∧
        Path (Moves limits filed) ⟨title, outer, scope⟩ (alternative phrases)
          ⟨title, outer, scope'⟩
  | [], scope, held, added, _, hadded, hholds, _ => by
    rw [elements?] at hadded
    cases hadded
    rw [List.append_nil, alternative]
    exact ⟨Nat.le_refl _, scope, hholds, .nil⟩
  | p :: phrases, scope, held, added, hfits, hadded, hholds, hlength => by
    rw [Fits] at hfits
    rw [elements?] at hadded
    obtain ⟨these, hthese, hadded⟩ := Option.bind_eq_some_iff.mp hadded
    obtain ⟨those, hthose, hadded⟩ := Option.bind_eq_some_iff.mp hadded
    cases hadded
    rw [List.length_cons] at hlength
    obtain ⟨hone, middle, hmiddle, hpath⟩ :=
      path_phrase title outer finished p hfits.1 hthese hholds (by omega)
    have hroom : (held ++ these).length + phrases.length ≤ limits.sequence := by
      rw [List.length_append]
      omega
    obtain ⟨hfew, last, hlast, hrest⟩ :=
      path_alternative title outer finished phrases hfits.2 hthose hmiddle hroom
    rw [alternative, ← List.append_assoc, List.length_append, List.length_cons]
    exact ⟨by omega, last, hlast, hpath.append hrest⟩

/-- The tokens of the alternatives after the first lead to the end of a body. -/
theorem path_alternatives (title : String) (outer : List Scope) :
    ∀ (others : List (List Phrase)) {scope : Scope} {finished held : List Rule}
      {added : List (List Rule)}, OthersFit limits outer.length others →
      others? filed others = some added → scope.Holds finished held →
      held.length ≤ limits.sequence →
      finished.length + others.length < limits.alternatives →
      ∃ scope', scope'.fold limits = .ok (Scope.closed finished held added) ∧
        Path (Moves limits filed) ⟨title, outer, scope⟩ (alternatives others)
          ⟨title, outer, scope'⟩
  | [], scope, finished, held, added, _, hadded, hholds, hlength, hroom => by
    rw [others?] at hadded
    cases hadded
    rw [alternatives]
    exact ⟨scope, hholds.fold hlength hroom, .nil⟩
  | phrases :: others, scope, finished, held, added, hfits, hadded, hholds, hlength,
      hroom => by
    rw [OthersFit] at hfits
    obtain ⟨hfirst, hfitsFirst, hfitsOthers⟩ := hfits
    rw [others?] at hadded
    obtain ⟨these, hthese, hadded⟩ := Option.bind_eq_some_iff.mp hadded
    obtain ⟨those, hthose, hadded⟩ := Option.bind_eq_some_iff.mp hadded
    cases hadded
    rw [List.length_cons] at hroom
    have hbar :=
      hholds.alternate hlength (show finished.length < limits.alternatives by omega)
    have hnext : (⟨none, [], finished ++ [Rule.chain held]⟩ : Scope).Holds
        (finished ++ [Rule.chain held]) [] := ⟨rfl, rfl⟩
    obtain ⟨hfew, middle, hmiddle, hpath⟩ :=
      path_alternative title outer _ phrases hfitsFirst
        hthese hnext (by simpa using hfirst)
    have hrest : (finished ++ [Rule.chain held]).length + others.length <
        limits.alternatives := by
      rw [List.length_append, List.length_singleton]
      omega
    obtain ⟨last, hfold, hpathOthers⟩ :=
      path_alternatives title outer others hfitsOthers hthose
        hmiddle (Nat.le_trans hfew hfirst) hrest
    rw [List.nil_append, Scope.closed_snoc] at hfold
    rw [alternatives]
    exact ⟨last, hfold, .cons (.bar hbar) (hpath.append hpathOthers)⟩

end

/-- The tokens of a declaration after its name lead from an empty body to one
that comes to the declared rule. -/
theorem path_declaration {d : Declaration} {r : Rule} (hfits : d.Fits limits)
    (hrule : d.rule? filed = some r) :
    ∃ scope body, scope.fold limits = .ok body ∧
      r = (body.getD (Rule.sequence [])).named d.title.name ∧
      Path (Moves limits filed) ⟨d.title.name, [], Scope.empty⟩
        (alternative d.first ++ alternatives d.others) ⟨d.title.name, [], scope⟩ := by
  obtain ⟨-, hroom, hfirst, hfitsFirst, hfitsOthers⟩ := hfits
  unfold Declaration.rule? at hrule
  obtain ⟨elements, helements, hrule⟩ := Option.bind_eq_some_iff.mp hrule
  obtain ⟨more, hmore, hrule⟩ := Option.bind_eq_some_iff.mp hrule
  cases hrule
  obtain ⟨hfew, middle, hmiddle, hpath⟩ :=
    path_alternative d.title.name [] [] d.first hfitsFirst
      helements Scope.holds_empty (by simpa using hfirst)
  obtain ⟨last, hfold, hpathOthers⟩ :=
    path_alternatives d.title.name [] d.others hfitsOthers hmore
      hmiddle (Nat.le_trans hfew hfirst) (by simpa using hroom)
  exact ⟨last, folded elements more, hfold, rfl, hpath.append hpathOthers⟩

/-! ## Between declarations -/

/-- The reader has declared these rules, or it has come to the end of the body
of the last of them. -/
inductive Resting (limits : Limits) (filed : List Rule) : State → Prop
  | between {offset : Nat} :
      Resting limits filed ⟨filed, CharSet.empty, offset, .between none⟩
  | body {before : List Rule} {title : String} {scope : Scope} {body : Option Rule}
      {offset : Nat} : scope.fold limits = .ok body →
      file limits before ((body.getD (Rule.sequence [])).named title) = .ok filed →
      Resting limits filed ((⟨title, [], scope⟩ : Desk).state before offset [] .idle)

/-- From this phase on, a source leads to these rules, at any offset. -/
def Phase.Yields (limits : Limits) (filed rules : List Rule) (phase : Phase)
    (source : Bytes) : Prop :=
  ∀ offset, State.complete limits ⟨filed, CharSet.empty, offset, phase⟩ source = .ok rules

theorem Phase.Yields.step {phase : Phase} {b : UInt8} (next : Nat → Phase)
    (hstep : ∀ offset, State.stepPhase limits ⟨filed, CharSet.empty, offset, phase⟩ b =
      .ok ⟨filed, CharSet.empty, offset, next offset⟩)
    (h : ∀ offset, (next offset).Yields limits filed rules rest) :
    phase.Yields limits filed rules (b :: rest) :=
  fun offset => State.complete_of_step (hstep offset) (h offset (offset + 1))

theorem Phase.Yields.gap {g : Bytes} (hg : Gap g)
    (h : (Phase.between none).Yields limits filed rules rest) :
    (Phase.between none).Yields limits filed rules (g ++ rest) := by
  refine Gap.read
    (fun rest => ∀ start, (Phase.comment start none).Yields limits filed rules rest)
    ?_ ?_ ?_ ?_ hg h
  · intro b rest hb h
    refine .step (fun _ => .between none) (fun _ => ?_) fun _ => h
    show State.between _ _ _ _ = _
    unfold State.between
    rw [hb]
    rfl
  · exact fun h => .step (.comment · none) (fun _ => rfl) h
  · intro b rest hb h start
    refine .step (fun _ => .comment start none) (fun _ => ?_) fun _ => h start
    unfold State.stepPhase
    dsimp only
    rw [if_neg hb]
    rfl
  · exact fun h start => .step (fun _ => .between none) (fun _ => rfl) fun _ => h

theorem Resting.gap {g : Bytes} (hg : Gap g)
    (h : ∀ {s : State}, Resting limits filed s → s.complete limits rest = .ok rules)
    {s : State} (hs : Resting limits filed s) :
    s.complete limits (g ++ rest) = .ok rules := by
  cases hs with
  | @between offset => exact Phase.Yields.gap hg (fun _ => h .between) offset
  | @body before title scope body offset hfold hfile =>
    have hyields : (⟨title, [], scope⟩ : Desk).Yields limits before rules .idle rest := by
      intro offset groups hgroups
      cases List.map_eq_nil_iff.mp hgroups
      exact h (.body hfold hfile)
    exact hyields.gap hg offset [] rfl

theorem Resting.done {s : State} (hs : Resting limits filed s) :
    s.complete limits [] = .ok filed := by
  cases hs with
  | between => rfl
  | @body before title scope body offset hfold hfile =>
    show ((scope.fold limits).bind _).bind _ = _
    rw [hfold]
    exact hfile

theorem closed_title {blanks : Bytes} (hblanks : Blanks blanks) :
    Closed (blanks ++ (ascii ['='] ++ rest)) := by
  intro b hb
  cases blanks with
  | nil =>
    cases hb
    decide
  | cons c blanks =>
    cases hb
    rw [hblanks b List.mem_cons_self]
    decide

/-- The name of a first declaration begins its body. -/
theorem Phase.Yields.title {name : String} {blanks : Bytes} (hblanks : Blanks blanks)
    (h : (⟨name, [], Scope.empty⟩ : Desk).Yields limits filed rules .idle rest)
    (start : Nat) :
    (Phase.between (some ⟨start, name⟩)).Yields limits filed rules
      (blanks ++ (ascii ['='] ++ rest)) := by
  induction blanks with
  | nil => exact fun offset => State.complete_of_step rfl (h (offset + 1) [] rfl)
  | cons b blanks ih =>
    refine .step (fun _ => .between (some ⟨start, name⟩)) (fun _ => ?_)
      fun _ => ih fun c hc => hblanks c (List.mem_cons_of_mem _ hc)
    show State.between _ _ _ _ = _
    unfold State.between
    rw [hblanks b List.mem_cons_self]
    rfl

theorem Phase.Yields.naming {w : Word} {blanks : Bytes} (hfits : w.Fits limits)
    (hblanks : Blanks blanks)
    (h : (⟨w.name, [], Scope.empty⟩ : Desk).Yields limits filed rules .idle rest) :
    (Phase.between none).Yields limits filed rules
      (w.bytes ++ (blanks ++ (ascii ['='] ++ rest))) := by
  have hend (start : Nat) : (Phase.naming start w.bytes.toArray).Yields limits filed rules
      (blanks ++ (ascii ['='] ++ rest)) := by
    intro offset
    rw [← Phase.Yields.title hblanks h start offset]
    refine State.complete_congr rfl rfl fun b hb => ?_
    have hword := closed_title hblanks b hb
    unfold State.stepPhase
    dsimp only
    rw [if_neg hword, w.nameOf_bytes]
    rfl
  obtain ⟨b, more, hbytes, hb, hpush, hmore⟩ := w.collect
    (fun text rest => ∀ start,
      (Phase.naming start text).Yields limits filed rules rest) hfits
    (by
      intro text b rest hb hlt hrest start
      refine .step (fun _ => .naming start (text.push b)) (fun _ => ?_) fun _ =>
        hrest start
      unfold State.stepPhase
      dsimp only
      rw [if_pos hb, push_of_lt hlt]
      rfl) hend
  rw [hbytes]
  refine .step (.naming · #[b]) (fun _ => ?_) hmore
  show State.between _ _ _ _ = _
  unfold State.between
  rw [hb, hpush]
  rfl

/-- The name of a later declaration ends the body before and begins its own. -/
theorem complete_declared {before : List Rule} {title : String} {scope : Scope}
    {body : Option Rule} {w : Word} {blanks : Bytes}
    (hfold : scope.fold limits = .ok body)
    (hfile : file limits before ((body.getD (Rule.sequence [])).named title) = .ok filed)
    (hblanks : Blanks blanks)
    (h : (⟨w.name, [], Scope.empty⟩ : Desk).Yields limits filed rules .idle rest)
    (offset : Nat) :
    ((⟨title, [], scope⟩ : Desk).state before offset []
      (.waiting w.bytes.toArray)).complete limits (blanks ++ (ascii ['='] ++ rest)) =
        .ok rules := by
  induction blanks generalizing offset with
  | nil =>
    have hnext : ((⟨title, [], scope⟩ : Desk).state before offset []
        (.waiting w.bytes.toArray)).stepPhase limits ('=').toUInt8 =
          .ok ((⟨w.name, [], Scope.empty⟩ : Desk).state filed offset [] .idle) := by
      show ((scope.fold limits).bind _).bind _ = _
      rw [hfold]
      show (file limits before _).bind _ = _
      rw [hfile, w.nameOf_bytes]
      rfl
    exact State.complete_of_step hnext (h (offset + 1) [] rfl)
  | cons b blanks ih =>
    exact State.complete_of_step
      (State.stepPhase_waiting ((⟨title, [], scope⟩ : Desk).state before offset [] .idle)
        ((⟨title, [], scope⟩ : Desk).body [] .idle) rfl w.bytes.toArray
        (hblanks b List.mem_cons_self))
      (ih (fun c hc => hblanks c (List.mem_cons_of_mem _ hc)) (offset + 1))

theorem Resting.title {w : Word} {blanks : Bytes} (hfits : w.Fits limits)
    (hblanks : Blanks blanks)
    (h : (⟨w.name, [], Scope.empty⟩ : Desk).Yields limits filed rules .idle rest)
    {s : State} (hs : Resting limits filed s) :
    s.complete limits (w.bytes ++ (blanks ++ (ascii ['='] ++ rest))) = .ok rules := by
  cases hs with
  | @between offset => exact Phase.Yields.naming hfits hblanks h offset
  | @body before title scope body offset hfold hfile =>
    refine Desk.Yields.bare w hfits ?_ offset [] rfl
    intro last groups hgroups
    cases List.map_eq_nil_iff.mp hgroups
    rw [Desk.complete_name (closed_title hblanks)]
    exact complete_declared hfold hfile hblanks h last

/-! ## Whole sources -/

theorem Resting.declarations {declarations : List Declaration}
    (hfits : ∀ d ∈ declarations, d.Fits limits) :
    ∀ {filed rules : List Rule} {source : Bytes} {s : State},
      rules? filed declarations = some rules →
      filed.length + declarations.length ≤ limits.rules → Written declarations source →
      Resting limits filed s → s.complete limits source = .ok (filed ++ rules) := by
  induction declarations with
  | nil =>
    intro filed rules source s hrules _ hwritten hs
    cases hrules
    cases hwritten with
    | done hg =>
      rw [List.append_nil filed]
      exact hs.gap hg Resting.done
  | cons d declarations ih =>
    intro filed rules source s hrules hroom hwritten hs
    rw [rules?] at hrules
    obtain ⟨r, hr, hrules⟩ := Option.bind_eq_some_iff.mp hrules
    obtain ⟨rs, hrs, hrules⟩ := Option.bind_eq_some_iff.mp hrules
    cases hrules
    rw [List.length_cons] at hroom
    have hd := hfits d List.mem_cons_self
    obtain ⟨scope, body, hfold, hnamed, hpath⟩ := path_declaration hd hr
    have hfile : file limits filed ((body.getD (Rule.sequence [])).named d.title.name) =
        .ok (filed ++ [r]) := by
      rw [← hnamed]
      exact if_pos (show filed.length < limits.rules by omega)
    have hroom' : (filed ++ [r]).length + declarations.length ≤ limits.rules := by
      rw [List.length_append, List.length_singleton]
      omega
    -- the end of this body is where the next declaration begins
    have hmore (rest : Bytes)
        (hrest :
          Laid Gap Token.Spelled [] (declarations.flatMap Declaration.tokens) rest) :
        (⟨d.title.name, [], scope⟩ : Desk).Yields limits filed (filed ++ r :: rs)
          .idle rest := by
      intro offset groups hgroups
      cases List.map_eq_nil_iff.mp hgroups
      have hresting : Resting limits (filed ++ [r])
          ((⟨d.title.name, [], scope⟩ : Desk).state filed offset [] .idle) :=
            .body hfold hfile
      have hnext :=
        ih (fun d hd => hfits d (List.mem_cons_of_mem _ hd)) hrs hroom' hrest hresting
      rw [List.append_assoc] at hnext
      exact hnext
    have htokens : (d :: declarations).flatMap Declaration.tokens =
        .title d.title :: ((alternative d.first ++ alternatives d.others) ++
          declarations.flatMap Declaration.tokens) := by
      rw [List.flatMap_cons]
      rfl
    rw [Written, htokens] at hwritten
    cases hwritten with
    | @item g bytes rest _ _ hg hspelled hrest =>
      obtain ⟨blanks, hblanks, rfl⟩ := hspelled
      have hbody : (⟨d.title.name, [], Scope.empty⟩ : Desk).Yields limits filed
          (filed ++ r :: rs) .idle rest :=
        Laid.read (fun d rest => d.Yields limits filed (filed ++ r :: rs) .idle rest)
          Desk.Yields.gap
            (fun hmove hspelled hlaid h => hmove.yields hspelled (.laid hlaid) h)
          hpath hmore hrest
      refine hs.gap hg fun hs => ?_
      rw [List.append_assoc, List.append_assoc]
      exact hs.title hd.1 hblanks hbody

theorem name_named (r : Rule) (name : String) : (r.named name).name = name := by
  unfold Rule.named
  split
  · rfl
  · split <;> rfl

theorem Declaration.name_of_rule? {d : Declaration} {r : Rule}
    (h : d.rule? filed = some r) : r.name = d.title.name := by
  obtain ⟨elements, -, h⟩ := Option.bind_eq_some_iff.mp h
  obtain ⟨more, -, h⟩ := Option.bind_eq_some_iff.mp h
  cases h
  exact name_named _ _

theorem names_of_rules? {declarations : List Declaration} :
    ∀ {filed rules : List Rule}, rules? filed declarations = some rules →
      rules.map Rule.name = declarations.map (·.title.name) := by
  induction declarations with
  | nil =>
    intro filed rules hrules
    cases hrules
    rfl
  | cons d declarations ih =>
    intro filed rules hrules
    rw [rules?] at hrules
    obtain ⟨r, hr, hrules⟩ := Option.bind_eq_some_iff.mp hrules
    obtain ⟨rs, hrs, hrules⟩ := Option.bind_eq_some_iff.mp hrules
    cases hrules
    rw [List.map_cons, List.map_cons, Declaration.name_of_rule? hr, ih hrs]

/-- Whatever way declarations are written that stand for some rules and keep to
the limits, compiling the source adds these rules to the ones that are there:
one for each declaration, of its name and in the same order. -/
theorem compile_written (limits : Limits) (filed rules : List Rule)
    (declarations : List Declaration) (source : Bytes)
    (hwritten : Written declarations source)
    (hrules : rules? filed declarations = some rules)
    (hfits : ∀ d ∈ declarations, d.Fits limits)
    (hroom : filed.length + declarations.length ≤ limits.rules) :
    compile limits filed source = .ok (filed ++ rules) ∧
      rules.map Rule.name = declarations.map (·.title.name) :=
  ⟨Resting.declarations hfits hrules hroom hwritten .between, names_of_rules? hrules⟩

/-- A class that is negated through a name, in a group that repeats, with a
comment behind it. -/
theorem compile_written_negated_name :
    let x : Word := ⟨['x'], by decide, List.forall_mem_singleton.mpr rfl⟩
    let y : Word := ⟨['y'], by decide, List.forall_mem_singleton.mpr rfl⟩
    let a : Quote := ⟨[0x61], List.forall_mem_singleton.mpr (by decide)⟩
    let b : Quote := ⟨[0x62], List.forall_mem_singleton.mpr (by decide)⟩
    let declarations : List Declaration := [⟨x, [.atom (.literal a) []], []⟩,
      ⟨y, [.group [.atom (.reference x) [.negated], .atom (.literal b) []] [] [.plus]],
        []⟩]
    let rules := [(Rule.symbol 'a').named "x", ((Rule.sequence
      [Rule.terminal (CharSet.character 0x61).negate, Rule.symbol 'b']).repeated
        .plus).named "y"]
    let source := stringBytes "x = 'a'\ny=(x^ 'b')+ %c%"
    Written declarations source ∧ rules? [] declarations = some rules ∧
      (∀ d ∈ declarations, d.Fits Limits.usual) ∧
      declarations.length ≤ Limits.usual.rules ∧
      compile Limits.usual [] source = .ok rules := by
  intro x y a b declarations rules source
  have hblank : Gap [0x20] := .blank (by decide) .nothing
  have hbreak : Gap [0x0A] := .blank (by decide) .nothing
  have htext : ∀ b ∈ [0x63], Sign.of b ≠ .percent :=
    List.forall_mem_singleton.mpr (by decide)
  have hcomment : Gap [0x20, 0x25, 0x63, 0x25] :=
    .blank (by decide) (.comment htext .nothing)
  have hwritten : Written declarations source := by
    have hlaid : Written declarations _ :=
      .item .nothing ⟨[0x20], by decide, rfl⟩ <|
      .item hblank rfl <|
      .item hbreak ⟨[], by decide, rfl⟩ <|
      .item .nothing rfl <|
      .item .nothing ⟨rfl, by decide⟩ <|
      .item .nothing rfl <|
      .item hblank rfl <|
      .item .nothing rfl <|
      .item .nothing rfl <|
      .done hcomment
    exact hlaid
  have hrules : rules? [] declarations = some rules := by decide +kernel
  have hfits : ∀ d ∈ declarations, d.Fits Limits.usual := by
    simp [declarations, Declaration.Fits, Fits, OthersFit, Phrase.Fits, Atom.Fits,
      Suffix.Fits, Word.Fits, Quote.Fits, Limits.usual, x, y, a, b]
  have h :=
    compile_written Limits.usual [] rules declarations source hwritten hrules hfits
      (by decide)
  exact ⟨hwritten, hrules, hfits, by decide, h.1⟩

/-- A group with nothing in it takes no suffix, so not every declaration that can
be written and fits is compiled. -/
theorem compile_suffix_of_nothing :
    let r : Word := ⟨['r'], by decide, List.forall_mem_singleton.mpr rfl⟩
    let declaration : Declaration := ⟨r, [.group [] [] [.optional]], []⟩
    let source := stringBytes "r = ()?"
    Written [declaration] source ∧ declaration.Fits Limits.usual ∧
      compile Limits.usual [] source = .error (.unexpected .rule 6 0x3F) := by
  intro r declaration source
  have hblank : Gap [0x20] := .blank (by decide) .nothing
  have hwritten : Written [declaration] _ :=
    .item .nothing ⟨[0x20], by decide, rfl⟩ <|
    .item hblank rfl <|
    .item .nothing rfl <|
    .item .nothing rfl <|
    .done .nothing
  refine ⟨hwritten, ?_, rfl⟩
  simp [declaration, r, Declaration.Fits, Fits, OthersFit, Phrase.Fits,
    Suffix.Fits, Word.Fits, Limits.usual]

end RuleGraph.Terse
