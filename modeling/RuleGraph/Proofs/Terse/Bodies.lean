import RuleGraph.Proofs.Chains
import RuleGraph.Proofs.Terse.Brackets

/-!
# Bodies are read token by token

`Moves` says what a token does to a body, in terms of scopes only, and
`Moves.yields` that the reader does the same with the bytes of the token. That
is all that remains of the bytes: what a body comes to can then be told from its
tokens.

Two kinds of token need to know what follows them. A name after a backslash or
an at sign ends where no letter follows. A bare name outside of every group must
also not be declared, which `Undeclared` says of what follows. It is no
condition on how tokens are written, since no token begins with an equals sign.
-/

namespace RuleGraph.Terse

/-- A body between two tokens, without the offsets that only errors need. -/
structure Desk where
  title : String
  /-- The scopes around the open groups, innermost first. -/
  outer : List Scope
  scope : Scope

/-- A state in which a body has come to this, except for what is being read. -/
def Desk.state (d : Desk) (filed : List Rule) (offset : Nat) (groups : List Group)
    (lexeme : Lexeme) : State :=
  ⟨filed, CharSet.empty, offset, .body ⟨d.title, groups, d.scope, lexeme⟩⟩

/-- The rules that reading a source to its end declares. -/
def State.complete (limits : Limits) (s : State) (source : Bytes) :
    Except GrammarError (List Rule) := do
  let s ← s.run limits source
  s.finish limits

/-- From this body and lexeme on, a source leads to these rules, at any
offset. -/
def Desk.Yields (limits : Limits) (filed rules : List Rule) (d : Desk) (lexeme : Lexeme)
    (source : Bytes) : Prop :=
  ∀ offset groups, groups.map Group.outer = d.outer →
    (d.state filed offset groups lexeme).complete limits source = .ok rules

variable {limits : Limits} {filed rules : List Rule} {d d' : Desk}
  {rest : Bytes} {b : UInt8}

def Desk.body (d : Desk) (groups : List Group) (lexeme : Lexeme) : Body :=
  ⟨d.title, groups, d.scope, lexeme⟩

/-! ## Single bytes -/

theorem Desk.stepPhase_state (offset : Nat) (groups : List Group) (lexeme : Lexeme) :
    (d.state filed offset groups lexeme).stepPhase limits b =
      (d.state filed offset groups lexeme).stepBody limits (d.body groups lexeme) b := rfl

theorem Desk.finish_state (offset : Nat) (groups : List Group) (lexeme : Lexeme) :
    (d.state filed offset groups lexeme).finish limits =
      (d.state filed offset groups lexeme).finishBody limits (d.body groups lexeme) := rfl

theorem Desk.put_body {r : Rule} {scope : Scope} (hput : d.scope.put limits r = .ok scope)
    (groups : List Group) (lexeme : Lexeme) :
    (d.body groups lexeme).put limits r =
      .ok ({ d with scope := scope }.body groups .idle) := by
  unfold Body.put
  dsimp only [Desk.body]
  rw [hput]
  rfl

theorem Desk.suffix_body {r : Rule} {f : Rule → Rule}
    (hcurrent : d.scope.current = some r) (groups : List Group) (lexeme : Lexeme)
    (offset : Nat) :
    (d.body groups lexeme).suffix offset b f =
      .ok ({ d with scope := { d.scope with current := some (f r) } }.body groups
        .idle) := by
  unfold Body.suffix
  dsimp only [Desk.body]
  rw [hcurrent]
  rfl

theorem State.complete_nil (s : State) : s.complete limits [] = s.finish limits := rfl

theorem State.complete_cons (s : State) :
    s.complete limits (b :: rest) = (s.step limits b).bind (·.complete limits rest) := by
  unfold State.complete State.run
  rw [List.foldlM_cons]
  cases s.step limits b <;> rfl

theorem State.complete_step (s : State) :
    s.complete limits (b :: rest) = (s.stepPhase limits b).bind fun next =>
      { next with offset := s.offset + 1 }.complete limits rest := by
  rw [State.complete_cons, State.step]
  cases s.stepPhase limits b <;> rfl

theorem State.complete_of_step {s s' : State} (hstep : s.stepPhase limits b = .ok s')
    (hrest : { s' with offset := s.offset + 1 }.complete limits rest = .ok rules) :
    s.complete limits (b :: rest) = .ok rules := by
  rw [State.complete_cons, State.step, hstep]
  exact hrest

theorem State.run_cons_eq_ok {s s' : State} (h : s.run limits (b :: rest) = .ok s') :
    ∃ next, s.stepPhase limits b = .ok next ∧
      { next with offset := s.offset + 1 }.run limits rest = .ok s' := by
  rw [State.run, List.foldlM_cons] at h
  obtain ⟨_, hstep, hrest⟩ := bind_eq_ok h
  obtain ⟨next, hphase, hnext⟩ := bind_eq_ok hstep
  cases hnext
  exact ⟨next, hphase, hrest⟩

theorem compile_append {s : State} {before : Bytes}
    (hbefore : (State.start filed).run limits before = .ok s) (rest : Bytes) :
    compile limits filed (before ++ rest) = s.complete limits rest := by
  rw [compile, State.run_append, hbefore]
  rfl

/-- States that do the same with the next byte, or with the end, do the same. -/
theorem State.complete_congr {s s' : State} (hoffset : s.offset = s'.offset)
    (hfinish : s.finish limits = s'.finish limits)
    (hhead : ∀ b ∈ rest.head?, s.stepPhase limits b = s'.stepPhase limits b) :
    s.complete limits rest = s'.complete limits rest := by
  cases rest with
  | nil => exact hfinish
  | cons b rest =>
    rw [State.complete_cons, State.complete_cons, State.step, State.step,
      hhead b rfl, hoffset]

theorem Desk.Yields.step {scope : Scope} {lexeme : Lexeme} (next : Nat → Lexeme)
    (hstep : ∀ offset groups, groups.map Group.outer = d.outer →
      (d.state filed offset groups lexeme).stepBody limits (d.body groups lexeme) b =
        .ok ({ d with scope := scope }.state filed offset groups (next offset)))
    (h : ∀ offset,
      { d with scope := scope }.Yields limits filed rules (next offset) rest) :
    d.Yields limits filed rules lexeme (b :: rest) := by
  intro offset groups hgroups
  exact State.complete_of_step (hstep offset groups hgroups)
    (h offset (offset + 1) groups hgroups)

theorem Desk.Yields.put {r : Rule} {scope : Scope}
    (hput : d.scope.put limits r = .ok scope) (hstep : ∀ (s : State) (body : Body),
      s.inBody limits body b = s.toBody <$> body.put limits r)
    (h : { d with scope := scope }.Yields limits filed rules .idle rest) :
    d.Yields limits filed rules .idle (b :: rest) := by
  refine .step (fun _ => .idle) (fun offset groups _ => (hstep _ _).trans ?_) fun _ => h
  rw [put_body hput]
  rfl

theorem Desk.Yields.suffix {r : Rule} {f : Rule → Rule}
    (hcurrent : d.scope.current = some r) (hstep : ∀ (s : State) (body : Body),
      s.inBody limits body b = s.toBody <$> body.suffix s.offset b f)
    (h : { d with scope := { d.scope with current := some (f r) } }.Yields
      limits filed rules .idle rest) :
    d.Yields limits filed rules .idle (b :: rest) := by
  refine .step (fun _ => .idle) (fun offset groups _ => (hstep _ _).trans ?_) fun _ => h
  rw [suffix_body hcurrent]
  rfl

/-! ## Gaps -/

theorem Desk.Yields.gap {g : Bytes} (hg : Gap g)
    (h : d.Yields limits filed rules .idle rest) :
    d.Yields limits filed rules .idle (g ++ rest) := by
  refine Gap.read (fun rest => ∀ start, d.Yields limits filed rules (.comment start) rest)
    ?_ ?_ ?_ ?_ hg h
  · intro b rest hb h
    refine .step (fun _ => .idle) (fun _ _ _ => ?_) fun _ => h
    show State.inBody _ _ _ _ = _
    unfold State.inBody
    rw [hb]
    rfl
  · exact fun h => .step .comment (fun _ _ _ => rfl) h
  · intro b rest hb h start
    refine .step (fun _ => .comment start) (fun _ _ _ => ?_) fun _ => h start
    unfold State.stepBody
    dsimp only [Desk.body]
    rw [if_neg hb]
    rfl
  · exact fun h start => .step (fun _ => .idle) (fun _ _ _ => rfl) fun _ => h

/-! ## Texts and names -/

theorem Desk.Yields.literal (q : Quote) (hfits : q.Fits limits) {scope : Scope}
    (hput : d.scope.put limits (Rule.literal q.text) = .ok scope)
    (h : { d with scope := scope }.Yields limits filed rules .idle rest) :
    d.Yields limits filed rules .idle (q.bytes ++ rest) := by
  refine Quote.read
    (fun text rest => ∀ start, d.Yields limits filed rules (.literal start text)
      rest) q hfits ?_ ?_ ?_ h
  · exact fun h => .step (fun offset => .literal offset #[]) (fun _ _ _ => rfl) h
  · intro text b rest hb hlt hrest start
    refine .step (fun _ => .literal start (text.push b)) (fun _ _ _ => ?_) fun _ =>
      hrest start
    unfold State.stepBody
    dsimp only [Desk.body]
    rw [if_neg hb, push_of_lt hlt]
    rfl
  · intro rest h start
    refine .step (fun _ => .idle) (fun _ _ _ => ?_) fun _ => h
    show Functor.map _ ((d.body _ _).put limits (Rule.literal q.text)) = _
    rw [put_body hput]
    rfl

/-- A name after a sign of its own, where `lexeme` is what is read while its
bytes are, and `finish` what becomes of the body after them. -/
theorem Desk.Yields.name {lexeme : Text → Lexeme}
    (finish : Body → Text → Except GrammarError Body) {scope : Scope} (w : Word)
    (hfits : w.Fits limits) (hrest : Closed rest) (hstep : ∀ offset groups text b,
      (d.state filed offset groups (lexeme text)).stepBody limits
      (d.body groups (lexeme text)) b =
        (d.state filed offset groups (lexeme text)).inName limits
        (d.body groups (lexeme text)) text
          lexeme (finish (d.body groups (lexeme text)) text) b)
    (hend : ∀ offset groups text,
      (d.state filed offset groups (lexeme text)).finishBody limits
      (d.body groups (lexeme text)) =
        if text.isEmpty then .error (.unclosed .name offset)
        else do
          (d.state filed offset groups (lexeme text)).closeBody limits
            (← finish (d.body groups (lexeme text)) text))
    (hfinish : ∀ groups lexeme, finish (d.body groups lexeme) w.bytes.toArray =
      .ok ({ d with scope := scope }.body groups .idle))
    (h : { d with scope := scope }.Yields limits filed rules .idle rest) :
    d.Yields limits filed rules (lexeme #[]) (w.bytes ++ rest) := by
  have hne : w.bytes.toArray.isEmpty = false := by simpa using w.bytes_ne_nil
  have hclose : d.Yields limits filed rules (lexeme (#[] ++ w.bytes.toArray)) rest := by
    rw [Array.empty_append]
    intro offset groups hgroups
    rw [← h offset groups hgroups]
    refine State.complete_congr rfl ?_ fun b hb => ?_
    · rw [finish_state, finish_state, hend, hne, hfinish]
      rfl
    · rw [stepPhase_state, stepPhase_state, hstep, State.inName, if_neg (hrest b hb),
        hne, hfinish]
      rfl
  refine collect (fun text rest => d.Yields limits filed rules (lexeme text) rest) ?_
    w.sign_bytes (by simpa [Word.Fits, w.length_bytes] using hfits) hclose
  intro text b rest hb hlt hrest
  refine .step (fun _ => lexeme (text.push b)) (fun offset groups _ => ?_) fun _ => hrest
  rw [hstep, State.inName, if_pos hb, push_of_lt hlt]
  rfl

theorem Desk.Yields.inclusion (w : Word) (hfits : w.Fits limits) {scope : Scope}
    (hput : d.scope.put limits (included filed w.name) = .ok scope) (hrest : Closed rest)
    (h : { d with scope := scope }.Yields limits filed rules .idle rest) :
    d.Yields limits filed rules .idle (ascii ['\\'] ++ (w.bytes ++ rest)) := by
  have hname : d.Yields limits filed rules (.inclusion #[]) (w.bytes ++ rest) := by
    refine .name (Body.adopt limits filed) w hfits hrest (fun _ _ _ _ => rfl)
      (fun _ _ _ => rfl) (fun groups lexeme => ?_) h
    rw [Body.adopt, w.nameOf_bytes, put_body hput]
  exact .step (fun _ => .inclusion #[]) (fun _ _ _ => rfl) fun _ => hname

theorem Desk.Yields.label (w : Word) (hfits : w.Fits limits) {r : Rule}
    (hcurrent : d.scope.current = some r) (hrest : Closed rest)
    (h : { d with scope := { d.scope with current := some (r.named w.name) } }.Yields
      limits filed rules .idle rest) :
    d.Yields limits filed rules .idle (ascii ['@'] ++ (w.bytes ++ rest)) := by
  have hname (start : Nat) : d.Yields limits filed rules (.label start #[])
      (w.bytes ++ rest) := by
    refine .name (Body.attach · start) w hfits hrest (fun _ _ _ _ => rfl)
      (fun _ _ _ => rfl) (fun groups lexeme => ?_) h
    rw [Body.attach, w.nameOf_bytes, suffix_body hcurrent]
  exact .step (fun offset => .label offset #[]) (fun _ _ _ => rfl) hname

/-! ## Braces and brackets -/

/-- Braces in a body come to their end where they do by themselves. -/
theorem Desk.Yields.braces {r : Rule} (hcurrent : d.scope.current = some r)
    {braces : Braces} {low high offset : Nat} {inner : Bytes}
    (hinner : Reads (Braces.step limits) (low, high) braces offset inner)
    (h : { d with scope :=
      { d.scope with current := some (r.repeated (Bound.between low high)) } }
      |>.Yields limits filed rules .idle rest) {groups : List Group}
    (hgroups : groups.map Group.outer = d.outer) :
    (d.state filed offset groups (.braces braces)).complete limits (inner ++ rest) =
      .ok rules := by
  induction hinner with
  | @last braces offset b hstep =>
    have hnext : (d.state filed offset groups (.braces braces)).stepPhase limits b =
        .ok ({ d with scope := { d.scope with
          current := some (r.repeated (Bound.between low high)) } }.state filed
            offset groups .idle) := by
      rw [stepPhase_state]
      unfold State.stepBody
      dsimp only [Desk.body, Desk.state]
      rw [hstep]
      show Functor.map _ ((d.body _ _).suffix _ _ _) = _
      rw [suffix_body hcurrent]
      rfl
    exact State.complete_of_step hnext (h (offset + 1) groups hgroups)
  | @going braces braces' offset b inner hstep _ ih =>
    have hnext : (d.state filed offset groups (.braces braces)).stepPhase limits b =
        .ok (d.state filed offset groups (.braces braces')) := by
      rw [stepPhase_state]
      unfold State.stepBody
      dsimp only [Desk.body, Desk.state]
      rw [hstep]
      rfl
    exact State.complete_of_step hnext ih

theorem Desk.Yields.brackets {set : CharSet} {scope : Scope}
    (hput : d.scope.put limits (Rule.terminal set) = .ok scope) {brackets : Brackets}
    {offset : Nat} {inner : Bytes}
    (hinner : Reads (Brackets.step limits filed) set brackets offset inner)
    (h : { d with scope := scope }.Yields limits filed rules .idle rest)
    {groups : List Group} (hgroups : groups.map Group.outer = d.outer) :
    (d.state filed offset groups (.brackets brackets)).complete limits (inner ++ rest) =
      .ok rules := by
  induction hinner with
  | @last brackets offset b hstep =>
    have hnext : (d.state filed offset groups (.brackets brackets)).stepPhase limits b =
        .ok ({ d with scope := scope }.state filed offset groups .idle) := by
      rw [stepPhase_state]
      unfold State.stepBody
      dsimp only [Desk.body, Desk.state]
      rw [hstep]
      show ((d.body _ _).put limits (Rule.terminal set)).bind _ = _
      rw [put_body hput]
      rfl
    exact State.complete_of_step hnext (h (offset + 1) groups hgroups)
  | @going brackets brackets' offset b inner hstep _ ih =>
    have hnext : (d.state filed offset groups (.brackets brackets)).stepPhase limits b =
        .ok (d.state filed offset groups (.brackets brackets')) := by
      rw [stepPhase_state]
      unfold State.stepBody
      dsimp only [Desk.body, Desk.state]
      rw [hstep]
      rfl
    exact State.complete_of_step hnext ih

theorem Desk.Yields.between {marks : List Mark} {bytes : Bytes}
    (hfits : ∀ m ∈ marks, m.Fits limits) (hbraced : Braced marks bytes) {r : Rule}
    (hcurrent : d.scope.current = some r)
    (h : { d with scope :=
      { d.scope with current := some (r.repeated (Places.of marks).bound) } }
      |>.Yields limits filed rules .idle rest) :
    d.Yields limits filed rules .idle (bytes ++ rest) := by
  obtain ⟨inner, rfl, hlaid⟩ := hbraced
  intro offset groups hgroups
  have hinner : Reads (Braces.step limits) ((Places.of marks).low, (Places.of marks).high)
      (Braces.start offset) (offset + 1) inner := reads_braces hfits hlaid (offset + 1)
  rw [List.append_assoc]
  exact State.complete_of_step rfl (Desk.Yields.braces hcurrent hinner h hgroups)

theorem Desk.Yields.bracketed {parts : List Part} {bytes : Bytes}
    (hfits : ∀ p ∈ parts, p.Fits limits) (hbracketed : Bracketed parts bytes)
    {set : CharSet} (hset : unionOf? filed CharSet.empty parts = some set) {scope : Scope}
    (hput : d.scope.put limits (Rule.terminal set) = .ok scope)
    (h : { d with scope := scope }.Yields limits filed rules .idle rest) :
    d.Yields limits filed rules .idle (bytes ++ rest) := by
  obtain ⟨inner, rfl, hlaid⟩ := hbracketed
  intro offset groups hgroups
  have hinner : Reads (Brackets.step limits filed) set
      (Brackets.start offset CharSet.empty)
      (offset + 1) inner := reads_brackets hfits hset hlaid (offset + 1)
  rw [List.append_assoc]
  exact State.complete_of_step rfl (Desk.Yields.brackets hput hinner h hgroups)

/-! ## Bare names -/

/-- After blanks, if there are any, no equals sign stands in front. -/
def Undeclared : Bytes → Prop
  | [] => True
  | b :: rest => if Sign.of b = .blank then Undeclared rest else Sign.of b ≠ .equals

theorem Desk.Yields.bare (w : Word) (hfits : w.Fits limits)
    (h : d.Yields limits filed rules (.name w.bytes.toArray) rest) :
    d.Yields limits filed rules .idle (w.bytes ++ rest) := by
  obtain ⟨b, more, hbytes, hb, hpush, hmore⟩ := w.collect
    (fun text rest => d.Yields limits filed rules (.name text) rest) hfits
    (by
      intro text b rest hb hlt hrest
      refine .step (fun _ => .name (text.push b)) (fun _ _ _ => ?_) fun _ => hrest
      unfold State.stepBody
      dsimp only [Desk.body]
      rw [if_pos hb, push_of_lt hlt]
      rfl) h
  rw [hbytes]
  refine .step (fun _ => .name #[b]) (fun _ _ _ => ?_) fun _ => hmore
  show State.inBody _ _ _ _ = _
  unfold State.inBody
  rw [hb, hpush]
  rfl

theorem Desk.complete_name {text : Text} (hrest : Closed rest) (offset : Nat)
    (groups : List Group) :
    (d.state filed offset groups (.name text)).complete limits rest =
      (d.state filed offset groups (.waiting text)).complete limits rest :=
  State.complete_congr rfl rfl fun b hb => if_neg (hrest b hb)

theorem State.afterName_of_ne {s : State} {body : Body} {text : Text}
    (hb : body.groups.isEmpty = true → Sign.of b ≠ .blank ∧ Sign.of b ≠ .equals) :
    s.afterName limits body text b =
      (body.refer limits text).bind (s.inBody limits · b) := by
  unfold State.afterName
  split
  · rename_i hempty hblank
    exact absurd hblank (hb hempty).1
  · rename_i hempty hequals
    exact absurd hequals (hb hempty).2
  · rfl

theorem Body.lexeme_of_put {body next : Body} {r : Rule}
    (h : body.put limits r = .ok next) : next.lexeme = .idle := by
  obtain ⟨scope, -, hnext⟩ := bind_eq_ok h
  cases hnext
  rfl

/-- Outside of every group a name goes on waiting at a blank. -/
theorem State.stepPhase_waiting (s : State) (body : Body)
    (hempty : body.groups.isEmpty = true) (text : Text) (hb : Sign.of b = .blank) :
    (s.toBody (body.reading (.waiting text))).stepPhase limits b =
      .ok (s.toBody (body.reading (.waiting text))) := by
  have hempty' : (body.reading (.waiting text)).groups.isEmpty = true := hempty
  show State.afterName _ _ (body.reading _) _ _ = _
  unfold State.afterName
  rw [hempty', hb]
  rfl

theorem State.stepPhase_idle {body : Body} (hlexeme : body.lexeme = .idle) (s : State) :
    (s.toBody body).stepPhase limits b = s.inBody limits body b := by
  show State.stepBody _ _ _ _ = _
  unfold State.stepBody
  rw [hlexeme]
  rfl

theorem State.complete_idle_blank {body : Body} (hlexeme : body.lexeme = .idle)
    (hb : Sign.of b = .blank) (s : State) :
    (s.toBody body).complete limits (b :: rest) =
      ({ s with offset := s.offset + 1 }.toBody body).complete limits rest := by
  obtain ⟨title, groups, scope, lexeme⟩ := body
  cases hlexeme
  rw [State.complete_cons, State.step, State.stepPhase_idle rfl]
  unfold State.inBody
  rw [hb]
  rfl

/-- A name that waits and is not declared is a reference. In a group no name is
declared. -/
theorem State.complete_waiting (s : State) (body : Body) (text : Text)
    (hrest : body.groups.isEmpty = true → Undeclared rest) :
    (s.toBody (body.reading (.waiting text))).complete limits rest =
      (body.refer limits text).bind fun next => (s.toBody next).complete limits rest := by
  have hrefer : (body.reading (.waiting text)).refer limits text =
      body.refer limits text := rfl
  induction rest generalizing s with
  | nil =>
    rw [State.complete_nil]
    show Except.bind ((body.reading _).refer limits text) _ = _
    rw [hrefer]
    cases h : body.refer limits text with
    | error e => rfl
    | ok next =>
      show s.closeBody limits next = (s.toBody next).finishBody limits next
      unfold State.finishBody
      rw [Body.lexeme_of_put h]
      rfl
  | cons b rest ih =>
    have hafter
        (hb : body.groups.isEmpty = true → Sign.of b ≠ .blank ∧ Sign.of b ≠ .equals) :
        (s.toBody (body.reading (.waiting text))).complete limits (b :: rest) =
          (body.refer limits text).bind fun next =>
            (s.toBody next).complete limits (b :: rest) := by
      have hwaiting : (body.reading (.waiting text)).groups.isEmpty = true →
          Sign.of b ≠ .blank ∧ Sign.of b ≠ .equals := hb
      rw [State.complete_cons, State.step]
      show (Except.bind (State.afterName _ _ (body.reading _) _ _) _).bind _ = _
      rw [State.afterName_of_ne hwaiting, hrefer]
      cases h : body.refer limits text with
      | error e => rfl
      | ok next =>
        show _ = (s.toBody next).complete limits (b :: rest)
        rw [State.complete_cons, State.step, State.stepPhase_idle (Body.lexeme_of_put h)]
        rfl
    by_cases hempty : body.groups.isEmpty = true
    · have hrest := hrest hempty
      rw [Undeclared] at hrest
      split at hrest
      · rename_i hblank
        -- both go on waiting for what follows the blank
        rw [State.complete_cons, State.step,
          State.stepPhase_waiting s body hempty text hblank]
        refine (ih { s with offset := s.offset + 1 } fun _ => hrest).trans ?_
        cases h : body.refer limits text with
        | error e => rfl
        | ok next =>
          exact (State.complete_idle_blank (Body.lexeme_of_put h) hblank s).symm
      · rename_i hblank
        exact hafter fun _ => ⟨hblank, hrest⟩
    · exact hafter fun h => absurd h hempty

theorem Desk.complete_waiting {text : Text} {scope : Scope}
    (hput : d.scope.put limits (Rule.reference (nameOf text)) = .ok scope)
    (hrest : Undeclared rest) (offset : Nat) (groups : List Group) :
    (d.state filed offset groups (.waiting text)).complete limits rest =
      ({ d with scope := scope }.state filed offset groups .idle).complete
      limits rest := by
  refine (State.complete_waiting (d.state filed offset groups .idle)
    (d.body groups .idle) text fun _ => hrest).trans ?_
  rw [Body.refer, put_body hput]
  rfl

theorem Desk.Yields.reference (w : Word) (hfits : w.Fits limits) {scope : Scope}
    (hput : d.scope.put limits (Rule.reference w.name) = .ok scope)
    (hclosed : Closed rest) (hrest : Undeclared rest)
    (h : { d with scope := scope }.Yields limits filed rules .idle rest) :
    d.Yields limits filed rules .idle (w.bytes ++ rest) := by
  refine .bare w hfits fun offset groups hgroups => ?_
  rw [complete_name hclosed, complete_waiting (w.nameOf_bytes ▸ hput) hrest]
  exact h offset groups hgroups

/-! ## Tokens -/

/-- What a token does to a body, if it may stand there and fits. -/
inductive Moves (limits : Limits) (filed : List Rule) : Desk → Token → Desk → Prop
  | atom {d : Desk} {a : Atom} {r : Rule} {scope : Scope} : a.Fits limits →
      a.rule? filed = some r → d.scope.put limits r = .ok scope →
      Moves limits filed d (.atom a) { d with scope := scope }
  | suffix {d : Desk} {s : Suffix} {r r' : Rule} : s.Fits limits →
      d.scope.current = some r → s.applied? filed r = some r' →
      Moves limits filed d (.suffix s)
        { d with scope := { d.scope with current := some r' } }
  | opening {d : Desk} {scope : Scope} : d.outer.length < limits.nesting →
      d.scope.settle limits = .ok scope →
      Moves limits filed d .opening ⟨d.title, scope :: d.outer, Scope.empty⟩
  | empty {title : String} {outer : List Scope} {around scope : Scope} :
      scope.fold limits = .ok none →
      Moves limits filed ⟨title, around :: outer, scope⟩ .closing ⟨title, outer, around⟩
  | closing {title : String} {outer : List Scope} {around scope next : Scope} {r : Rule} :
      scope.fold limits = .ok (some r) → around.put limits r = .ok next →
      Moves limits filed ⟨title, around :: outer, scope⟩ .closing ⟨title, outer, next⟩
  | bar {d : Desk} {scope : Scope} : d.scope.alternate limits = .ok scope →
      Moves limits filed d .bar { d with scope := scope }

theorem Desk.Yields.atom {a : Atom} {r : Rule} {scope : Scope} {bytes : Bytes}
    (hfits : a.Fits limits) (hrule : a.rule? filed = some r)
    (hput : d.scope.put limits r = .ok scope) (hspelled : a.Spelled bytes rest)
    (hrest : Undeclared rest)
    (h : { d with scope := scope }.Yields limits filed rules .idle rest) :
    d.Yields limits filed rules .idle (bytes ++ rest) := by
  cases a with
  | literal q =>
    cases hspelled
    cases hrule
    exact .literal q hfits hput h
  | brackets parts =>
    obtain ⟨set, hset, rfl⟩ := Option.map_eq_some_iff.mp hrule
    exact .bracketed hfits hspelled hset hput h
  | inclusion w =>
    obtain ⟨rfl, hclosed⟩ := hspelled
    cases hrule
    rw [List.append_assoc]
    exact .inclusion w hfits hput hclosed h
  | spacing contract =>
    cases hspelled
    cases hrule
    exact .put hput (fun _ _ => by cases contract <;> rfl) h
  | completion | decision =>
    cases hspelled
    cases hrule
    exact .put hput (fun _ _ => rfl) h
  | reference w =>
    obtain ⟨rfl, hclosed⟩ := hspelled
    cases hrule
    exact .reference w hfits hput hclosed hrest h

theorem charSetOf_of_setOf? {r : Rule} {set : CharSet} (h : setOf? filed r = some set)
    (offset : Nat) : charSetOf filed offset (some r) = .ok set := by
  rw [charSetOf_eq, Option.bind_some, h]

theorem Desk.Yields.negated {r : Rule} {set : CharSet}
    (hcurrent : d.scope.current = some r) (hset : setOf? filed r = some set)
    (h : { d with scope := { d.scope with current := some (Rule.terminal set.negate) } }
      |>.Yields limits filed rules .idle rest) :
    d.Yields limits filed rules .idle (ascii ['^'] ++ rest) := by
  refine .step (fun _ => .idle) (fun offset groups _ => ?_) fun _ => h
  show (charSetOf filed offset d.scope.current).bind _ = _
  rw [hcurrent, charSetOf_of_setOf? hset]
  rfl

theorem Desk.Yields.applied {s : Suffix} {r r' : Rule} {bytes : Bytes}
    (hfits : s.Fits limits) (hcurrent : d.scope.current = some r)
    (happly : s.applied? filed r = some r') (hspelled : s.Spelled bytes rest)
    (h : { d with scope := { d.scope with current := some r' } }.Yields limits
      filed rules .idle rest) :
    d.Yields limits filed rules .idle (bytes ++ rest) := by
  cases s with
  | optional | star | plus | ahead =>
    cases hspelled
    cases happly
    exact .suffix hcurrent (fun _ _ => rfl) h
  | between marks =>
    cases happly
    exact .between hfits hspelled hcurrent h
  | named w =>
    obtain ⟨rfl, hclosed⟩ := hspelled
    cases happly
    rw [List.append_assoc]
    exact .label w hfits hcurrent hclosed h
  | negated =>
    cases hspelled
    obtain ⟨set, hset, rfl⟩ := Option.map_eq_some_iff.mp happly
    exact .negated hcurrent hset h

/-- The reader does with the bytes of a token what the token does. -/
theorem Moves.yields {t : Token} {bytes : Bytes} (hmove : Moves limits filed d t d')
    (hspelled : t.Spelled bytes rest) (hrest : Undeclared rest)
    (h : d'.Yields limits filed rules .idle rest) :
    d.Yields limits filed rules .idle (bytes ++ rest) := by
  cases hmove with
  | atom hfits hrule hput => exact .atom hfits hrule hput hspelled hrest h
  | suffix hfits hcurrent happly => exact .applied hfits hcurrent happly hspelled h
  | @opening _ scope hnesting hsettle =>
    cases hspelled
    intro offset groups hgroups
    have hlength : groups.length < limits.nesting := by
      rw [← hgroups, List.length_map] at hnesting
      exact hnesting
    have hopen : (d.body groups .idle).openGroup limits offset =
        .ok ⟨d.title, ⟨offset, scope⟩ :: groups, Scope.empty, .idle⟩ := by
      refine (if_pos hlength).trans ?_
      show (d.scope.settle limits).bind _ = _
      rw [hsettle]
      rfl
    have hnext : (d.state filed offset groups .idle).stepPhase limits ('(').toUInt8 =
        .ok ((⟨d.title, scope :: d.outer, Scope.empty⟩ : Desk).state filed offset
          (⟨offset, scope⟩ :: groups) .idle) := by
      show Functor.map _ ((d.body groups .idle).openGroup limits offset) = _
      rw [hopen]
      rfl
    exact State.complete_of_step hnext (h (offset + 1) _ (congrArg (scope :: ·) hgroups))
  | @empty title outer around scope hfold =>
    cases hspelled
    intro offset groups hgroups
    cases groups with
    | nil => cases hgroups
    | cons g groups =>
      obtain ⟨rfl, hinner⟩ := List.cons.inj hgroups
      have hnext :
          ((⟨title, g.outer :: outer, scope⟩ : Desk).state filed offset (g :: groups)
            .idle).stepPhase limits (')').toUInt8 =
            .ok ((⟨title, outer, g.outer⟩ : Desk).state filed offset groups .idle) := by
        show Functor.map _ ((scope.fold limits).bind _) = _
        rw [hfold]
        rfl
      exact State.complete_of_step hnext (h (offset + 1) groups hinner)
  | @closing title outer around scope next r hfold hput =>
    cases hspelled
    intro offset groups hgroups
    cases groups with
    | nil => cases hgroups
    | cons g groups =>
      obtain ⟨rfl, hinner⟩ := List.cons.inj hgroups
      have hnext :
          ((⟨title, g.outer :: outer, scope⟩ : Desk).state filed offset (g :: groups)
            .idle).stepPhase limits (')').toUInt8 =
            .ok ((⟨title, outer, next⟩ : Desk).state filed offset groups .idle) := by
        show Functor.map _ ((scope.fold limits).bind _) = _
        rw [hfold]
        show Functor.map _ ((g.outer.put limits r).bind _) = _
        rw [hput]
        rfl
      exact State.complete_of_step hnext (h (offset + 1) groups hinner)
  | bar halternate =>
    cases hspelled
    refine .step (fun _ => .idle) (fun offset groups _ => ?_) fun _ => h
    show (d.scope.alternate limits).bind _ = _
    rw [halternate]
    rfl

/-! ## No token begins with an equals sign -/

theorem Undeclared.of_sign (hblank : Sign.of b ≠ .blank) (hequals : Sign.of b ≠ .equals) :
    Undeclared (b :: rest) := by
  rw [Undeclared, if_neg hblank]
  exact hequals

theorem Undeclared.word (w : Word) (tail : Bytes) : Undeclared (w.bytes ++ tail) := by
  have hword := w.sign_bytes
  cases hbytes : w.bytes with
  | nil => exact absurd hbytes w.bytes_ne_nil
  | cons b more =>
    rw [hbytes] at hword
    have hb := hword b List.mem_cons_self
    exact .of_sign (by rw [hb]; decide) (by rw [hb]; decide)

theorem Undeclared.gap {g : Bytes} (hg : Gap g) (h : Undeclared rest) :
    Undeclared (g ++ rest) := by
  induction hg with
  | nothing => exact h
  | blank hb _ ih =>
    rw [List.cons_append, Undeclared, if_pos hb]
    exact ih
  | comment _ _ _ =>
    rw [List.append_assoc]
    exact .of_sign (by decide) (by decide)

theorem Undeclared.token {t : Token} {bytes : Bytes} (hspelled : t.Spelled bytes rest) :
    Undeclared (bytes ++ rest) := by
  cases t with
  | title w =>
    obtain ⟨blanks, -, rfl⟩ := hspelled
    rw [List.append_assoc]
    exact .word w _
  | opening | closing | bar =>
    cases hspelled
    exact .of_sign (by decide) (by decide)
  | atom a =>
    cases a with
    | literal q =>
      cases hspelled
      exact .of_sign (by decide) (by decide)
    | brackets parts =>
      obtain ⟨inner, rfl, -⟩ := hspelled
      exact .of_sign (by decide) (by decide)
    | inclusion w =>
      obtain ⟨rfl, -⟩ := hspelled
      exact .of_sign (by decide) (by decide)
    | spacing contract =>
      cases hspelled
      cases contract <;> exact .of_sign (by decide) (by decide)
    | completion | decision =>
      cases hspelled
      exact .of_sign (by decide) (by decide)
    | reference w =>
      obtain ⟨rfl, -⟩ := hspelled
      exact .word w _
  | suffix s =>
    cases s with
    | optional | star | plus | ahead | negated =>
      cases hspelled
      exact .of_sign (by decide) (by decide)
    | between marks =>
      obtain ⟨inner, rfl, -⟩ := hspelled
      exact .of_sign (by decide) (by decide)
    | named w =>
      obtain ⟨rfl, -⟩ := hspelled
      exact .of_sign (by decide) (by decide)

theorem Undeclared.laid {tokens : List Token} {source : Bytes}
    (h : Laid Gap Token.Spelled [] tokens source) : Undeclared source := by
  cases h with
  | done hg => exact .gap hg trivial
  | item hg hspelled _ => exact .gap hg (.token hspelled)

end RuleGraph.Terse
