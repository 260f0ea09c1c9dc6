import RuleGraph.Proofs.Chains
import RuleGraph.Proofs.Terse.Writing

/-!
# What is quoted and what is carried over

Most bytes of a source are read for what they are. The text of a comment and
that of a literal are not, and where these begin and end can be told from the
bytes alone, without the reader: a percent sign opens a comment and a quote opens
a literal wherever the one or the other can stand at all.

So it is a property of the text whether a sign occurs in it as an operator. The
operator for carrying and the end of a bracket class are the only ones after
which another set is carried over. A source in which the first does not occur
leaves nothing carried over.
-/

namespace RuleGraph.Terse

inductive Quoting
  | plain
  | comment
  | literal
deriving DecidableEq

namespace Quoting

def after : Quoting → UInt8 → Quoting
  | plain, b =>
    match Sign.of b with
    | .percent => comment
    | .quote => literal
    | _ => plain
  | comment, b => if Sign.of b = .percent then plain else comment
  | literal, b => if Sign.of b = .quote then plain else literal

/-- A sign does not occur outside of comments and literals. -/
def Lacks (sign : Sign) : Quoting → Bytes → Prop
  | _, [] => True
  | q, b :: rest => (q = plain → Sign.of b ≠ sign) ∧ (q.after b).Lacks sign rest

instance (sign : Sign) :
    (q : Quoting) → (source : Bytes) → Decidable (q.Lacks sign source)
  | _, [] => .isTrue trivial
  | q, b :: rest =>
    have : Decidable ((q.after b).Lacks sign rest) :=
      instDecidableLacks sign (q.after b) rest
    inferInstanceAs
      (Decidable ((q = plain → Sign.of b ≠ sign) ∧ (q.after b).Lacks sign rest))

end Quoting

/-! ## The reader agrees -/

def Figure.quoting : Figure → Quoting
  | .literal _ _ => .literal
  | .idle | .hexadecimal _ | .decimal _ => .plain

def Member.quoting : Member → Quoting
  | .comment _ => .comment
  | .literal _ _ => .literal
  | .range inner => inner.figure.quoting
  | .idle | .inclusion _ _ => .plain

def Lexeme.quoting : Lexeme → Quoting
  | .comment _ => .comment
  | .literal _ _ => .literal
  | .braces inner => inner.figure.quoting
  | .brackets inner => inner.member.quoting
  | .idle | .inclusion _ | .label _ _ | .name _ | .waiting _ => .plain

def Phase.quoting : Phase → Quoting
  | .comment _ _ => .comment
  | .body inner => inner.lexeme.quoting
  | .between _ | .naming _ _ => .plain

/-! ## What is carried over -/

/-- The element read last, where a name that is being read counts as one. -/
def Body.element? (filed : List Rule) (s : Body) : Option Rule :=
  match s.lexeme with
  | .inclusion text => some (included filed (nameOf text))
  | .label _ text => s.scope.current.map (·.named (nameOf text))
  | .name text | .waiting text => some (Rule.reference (nameOf text))
  | .idle | .comment _ | .literal _ _ | .braces _ | .brackets _ => s.scope.current

/-- The character set of the element read last, which an operator here would
apply to. -/
def State.operand? (s : State) : Option CharSet :=
  match s.phase with
  | .body inner => (inner.element? s.filed).bind (setOf? s.filed)
  | .between _ | .comment _ _ | .naming _ _ => none

/-- Signs behind which the same set is carried over as in front of them. -/
def Sign.keeps : Sign → Bool
  | .ampersand | .closeBracket => false
  | _ => true

/-- The set that is carried over behind a byte, where `carried` is the one in
front of it. An operator that carries over needs an operand. -/
def carriedBehind (q : Quoting) (operand? : Option CharSet) (carried : CharSet)
    (b : UInt8) : Option CharSet :=
  match q, Sign.of b with
  | .plain, .ampersand => operand?
  | .plain, .closeBracket => some CharSet.empty
  | _, _ => some carried

variable {limits : Limits} {b : UInt8}

theorem carriedBehind_eq {q : Quoting} (h : q = .plain → (Sign.of b).keeps = true)
    (operand? : Option CharSet) (carried : CharSet) :
    carriedBehind q operand? carried b = some carried := by
  unfold carriedBehind
  split
  · rename_i hsign
    have hkeeps := h rfl
    rw [hsign] at hkeeps
    cases hkeeps
  · rename_i hsign
    have hkeeps := h rfl
    rw [hsign] at hkeeps
    cases hkeeps
  · rfl

/-! ## Braces and brackets -/

/-- How a reader that is inside of another one stands behind a byte: it has come
to its end at the sign that closes it, or goes on. -/
def Reading.Quotes {σ ρ : Type} (quoting : σ → Quoting) (closing : Sign) (q : Quoting)
    (b : UInt8) :
    Reading σ ρ → Prop
  | .going s => quoting s = q.after b ∧ (q = .plain → (Sign.of b).keeps = true)
  | .done _ => q = .plain ∧ Sign.of b = closing

theorem Reading.quotes_of_sign {σ ρ : Type} {quoting : σ → Quoting}
    {closing sign : Sign} {s : σ} (hsign : Sign.of b = sign) (hkeeps : sign.keeps = true)
    (hs : Quoting.plain.after b = quoting s) :
    Ensures (.ok (.going s) : Except GrammarError (Reading σ ρ))
      (Reading.Quotes quoting closing .plain b) := by
  subst hsign
  exact .ok ⟨hs.symm, fun _ => hkeeps⟩

theorem Braces.set_figure (s : Braces) (value : Nat) : (s.set value).figure = .idle := by
  unfold Braces.set
  split <;> rfl

theorem sign_of_digitOf? {base d : Nat} (h : digitOf? base b = some d) :
    Sign.of b = .word := by
  have hsign := sign_of_isWordChar (isWordChar_of_digit? h)
  rwa [← eq_of_ofUInt8 rfl] at hsign

theorem Quoting.after_word (h : Sign.of b = .word) : plain.after b = plain := by
  rw [after, h]

theorem Braces.idle_quotes (s : Braces) (offset : Nat) (b : UInt8) :
    Ensures (s.idle offset b)
      (Reading.Quotes (·.figure.quoting) .closeBrace .plain b) := by
  unfold Braces.idle
  split <;> try rename_i hsign
  · exact Reading.quotes_of_sign hsign rfl (by rw [Quoting.after, hsign]; rfl)
  · exact .ok ⟨rfl, hsign⟩
  · exact Reading.quotes_of_sign hsign rfl (by rw [Quoting.after, hsign]; rfl)
  · exact Reading.quotes_of_sign hsign rfl (by rw [Quoting.after, hsign]; rfl)
  · exact Reading.quotes_of_sign hsign rfl
      (by rw [Quoting.after, hsign, s.set_figure]; rfl)
  · exact Reading.quotes_of_sign hsign rfl (by rw [Quoting.after, hsign]; rfl)
  · split
    · rename_i hd
      have hword := sign_of_digitOf? hd
      exact Reading.quotes_of_sign hword rfl (Quoting.after_word hword)
    · exact .error

theorem Braces.step_quotes (s : Braces) (offset : Nat) (b : UInt8) :
    Ensures (s.step limits offset b)
      (Reading.Quotes (·.figure.quoting) .closeBrace s.figure.quoting b) := by
  obtain ⟨opened, low, high, second, figure⟩ := s
  have hdigit {base d : Nat} {next : Braces} (hd : digitOf? base b = some d)
      (hnext : next.figure.quoting = .plain) :
      Ensures (.ok (.going next) : Except GrammarError (Reading Braces (Nat × Nat)))
        (Reading.Quotes (·.figure.quoting) .closeBrace .plain b) :=
    have hword := sign_of_digitOf? hd
    Reading.quotes_of_sign hword rfl ((Quoting.after_word hword).trans hnext.symm)
  unfold Braces.step
  cases figure with
  | idle => exact idle_quotes _ offset b
  | literal opened text =>
    dsimp only [Figure.quoting]
    split
    · rename_i hquote
      split
      · exact .ok
          ⟨(congrArg Figure.quoting (set_figure _ _)).trans (if_pos hquote).symm, nofun⟩
      · exact .error
    · rename_i hquote
      exact .along fun _ _ => .ok ⟨(if_neg hquote).symm, nofun⟩
  | hexadecimal value =>
    dsimp only [Figure.quoting]
    split
    · rename_i hd
      exact .along fun _ _ => hdigit hd rfl
    · exact idle_quotes _ offset b
    · exact .error
  | decimal value =>
    dsimp only [Figure.quoting]
    split
    · rename_i hd
      exact .along fun _ _ => hdigit hd rfl
    · exact idle_quotes _ offset b

theorem Brackets.idle_quotes (s : Brackets) (offset : Nat) (b : UInt8) :
    Ensures (s.idle offset b)
      (Reading.Quotes (·.member.quoting) .closeBracket .plain b) := by
  unfold Brackets.idle
  split <;> try rename_i hsign
  · exact Reading.quotes_of_sign hsign rfl (by rw [Quoting.after, hsign]; rfl)
  · exact .ok ⟨rfl, hsign⟩
  · exact Reading.quotes_of_sign hsign rfl (by rw [Quoting.after, hsign]; rfl)
  · exact Reading.quotes_of_sign hsign rfl (by rw [Quoting.after, hsign]; rfl)
  · exact Reading.quotes_of_sign hsign rfl (by rw [Quoting.after, hsign]; rfl)
  · exact Reading.quotes_of_sign hsign rfl (by rw [Quoting.after, hsign]; rfl)
  · exact Reading.quotes_of_sign hsign rfl (by rw [Quoting.after, hsign]; rfl)
  · exact .error

theorem Brackets.step_quotes (filed : List Rule) (s : Brackets) (offset : Nat)
    (b : UInt8) :
    Ensures (s.step limits filed offset b)
      (Reading.Quotes (·.member.quoting) .closeBracket s.member.quoting b) := by
  obtain ⟨opened, set, member⟩ := s
  unfold Brackets.step
  cases member with
  | idle => exact idle_quotes _ offset b
  | comment opened =>
    dsimp only [Member.quoting]
    split
    · rename_i hpercent
      exact .ok ⟨(if_pos hpercent).symm, nofun⟩
    · rename_i hpercent
      exact .ok ⟨(if_neg hpercent).symm, nofun⟩
  | literal opened text =>
    dsimp only [Member.quoting]
    split
    · rename_i hquote
      exact .ok ⟨(if_pos hquote).symm, nofun⟩
    · rename_i hquote
      exact .along fun _ _ => .ok ⟨(if_neg hquote).symm, nofun⟩
  | inclusion opened text =>
    dsimp only [Member.quoting]
    split
    · rename_i hword
      exact .along fun _ _ => Reading.quotes_of_sign hword rfl (Quoting.after_word hword)
    · split
      · exact .error
      · exact .along fun s _ => idle_quotes s offset b
  | range inner =>
    refine .bind (Braces.step_quotes inner offset b) fun reading hquotes => ?_
    cases reading with
    | going inner => exact .ok hquotes
    | done bounds =>
      obtain ⟨hplain, hsign⟩ := hquotes
      dsimp only [Member.quoting]
      rw [hplain]
      exact Reading.quotes_of_sign hsign rfl (by rw [Quoting.after, hsign]; rfl)

/-! ## Bodies -/

/-- The body ends in this element, and nothing is being read in it. -/
def Body.Rests (r : Option Rule) (s : Body) : Prop :=
  s.scope.current = r ∧ s.lexeme = .idle

theorem Body.put_rests {body : Body} {r : Rule} :
    Ensures (body.put limits r) (Body.Rests (some r)) := by
  refine .along fun scope hput => .ok ⟨?_, rfl⟩
  obtain ⟨settled, -, hscope⟩ := bind_eq_ok hput
  cases hscope
  rfl

theorem Body.suffix_rests {body : Body} {offset : Nat} {f : Rule → Rule} :
    Ensures (body.suffix offset b f) (Body.Rests (body.scope.current.map f)) := by
  unfold Body.suffix
  split
  · rename_i hcurrent
    rw [hcurrent]
    exact .ok ⟨rfl, rfl⟩
  · exact .error

theorem Body.openGroup_idle {body : Body} {offset : Nat} :
    Ensures (body.openGroup limits offset) (·.lexeme = .idle) := by
  unfold Body.openGroup
  split
  · exact .along fun _ _ => .ok rfl
  · exact .error

theorem Body.closeGroup_idle {body : Body} {g : Group} {groups : List Group} :
    Ensures (body.closeGroup limits g groups) (·.lexeme = .idle) := by
  refine .along fun folded _ => ?_
  cases folded with
  | none => exact .ok rfl
  | some r => exact .along fun _ _ => .ok rfl

namespace State

/-- How it is quoted what stands here, and what is carried over. -/
def Stands (q : Quoting) (carried? : Option CharSet) (s : State) : Prop :=
  s.phase.quoting = q ∧ carried? = some s.carried

variable {s : State} {operand? : Option CharSet} {sign : Sign}

theorem stands_of_sign {next : State} (hsign : Sign.of b = sign)
    (hkeeps : sign.keeps = true) (hquoting : Quoting.plain.after b = next.phase.quoting)
    (hnext : next.carried = s.carried) :
    next.Stands (Quoting.plain.after b) (carriedBehind .plain operand? s.carried b) := by
  subst hsign
  exact ⟨hquoting.symm, hnext ▸ carriedBehind_eq (fun _ => hkeeps) _ _⟩

theorem stands_word {next : State} (hword : Sign.of b = .word)
    (hquoting : next.phase.quoting = .plain) (hnext : next.carried = s.carried) :
    next.Stands (Quoting.plain.after b) (carriedBehind .plain operand? s.carried b) :=
  stands_of_sign hword rfl ((Quoting.after_word hword).trans hquoting.symm) hnext

theorem declare_stands {body : Body} {next : Phase} (hsign : Sign.of b = sign)
    (hkeeps : sign.keeps = true) (hquoting : Quoting.plain.after b = next.quoting) :
    Ensures (s.declare limits body next)
      (Stands (Quoting.plain.after b) (carriedBehind .plain operand? s.carried b)) :=
  .along fun _ _ => .along fun _ _ => .ok (stands_of_sign hsign hkeeps hquoting rfl)

theorem idle_stands {outcome : Except GrammarError Body} (hsign : Sign.of b = sign)
    (hkeeps : sign.keeps = true) (hquoting : Quoting.plain.after b = .plain)
    (h : Ensures outcome (·.lexeme = .idle)) :
    Ensures (s.toBody <$> outcome)
      (Stands (Quoting.plain.after b) (carriedBehind .plain operand? s.carried b)) :=
  .map fun body hbody => stands_of_sign hsign hkeeps
    (hquoting.trans (congrArg Lexeme.quoting (h body hbody)).symm) rfl

theorem between_stands (title : Option Title) (b : UInt8) :
    Ensures (s.between limits title b)
      (Stands (Quoting.plain.after b) (carriedBehind .plain operand? s.carried b)) := by
  unfold between
  split <;> try rename_i hsign
  · exact .ok (stands_of_sign hsign rfl (by rw [Quoting.after, hsign]; rfl) rfl)
  · exact .ok (stands_of_sign hsign rfl (by rw [Quoting.after, hsign]; rfl) rfl)
  · exact .ok (stands_of_sign hsign rfl (by rw [Quoting.after, hsign]; rfl) rfl)
  · exact .ok (stands_of_sign hsign rfl (by rw [Quoting.after, hsign]; rfl) rfl)
  · exact .along fun _ _ => .ok (stands_word hsign rfl rfl)
  · exact .error

/-- An operator that carries over takes the set of the element in front of it. -/
theorem inBody_stands (body : Body) (b : UInt8) :
    Ensures (s.inBody limits body b) (Stands (Quoting.plain.after b)
      (carriedBehind .plain (body.scope.current.bind (setOf? s.filed)) s.carried b)) := by
  unfold inBody
  dsimp only
  cases hsign : Sign.of b with
  | blank | percent | quote | openBracket | backslash | openBrace | atSign =>
    exact .ok (stands_of_sign hsign rfl (by rw [Quoting.after, hsign]; rfl) rfl)
  | dash =>
    dsimp only
    split
    · exact declare_stands hsign rfl (by rw [Quoting.after, hsign]; rfl)
    · exact .error
  | question | star | plus | greater =>
    exact idle_stands hsign rfl (by rw [Quoting.after, hsign]) fun _ h =>
      (Body.suffix_rests _ h).2
  | spacing _ | tilde | less =>
    exact idle_stands hsign rfl (by rw [Quoting.after, hsign]) fun _ h =>
      (Body.put_rests _ h).2
  | openGroup =>
    exact idle_stands hsign rfl (by rw [Quoting.after, hsign]) Body.openGroup_idle
  | closeGroup =>
    dsimp only
    split
    · exact .error
    · exact idle_stands hsign rfl (by rw [Quoting.after, hsign]) Body.closeGroup_idle
  | bar | caret =>
    exact .along fun _ _ =>
      .ok (stands_of_sign hsign rfl (by rw [Quoting.after, hsign]; rfl) rfl)
  | word => exact .along fun _ _ => .ok (stands_word hsign rfl rfl)
  | ampersand =>
    refine .along fun set hset => .ok ⟨by rw [Quoting.after, hsign]; rfl, ?_⟩
    rw [charSetOf_eq] at hset
    unfold carriedBehind
    rw [hsign]
    split at hset
    · rename_i hoperand
      cases hset
      rw [hoperand]
    · cases hset
  | equals | closeBracket | closeBrace | hash | other => exact .error

theorem afterName_stands (body : Body) (text : Text) (b : UInt8) :
    Ensures (s.afterName limits body text b) (Stands (Quoting.plain.after b)
      (carriedBehind .plain ((some (Rule.reference (nameOf text))).bind (setOf? s.filed))
        s.carried b)) := by
  unfold afterName
  split <;> try rename_i hsign
  · exact .ok (stands_of_sign hsign rfl (by rw [Quoting.after, hsign]; rfl) rfl)
  · exact declare_stands hsign rfl (by rw [Quoting.after, hsign]; rfl)
  · exact Body.put_rests.bind fun body hbody => hbody.1 ▸ inBody_stands body b

/-- A name after a sign of its own, where `r` is what the body ends in behind
it. -/
theorem inName_stands (body : Body) (text : Text) (lexeme : Text → Lexeme)
    (hlexeme : ∀ text, (lexeme text).quoting = .plain) {finish : Except GrammarError Body}
    {r : Option Rule} (hfinish : Ensures finish (Body.Rests r)) (b : UInt8) :
    Ensures (s.inName limits body text lexeme finish b) (Stands (Quoting.plain.after b)
      (carriedBehind .plain (r.bind (setOf? s.filed)) s.carried b)) := by
  unfold inName
  split
  · rename_i hword
    exact .along fun text _ => .ok (stands_word hword (hlexeme text) rfl)
  · split
    · exact .error
    · exact hfinish.bind fun body hbody => hbody.1 ▸ inBody_stands body b

theorem stepBody_stands (body : Body) (b : UInt8) :
    Ensures (s.stepBody limits body b) (Stands (body.lexeme.quoting.after b)
      (carriedBehind body.lexeme.quoting ((body.element? s.filed).bind (setOf? s.filed))
        s.carried b)) := by
  obtain ⟨title, groups, scope, lexeme⟩ := body
  unfold stepBody
  cases lexeme with
  | idle => exact inBody_stands _ b
  | comment opened =>
    dsimp only [Lexeme.quoting, Quoting.after]
    split <;> exact .ok ⟨rfl, rfl⟩
  | literal opened text =>
    dsimp only [Lexeme.quoting, Quoting.after]
    split
    · exact .map fun body hbody =>
        ⟨congrArg Lexeme.quoting (Body.put_rests body hbody).2, rfl⟩
    · exact .along fun _ _ => .ok ⟨rfl, rfl⟩
  | inclusion text => exact inName_stands _ text _ (fun _ => rfl) Body.put_rests b
  | label opened text => exact inName_stands _ text _ (fun _ => rfl) Body.suffix_rests b
  | name text =>
    dsimp only [Lexeme.quoting]
    split
    · rename_i hword
      exact .along fun _ _ => .ok (stands_word hword rfl rfl)
    · exact afterName_stands _ text b
  | waiting text => exact afterName_stands _ text b
  | braces inner =>
    refine .bind (Braces.step_quotes inner s.offset b) fun reading hquotes => ?_
    cases reading with
    | going inner => exact .ok ⟨hquotes.1, carriedBehind_eq hquotes.2 _ _⟩
    | done bounds =>
      obtain ⟨hplain, hsign⟩ := hquotes
      dsimp only [Lexeme.quoting]
      rw [hplain]
      exact idle_stands hsign rfl (by rw [Quoting.after, hsign]) fun _ h =>
        (Body.suffix_rests _ h).2
  | brackets inner =>
    refine .bind (Brackets.step_quotes s.filed inner s.offset b) fun reading hquotes => ?_
    cases reading with
    | going inner => exact .ok ⟨hquotes.1, carriedBehind_eq hquotes.2 _ _⟩
    | done set =>
      obtain ⟨hplain, hsign⟩ := hquotes
      dsimp only [Lexeme.quoting]
      rw [hplain]
      refine Body.put_rests.bind fun body hbody => .ok ⟨?_, ?_⟩
      · rw [Quoting.after, hsign]
        exact congrArg Lexeme.quoting hbody.2
      · unfold carriedBehind
        rw [hsign]

theorem step_stands (s : State) (b : UInt8) :
    Ensures (s.step limits b)
      (Stands (s.phase.quoting.after b)
        (carriedBehind s.phase.quoting s.operand? s.carried b)) := by
  obtain ⟨filed, carried, offset, phase⟩ := s
  suffices hphase : Ensures (State.stepPhase limits ⟨filed, carried, offset, phase⟩ b)
      (Stands (phase.quoting.after b) (carriedBehind phase.quoting
        (State.operand? ⟨filed, carried, offset, phase⟩) carried b)) from
    hphase.bind fun _ hnext => .ok hnext
  unfold stepPhase
  cases phase with
  | between title => exact between_stands title b
  | comment opened title =>
    dsimp only [Phase.quoting, Quoting.after]
    split <;> exact .ok ⟨rfl, rfl⟩
  | naming start text =>
    dsimp only [Phase.quoting]
    split
    · rename_i hword
      exact .along fun _ _ => .ok (stands_word hword rfl rfl)
    · exact between_stands _ b
  | body inner => exact stepBody_stands inner b

/-- Nothing is carried over at the end of a source that does not carry anything
over. -/
theorem Stands.run {source : Bytes} :
    ∀ {q : Quoting} {s : State}, s.Stands q (some CharSet.empty) →
    q.Lacks .ampersand source →
    Ensures (s.run limits source) (·.carried = CharSet.empty) := by
  induction source with
  | nil => exact fun hs _ => .ok (Option.some.inj hs.2).symm
  | cons b rest ih =>
    rintro _ s ⟨rfl, hcarried⟩ hlacks
    have hbehind : carriedBehind s.phase.quoting s.operand? s.carried b =
        some CharSet.empty := by
      unfold carriedBehind
      split
      · rename_i hplain hsign
        exact absurd hsign (hlacks.1 hplain)
      · rfl
      · exact hcarried.symm
    rw [State.run, List.foldlM_cons]
    exact (step_stands s b).bind fun next hnext => ih (hbehind ▸ hnext) hlacks.2

end State

end RuleGraph.Terse
