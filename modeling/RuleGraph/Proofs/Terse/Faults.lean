import RuleGraph.Proofs.Chains
import RuleGraph.Proofs.Terse.Writing

/-!
# Errors point at what they are about

An error has an offset in it, and the byte at that offset is the one that the
error is about: one that has no meaning there, an operator that found no
character set, or the opening byte of what was never closed. The reader keeps
these offsets while it reads, so the invariant is that each of them marks the
right byte of what has been read. For comments and literals it also says that
the byte has not occurred again, since it would have closed them.

The offset of a state is the number of bytes read before it. So the byte that is
read next is the byte at that offset.
-/

namespace RuleGraph

/-- The character that opens what is read in this mode, if one does. -/
def Mode.opening? : Mode → Option Char
  | .group => '('
  | .brackets => '['
  | .braces => '\x7b'
  | .literal => '\''
  | .comment => '%'
  | .topLevel | .rule | .name | .hexadecimal | .decimal => none

/-- What is read in this mode is closed by the character that opens it. -/
def Mode.isQuoting : Mode → Bool
  | .literal | .comment => true
  | .topLevel | .rule | .group | .brackets | .braces | .name | .hexadecimal
  | .decimal => false

namespace Terse

/-! ## Offsets that mark a character -/

def Marks (source : Bytes) (c : Char) (offset : Nat) : Prop :=
  source[offset]? = some c.toUInt8

/-- The character stands here and has not occurred since. -/
structure MarksLast (source : Bytes) (c : Char) (offset : Nat) : Prop where
  marks : Marks source c offset
  last : c.toUInt8 ∉ source.drop (offset + 1)

/-- What is read in this mode was opened here, and nothing behind it closes a
comment or a literal. Other modes begin without a character of their own, perhaps
at the end of the source. -/
def Unclosed (source : Bytes) (mode : Mode) (offset : Nat) : Prop :=
  match mode.opening? with
  | some c => Marks source c offset ∧
      (mode.isQuoting = true → c.toUInt8 ∉ source.drop (offset + 1))
  | none => offset ≤ source.length

/-- What the error says about its offset, if it has one, is right. -/
def Points (source : Bytes) : GrammarError → Prop
  | .unexpected _ offset b => source[offset]? = some b
  | .unclosed mode offset => Unclosed source mode offset
  | .noCharSet offset => ∃ c ∈ ['^', '&', '\\'], Marks source c offset
  | .undefined _ | .exceeds _ _ => True

/-- The error is right whatever follows what has been read. -/
def Settled (read : Bytes) (e : GrammarError) : Prop :=
  ∀ rest, Points (read ++ rest) e

variable {read : Bytes} {b : UInt8} {c : Char} {offset : Nat}

theorem getElem?_append (h : read[offset]? = some b) (rest : Bytes) :
    (read ++ rest)[offset]? = some b := by
  rw [List.getElem?_append_left (List.getElem?_eq_some_iff.mp h).1]
  exact h

theorem Marks.append (h : Marks read c offset) (rest : Bytes) :
    Marks (read ++ rest) c offset :=
  getElem?_append h rest

theorem Marks.lt_length (h : Marks read c offset) : offset < read.length :=
  (List.getElem?_eq_some_iff.mp h).1

theorem marks_here {sign : Sign} (h : Sign.of b = sign) (hchar : sign.char? = some c) :
    Marks (read ++ [b]) c read.length := by
  rw [Marks, List.getElem?_concat_length, eq_of_sign h hchar]

theorem marksLast_here {sign : Sign} (h : Sign.of b = sign)
    (hchar : sign.char? = some c) : MarksLast (read ++ [b]) c read.length where
  marks := marks_here h hchar
  last := by simp

theorem MarksLast.push {sign : Sign} (h : MarksLast read c offset) (hb : Sign.of b ≠ sign)
    (hchar : Sign.of c.toUInt8 = sign) : MarksLast (read ++ [b]) c offset where
  marks := h.marks.append [b]
  last := by
    rw [List.drop_append_of_le_length h.marks.lt_length, List.mem_append,
      List.mem_singleton]
    rintro (hlast | rfl)
    · exact h.last hlast
    · exact hb hchar

theorem settled_here (mode : Mode) :
    Settled (read ++ [b]) (.unexpected mode read.length b) :=
  fun rest => getElem?_append List.getElem?_concat_length rest

theorem settled_noCharSet (hc : c ∈ ['^', '&', '\\']) (h : Marks read c offset) :
    Settled read (.noCharSet offset) :=
  fun rest => ⟨c, hc, h.append rest⟩

theorem settled_exceeds (buffer : Buffer) (limit : Nat) :
    Settled read (.exceeds buffer limit) :=
  fun _ => trivial

/-! ## Offsets in a state -/

def Figure.Placed (read : Bytes) : Figure → Prop
  | .literal opened _ => MarksLast read '\'' opened
  | .idle | .hexadecimal _ | .decimal _ => True

structure Braces.Placed (read : Bytes) (s : Braces) : Prop where
  opened : Marks read '\x7b' s.opened
  figure : s.figure.Placed read

def Member.Placed (read : Bytes) : Member → Prop
  | .idle => True
  | .comment opened => MarksLast read '%' opened
  | .literal opened _ => MarksLast read '\'' opened
  | .inclusion opened _ => Marks read '\\' opened
  | .range inner => inner.Placed read

structure Brackets.Placed (read : Bytes) (s : Brackets) : Prop where
  opened : Marks read '[' s.opened
  member : s.member.Placed read

def Lexeme.Placed (read : Bytes) : Lexeme → Prop
  | .comment opened => MarksLast read '%' opened
  | .literal opened _ => MarksLast read '\'' opened
  | .label opened _ => Marks read '@' opened
  | .braces inner => inner.Placed read
  | .brackets inner => inner.Placed read
  | .idle | .inclusion _ | .name _ | .waiting _ => True

structure Body.Placed (read : Bytes) (s : Body) : Prop where
  groups : ∀ g ∈ s.groups, Marks read '(' g.opened
  lexeme : s.lexeme.Placed read

def Phase.Placed (read : Bytes) : Phase → Prop
  | .between title => ∀ t ∈ title, t.start ≤ read.length
  | .comment opened title => MarksLast read '%' opened ∧ ∀ t ∈ title,
      t.start ≤ read.length
  | .naming start _ => start ≤ read.length
  | .body inner => inner.Placed read

structure State.Placed (read : Bytes) (s : State) : Prop where
  offset : s.offset = read.length
  phase : s.phase.Placed read

/-- A reader inside of another one has its offsets right as long as it goes on. -/
def Reading.Placed {σ ρ : Type} (kind : σ → Prop) : Reading σ ρ → Prop
  | .going s => kind s
  | .done _ => True

variable {limits : Limits}

/-! ## Texts and scopes -/

theorem push_ends (text : Text) :
    Ends (push limits text b) (fun _ => True) (Settled read) := by
  unfold push
  split
  · trivial
  · exact settled_exceeds _ _

theorem file_ends (filed : List Rule) (r : Rule) :
    Ends (file limits filed r) (fun _ => True) (Settled read) := by
  unfold file
  split
  · trivial
  · exact settled_exceeds _ _

namespace Scope

theorem settle_ends (s : Scope) :
    Ends (s.settle limits) (fun _ => True) (Settled read) := by
  unfold settle
  split
  · trivial
  · split
    · trivial
    · exact settled_exceeds _ _

theorem put_ends (s : Scope) (r : Rule) :
    Ends (s.put limits r) (fun _ => True) (Settled read) :=
  s.settle_ends.bind fun _ _ => trivial

theorem alternate_ends (s : Scope) :
    Ends (s.alternate limits) (fun _ => True) (Settled read) := by
  refine s.settle_ends.bind fun s _ => ?_
  split
  · trivial
  · exact settled_exceeds _ _

theorem fold_ends (s : Scope) : Ends (s.fold limits) (fun _ => True) (Settled read) := by
  refine s.settle_ends.bind fun s _ => ?_
  split
  · trivial
  · exact s.alternate_ends.bind fun _ _ => trivial

end Scope

theorem charSetOf_ends (filed : List Rule) (hc : c ∈ ['^', '&', '\\'])
    (h : Marks read c offset) (r : Option Rule) :
    Ends (charSetOf filed offset r) (fun _ => True) (Settled read) := by
  rw [charSetOf_eq]
  split
  · trivial
  · exact settled_noCharSet hc h

/-! ## Braces and brackets -/

theorem Braces.set_placed {s : Braces} (h : Marks read '\x7b' s.opened) (value : Nat) :
    (s.set value).Placed read := by
  unfold Braces.set
  split
  · exact ⟨h, trivial⟩
  · exact ⟨h, trivial⟩

theorem Braces.extend_ends (mode : Mode) (base value digit : Nat) :
    Ends (extend mode base value digit read.length b) (fun _ => True)
      (Settled (read ++ [b])) := by
  unfold extend
  split
  · trivial
  · exact settled_here mode

theorem Braces.idle_ends {s : Braces} (h : Marks read '\x7b' s.opened) :
    Ends (s.idle read.length b) (Reading.Placed (Braces.Placed (read ++ [b])))
      (Settled (read ++ [b])) := by
  have hopened := h.append [b]
  unfold Braces.idle
  split <;> try rename_i hsign
  · exact ⟨hopened, trivial⟩
  · trivial
  · exact ⟨hopened, marksLast_here hsign rfl⟩
  · exact ⟨hopened, trivial⟩
  · exact set_placed hopened _
  · exact ⟨hopened, trivial⟩
  · split
    · exact ⟨hopened, trivial⟩
    · exact settled_here .braces

theorem Braces.step_ends {s : Braces} (h : s.Placed read) :
    Ends (s.step limits read.length b) (Reading.Placed (Braces.Placed (read ++ [b])))
      (Settled (read ++ [b])) := by
  obtain ⟨opened, low, high, second, figure⟩ := s
  obtain ⟨hopened, hfigure⟩ := h
  unfold Braces.step
  cases figure with
  | idle => exact idle_ends hopened
  | literal start text =>
    dsimp only
    split
    · rename_i hquote
      split
      · exact set_placed (hopened.append [b]) _
      · intro rest
        rw [eq_of_sign hquote rfl]
        exact (hfigure.marks.append _).append rest
    · rename_i hquote
      exact (push_ends text).bind fun _ _ => ⟨hopened.append [b], hfigure.push hquote rfl⟩
  | hexadecimal value =>
    dsimp only
    split
    · exact (extend_ends ..).bind fun _ _ => ⟨hopened.append [b], trivial⟩
    · exact idle_ends (set_placed hopened _).opened
    · exact settled_here .hexadecimal
  | decimal value =>
    dsimp only
    split
    · exact (extend_ends ..).bind fun _ _ => ⟨hopened.append [b], trivial⟩
    · exact idle_ends (set_placed hopened _).opened

theorem Brackets.idle_ends {s : Brackets} (h : Marks read '[' s.opened) :
    Ends (s.idle read.length b) (Reading.Placed (Brackets.Placed (read ++ [b])))
      (Settled (read ++ [b])) := by
  have hopened := h.append [b]
  unfold Brackets.idle
  split <;> try rename_i hsign
  · exact ⟨hopened, trivial⟩
  · trivial
  · exact ⟨hopened, marksLast_here hsign rfl⟩
  · exact ⟨hopened, marks_here hsign rfl, trivial⟩
  · exact ⟨hopened, marks_here hsign rfl⟩
  · exact ⟨hopened, marksLast_here hsign rfl⟩
  · exact ⟨hopened, trivial⟩
  · exact settled_here .brackets

theorem Brackets.adopt_ends (filed : List Rule) (s : Brackets)
    (hoffset : Marks read '\\' offset) (text : Text) :
    Ends (s.adopt filed offset text) (fun next => next.opened = s.opened)
      (Settled read) := by
  unfold Brackets.adopt
  split
  · exact fun _ => trivial
  · split
    · exact settled_noCharSet (by decide) hoffset
    · rfl

theorem Brackets.step_ends (filed : List Rule) {s : Brackets} (h : s.Placed read) :
    Ends (s.step limits filed read.length b)
      (Reading.Placed (Brackets.Placed (read ++ [b]))) (Settled (read ++ [b])) := by
  obtain ⟨opened, set, member⟩ := s
  obtain ⟨hopened, hmember⟩ := h
  have hopened' := hopened.append [b]
  unfold Brackets.step
  cases member with
  | idle => exact idle_ends hopened
  | comment start =>
    dsimp only
    split
    · exact ⟨hopened', trivial⟩
    · rename_i hpercent
      exact ⟨hopened', hmember.push hpercent rfl⟩
  | literal start text =>
    dsimp only
    split
    · exact ⟨hopened', trivial⟩
    · rename_i hquote
      exact (push_ends text).bind fun _ _ => ⟨hopened', hmember.push hquote rfl⟩
  | inclusion start text =>
    dsimp only
    split
    · exact (push_ends text).bind fun _ _ => ⟨hopened', hmember.append [b]⟩
    · split
      · exact settled_here .name
      · refine (adopt_ends filed _ (hmember.append [b]) text).bind fun next hnext => ?_
        refine idle_ends ?_
        rw [hnext]
        exact hopened
  | range inner =>
    refine (Braces.step_ends hmember).bind fun reading hreading => ?_
    cases reading with
    | going inner => exact ⟨hopened', hreading⟩
    | done bounds => exact ⟨hopened', trivial⟩

/-! ## Bodies -/

namespace Body

variable {s : Body} {source : Bytes} (hgroups : ∀ g ∈ s.groups, Marks read '(' g.opened)

include hgroups

theorem put_ends (r : Rule) : Ends (s.put limits r) (Placed read) (Settled source) :=
  (s.scope.put_ends r).bind fun _ _ => ⟨hgroups, trivial⟩

theorem suffix_ends (herror : Settled source (.unexpected .rule offset b))
    (f : Rule → Rule) : Ends (s.suffix offset b f) (Placed read) (Settled source) := by
  unfold suffix
  split
  · exact ⟨hgroups, trivial⟩
  · exact herror

theorem openGroup_ends (hoffset : Marks read '(' offset) :
    Ends (s.openGroup limits offset) (Placed read) (Settled source) := by
  unfold openGroup
  split
  · exact s.scope.settle_ends.bind fun _ _ =>
      ⟨List.forall_mem_cons.mpr ⟨hoffset, hgroups⟩, trivial⟩
  · exact settled_exceeds _ _

theorem closeGroup_ends {g : Group} {groups : List Group}
    (hopen : s.groups = g :: groups) :
    Ends (s.closeGroup limits g groups) (Placed read) (Settled source) := by
  rw [hopen] at hgroups
  obtain ⟨-, hrest⟩ := List.forall_mem_cons.mp hgroups
  refine s.scope.fold_ends.bind fun folded _ => ?_
  cases folded with
  | none => exact ⟨hrest, trivial⟩
  | some r => exact (g.outer.put_ends r).bind fun _ _ => ⟨hrest, trivial⟩

omit hgroups in
theorem rule_ends : Ends (s.rule limits) (fun _ => True) (Settled source) :=
  s.scope.fold_ends.bind fun _ _ => trivial

end Body

/-! ## States -/

namespace State

variable {s : State} (hs : s.offset = read.length)

theorem declare_ends (body : Body) {next : Phase} (hnext : next.Placed (read ++ [b])) :
    Ends (s.declare limits body next) (fun next => next.phase.Placed (read ++ [b]))
      (Settled (read ++ [b])) :=
  body.rule_ends.bind fun r _ => (file_ends s.filed r).bind fun _ _ => hnext

theorem body_ends {outcome : Except GrammarError Body} {source : Bytes}
    (h : Ends outcome (Body.Placed source) (Settled source)) :
    Ends (s.toBody <$> outcome) (fun next => next.phase.Placed source) (Settled source) :=
  .map h

theorem le_length_append (h : offset ≤ read.length) : offset ≤ (read ++ [b]).length := by
  rw [List.length_append]
  exact Nat.le_add_right_of_le h

theorem starts_append {title : Option Title} (h : ∀ t ∈ title, t.start ≤ read.length) :
    ∀ t ∈ title, t.start ≤ (read ++ [b]).length :=
  fun t ht => le_length_append (h t ht)

include hs

theorem between_ends {title : Option Title}
    (htitle : ∀ t ∈ title, t.start ≤ read.length) :
    Ends (s.between limits title b) (fun next => next.phase.Placed (read ++ [b]))
      (Settled (read ++ [b])) := by
  unfold between
  rw [hs]
  split <;> try rename_i hsign
  · exact starts_append htitle
  · exact starts_append htitle
  · exact ⟨marksLast_here hsign rfl, starts_append htitle⟩
  · exact ⟨nofun, trivial⟩
  · exact (push_ends #[]).bind fun _ _ => le_length_append (Nat.le_refl _)
  · exact settled_here .topLevel

theorem inBody_ends {body : Body} (hgroups : ∀ g ∈ body.groups, Marks read '(' g.opened) :
    Ends (s.inBody limits body b) (fun next => next.phase.Placed (read ++ [b]))
      (Settled (read ++ [b])) := by
  have hgroups' : ∀ g ∈ body.groups, Marks (read ++ [b]) '(' g.opened :=
    fun g hg => (hgroups g hg).append [b]
  have herror : Settled (read ++ [b]) (.unexpected .rule read.length b) :=
    settled_here .rule
  unfold inBody
  rw [hs]
  dsimp only
  cases hsign : Sign.of b with
  | blank | backslash => exact ⟨hgroups', trivial⟩
  | percent | quote => exact ⟨hgroups', marksLast_here hsign rfl⟩
  | openBracket | openBrace => exact ⟨hgroups', marks_here hsign rfl, trivial⟩
  | atSign => exact ⟨hgroups', marks_here hsign rfl⟩
  | dash =>
    dsimp only
    split
    · exact declare_ends body nofun
    · exact herror
  | question | star | plus | greater =>
    exact body_ends (Body.suffix_ends hgroups' herror _)
  | spacing _ | tilde | less => exact body_ends (Body.put_ends hgroups' _)
  | openGroup => exact body_ends (Body.openGroup_ends hgroups' (marks_here hsign rfl))
  | closeGroup =>
    dsimp only
    split
    · exact herror
    · rename_i hopen
      exact body_ends (Body.closeGroup_ends hgroups' hopen)
  | bar => exact body.scope.alternate_ends.bind fun _ _ => ⟨hgroups', trivial⟩
  | caret | ampersand =>
    exact (charSetOf_ends s.filed (by decide) (marks_here hsign rfl) _).bind fun _ _ =>
      ⟨hgroups', trivial⟩
  | word => exact (push_ends #[]).bind fun _ _ => ⟨hgroups', trivial⟩
  | equals | closeBracket | closeBrace | hash | other => exact herror

theorem afterName_ends {body : Body}
    (hgroups : ∀ g ∈ body.groups, Marks read '(' g.opened) (text : Text) :
    Ends (s.afterName limits body text b) (fun next => next.phase.Placed (read ++ [b]))
      (Settled (read ++ [b])) := by
  unfold afterName
  split
  · exact ⟨fun g hg => (hgroups g hg).append [b], trivial⟩
  · exact declare_ends body ⟨nofun, trivial⟩
  · exact (Body.put_ends hgroups _).bind fun body hbody => inBody_ends hs hbody.groups

theorem inName_ends {body : Body} (hgroups : ∀ g ∈ body.groups, Marks read '(' g.opened)
    (text : Text) {lexeme : Text → Lexeme}
    (hlexeme : ∀ text, (lexeme text).Placed (read ++ [b]))
    {finish : Except GrammarError Body}
    (hfinish : Ends finish (Body.Placed read) (Settled (read ++ [b]))) :
    Ends (s.inName limits body text lexeme finish b)
      (fun next => next.phase.Placed (read ++ [b])) (Settled (read ++ [b])) := by
  unfold inName
  split
  · exact (push_ends text).bind fun text _ =>
      ⟨fun g hg => (hgroups g hg).append [b], hlexeme text⟩
  · split
    · rw [hs]
      exact settled_here .name
    · exact hfinish.bind fun body hbody => inBody_ends hs hbody.groups

theorem stepBody_ends {body : Body} (h : body.Placed read) :
    Ends (s.stepBody limits body b) (fun next => next.phase.Placed (read ++ [b]))
      (Settled (read ++ [b])) := by
  obtain ⟨title, groups, scope, lexeme⟩ := body
  obtain ⟨hgroups, hlexeme⟩ := h
  have hgroups' : ∀ g ∈ groups, Marks (read ++ [b]) '(' g.opened :=
    fun g hg => (hgroups g hg).append [b]
  unfold stepBody
  cases lexeme with
  | idle => exact inBody_ends hs hgroups
  | comment opened =>
    refine ⟨hgroups', ?_⟩
    show Lexeme.Placed _ (if _ then _ else _)
    split
    · trivial
    · rename_i hpercent
      exact hlexeme.push hpercent rfl
  | literal opened text =>
    dsimp only
    split
    · exact body_ends (Body.put_ends hgroups' _)
    · rename_i hquote
      exact (push_ends text).bind fun _ _ => ⟨hgroups', hlexeme.push hquote rfl⟩
  | inclusion text =>
    have hplaced (text : Text) : (Lexeme.inclusion text).Placed (read ++ [b]) := trivial
    exact inName_ends hs hgroups text hplaced (Body.put_ends hgroups _)
  | label opened text =>
    have herror : Settled (read ++ [b]) (.unexpected .rule opened 0x40) :=
      fun rest => (hlexeme.append [b]).append rest
    have hplaced (text : Text) : (Lexeme.label opened text).Placed (read ++ [b]) :=
      hlexeme.append [b]
    exact inName_ends hs hgroups text hplaced (Body.suffix_ends hgroups herror _)
  | name text =>
    dsimp only
    split
    · exact (push_ends text).bind fun _ _ => ⟨hgroups', trivial⟩
    · exact afterName_ends hs hgroups text
  | waiting text => exact afterName_ends hs hgroups text
  | braces inner =>
    rw [hs]
    refine (Braces.step_ends hlexeme).bind fun reading hreading => ?_
    cases reading with
    | going inner => exact ⟨hgroups', hreading⟩
    | done bounds =>
      have herror : Settled (read ++ [b]) (.unexpected .rule inner.opened 0x7B) :=
        fun rest => (hlexeme.opened.append [b]).append rest
      exact body_ends (Body.suffix_ends hgroups' herror _)
  | brackets inner =>
    rw [hs]
    refine (Brackets.step_ends s.filed hlexeme).bind fun reading hreading => ?_
    cases reading with
    | going inner => exact ⟨hgroups', hreading⟩
    | done set => exact (Body.put_ends hgroups' _).bind fun body hbody => hbody

omit hs in
theorem step_ends (h : s.Placed read) (b : UInt8) :
    Ends (s.step limits b) (Placed (read ++ [b])) (Settled (read ++ [b])) := by
  obtain ⟨filed, carried, offset, phase⟩ := s
  obtain ⟨hoffset, hphase⟩ := h
  suffices hnext : Ends (stepPhase limits ⟨filed, carried, offset, phase⟩ b)
      (fun next => next.phase.Placed (read ++ [b])) (Settled (read ++ [b])) by
    refine hnext.bind fun next hnext => ⟨?_, hnext⟩
    rw [List.length_append]
    exact congrArg (· + 1) hoffset
  unfold stepPhase
  cases phase with
  | between title => exact between_ends hoffset hphase
  | comment opened title =>
    obtain ⟨hopened, htitle⟩ := hphase
    show Phase.Placed _ (if _ then _ else _)
    split
    · exact starts_append htitle
    · rename_i hpercent
      exact ⟨hopened.push hpercent rfl, starts_append htitle⟩
  | naming start text =>
    dsimp only
    split
    · exact (push_ends text).bind fun _ _ => le_length_append hphase
    · exact between_ends hoffset (by rintro _ ⟨⟩; exact hphase)
  | body inner => exact stepBody_ends hoffset hphase

omit hs in
/-- The offsets in a state are right after every stretch of a source. -/
theorem run_ends {source : Bytes} : ∀ {read : Bytes} {s : State}, s.Placed read →
    Ends (s.run limits source) (Placed (read ++ source)) (Settled (read ++ source)) := by
  induction source with
  | nil =>
    intro read s h
    rw [List.append_nil]
    exact h
  | cons b source ih =>
    intro read s h
    have hsplit : read ++ b :: source = (read ++ [b]) ++ source := by
      rw [List.append_assoc]
      rfl
    rw [run, List.foldlM_cons, hsplit]
    refine ((step_ends h b).imp (fun _ => id) fun e he rest => ?_).bind fun next hnext =>
      ih hnext
    rw [List.append_assoc]
    exact he (source ++ rest)

end State

/-! ## The end of a source -/

theorem Marks.unclosed {mode : Mode} (h : Marks read c offset)
    (hopening : mode.opening? = some c) (hquoting : mode.isQuoting = false) :
    Points read (.unclosed mode offset) := by
  show Unclosed read mode offset
  unfold Unclosed
  rw [hopening, hquoting]
  exact ⟨h, nofun⟩

theorem MarksLast.unclosed {mode : Mode} (h : MarksLast read c offset)
    (hopening : mode.opening? = some c) : Points read (.unclosed mode offset) := by
  show Unclosed read mode offset
  unfold Unclosed
  rw [hopening]
  exact ⟨h.marks, fun _ => h.last⟩

theorem Settled.points {e : GrammarError} (h : Settled read e) : Points read e := by
  have hnil := h []
  rwa [List.append_nil] at hnil

theorem Braces.unclosed_points {s : Braces} (h : s.Placed read) :
    Points read (s.unclosed read.length) := by
  obtain ⟨opened, low, high, second, figure⟩ := s
  obtain ⟨hopened, hfigure⟩ := h
  cases figure with
  | idle | decimal value => exact hopened.unclosed rfl rfl
  | literal start text => exact hfigure.unclosed rfl
  | hexadecimal value =>
    cases value with
    | none => exact Nat.le_refl _
    | some value => exact hopened.unclosed rfl rfl

theorem Brackets.unclosed_points (filed : List Rule) {s : Brackets} (h : s.Placed read) :
    Points read (s.unclosed filed read.length) := by
  obtain ⟨opened, set, member⟩ := s
  obtain ⟨hopened, hmember⟩ := h
  unfold Brackets.unclosed
  cases member with
  | idle => exact hopened.unclosed rfl rfl
  | comment start | literal start text => exact hmember.unclosed rfl
  | inclusion start text =>
    dsimp only
    split
    · exact Nat.le_refl _
    · have hadopt := adopt_ends filed ⟨opened, set, .inclusion start text⟩ hmember text
      split <;> rename_i heq <;> rw [heq] at hadopt
      · exact hadopt.points
      · rw [show _ = opened from hadopt]
        exact hopened.unclosed rfl rfl
  | range inner => exact Braces.unclosed_points hmember

namespace State

variable {s : State}

theorem closeBody_ends {body : Body} (h : ∀ g ∈ body.groups, Marks read '(' g.opened) :
    Ends (s.closeBody limits body) (fun _ => True) (Points read) := by
  unfold closeBody
  split
  · rename_i g groups hopen
    exact .error ((h g (hopen ▸ List.mem_cons_self)).unclosed rfl rfl)
  · have hfiled : Ends (do file limits s.filed (← body.rule limits)) (fun _ => True)
        (Settled read) := body.rule_ends.bind fun r _ => file_ends s.filed r
    exact hfiled.imp (fun _ => id) fun _ => Settled.points

theorem finishBody_ends (hs : s.offset = read.length) {body : Body}
    (h : body.Placed read) :
    Ends (s.finishBody limits body) (fun _ => True) (Points read) := by
  obtain ⟨title, groups, scope, lexeme⟩ := body
  obtain ⟨hgroups, hlexeme⟩ := h
  have hclose {outcome : Except GrammarError Body}
      (h : Ends outcome (Body.Placed read) (Settled read)) :
      Ends (do s.closeBody limits (← outcome)) (fun _ => True) (Points read) :=
    (h.imp (fun _ => id) fun _ => Settled.points).bind fun body hbody =>
      closeBody_ends hbody.groups
  unfold finishBody
  rw [hs]
  cases lexeme with
  | idle => exact closeBody_ends hgroups
  | comment opened | literal opened text => exact .error (hlexeme.unclosed rfl)
  | inclusion text =>
    dsimp only
    split
    · exact Nat.le_refl _
    · exact hclose (Body.put_ends hgroups _)
  | label opened text =>
    dsimp only
    split
    · exact Nat.le_refl _
    · exact hclose (Body.suffix_ends hgroups (fun rest => hlexeme.append rest) _)
  | name text | waiting text => exact hclose (Body.put_ends hgroups _)
  | braces inner => exact Braces.unclosed_points hlexeme
  | brackets inner => exact Brackets.unclosed_points s.filed hlexeme

theorem finish_ends (h : s.Placed read) :
    Ends (s.finish limits) (fun _ => True) (Points read) := by
  obtain ⟨filed, carried, offset, phase⟩ := s
  obtain ⟨hoffset, hphase⟩ := h
  cases phase with
  | between title =>
    cases title with
    | none => trivial
    | some title => exact hphase title rfl
  | comment opened title => exact .error (hphase.1.unclosed rfl)
  | naming start text => exact hphase
  | body inner => exact finishBody_ends hoffset hphase

end State

end Terse

end RuleGraph
