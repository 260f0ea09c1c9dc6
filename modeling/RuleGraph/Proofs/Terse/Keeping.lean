import RuleGraph.Proofs.CharSet.Construction
import RuleGraph.Proofs.Chains
import RuleGraph.Proofs.Rule.Nodes
import RuleGraph.Proofs.Terse.Writing

/-!
# What the rules of a terse source have in common

The reader makes rules with few operations. The names that it uses in them are
words, and what it puts into a rule or makes a rule of is no longer than the
limits allow. `Kept` says of a property of rules that these operations do not
lead out of it. All the rules that a reader holds then have the property at every
moment: those that are declared, and the parts of those that are not finished.
`State.All` is this invariant, together with the one that the names which are
being read are words, and that no buffer is fuller than it may be.

Terminals are different, since most of them are made in two steps. A set is put
together first, of other sets and perhaps of those of rules that are there already,
and it may wait for the next class before a terminal is made of it. So the invariant
is about sets as well: a set that the reader holds is one whose terminal has the
property.
-/

namespace RuleGraph.Terse

/-- Terminals of the sets that the reader puts together are of this kind, where the
sets that it takes out of rules are taken out of rules of this kind. -/
structure KeepsSets (kind : Rule → Prop) : Prop where
  built {set : CharSet} : set.Built maxCodePoint → kind (Rule.terminal set)
  union {a b : CharSet} : kind (Rule.terminal a) → kind (Rule.terminal b) →
    kind (Rule.terminal (a.union b))
  negate {set : CharSet} : kind (Rule.terminal set) → kind (Rule.terminal set.negate)
  members {r : Rule} {set : CharSet} : kind r → r.charSet? = some set →
  kind (Rule.terminal set)

/-- Nothing has to be said of sets where every terminal will do. -/
theorem KeepsSets.of_any {kind : Rule → Prop} (h : ∀ set, kind (Rule.terminal set)) :
    KeepsSets kind :=
  ⟨fun _ => h _, fun _ _ => h _, fun _ => h _, fun _ _ => h _⟩

/-- Whatever the reader does within these limits with rules of this kind makes a
rule of this kind. -/
structure Kept (limits : Limits) (kind : Rule → Prop) : Prop extends KeepsSets kind where
  literal {bytes : Bytes} : bytes.length ≤ limits.text → kind (Rule.literal bytes)
  spacing (contract : Spacing) : kind (Rule.spacing contract)
  completion : kind Rule.completion
  decision : kind Rule.decision
  reference {w : Word} : w.Fits limits → kind (Rule.reference w.name)
  quiet {w : Word} : w.Fits limits → kind (Rule.reference (quiet w.name))
  chain {rules : List Rule} : rules.length ≤ limits.sequence → (∀ r ∈ rules, kind r) →
    kind (Rule.chain rules)
  selection {rules : List Rule} : rules.length ≤ limits.alternatives →
  (∀ r ∈ rules, kind r) →
    kind (Rule.selection rules)
  repeated {r : Rule} (bound : Bound) : kind r → kind (r.repeated bound)
  lookahead {r : Rule} : kind r → kind (Rule.lookahead r)
  named {r : Rule} {w : Word} : w.Fits limits → kind r → kind (r.named w.name)
  body {r : Rule} : kind r → kind r.body

section

variable {limits : Limits} {like : Rule → Prop}

/-- What is asked of captures and terminals only is kept if sets and names keep it. -/
theorem kept_of_others (hsets : KeepsSets (Rule.Everywhere like))
    (hlike : Rule.Tolerant like) (hothers : ∀ {r : Rule}, r.isCapture = false →
      (∀ set, r.shape ≠ .terminal set) → like r)
    (hnamed : ∀ (r : Rule) (w : Word), r.Everywhere like →
      (r.named w.name).Everywhere like) :
    Kept limits (Rule.Everywhere like) where
  toKeepsSets := hsets
  literal _ := .of_children (hothers rfl nofun) nofun
  spacing _ := .of_children (hothers rfl nofun) nofun
  completion := .of_children (hothers rfl nofun) nofun
  decision := .of_children (hothers rfl nofun) nofun
  reference _ := .of_children (hothers rfl nofun) nofun
  quiet _ := .of_children (hothers rfl nofun) nofun
  chain _ := .chain hlike.toBindable (hothers rfl nofun)
  selection _ := .selection (hothers rfl nofun)
  repeated bound h := h.repeated hlike bound
  lookahead h := h.lookahead hlike
  named _ h := hnamed _ _ h
  body h := h.body

/-- What is asked of captures only is kept if naming keeps it. -/
theorem kept_everywhere (hlike : Rule.AboutCaptures like)
    (hnamed : ∀ (r : Rule) (w : Word), r.Everywhere like →
      (r.named w.name).Everywhere like) :
    Kept limits (Rule.Everywhere like) :=
  kept_of_others (.of_any fun _ => .of_children (hlike.others rfl) nofun) hlike.tolerant
    (fun hr _ => hlike.others hr) hnamed

end

/-! ## Sets -/

/-- The set that a class has come to, or ends with, is that of a terminal like this. -/
def Brackets.Holds (kind : Rule → Prop) : Reading Brackets CharSet → Prop
  | .going s => kind (Rule.terminal s.set)
  | .done set => kind (Rule.terminal set)

section

variable {kind : Rule → Prop} (hkind : KeepsSets kind) {filed : List Rule}

include hkind

/-- The set of a declared rule, of the element read last, or of what that refers to. -/
theorem charSetOf_keeps (hfiled : ∀ r ∈ filed, kind r) {current : Option Rule}
    (hcurrent : ∀ r ∈ current, kind r) (offset : Nat) :
    Ensures (charSetOf filed offset current) fun set => kind (Rule.terminal set) := by
  unfold charSetOf
  dsimp only
  split
  · rename_i set hset
    obtain ⟨r, hr, hset⟩ := Option.bind_eq_some_iff.mp hset
    obtain ⟨element, helement, hr⟩ := Option.bind_eq_some_iff.mp hr
    refine .ok (hkind.members (r := r) ?_ hset)
    split at hr
    · exact hfiled r (List.mem_of_find?_eq_some hr)
    · cases hr
      exact hcurrent r helement
  · exact .error

namespace Brackets

variable {s : Brackets}

theorem idle_holds (h : kind (Rule.terminal s.set)) (offset : Nat) (b : UInt8) :
    Ensures (s.idle offset b) (Holds kind) := by
  unfold Brackets.idle
  cases Sign.of b with
  | word => exact .ok (hkind.union h (hkind.built (CharSet.built_character _)))
  | blank | percent | openBrace | backslash | quote | closeBracket => exact .ok h
  | _ => exact .error

theorem adopt_holds (h : kind (Rule.terminal s.set)) (hfiled : ∀ r ∈ filed, kind r)
    (opened : Nat) (text : Text) :
    Ensures (s.adopt filed opened text) fun next => kind (Rule.terminal next.set) := by
  unfold Brackets.adopt
  split
  · exact .error
  · rename_i r hfind
    split
    · exact .error
    · rename_i set hset
      exact .ok
        (hkind.union h (hkind.members (hfiled r (List.mem_of_find?_eq_some hfind)) hset))

theorem step_holds (limits : Limits) (h : kind (Rule.terminal s.set))
    (hfiled : ∀ r ∈ filed, kind r) (offset : Nat) (b : UInt8) :
    Ensures (s.step limits filed offset b) (Holds kind) := by
  unfold Brackets.step
  split
  · exact idle_holds hkind h offset b
  · split
    · exact .ok h
    · exact .ok h
  · split
    · exact .ok (hkind.union h (hkind.built (CharSet.built_ofLiteral (Nat.le_refl _) _)))
    · exact .along fun _ _ => .ok h
  · split
    · exact .along fun _ _ => .ok h
    · split
      · exact .error
      · exact (adopt_holds hkind h hfiled _ _).bind fun _ hnext =>
          idle_holds hkind hnext offset b
  · refine .along fun reading _ => ?_
    cases reading with
    | going _ => exact .ok h
    | done bounds => exact .ok (hkind.union h (hkind.built (.range _ _)))

end Brackets

end

/-! ## Words -/

theorem Word.isQuiet_name (w : Word) : isQuiet w.name = false := by
  obtain ⟨letters, hne, hadmitted⟩ := w
  cases letters with
  | nil => exact absurd rfl hne
  | cons c rest =>
    have hc : c ≠ quietSign := by
      rintro rfl
      exact absurd (hadmitted quietSign List.mem_cons_self) (by decide)
    simpa [isQuiet, Word.name] using hc

theorem Word.name_ne_empty (w : Word) : w.name ≠ "" := by
  simpa [Word.name, String.ofList_eq_empty_iff] using w.nonempty

theorem kept_unnested {limits : Limits} : Kept limits Rule.Unnested :=
  kept_everywhere Rule.Unnested.aboutCaptures fun _ w h =>
    Rule.Unnested.named h w.isQuiet_name

theorem isWordChar_of_sign {c : Char} (h : Sign.ofChar c = .word) :
    isWordChar c = true := by
  unfold Sign.ofChar at h
  split at h <;> try cases h
  split at h
  · assumption
  · cases h

/-- The bytes of a name as far as it has been read. -/
def Worded (text : Text) : Prop :=
  ∀ b ∈ text.toList, Sign.of b = .word

theorem worded_empty : Worded #[] := nofun

theorem Worded.push {limits : Limits} {text : Text} {b : UInt8} (h : Worded text)
    (hb : Sign.of b = .word) :
    Ensures (push limits text b) fun text => Worded text ∧ text.isEmpty = false := by
  unfold Terse.push
  split
  · refine .ok ⟨?_, by simp⟩
    intro c hc
    rw [Array.toList_push, List.mem_append, List.mem_singleton] at hc
    rcases hc with hc | rfl
    · exact h c hc
    · exact hb
  · exact .error

/-- A name that has been read is a word. -/
theorem Worded.exists_bytes {text : Text} (h : Worded text) (hne : text.isEmpty = false) :
    ∃ w : Word, w.bytes = text.toList := by
  have hletters : ∀ c ∈ text.toList.map Char.ofUInt8, isWordChar c = true := by
    intro c hc
    obtain ⟨b, hb, rfl⟩ := List.mem_map.mp hc
    exact isWordChar_of_sign (h b hb)
  refine ⟨⟨text.toList.map Char.ofUInt8, by simpa using hne, hletters⟩, ?_⟩
  show (text.toList.map Char.ofUInt8).map Char.toUInt8 = _
  rw [List.map_map]
  conv => rhs; rw [← List.map_id text.toList]
  exact List.map_congr_left fun b _ => (eq_of_ofUInt8 rfl).symm

theorem Word.nameOf_of_bytes {w : Word} {text : Text} (h : w.bytes = text.toList) :
    nameOf text = w.name := by
  rw [← w.nameOf_bytes, h]

theorem push_size {limits : Limits} (text : Text) (b : UInt8) :
    Ensures (push limits text b) fun text => text.size ≤ limits.text := by
  unfold Terse.push
  split
  · rename_i hlt
    exact .ok (by simpa using Nat.succ_le_of_lt hlt)
  · exact .error

/-- A name as far as it has been read is a word so far, and fits. -/
structure Naming (limits : Limits) (text : Text) : Prop where
  worded : Worded text
  size : text.size ≤ limits.text

theorem Naming.empty {limits : Limits} : Naming limits #[] :=
  ⟨worded_empty, Nat.zero_le _⟩

theorem Naming.push {limits : Limits} {text : Text} {b : UInt8} (h : Naming limits text)
    (hb : Sign.of b = .word) :
    Ensures (push limits text b) fun text => Naming limits text ∧ text.isEmpty = false :=
  fun text htext => ⟨⟨(h.worded.push hb text htext).1, push_size _ b text htext⟩,
    (h.worded.push hb text htext).2⟩

theorem Naming.exists_word {limits : Limits} {text : Text} (h : Naming limits text)
    (hne : text.isEmpty = false) : ∃ w : Word, nameOf text = w.name ∧ w.Fits limits := by
  obtain ⟨w, hw⟩ := h.worded.exists_bytes hne
  have hlength := congrArg List.length hw
  rw [Word.bytes, ascii, List.length_map, Array.length_toList] at hlength
  exact ⟨w, Word.nameOf_of_bytes hw, Nat.le_trans (Nat.le_of_eq hlength) h.size⟩

/-! ## The invariant -/

section

variable (limits : Limits) (kind : Rule → Prop)

structure Scope.All (s : Scope) : Prop where
  current : ∀ r ∈ s.current, kind r
  sequence : ∀ r ∈ s.sequence, kind r
  alternatives : ∀ r ∈ s.alternatives, kind r
  elements : s.sequence.length ≤ limits.sequence
  choices : s.alternatives.length ≤ limits.alternatives

/-- What is being read, if it is a literal or a name, fits, and a name is a word so
far. The set of a class can be that of a terminal. -/
def Lexeme.Fits : Lexeme → Prop
  | .literal _ text => text.size ≤ limits.text
  | .inclusion text | .label _ text => Naming limits text
  | .name text | .waiting text => Naming limits text ∧ text.isEmpty = false
  | .brackets inner => kind (Rule.terminal inner.set)
  | .idle | .comment _ | .braces _ => True

structure Body.All (s : Body) : Prop where
  title : ∃ w : Word, s.title = w.name ∧ w.Fits limits
  groups : ∀ g ∈ s.groups, g.outer.All limits kind
  scope : s.scope.All limits kind
  lexeme : s.lexeme.Fits limits kind

def Phase.All : Phase → Prop
  | .between title | .comment _ title =>
    ∀ t ∈ title, ∃ w : Word, t.name = w.name ∧ w.Fits limits
  | .naming _ text => Naming limits text ∧ text.isEmpty = false
  | .body inner => inner.All limits kind

/-- Declared rules of this kind, and no more of them than may be declared. -/
structure Filed (filed : List Rule) : Prop where
  each : ∀ r ∈ filed, kind r
  room : filed.length ≤ limits.rules

structure State.All (s : State) : Prop where
  filed : Filed limits kind s.filed
  carried : kind (Rule.terminal s.carried)
  phase : s.phase.All limits kind

end

variable {limits : Limits} {kind : Rule → Prop} (hkind : Kept limits kind)

namespace Scope.All

variable {s : Scope}

theorem empty : Scope.empty.All limits kind :=
  ⟨nofun, nofun, nofun, Nat.zero_le _, Nat.zero_le _⟩

theorem replace {r : Rule} (h : s.All limits kind) (hr : kind r) :
    Scope.All limits kind { s with current := some r } :=
  ⟨fun _ hr' => Option.some.inj hr' ▸ hr, h.sequence, h.alternatives,
    h.elements, h.choices⟩

theorem settle (h : s.All limits kind) :
    Ensures (s.settle limits) fun s => s.All limits kind := by
  unfold Scope.settle
  split
  · exact .ok h
  · rename_i r hcurrent
    split
    · rename_i hlt
      refine .ok ⟨?_, ?_, h.alternatives, ?_, h.choices⟩
      · rintro _ ⟨⟩
      · exact List.forall_mem_append.mpr
          ⟨h.sequence, List.forall_mem_singleton.mpr (h.current r hcurrent)⟩
      · simpa using Nat.succ_le_of_lt hlt
    · exact .error

theorem put {r : Rule} (h : s.All limits kind) (hr : kind r) :
    Ensures (s.put limits r) fun s => s.All limits kind :=
  h.settle.bind fun _ hs => .ok (hs.replace hr)

include hkind

theorem alternate (h : s.All limits kind) :
    Ensures (s.alternate limits) fun s => s.All limits kind := by
  refine h.settle.bind fun s hs => ?_
  split
  · rename_i hlt
    refine .ok ⟨nofun, nofun, ?_, Nat.zero_le _, by simpa using Nat.succ_le_of_lt hlt⟩
    exact List.forall_mem_append.mpr
      ⟨hs.alternatives,
        List.forall_mem_singleton.mpr (hkind.chain hs.elements hs.sequence)⟩
  · exact .error

theorem fold (h : s.All limits kind) :
    Ensures (s.fold limits) fun folded => ∀ r ∈ folded, kind r := by
  refine h.settle.bind fun s hs => ?_
  split
  · split
    · exact .ok nofun
    · exact .ok fun _ hr => Option.some.inj hr ▸ hkind.chain hs.elements hs.sequence
  · refine (hs.alternate hkind).bind fun s hs => ?_
    exact .ok fun _ hr => Option.some.inj hr ▸ hkind.selection hs.choices hs.alternatives

end Scope.All

namespace Body.All

variable {s : Body}

theorem reading {lexeme : Lexeme} (h : s.All limits kind)
    (hlexeme : lexeme.Fits limits kind) : (s.reading lexeme).All limits kind :=
  ⟨h.title, h.groups, h.scope, hlexeme⟩

theorem start {name : String} (h : ∃ w : Word, name = w.name ∧ w.Fits limits) :
    (Body.start name).All limits kind :=
  ⟨h, nofun, .empty, trivial⟩

theorem put {r : Rule} (h : s.All limits kind) (hr : kind r) :
    Ensures (s.put limits r) fun s => s.All limits kind :=
  (h.scope.put hr).bind fun _ hscope => .ok ⟨h.title, h.groups, hscope, trivial⟩

theorem replace {r : Rule} (h : s.All limits kind) (hr : kind r) :
    (s.replace r).All limits kind :=
  ⟨h.title, h.groups, h.scope.replace hr, trivial⟩

theorem suffix {f : Rule → Rule} (h : s.All limits kind) (hf : ∀ {r}, kind r → kind (f r))
    (offset : Nat) (b : UInt8) : Ensures (s.suffix offset b f) fun s =>
      s.All limits kind := by
  unfold Body.suffix
  split
  · rename_i r hcurrent
    exact .ok (h.replace (hf (h.scope.current r hcurrent)))
  · exact .error

theorem openGroup (h : s.All limits kind) (offset : Nat) :
    Ensures (s.openGroup limits offset) fun s => s.All limits kind := by
  unfold Body.openGroup
  split
  · refine h.scope.settle.bind fun outer houter => .ok ⟨h.title, ?_, .empty, trivial⟩
    exact List.forall_mem_cons.mpr ⟨houter, h.groups⟩
  · exact .error

include hkind

theorem closeGroup (h : s.All limits kind) {g : Group} {groups : List Group}
    (hgroups : s.groups = g :: groups) :
    Ensures (s.closeGroup limits g groups) fun s => s.All limits kind := by
  have hall := h.groups
  rw [hgroups] at hall
  obtain ⟨houter, hrest⟩ := List.forall_mem_cons.mp hall
  refine (h.scope.fold hkind).bind fun folded hfolded => ?_
  cases folded with
  | none => exact .ok ⟨h.title, hrest, houter, trivial⟩
  | some r =>
    exact (houter.put (hfolded r rfl)).bind fun _ hscope =>
      .ok ⟨h.title, hrest, hscope, trivial⟩

theorem rule (h : s.All limits kind) : Ensures (s.rule limits) kind := by
  obtain ⟨w, hw, hfits⟩ := h.title
  refine (h.scope.fold hkind).bind fun folded hfolded => .ok ?_
  rw [hw]
  refine hkind.named hfits ?_
  cases folded with
  | none =>
    have hempty : kind (Rule.chain []) :=
      hkind.chain (Nat.zero_le _) (List.forall_mem_nil _)
    exact hempty
  | some r => exact hfolded r rfl

theorem attach (h : s.All limits kind) {text : Text} (htext : Naming limits text)
    (hne : text.isEmpty = false) (opened : Nat) :
    Ensures (s.attach opened text) fun s => s.All limits kind := by
  obtain ⟨w, hw, hfits⟩ := htext.exists_word hne
  rw [Body.attach, hw]
  exact h.suffix (hkind.named hfits) _ _

theorem refer (h : s.All limits kind) {text : Text}
    (htext : Naming limits text ∧ text.isEmpty = false) :
    Ensures (s.refer limits text) fun s => s.All limits kind := by
  obtain ⟨w, hw, hfits⟩ := htext.1.exists_word htext.2
  rw [Body.refer, hw]
  exact h.put (hkind.reference hfits)

end Body.All

theorem Filed.file {filed : List Rule} (h : Filed limits kind filed) {r : Rule}
    (hr : kind r) : Ensures (file limits filed r) (Filed limits kind) := by
  unfold Terse.file
  split
  · rename_i hlt
    refine .ok ⟨?_, by simpa using Nat.succ_le_of_lt hlt⟩
    exact List.forall_mem_append.mpr ⟨h.each, List.forall_mem_singleton.mpr hr⟩
  · exact .error

theorem included_of_forall {filed : List Rule} (hfiled : ∀ r ∈ filed, kind r)
    (hkind : Kept limits kind) {w : Word} (hfits : w.Fits limits) :
    kind (included filed w.name) := by
  unfold included
  split
  · rename_i r hfind
    exact hkind.body (hfiled r (List.mem_of_find?_eq_some hfind))
  · exact hkind.quiet hfits

namespace State.All

variable {s : State}

theorem toBody {body : Body} (h : s.All limits kind) (hbody : body.All limits kind) :
    (s.toBody body).All limits kind :=
  ⟨h.filed, h.carried, hbody⟩

theorem inPhase {phase : Phase} (h : s.All limits kind) (hphase : phase.All limits kind) :
    (s.inPhase phase).All limits kind :=
  ⟨h.filed, h.carried, hphase⟩

theorem body {outcome : Except GrammarError Body} (h : s.All limits kind)
    (hbody : Ensures outcome fun body => body.All limits kind) :
    Ensures (s.toBody <$> outcome) fun s => s.All limits kind :=
  .map fun body ha => h.toBody (hbody body ha)

theorem between {title : Option Title} (h : s.All limits kind)
    (htitle : ∀ t ∈ title, ∃ w : Word, t.name = w.name ∧ w.Fits limits) (b : UInt8) :
    Ensures (s.between limits title b) fun s => s.All limits kind := by
  unfold State.between
  split
  · exact .ok (h.inPhase htitle)
  · exact .ok (h.inPhase htitle)
  · exact .ok (h.inPhase htitle)
  · rename_i title _
    exact .ok (h.toBody (.start (htitle title rfl)))
  · rename_i hword
    exact (Naming.empty.push hword).bind fun text htext => .ok (h.inPhase htext)
  · exact .error

include hkind

theorem declare (h : s.All limits kind) {body : Body} {next : Phase}
    (hbody : body.All limits kind) (hnext : next.All limits kind) :
    Ensures (s.declare limits body next) fun s => s.All limits kind :=
  (hbody.rule hkind).bind fun _ hr =>
    (h.filed.file hr).bind fun _ hfiled => .ok ⟨hfiled, h.carried, hnext⟩

theorem inBody (h : s.All limits kind) {body : Body} (hbody : body.All limits kind)
    (b : UInt8) : Ensures (s.inBody limits body b) fun s => s.All limits kind := by
  unfold State.inBody
  dsimp only
  cases hsign : Sign.of b with
  | blank | percent | openBrace => exact .ok (h.toBody (hbody.reading trivial))
  | openBracket => exact .ok (h.toBody (hbody.reading h.carried))
  | quote => exact .ok (h.toBody (hbody.reading (Nat.zero_le _)))
  | backslash | atSign => exact .ok (h.toBody (hbody.reading .empty))
  | dash =>
    dsimp only
    split
    · exact h.declare hkind hbody nofun
    · exact .error
  | question | star | plus => exact h.body (hbody.suffix (hkind.repeated _) _ _)
  | greater => exact h.body (hbody.suffix hkind.lookahead _ _)
  | spacing contract => exact h.body (hbody.put (hkind.spacing contract))
  | tilde => exact h.body (hbody.put hkind.completion)
  | less => exact h.body (hbody.put hkind.decision)
  | openGroup => exact h.body (hbody.openGroup _)
  | closeGroup =>
    dsimp only
    split
    · exact .error
    · rename_i hgroups
      exact h.body (hbody.closeGroup hkind hgroups)
  | bar =>
    refine (hbody.scope.alternate hkind).bind fun scope hscope => ?_
    exact .ok (h.toBody ⟨hbody.title, hbody.groups, hscope, trivial⟩)
  | caret =>
    exact (charSetOf_keeps hkind.toKeepsSets h.filed.each hbody.scope.current _).bind
      fun _ hset => .ok (h.toBody (hbody.replace (hkind.negate hset)))
  | ampersand =>
    refine (charSetOf_keeps hkind.toKeepsSets h.filed.each hbody.scope.current _).bind
      fun _ hset => .ok ⟨h.filed, hset, ⟨hbody.title, hbody.groups, ?_, trivial⟩⟩
    exact { hbody.scope with current := nofun }
  | word =>
    exact (Naming.empty.push hsign).bind fun text htext =>
      .ok (h.toBody (hbody.reading htext))
  | equals | closeBracket | closeBrace | hash | other => exact .error

theorem afterName (h : s.All limits kind) {body : Body} (hbody : body.All limits kind)
    {text : Text} (htext : Naming limits text ∧ text.isEmpty = false) (b : UInt8) :
    Ensures (s.afterName limits body text b) fun s => s.All limits kind := by
  unfold State.afterName
  split
  · exact .ok (h.toBody (hbody.reading htext))
  · exact h.declare hkind hbody (.start (htext.1.exists_word htext.2))
  · exact (hbody.refer hkind htext).bind fun body hbody => h.inBody hkind hbody b

theorem inName (h : s.All limits kind) {body : Body} (hbody : body.All limits kind)
    {text : Text} {lexeme : Text → Lexeme} {finish : Except GrammarError Body} {b : UInt8}
    (htext : Naming limits text)
    (hlexeme : ∀ {text : Text}, Naming limits text → (lexeme text).Fits limits kind)
    (hfinish : text.isEmpty = false → Ensures finish fun body => body.All limits kind) :
    Ensures (s.inName limits body text lexeme finish b) fun s => s.All limits kind := by
  unfold State.inName
  split
  · rename_i hword
    exact (htext.push hword).bind fun text htext =>
      .ok (h.toBody (hbody.reading (hlexeme htext.1)))
  · split
    · exact .error
    · rename_i hne
      exact (hfinish (Bool.eq_false_iff.mpr hne)).bind fun body hbody =>
        h.inBody hkind hbody b

/-- A rule is put into a body under the name that an inclusion gives. -/
theorem adopt (h : s.All limits kind) {body : Body} (hbody : body.All limits kind)
    {text : Text} (htext : Naming limits text) (hne : text.isEmpty = false) :
    Ensures (body.adopt limits s.filed text) fun body => body.All limits kind := by
  obtain ⟨w, hw, hfits⟩ := htext.exists_word hne
  rw [Body.adopt, hw]
  exact hbody.put (included_of_forall h.filed.each hkind hfits)

theorem stepBody (h : s.All limits kind) {body : Body} (hbody : body.All limits kind)
    (b : UInt8) : Ensures (s.stepBody limits body b) fun s => s.All limits kind := by
  have hlexeme := hbody.lexeme
  unfold State.stepBody
  split
  · exact h.inBody hkind hbody b
  · refine .ok (h.toBody (hbody.reading ?_))
    split <;> trivial
  · rename_i opened text heq
    rw [heq] at hlexeme
    split
    · exact h.body (hbody.put (hkind.literal (Array.length_toList ▸ hlexeme)))
    · exact (push_size text b).bind fun text htext => .ok (h.toBody (hbody.reading htext))
  · rename_i text heq
    rw [heq] at hlexeme
    exact h.inName hkind hbody hlexeme id fun hne => h.adopt hkind hbody hlexeme hne
  · rename_i opened text heq
    rw [heq] at hlexeme
    exact h.inName hkind hbody hlexeme id fun hne => hbody.attach hkind hlexeme hne opened
  · rename_i text heq
    rw [heq] at hlexeme
    split
    · rename_i hb
      exact (hlexeme.1.push hb).bind fun text htext =>
        .ok (h.toBody (hbody.reading htext))
    · exact h.afterName hkind hbody hlexeme b
  · rename_i text heq
    rw [heq] at hlexeme
    exact h.afterName hkind hbody hlexeme b
  · refine .along fun reading _ => ?_
    cases reading with
    | going _ => exact .ok (h.toBody (hbody.reading trivial))
    | done bounds => exact h.body (hbody.suffix (hkind.repeated _) _ _)
  · rename_i brackets heq
    rw [heq] at hlexeme
    have hholds :=
      Brackets.step_holds hkind.toKeepsSets limits hlexeme h.filed.each s.offset b
    refine hholds.bind fun reading hset => ?_
    cases reading with
    | going _ => exact .ok (h.toBody (hbody.reading hset))
    | done set =>
      have hempty : kind (Rule.terminal CharSet.empty) := hkind.built CharSet.built_empty
      exact (hbody.put hset).bind fun body hbody => .ok ⟨h.filed, hempty, hbody⟩

theorem step (h : s.All limits kind) (b : UInt8) :
    Ensures (s.step limits b) fun s => s.All limits kind := by
  suffices hphase : Ensures (s.stepPhase limits b) fun s => s.All limits kind from
    hphase.bind fun _ hs => .ok ⟨hs.filed, hs.carried, hs.phase⟩
  have hphase := h.phase
  unfold State.stepPhase
  split
  · rename_i title heq
    rw [heq] at hphase
    exact h.between hphase b
  · rename_i opened title heq
    rw [heq] at hphase
    refine .ok (h.inPhase ?_)
    split <;> exact hphase
  · rename_i start text heq
    rw [heq] at hphase
    split
    · rename_i hb
      exact (hphase.1.push hb).bind fun text htext => .ok (h.inPhase htext)
    · refine h.between ?_ b
      rintro _ ⟨⟩
      exact hphase.1.exists_word hphase.2
  · rename_i body heq
    rw [heq] at hphase
    exact h.stepBody hkind hphase b

theorem run (h : s.All limits kind) (source : Bytes) :
    Ensures (s.run limits source) fun s => s.All limits kind :=
  .foldlM (fun _ hs b _ => hs.step hkind b) h

theorem closeBody (h : s.All limits kind) {body : Body} (hbody : body.All limits kind) :
    Ensures (s.closeBody limits body) (Filed limits kind) := by
  unfold State.closeBody
  split
  · exact .error
  · exact (hbody.rule hkind).bind fun _ hr => h.filed.file hr

theorem finish (h : s.All limits kind) :
    Ensures (s.finish limits) (Filed limits kind) := by
  have hphase := h.phase
  unfold State.finish
  split
  · exact .ok h.filed
  · exact .error
  · exact .error
  · exact .error
  · rename_i body heq
    rw [heq] at hphase
    have hlexeme := hphase.lexeme
    unfold State.finishBody
    split
    · exact h.closeBody hkind hphase
    · exact .error
    · exact .error
    · rename_i text heq
      rw [heq] at hlexeme
      split
      · exact .error
      · rename_i hne
        exact (h.adopt hkind hphase hlexeme (Bool.eq_false_iff.mpr hne)).bind
          fun body hbody => h.closeBody hkind hbody
    · rename_i opened text heq
      rw [heq] at hlexeme
      split
      · exact .error
      · rename_i hne
        exact (hphase.attach hkind hlexeme (Bool.eq_false_iff.mpr hne) opened).bind
          fun body hbody => h.closeBody hkind hbody
    · rename_i text heq
      rw [heq] at hlexeme
      exact (hphase.refer hkind hlexeme).bind fun body hbody => h.closeBody hkind hbody
    · rename_i text heq
      rw [heq] at hlexeme
      exact (hphase.refer hkind hlexeme).bind fun body hbody => h.closeBody hkind hbody
    · exact .error
    · exact .error

end State.All

/-- Where the rules before a source are of a kind that the reader keeps, and not too
many, those after it are. -/
theorem compile_keeps (hkind : Kept limits kind) {filed : List Rule}
    (hfiled : Filed limits kind filed) (source : Bytes) :
    Ensures (compile limits filed source) (Filed limits kind) :=
  have hstart : (State.start filed).All limits kind :=
    ⟨hfiled, hkind.built CharSet.built_empty, nofun⟩
  (hstart.run hkind source).bind fun _ hs => hs.finish hkind

end RuleGraph.Terse
