import RuleGraph.Hosted.Parse
import RuleGraph.Proofs.CharSet.Complements
import RuleGraph.Proofs.Chains

/-!
# What the rules of hosted tokens have in common

Tokens are made into rules with few operations, whatever they look like. `Kept` says of a
property of rules that these operations do not lead out of it. All the rules that come of
tokens have the property then, at whatever depth they were put together. It takes no more
to see this than to follow the reader: a part that is no rule, like a bound or a name, is
passed over. Only the sets of terminals are looked at, since there are sets that tokens
cannot write.
-/

namespace RuleGraph.Hosted

/-- Whatever is made of rules of this kind where tokens are read is of this kind. -/
structure Kept (kind : Rule → Prop) : Prop where
  literal (bytes : Bytes) : kind (Rule.literal bytes)
  terminal {set : CharSet} : set.Built maxCodePoint → kind (Rule.terminal set)
  spacing (contract : Spacing) : kind (Rule.spacing contract)
  completion : kind Rule.completion
  reference (target : String) : kind (Rule.reference target)
  sequence {rules : List Rule} (cut : Option Nat) : (∀ r ∈ rules, kind r) →
    kind (Rule.sequenceCut rules cut)
  selection {rules : List Rule} : (∀ r ∈ rules, kind r) → kind (Rule.selection rules)
  repeated {r : Rule} (bound : Bound) : kind r → kind (r.repeated bound)
  named {r : Rule} (name : String) : kind r → kind (r.named name)

/-- If this is an element and not a cut, it is of this kind. -/
def Piece.Of (kind : Rule → Prop) : Piece → Prop
  | .rule r => kind r
  | .cut => True

variable {c : Context}

/-! ## Sets -/

theorem plainRanges_built {p : Place} :
    Ensures (plainRanges c p) (CharSet.Built maxCodePoint) := by
  have hnamed := CharSet.built_named (Nat.le_refl maxCodePoint)
  refine .along fun ⟨t, rest⟩ _ => ?_
  dsimp only
  cases t.label with
  | wildcard | letter | upper | lower | hex | octal | binary | digit | whitespace =>
    exact .ok (hnamed _ (by simp only [List.mem_cons, true_or, or_true]))
  | range => exact .along fun _ _ => .along fun _ _ => .ok (.range _ _)
  | literal => exact .along fun _ _ => .ok (CharSet.built_character _)
  | shortname =>
    refine .along fun text _ => ?_
    split
    · exact .ok (CharSet.built_character _)
    · exact .error
  | _ => exact .error

theorem ranges_built {p : Place} : Ensures (ranges c p) (CharSet.Built maxCodePoint) := by
  refine .along fun ⟨_, rest⟩ _ => ?_
  dsimp only
  split
  · exact plainRanges_built
  · split
    · exact plainRanges_built.bind fun _ hset => .ok (hset.negate_of_lt (by decide))
    · exact plainRanges_built

/-- If a figure is a set, it is built of code points. -/
def BuiltFigure (figure : CharSet ⊕ String) : Prop :=
  ∀ set, figure.getLeft? = some set → set.Built maxCodePoint

theorem figure_built {part : Token Label × Place} :
    Ensures (figure c part) BuiltFigure := by
  unfold figure
  dsimp only
  split
  · exact ranges_built.bind fun _ hset => .ok fun _ h => Option.some.inj h ▸ hset
  · exact .along fun _ _ => .ok nofun
  · exact .error

variable {kind : Rule → Prop} (hkind : Kept kind)

include hkind

/-! ## Names and figures -/

theorem captured_keeps {parent part : Token Label} {after : Place} {r : Rule}
    (hr : kind r) : Ensures (captured c parent part after r) kind := by
  unfold captured
  split
  · exact .ok hr
  · exact .along fun ⟨_, _, name⟩ _ => .ok (hkind.named name hr)

theorem reference_keeps {t : Token Label} {rest : Place} :
    Ensures (reference c t rest) kind :=
  .along fun ⟨_, _, name⟩ _ => captured_keeps hkind (hkind.reference name)

theorem figuresRule_keeps {figures : List (CharSet ⊕ String)}
    (hfigures : ∀ figure ∈ figures, BuiltFigure figure) : kind (figuresRule figures) := by
  have hreferences : ∀ r ∈ figures.filterMap fun f => f.getRight?.map Rule.reference,
      kind r := by
    intro r hr
    obtain ⟨figure, -, hfigure⟩ := List.mem_filterMap.mp hr
    obtain ⟨name, -, rfl⟩ := Option.map_eq_some_iff.mp hfigure
    exact hkind.reference name
  have hsets : ∀ set ∈ figures.filterMap Sum.getLeft?, set.Built maxCodePoint := by
    intro set hset
    obtain ⟨figure, hfigure, hset⟩ := List.mem_filterMap.mp hset
    exact hfigures figure hfigure set hset
  unfold figuresRule
  dsimp only
  generalize hrules : (_ : List Rule) ++ (_ : List Rule) = rules
  have hall : ∀ r ∈ rules, kind r := by
    refine hrules ▸ List.forall_mem_append.mpr ⟨hreferences, ?_⟩
    split
    · exact List.forall_mem_nil _
    · rename_i set sets heq
      obtain ⟨hset, hrest⟩ := List.forall_mem_cons.mp (heq ▸ hsets)
      exact List.forall_mem_singleton.mpr (hkind.terminal (hset.foldl_union hrest))
  split
  · exact hkind.terminal CharSet.built_empty
  · exact List.forall_mem_singleton.mp hall
  · exact hkind.selection hall

theorem figures_keeps {p : Place} : Ensures (figures c p) kind := by
  refine .along fun ⟨t, rest⟩ _ => ?_
  refine (Ensures.mapM fun _ _ => figure_built).bind fun entries hentries => ?_
  have hrule := figuresRule_keeps hkind hentries
  dsimp only
  split
  · exact .ok hrule
  · split
    · exact .along fun ⟨_, _, name⟩ _ => .ok (hkind.named name hrule)
    · exact .ok hrule

theorem terminal_keeps {rest : Place} : Ensures (terminal c rest) kind := by
  refine .along fun ⟨part, _⟩ _ => ?_
  dsimp only
  split
  · exact ranges_built.bind fun _ hset => .ok (hkind.terminal hset)
  · exact figures_keeps hkind
  · exact .along fun contract _ => .ok (hkind.spacing contract)
  · exact .error

theorem simplified_keeps {r : Rule} (hr : kind r) : kind (simplified r) := by
  unfold simplified
  split
  · split
    · split
      · exact hkind.literal _
      · exact hr
    · exact hr
  · exact hr

/-! ## Elements and what consists of them -/

variable {inner : Place → Built Rule} (hinner : ∀ p, Ensures (inner p) kind)

include hinner

theorem nested_keeps {form : Token Label} {after : Place} :
    Ensures (nested c inner form after) kind := by
  refine (hinner after).bind fun r hr => ?_
  split
  · exact .ok hr
  · exact captured_keeps hkind hr

theorem pieceOf_keeps {bound : Bound} {form : Token Label} {after : Place} :
    Ensures (pieceOf c inner bound form after) (Piece.Of kind) := by
  unfold pieceOf
  split
  · exact .ok trivial
  · exact .ok hkind.completion
  · exact (nested_keeps hkind hinner).bind fun r hr => .ok (hkind.repeated bound hr)
  · exact (nested_keeps hkind hinner).bind fun r hr =>
      .ok (hkind.repeated Bound.optional hr)
  · exact (terminal_keeps hkind).bind fun r hr =>
      .ok (hkind.repeated bound (simplified_keeps hkind hr))
  · refine .along fun text _ => ?_
    split
    · exact .ok (hkind.repeated bound (hkind.literal _))
    · exact .error
  · exact (reference_keeps hkind).bind fun r hr => .ok (hkind.repeated bound hr)
  · exact .error

theorem element_keeps {t : Token Label} {rest : Place} :
    Ensures (element c inner t rest) (Piece.Of kind) := by
  unfold element
  split
  · exact .error
  · exact .along fun bound _ => pieceOf_keeps hkind hinner

omit hkind hinner in
theorem foldl_collect {pieces : List Piece} (h : ∀ p ∈ pieces, p.Of kind) :
    ∀ {elements : List Rule} {cut : Option Nat}, (∀ r ∈ elements, kind r) →
      ∀ r ∈ (pieces.foldl collect (elements, cut)).1, kind r := by
  induction pieces with
  | nil => exact fun helements => helements
  | cons p rest ih =>
    obtain ⟨hp, hrest⟩ := List.forall_mem_cons.mp h
    intro elements cut helements
    cases p with
    | rule r =>
      exact ih hrest
        (List.forall_mem_append.mpr ⟨helements, List.forall_mem_singleton.mpr hp⟩)
    | cut => exact ih hrest helements

omit hinner in
theorem sequenceRule_keeps {pieces : List Piece} (h : ∀ p ∈ pieces, p.Of kind) :
    kind (sequenceRule pieces) := by
  have hall : ∀ r ∈ (pieces.foldl collect ([], none)).1, kind r :=
    foldl_collect h (List.forall_mem_nil _)
  unfold sequenceRule
  split
  · rename_i r cut heq
    rw [heq] at hall
    exact List.forall_mem_singleton.mp hall
  · rename_i elements cut _ heq
    rw [heq] at hall
    exact hkind.sequence cut hall

theorem sequence_keeps {t : Token Label} {rest : Place} :
    Ensures (sequence c inner t rest) kind :=
  (Ensures.mapM fun _ _ => element_keeps hkind hinner).bind fun _ hpieces =>
    .ok (sequenceRule_keeps hkind hpieces)

omit hinner in
theorem selection_keeps (room : Nat) : ∀ p, Ensures (selection c room p) kind := by
  induction room with
  | zero => exact fun _ => .error
  | succ room ih =>
    intro p
    rw [selection]
    refine .along fun ⟨t, rest⟩ _ => ?_
    refine (Ensures.mapM fun _ _ => sequence_keeps hkind ih).bind
      fun alternatives halternatives => ?_
    split
    · exact .error
    · exact .ok (List.forall_mem_singleton.mp halternatives)
    · exact .ok (hkind.selection halternatives)

omit hinner in
theorem declaration_keeps {p : Place} : Ensures (declaration c p) kind :=
  .along fun ⟨_, _⟩ _ => .along fun ⟨t, after, name⟩ _ =>
    (selection_keeps hkind p.length (behind t after)).bind fun _ hr =>
      .ok (hkind.named name hr)

omit hinner in
theorem declared_keeps {p : Place} :
    Ensures (declared c p) fun rule => ∀ r ∈ rule, kind r := by
  unfold declared
  split
  · exact .ok nofun
  · split
    · exact .map fun r hr => by
        rintro _ ⟨⟩
        exact declaration_keeps hkind r hr
    · exact .ok nofun

omit hinner in
theorem declarations_keep : ∀ (p : Place) (below : Option Nat),
    Ensures (declarations c below p) fun rules => ∀ r ∈ rules, kind r := by
  intro p
  induction p with
  | nil => exact fun _ => .ok (List.forall_mem_nil _)
  | cons t rest ih =>
    intro below
    rw [declarations]
    split
    · exact ih below
    · split
      · exact ih none
      · refine (declared_keeps hkind).bind fun rule hrule =>
          (ih _).bind fun others hothers => .ok ?_
        refine List.forall_mem_append.mpr ⟨fun r hr => ?_, hothers⟩
        exact hrule r (Option.mem_toList.mp hr)
      · exact .error

omit hinner in
/-- Of whatever tokens they are made, rules are of a kind that reading keeps. -/
theorem rulesOf_keeps (p : Parse Label) :
    Ensures (rulesOf p) fun rules => ∀ r ∈ rules, kind r :=
  declarations_keep hkind p.overlay.tokens.toList none

omit hinner in
theorem rules_keep (source : Bytes) :
    Ensures (rules source) fun rules => ∀ r ∈ rules, kind r := by
  intro rs hrules
  obtain ⟨p, -, hrules⟩ := bind_eq_ok hrules
  exact rulesOf_keeps hkind p rs (mapError_eq_ok hrules)

end RuleGraph.Hosted
