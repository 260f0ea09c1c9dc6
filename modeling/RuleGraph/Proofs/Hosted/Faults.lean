import RuleGraph.Hosted.Declarations
import RuleGraph.Proofs.Chains

/-!
# Where reading tokens goes wrong

Tokens are read by place, and a place may be the end of all tokens. Nearly every
function looks whether there is a token before it asks for anything about it,
and then says which kind of part is absent. There is one exception: an element
asks what follows its form before it has seen that there is a form. So an
element that is the last token of all is where reading asks for a token that
does not exist, and it is the only such place.

Reading is a chain of steps, each of which goes on from a place that the one
before has left, and all of these places are ends of the one list of tokens.
That is the invariant here. It says at once that the texts asked for lie in the
source, because all tokens do.
-/

namespace RuleGraph.Hosted

/-- A failure that says something about the shape or the text of the tokens, or
else that a last token is an element. -/
def Fair (tokens : Place) : TokenError → Prop
  | .outside _ => False
  | .noToken index => index = tokens.length ∧ ∃ t ∈ tokens.getLast?, t.label = .element
  | _ => True

def FailsFairly {α : Type} (tokens : Place) (built : Built α) : Prop :=
  ∀ e, built = .error e → Fair tokens e

section Chains

variable {α β : Type} {tokens : Place}

theorem FailsFairly.ok (a : α) : FailsFairly tokens (.ok a) := nofun

theorem FailsFairly.error {e : TokenError} (h : Fair tokens e) :
    FailsFairly tokens (.error e : Built α) := by
  rintro _ ⟨⟩
  exact h

/-- A step after a step, which only matters where the first has succeeded. -/
theorem FailsFairly.bind {first : Built α} {next : α → Built β}
    (hfirst : FailsFairly tokens first)
    (hnext : ∀ a, first = .ok a → FailsFairly tokens (next a)) :
    FailsFairly tokens (first >>= next) := by
  cases first with
  | error e => exact fun e' h => hfirst e' (by cases h; rfl)
  | ok a => exact hnext a rfl

theorem FailsFairly.mapM {f : α → Built β} {items : List α}
    (h : ∀ a ∈ items, FailsFairly tokens (f a)) : FailsFairly tokens (items.mapM f) := by
  induction items with
  | nil => exact .ok []
  | cons a rest ih =>
    rw [List.mapM_cons]
    refine .bind (h a List.mem_cons_self) fun b _ => ?_
    refine .bind (ih fun x hx => h x (List.mem_cons_of_mem _ hx)) fun bs _ => .ok _

end Chains

/-! ## Places are ends of the tokens -/

theorem behind_suffix (t : Token Label) (rest : Place) : behind t rest <:+ rest :=
  List.dropWhile_suffix _

theorem sibling?_suffix {parent t next : Token Label} {label : Label} {rest after : Place}
    (h : sibling? parent label t rest = some (next, after)) : next :: after <:+ rest := by
  unfold sibling? at h
  split at h
  · cases h
  · rename_i next' after' hbehind
    split at h
    · cases h
      exact hbehind ▸ behind_suffix t rest
    · cases h

/-- Each part is where it says it is, and has been accepted. -/
theorem mem_parts {accept : Token Label → Bool} {part : Token Label × Place} :
    ∀ {p : Place} {below : Option Nat}, part ∈ (parts accept below p).1 →
      part.1 :: part.2 <:+ p ∧ accept part.1 = true := by
  intro p
  induction p with
  | nil => nofun
  | cons t rest ih =>
    intro below h
    have hlater {below : Option Nat} (h : part ∈ (parts accept below rest).1) :
        part.1 :: part.2 <:+ t :: rest ∧ accept part.1 = true :=
      (ih h).imp_left fun hsuffix => hsuffix.trans (List.suffix_cons t rest)
    rw [parts] at h
    split at h
    · exact hlater h
    · split at h
      · rename_i haccept
        rcases List.mem_cons.mp h with rfl | h
        · exact ⟨List.suffix_refl _, haccept⟩
        · exact hlater h
      · cases h

theorem parts_suffix (accept : Token Label → Bool) (p : Place) (below : Option Nat) :
    (parts accept below p).2 <:+ p := by
  induction p generalizing below with
  | nil => exact List.suffix_refl _
  | cons t rest ih =>
    rw [parts]
    split
    · exact (ih below).trans (List.suffix_cons t rest)
    · split
      · exact (ih (some t.depth)).trans (List.suffix_cons t rest)
      · exact List.suffix_refl _

theorem mem_partsOf {parent : Token Label} {label : Label} {p : Place}
    {part : Token Label × Place} (h : part ∈ partsOf parent label p) :
    part.1 :: part.2 <:+ p ∧ part.1.label = label := by
  obtain ⟨hsuffix, haccept⟩ := mem_parts h
  exact ⟨hsuffix, of_decide_eq_true (Bool.and_eq_true_iff.mp haccept).2⟩

section Readers

variable {c : Context} {tokens : Place}

theorem suffix_tail {t : Token Label} {rest p : Place} (h : t :: rest <:+ p) :
    rest <:+ p :=
  (List.suffix_cons t rest).trans h

/-! ## What is asked of a token -/

theorem expect_eq_ok {label : Label} {p rest : Place} {t : Token Label}
    (h : c.expect label p = .ok (t, rest)) : p = t :: rest := by
  cases p with
  | nil => cases h
  | cons t' rest' => cases h; rfl

theorem expect_failsFairly (label : Label) (p : Place) :
    FailsFairly tokens (c.expect label p) := by
  cases p with
  | nil => exact .error trivial
  | cons t rest => exact .ok _

theorem check_eq_ok {label : Label} {p rest : Place} {t : Token Label}
    (h : c.check label p = .ok (t, rest)) : p = t :: rest := by
  obtain ⟨⟨t', rest'⟩, hexpect, h⟩ := bind_eq_ok h
  dsimp only at h
  split at h
  · cases h
    exact expect_eq_ok hexpect
  · cases h

theorem check_failsFairly (label : Label) (p : Place) :
    FailsFairly tokens (c.check label p) := by
  refine .bind (expect_failsFairly label p) fun ⟨t, rest⟩ _ => ?_
  dsimp only
  split
  · exact .ok _
  · exact .error trivial

theorem name_eq_ok {p rest : Place} {t : Token Label} {name : String}
    (h : c.name p = .ok (t, rest, name)) : p = t :: rest := by
  obtain ⟨⟨t', rest'⟩, hcheck, h⟩ := bind_eq_ok h
  obtain ⟨text, -, h⟩ := bind_eq_ok h
  cases h
  exact check_eq_ok hcheck

theorem literal_eq_ok {p rest : Place} {t : Token Label} {code : Nat}
    (h : literal c p = .ok (t, rest, code)) : p = t :: rest := by
  obtain ⟨⟨t', rest'⟩, hcheck, h⟩ := bind_eq_ok h
  obtain ⟨⟨part, after⟩, -, h⟩ := bind_eq_ok h
  dsimp only at h
  split at h
  · obtain ⟨text, -, h⟩ := bind_eq_ok h
    split at h <;> cases h
    exact check_eq_ok hcheck
  · obtain ⟨bytes, -, h⟩ := bind_eq_ok h
    split at h <;> cases h
    exact check_eq_ok hcheck
  · cases h

variable (hin : ∀ t ∈ tokens, t.start ≤ t.stop ∧ t.stop ≤ c.source.length)

include hin

theorem bytes_failsFairly {t : Token Label} {rest : Place} (h : t :: rest <:+ tokens) :
    FailsFairly tokens (c.bytes t rest) := by
  unfold Context.bytes Parse.slice?
  rw [if_pos (hin t (h.subset List.mem_cons_self))]
  dsimp only
  split
  · exact .ok _
  · exact .error trivial

theorem text_failsFairly {t : Token Label} {rest : Place} (h : t :: rest <:+ tokens) :
    FailsFairly tokens (c.text t rest) :=
  .bind (bytes_failsFairly hin h) fun _ _ => .ok _

theorem number_failsFairly {t : Token Label} {rest : Place} (h : t :: rest <:+ tokens) :
    FailsFairly tokens (c.number t rest) := by
  refine .bind (text_failsFairly hin h) fun digits _ => ?_
  split
  · exact .ok _
  · exact .error trivial

theorem name_failsFairly {p : Place} (h : p <:+ tokens) :
    FailsFairly tokens (c.name p) := by
  refine .bind (check_failsFairly _ p) fun ⟨t, rest⟩ hcheck => ?_
  exact .bind (text_failsFairly hin (check_eq_ok hcheck ▸ h)) fun _ _ => .ok _

/-! ## Sets -/

theorem literal_failsFairly {p : Place} (h : p <:+ tokens) :
    FailsFairly tokens (literal c p) := by
  refine .bind (check_failsFairly _ p) fun ⟨t, rest⟩ hcheck => ?_
  have hrest : rest <:+ tokens := suffix_tail (check_eq_ok hcheck ▸ h)
  refine .bind (expect_failsFairly _ rest) fun ⟨part, after⟩ hexpect => ?_
  have hpart : part :: after <:+ tokens := expect_eq_ok hexpect ▸ hrest
  dsimp only
  split
  · refine .bind (text_failsFairly hin hpart) fun text _ => ?_
    split
    · exact .ok _
    · exact .error trivial
  · refine .bind (bytes_failsFairly hin hpart) fun text _ => ?_
    split
    · exact .ok _
    · exact .error trivial
  · exact .error trivial

theorem plainRanges_failsFairly {p : Place} (h : p <:+ tokens) :
    FailsFairly tokens (plainRanges c p) := by
  refine .bind (expect_failsFairly _ p) fun ⟨t, rest⟩ hexpect => ?_
  have ht : t :: rest <:+ tokens := expect_eq_ok hexpect ▸ h
  dsimp only
  cases t.label with
  | range =>
    refine .bind (literal_failsFairly hin (suffix_tail ht))
      fun ⟨first, after, low⟩ hlow => ?_
    have hafter : after <:+ tokens := suffix_tail (literal_eq_ok hlow ▸ suffix_tail ht)
    have hhigh : behind first after <:+ tokens := (behind_suffix first after).trans hafter
    exact .bind (literal_failsFairly hin hhigh) fun _ _ => .ok _
  | literal => exact .bind (literal_failsFairly hin h) fun _ _ => .ok _
  | shortname =>
    refine .bind (bytes_failsFairly hin ht) fun text _ => ?_
    split
    · exact .ok _
    · exact .error trivial
  | wildcard | letter | upper | lower | hex | octal | binary | digit
  | whitespace => exact .ok _
  | _ => exact .error trivial

theorem ranges_failsFairly {p : Place} (h : p <:+ tokens) :
    FailsFairly tokens (ranges c p) := by
  refine .bind (check_failsFairly _ p) fun ⟨t, rest⟩ hcheck => ?_
  have hrest : rest <:+ tokens := suffix_tail (check_eq_ok hcheck ▸ h)
  dsimp only
  split
  · exact plainRanges_failsFairly hin (List.nil_suffix)
  · split
    · exact .bind (plainRanges_failsFairly hin (suffix_tail hrest)) fun _ _ => .ok _
    · exact plainRanges_failsFairly hin hrest

/-! ## What stands in an element -/

theorem captured_failsFairly {parent part : Token Label} {after : Place} (r : Rule)
    (h : after <:+ tokens) : FailsFairly tokens (captured c parent part after r) := by
  unfold captured
  split
  · exact .ok _
  · rename_i next rest hsibling
    have hrest : rest <:+ tokens := suffix_tail ((sibling?_suffix hsibling).trans h)
    exact .bind (name_failsFairly hin hrest) fun _ _ => .ok _

theorem reference_failsFairly {t : Token Label} {rest : Place} (h : rest <:+ tokens) :
    FailsFairly tokens (reference c t rest) := by
  refine .bind (name_failsFairly hin h) fun ⟨part, after, name⟩ hname => ?_
  exact captured_failsFairly hin _ (suffix_tail (name_eq_ok hname ▸ h))

theorem occurrence_failsFairly {t : Token Label} {rest : Place} (h : rest <:+ tokens) :
    FailsFairly tokens (occurrence c t rest) := by
  refine .bind (expect_failsFairly _ rest) fun ⟨part, after⟩ hexpect => ?_
  have hpart : part :: after <:+ tokens := expect_eq_ok hexpect ▸ h
  dsimp only
  cases part.label with
  | plus | star | qmark => exact .ok _
  | least =>
    refine .bind (number_failsFairly hin hpart) fun least _ => ?_
    split
    · exact .ok _
    · rename_i sign after' hupTo
      have hsign := (sibling?_suffix hupTo).trans (suffix_tail hpart)
      split
      · exact .ok _
      · rename_i most after'' hmost
        have hmost := (sibling?_suffix hmost).trans (suffix_tail hsign)
        exact .bind (number_failsFairly hin hmost) fun _ _ => .ok _
  | _ => exact .error trivial

theorem figure_failsFairly {part : Token Label × Place}
    (h : part.1 :: part.2 <:+ tokens) : FailsFairly tokens (figure c part) := by
  obtain ⟨t, rest⟩ := part
  unfold figure
  dsimp only at h ⊢
  cases t.label with
  | ranges => exact .bind (ranges_failsFairly hin h) fun _ _ => .ok _
  | name => exact .bind (text_failsFairly hin h) fun _ _ => .ok _
  | _ => exact .error trivial

theorem figures_failsFairly {p : Place} (h : p <:+ tokens) :
    FailsFairly tokens (figures c p) := by
  refine .bind (check_failsFairly _ p) fun ⟨t, rest⟩ hcheck => ?_
  have hrest : rest <:+ tokens := suffix_tail (check_eq_ok hcheck ▸ h)
  refine .bind (.mapM fun part hpart => ?_) fun entries _ => ?_
  · exact figure_failsFairly hin ((mem_parts hpart).1.trans hrest)
  · have hplace :=
      (parts_suffix (fun s => inside t s && s.label != .capture) rest none).trans hrest
    dsimp only
    split
    · exact .ok _
    · rename_i next after hbehind
      split
      · have hafter : after <:+ tokens := suffix_tail (hbehind ▸ hplace)
        exact .bind (name_failsFairly hin hafter) fun _ _ => .ok _
      · exact .ok _

omit hin in
theorem spacing_failsFairly {p : Place} : FailsFairly tokens (spacing c p) := by
  refine .bind (check_failsFairly _ p) fun ⟨t, rest⟩ _ => ?_
  refine .bind (expect_failsFairly _ rest) fun ⟨part, _⟩ _ => ?_
  dsimp only
  cases part.label with
  | gap | pad | indent | separator | wrap => exact .ok _
  | _ => exact .error trivial

theorem terminal_failsFairly {rest : Place} (h : rest <:+ tokens) :
    FailsFairly tokens (terminal c rest) := by
  refine .bind (expect_failsFairly _ rest) fun ⟨part, after⟩ _ => ?_
  dsimp only
  cases part.label with
  | ranges => exact .bind (ranges_failsFairly hin h) fun _ _ => .ok _
  | figures => exact figures_failsFairly hin h
  | pattern => exact .bind spacing_failsFairly fun _ _ => .ok _
  | _ => exact .error trivial

/-! ## Elements and what consists of them -/

variable {inner : Place → Built Rule}
  (hinner : ∀ p, p <:+ tokens → FailsFairly tokens (inner p))
  (hcount : c.count = tokens.length)

include hinner hcount

omit hinner hcount in
theorem boundOf_failsFairly {t form : Token Label} {after : Place}
    (h : after <:+ tokens) : FailsFairly tokens (boundOf c t form after) := by
  unfold boundOf
  split
  · rename_i part rest hoccurrence
    exact occurrence_failsFairly hin (suffix_tail ((sibling?_suffix hoccurrence).trans h))
  · exact .ok _

omit hcount in
theorem nested_failsFairly {form : Token Label} {after : Place} (h : after <:+ tokens) :
    FailsFairly tokens (nested c inner form after) := by
  refine .bind (hinner after h) fun r _ => ?_
  split
  · exact .ok _
  · exact captured_failsFairly hin r (suffix_tail h)

omit hcount in
theorem pieceOf_failsFairly {bound : Bound} {form : Token Label} {after : Place}
    (h : form :: after <:+ tokens) :
    FailsFairly tokens (pieceOf c inner bound form after) := by
  have hafter : after <:+ tokens := suffix_tail h
  unfold pieceOf
  cases form.label with
  | distinction | completion => exact .ok _
  | group | option => exact .bind (nested_failsFairly hin hinner hafter) fun _ _ => .ok _
  | terminal => exact .bind (terminal_failsFairly hin hafter) fun _ _ => .ok _
  | string =>
    refine .bind (text_failsFairly hin h) fun text _ => ?_
    split
    · exact .ok _
    · exact .error trivial
  | ref => exact .bind (reference_failsFairly hin hafter) fun _ _ => .ok _
  | _ => exact .error trivial

theorem element_failsFairly {t : Token Label} {rest : Place} (h : t :: rest <:+ tokens)
    (hlabel : t.label = .element) : FailsFairly tokens (element c inner t rest) := by
  unfold element
  split
  · -- the element is the last token
    refine .error ⟨hcount, t, ?_, hlabel⟩
    obtain ⟨before, rfl⟩ := h
    exact List.getLast?_concat
  · rename_i form after
    have hform : form :: after <:+ tokens := suffix_tail h
    refine .bind (boundOf_failsFairly hin (suffix_tail hform)) fun bound _ => ?_
    exact pieceOf_failsFairly hin hinner hform

theorem sequence_failsFairly {t : Token Label} {rest : Place} (h : rest <:+ tokens) :
    FailsFairly tokens (sequence c inner t rest) := by
  refine .bind (.mapM fun ⟨part, after⟩ hpart => ?_) fun _ _ => .ok _
  obtain ⟨hsuffix, hlabel⟩ := mem_partsOf hpart
  exact element_failsFairly hin hinner hcount (hsuffix.trans h) hlabel

omit hinner in
theorem selection_failsFairly (room : Nat) :
    ∀ p, p <:+ tokens → FailsFairly tokens (selection c room p) := by
  induction room with
  | zero =>
    intro p _
    exact .error trivial
  | succ room ih =>
    intro p h
    rw [selection]
    refine .bind (check_failsFairly _ p) fun ⟨t, rest⟩ hcheck => ?_
    have hrest : rest <:+ tokens := suffix_tail (check_eq_ok hcheck ▸ h)
    refine .bind (.mapM fun ⟨part, after⟩ hpart => ?_) fun alternatives _ => ?_
    · exact sequence_failsFairly hin ih hcount
        (suffix_tail ((mem_partsOf hpart).1.trans hrest))
    · split
      · exact .error trivial
      · exact .ok _
      · exact .ok _

omit hinner in
theorem declaration_failsFairly {p : Place} (h : p <:+ tokens) :
    FailsFairly tokens (declaration c p) := by
  refine .bind (check_failsFairly _ p) fun ⟨t, rest⟩ hcheck => ?_
  have hrest : rest <:+ tokens := suffix_tail (check_eq_ok hcheck ▸ h)
  refine .bind (name_failsFairly hin hrest) fun ⟨part, after, name⟩ hname => ?_
  have hafter : after <:+ tokens := suffix_tail (name_eq_ok hname ▸ hrest)
  have hbehind : behind part after <:+ tokens := (behind_suffix part after).trans hafter
  exact .bind (selection_failsFairly hin hcount p.length _ hbehind) fun _ _ => .ok _

omit hinner in
theorem declared_failsFairly {p : Place} (h : p <:+ tokens) :
    FailsFairly tokens (declared c p) := by
  unfold declared
  split
  · exact .ok _
  · split
    · rw [map_eq_pure_bind]
      exact .bind (declaration_failsFairly hin hcount h) fun _ _ => .ok _
    · exact .ok _

omit hinner in
theorem declarations_failsFairly :
    ∀ (p : Place) (below : Option Nat), p <:+ tokens →
      FailsFairly tokens (declarations c below p) := by
  intro p
  induction p with
  | nil =>
    intro below _
    exact .ok _
  | cons t rest ih =>
    intro below h
    have hrest : rest <:+ tokens := suffix_tail h
    rw [declarations]
    split
    · exact ih below hrest
    · cases t.label with
      | grammar => exact ih none hrest
      | member =>
        refine .bind (declared_failsFairly hin hcount hrest) fun _ _ => ?_
        exact .bind (ih _ hrest) fun _ _ => .ok _
      | _ => exact .error trivial

end Readers

/-- Reading asks for no text outside of the source as long as the tokens lie in
it, and for no token that does not exist unless an element is the last token. -/
theorem rulesOf_fails_fairly (p : Parse Label)
    (hin : ∀ t ∈ p.overlay.tokens, t.start ≤ t.stop ∧ t.stop ≤ p.source.length) :
    (∀ index, rulesOf p ≠ .error (.outside index)) ∧
      ∀ index, rulesOf p = .error (.noToken index) →
        index = p.overlay.count ∧ ∃ t ∈ p.overlay.tokens.back?, t.label = .element := by
  have hfair : FailsFairly p.overlay.tokens.toList (rulesOf p) :=
    declarations_failsFairly (fun t ht => hin t (Array.mem_toList_iff.mp ht)) rfl _ none
      (List.suffix_refl _)
  refine ⟨fun index h => hfair _ h, fun index h => ?_⟩
  obtain ⟨hindex, hlast⟩ := hfair _ h
  rw [Array.getLast?_toList] at hlast
  exact ⟨hindex, hlast⟩

/-- The tokens of a declaration, as far as the element in it. -/
def bareElement : List (Token Label) :=
  [⟨.grammar, 0, 1, 0⟩, ⟨.member, 0, 1, 1⟩, ⟨.rule, 0, 1, 2⟩, ⟨.name, 0, 1, 3⟩,
    ⟨.selection, 0, 1, 3⟩, ⟨.sequence, 0, 1, 4⟩, ⟨.element, 0, 1, 5⟩]

/-- Tokens that lie in their source make reading ask for one that does not exist. -/
theorem rulesOf_bare_element :
    (∀ t ∈ bareElement, t.start ≤ t.stop ∧ t.stop ≤ (stringBytes "a").length) ∧
      rulesOf ⟨stringBytes "a", ⟨bareElement.toArray, []⟩, 1⟩ = .error (.noToken 7) :=
  ⟨by decide, rfl⟩

theorem rulesOf_fails_fairly_bare_element :
    let p : Parse Label := ⟨stringBytes "a", ⟨bareElement.toArray, []⟩, 1⟩
    (∀ t ∈ p.overlay.tokens, t.start ≤ t.stop ∧ t.stop ≤ p.source.length) ∧
      rulesOf p = .error (.noToken 7) ∧ p.overlay.count = 7 ∧
      ∃ t ∈ p.overlay.tokens.back?, t.label = .element := by
  intro p
  have hin : ∀ t ∈ p.overlay.tokens, t.start ≤ t.stop ∧ t.stop ≤ p.source.length := by
    decide
  have hfails : rulesOf p = .error (.noToken 7) := rfl
  obtain ⟨hcount, hlast⟩ := (rulesOf_fails_fairly p hin).2 7 hfails
  exact ⟨hin, hfails, hcount.symm, hlast⟩

end RuleGraph.Hosted
