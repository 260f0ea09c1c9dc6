import RuleGraph.Proofs.Rule.Splicing
import RuleGraph.Proofs.Terse.Keeping

/-!
# Inclusions before and after a declaration

A body that includes a rule is read in one of two ways. If the rule is declared,
its body is put there, and otherwise a reference to it. Everything around the
inclusion is done to the one or to the other, and comes out spliced, where it
does not look at what it is done to.

`Indifferent` says that nothing does: no bound is put on the inclusion alone if
it comes to a repetition, and it is no element of a sequence where a decision or
an open completion would make a difference. Whatever else it is used for, the
order of the declarations does not matter.
-/

namespace RuleGraph.Terse

open Rule (Spliced Apart)

/-! ## What asks for no declared rule -/

section Undeclared

variable {filed : List Rule}

theorem Part.set?_of_nil {p : Part} {set : CharSet} (h : p.set? [] = some set) :
    p.set? filed = some set := by
  cases p with
  | inclusion w => cases h
  | _ => exact h

theorem unionOf?_of_nil {parts : List Part} : ∀ {set union : CharSet},
    unionOf? [] set parts = some union → unionOf? filed set parts = some union := by
  induction parts with
  | nil => exact fun h => h
  | cons p rest ih =>
    intro set union h
    obtain ⟨more, hmore, hrest⟩ := Option.bind_eq_some_iff.mp h
    exact Option.bind_eq_some_iff.mpr ⟨more, Part.set?_of_nil hmore, ih hrest⟩

/-- Without a declared rule, only a rule that is no reference has a set. -/
theorem charSet?_of_setOf? {r : Rule} {set : CharSet} (h : setOf? [] r = some set) :
    r.charSet? = some set := by
  unfold setOf? at h
  split at h
  · cases h
  · exact h

theorem setOf?_of_charSet? {r : Rule} {set : CharSet} (h : r.charSet? = some set) :
    setOf? filed r = some set := by
  obtain ⟨name, shape⟩ := r
  cases shape with
  | reference target => cases h
  | _ => exact h

theorem Suffix.applied?_of_nil {s : Suffix} {r r' : Rule}
    (h : s.applied? [] r = some r') : s.applied? filed r = some r' := by
  cases s with
  | negated =>
    obtain ⟨set, hset, rfl⟩ := Option.map_eq_some_iff.mp h
    exact Option.map_eq_some_iff.mpr
      ⟨set, setOf?_of_charSet? (charSet?_of_setOf? hset), rfl⟩
  | _ => exact h

theorem appliedAll?_of_nil {suffixes : List Suffix} : ∀ {r r' : Rule},
    appliedAll? [] r suffixes = some r' → appliedAll? filed r suffixes = some r' := by
  induction suffixes with
  | nil => exact fun h => h
  | cons s rest ih =>
    intro r r' h
    obtain ⟨next, hnext, hrest⟩ := Option.bind_eq_some_iff.mp h
    exact Option.bind_eq_some_iff.mpr ⟨next, Suffix.applied?_of_nil hnext, ih hrest⟩

/-- What a group contributes that has these suffixes and a body that comes to this
rule, or to nothing. -/
def grouped? (filed : List Rule) (suffixes : List Suffix) :
    Option Rule → Option (List Rule)
  | none => if suffixes.isEmpty then some [] else none
  | some r => (appliedAll? filed r suffixes).map fun r => [r]

theorem Phrase.elements?_group {first : List Phrase} {others : List (List Phrase)}
    {suffixes : List Suffix} {elements : List Rule} :
    (Phrase.group first others suffixes).elements? filed = some elements ↔
      ∃ rules, Terse.elements? filed first = some rules ∧ ∃ more,
      others? filed others = some more ∧
        grouped? filed suffixes (folded rules more) = some elements := by
  rw [Phrase.elements?]
  refine Option.bind_eq_some_iff.trans
    (exists_congr fun rules => and_congr_right fun _ => ?_)
  refine Option.bind_eq_some_iff.trans
    (exists_congr fun more => and_congr_right fun _ => ?_)
  cases folded rules more <;> rfl

theorem grouped?_of_nil {suffixes : List Suffix} {body : Option Rule}
    {elements : List Rule} (h : grouped? [] suffixes body = some elements) :
    grouped? filed suffixes body = some elements := by
  cases body with
  | none => exact h
  | some r =>
    obtain ⟨r', hr', hone⟩ := Option.map_eq_some_iff.mp h
    exact Option.map_eq_some_iff.mpr ⟨r', appliedAll?_of_nil hr', hone⟩

end Undeclared

/-! ## Bodies that do not include the declared rule -/

variable {n : Rule}

/-- No token is an inclusion of a rule of this name. -/
def FreeOf (name : String) (tokens : List Token) : Prop :=
  ∀ w, Token.atom (.inclusion w) ∈ tokens → w.name ≠ name

theorem FreeOf.append {name : String} {tokens tokens' : List Token}
    (h : FreeOf name (tokens ++ tokens')) : FreeOf name tokens ∧ FreeOf name tokens' :=
  ⟨fun w hw => h w (List.mem_append_left _ hw),
    fun w hw => h w (List.mem_append_right _ hw)⟩

theorem included_of_ne {w : Word} (h : w.name ≠ n.name) :
    included [n] w.name = Rule.reference (quiet w.name) := by
  have hnone : find? [n] w.name = none := by simpa [find?] using h.symm
  rw [included, hnone]

theorem Atom.rule?_of_nil {a : Atom} {r : Rule}
    (hfree : ∀ w, a = .inclusion w → w.name ≠ n.name) (h : a.rule? [] = some r) :
    a.rule? [n] = some r := by
  cases a with
  | brackets parts =>
    obtain ⟨set, hset, rfl⟩ := Option.map_eq_some_iff.mp h
    exact Option.map_eq_some_iff.mpr ⟨set, unionOf?_of_nil hset, rfl⟩
  | inclusion w =>
    rw [Atom.rule?, included_of_ne (hfree w rfl)]
    exact h
  | _ => exact h

mutual

theorem Phrase.elements?_of_free :
    ∀ (p : Phrase) {elements : List Rule}, FreeOf n.name p.tokens →
    p.elements? [] = some elements → p.elements? [n] = some elements
  | .atom a suffixes, elements, hfree, h => by
    rw [Phrase.elements?] at h ⊢
    obtain ⟨r, hr, h⟩ := Option.bind_eq_some_iff.mp h
    obtain ⟨r', hr', h⟩ := Option.bind_eq_some_iff.mp h
    have hatom (w : Word) (ha : a = .inclusion w) : w.name ≠ n.name := by
      refine hfree w ?_
      rw [Phrase.tokens, ha]
      exact List.mem_cons_self
    exact Option.bind_eq_some_iff.mpr ⟨r, Atom.rule?_of_nil hatom hr,
      Option.bind_eq_some_iff.mpr ⟨r', appliedAll?_of_nil hr', h⟩⟩
  | .group first others suffixes, elements, hfree, h => by
    rw [Phrase.tokens, ← List.singleton_append] at hfree
    obtain ⟨hfirst, hfree⟩ := hfree.append.2.append
    have hothers : FreeOf n.name (alternatives others) := hfree.append.1
    obtain ⟨rules, hrules, more, hmore, h⟩ := Phrase.elements?_group.mp h
    exact Phrase.elements?_group.mpr ⟨rules, elements?_of_free first hfirst hrules, more,
      others?_of_free others hothers hmore, grouped?_of_nil h⟩

theorem elements?_of_free : ∀ (phrases : List Phrase) {elements : List Rule},
    FreeOf n.name (alternative phrases) → elements? [] phrases = some elements →
    elements? [n] phrases = some elements
  | [], elements, _, h => h
  | p :: rest, elements, hfree, h => by
    rw [alternative] at hfree
    rw [elements?] at h ⊢
    obtain ⟨these, hthese, h⟩ := Option.bind_eq_some_iff.mp h
    obtain ⟨those, hthose, h⟩ := Option.bind_eq_some_iff.mp h
    exact Option.bind_eq_some_iff.mpr
      ⟨these, Phrase.elements?_of_free p hfree.append.1 hthese,
        Option.bind_eq_some_iff.mpr
          ⟨those, elements?_of_free rest hfree.append.2 hthose, h⟩⟩

theorem others?_of_free : ∀ (others : List (List Phrase)) {elements : List (List Rule)},
    FreeOf n.name (alternatives others) → others? [] others = some elements →
    others? [n] others = some elements
  | [], elements, _, h => h
  | phrases :: rest, elements, hfree, h => by
    rw [alternatives, ← List.singleton_append] at hfree
    obtain ⟨hphrases, hrest⟩ := hfree.append.2.append
    rw [others?] at h ⊢
    obtain ⟨these, hthese, h⟩ := Option.bind_eq_some_iff.mp h
    obtain ⟨those, hthose, h⟩ := Option.bind_eq_some_iff.mp h
    exact Option.bind_eq_some_iff.mpr ⟨these, elements?_of_free phrases hphrases hthese,
      Option.bind_eq_some_iff.mpr ⟨those, others?_of_free rest hrest hthose, h⟩⟩

end

/-- A declaration that does not include a rule stands for the same after it. -/
theorem Declaration.rule?_of_free {d : Declaration} {r : Rule}
    (hfree : FreeOf n.name d.tokens) (h : d.rule? [] = some r) :
    d.rule? [n] = some r := by
  rw [Declaration.tokens, ← List.singleton_append] at hfree
  obtain ⟨hfirst, hothers⟩ := hfree.append.2.append
  obtain ⟨elements, helements, h⟩ := Option.bind_eq_some_iff.mp h
  obtain ⟨more, hmore, h⟩ := Option.bind_eq_some_iff.mp h
  exact Option.bind_eq_some_iff.mpr ⟨elements, elements?_of_free d.first hfirst helements,
    Option.bind_eq_some_iff.mpr ⟨more, others?_of_free d.others hothers hmore, h⟩⟩

/-! ## Bodies that include it -/

/-- Whether a suffix puts a bound on what it stands behind. -/
def Suffix.bounds : Suffix → Bool
  | optional | star | plus | between _ => true
  | named _ | ahead | negated => false

section Indifferent

variable (target : String) (inserted : Rule)

/-- No bound is put on the reference alone if what it stands for is a
repetition. -/
def SuffixesIndifferent : Rule → List Suffix → Prop
  | _, [] => True
  | r, s :: rest =>
    (s.bounds = true → inserted.isRepetition = true → r ≠ Rule.reference target) ∧
      ∀ r' ∈ s.applied? [] r, SuffixesIndifferent r' rest

/-- The elements of an alternative may be put in a sequence. -/
def AlternativeApart (phrases : List Phrase) : Prop :=
  ∀ elements ∈ elements? [] phrases, Apart target inserted elements

mutual

def Phrase.Indifferent : Phrase → Prop
  | .atom a suffixes => ∀ r ∈ a.rule? [], SuffixesIndifferent target inserted r suffixes
  | .group first others suffixes =>
    AlternativeApart target inserted first ∧ Indifferent first ∧
      OthersIndifferent others ∧
      ∀ elements ∈ elements? [] first, ∀ more ∈ others? [] others,
      ∀ r ∈ folded elements more,
        SuffixesIndifferent target inserted r suffixes

def Indifferent : List Phrase → Prop
  | [] => True
  | p :: rest => p.Indifferent ∧ Indifferent rest

def OthersIndifferent : List (List Phrase) → Prop
  | [] => True
  | phrases :: rest =>
    AlternativeApart target inserted phrases ∧ Indifferent phrases ∧
      OthersIndifferent rest

end

/-- A body, read while the name is not declared, uses the reference to it only
where it makes no difference whether it is the reference or the rule. -/
def Declaration.Indifferent (d : Declaration) : Prop :=
  AlternativeApart target inserted d.first ∧ Terse.Indifferent target inserted d.first ∧
    OthersIndifferent target inserted d.others

end Indifferent

theorem Atom.rule?_spliced {a : Atom} {r : Rule} (h : a.rule? [] = some r) :
    ∃ r', a.rule? [n] = some r' ∧ Spliced (quiet n.name) n.body r r' := by
  by_cases hfree : ∀ w, a = .inclusion w → w.name ≠ n.name
  · exact ⟨r, Atom.rule?_of_nil hfree h, .refl _ _ _⟩
  · push Not at hfree
    obtain ⟨w, rfl, hw⟩ := hfree
    cases h
    refine ⟨n.body, ?_, ?_⟩
    · rw [Atom.rule?, hw, included]
      simp [find?]
    · rw [hw]
      exact .here

theorem folded_cons (first next : List Rule) (others : List (List Rule)) :
    folded first (next :: others) =
      some (Rule.selection ((first :: next :: others).map Rule.chain)) := by
  cases first <;> rfl

section Uncaptured

variable (hcapture : n.body.isCapture = false)

include hcapture

theorem Suffix.applied?_spliced {s : Suffix} {r r' next : Rule}
    (hlone : s.bounds = true → n.body.isRepetition = true →
      r ≠ Rule.reference (quiet n.name))
    (h : s.applied? [] r = some next) (hr : Spliced (quiet n.name) n.body r r') :
    ∃ next', s.applied? [n] r' = some next' ∧
      Spliced (quiet n.name) n.body next next' := by
  cases s with
  | optional | star | plus | between marks =>
    cases h
    exact ⟨_, rfl, hr.repeated (hlone rfl) _⟩
  | named w =>
    cases h
    exact ⟨_, rfl, hr.named hcapture w.isQuiet_name⟩
  | ahead =>
    cases h
    exact ⟨_, rfl, .lookahead hr⟩
  | negated =>
    obtain ⟨set, hset, rfl⟩ := Option.map_eq_some_iff.mp h
    refine ⟨_, Option.map_eq_some_iff.mpr ⟨set, ?_, rfl⟩, .refl _ _ _⟩
    exact setOf?_of_charSet? (hr.charSet (charSet?_of_setOf? hset))

theorem appliedAll?_spliced {suffixes : List Suffix} : ∀ {r r' last : Rule},
    SuffixesIndifferent (quiet n.name) n.body r suffixes →
    appliedAll? [] r suffixes = some last → Spliced (quiet n.name) n.body r r' →
    ∃ last', appliedAll? [n] r' suffixes = some last' ∧
      Spliced (quiet n.name) n.body last last' := by
  induction suffixes with
  | nil =>
    rintro r r' _ - ⟨⟩ hr
    exact ⟨r', rfl, hr⟩
  | cons s rest ih =>
    rintro r r' last ⟨hlone, hrest⟩ h hr
    obtain ⟨next, hnext, hlast⟩ := Option.bind_eq_some_iff.mp h
    obtain ⟨next', hnext', hspliced⟩ := Suffix.applied?_spliced hcapture hlone hnext hr
    obtain ⟨last', hlast', hr'⟩ := ih (hrest next hnext) hlast hspliced
    exact ⟨last', Option.bind_eq_some_iff.mpr ⟨next', hnext', hlast'⟩, hr'⟩

theorem folded_spliced {first first' : List Rule} {others others' : List (List Rule)}
    (hapart : ∀ rules ∈ first :: others, Apart (quiet n.name) n.body rules)
    (hfirst : List.Forall₂ (Spliced (quiet n.name) n.body) first first')
    (hothers :
      List.Forall₂ (List.Forall₂ (Spliced (quiet n.name) n.body)) others others') :
    Option.Rel (Spliced (quiet n.name) n.body) (folded first others)
      (folded first' others') := by
  cases hothers with
  | nil =>
    cases hfirst with
    | nil => exact .none
    | cons hr hrest =>
      exact .some (Spliced.chain hcapture (.cons hr hrest) (hapart _ List.mem_cons_self))
  | cons hnext hrest =>
    rw [folded_cons, folded_cons]
    refine .some (.selection ?_)
    rw [List.forall₂_map_left_iff, List.forall₂_map_right_iff]
    have hboth :=
      (List.forall₂_and_left _ _).mpr ⟨hapart, .cons hfirst (.cons hnext hrest)⟩
    exact hboth.imp fun rules rules' h => Spliced.chain hcapture h.2 h.1

theorem grouped?_spliced {suffixes : List Suffix} {body body' : Option Rule}
    {elements : List Rule}
    (hsuffixes : ∀ r ∈ body, SuffixesIndifferent (quiet n.name) n.body r suffixes)
    (h : grouped? [] suffixes body = some elements)
    (hbody : Option.Rel (Spliced (quiet n.name) n.body) body body') :
    ∃ elements', grouped? [n] suffixes body' = some elements' ∧
      List.Forall₂ (Spliced (quiet n.name) n.body) elements elements' := by
  cases hbody with
  | none =>
    refine ⟨elements, h, ?_⟩
    rw [grouped?] at h
    split at h
    · cases h
      exact .nil
    · cases h
  | @some r r' hr =>
    obtain ⟨last, hlast, rfl⟩ := Option.map_eq_some_iff.mp h
    obtain ⟨last', hlast', hone⟩ :=
      appliedAll?_spliced hcapture (hsuffixes r rfl) hlast hr
    exact ⟨[last'], Option.map_eq_some_iff.mpr ⟨last', hlast', rfl⟩, .cons hone .nil⟩

end Uncaptured

mutual

/-- Reading a phrase after the declaration gives what it gives before, spliced. -/
theorem Phrase.elements?_spliced (hcapture : n.body.isCapture = false) :
    ∀ (p : Phrase) {elements : List Rule},
    p.Indifferent (quiet n.name) n.body → p.elements? [] = some elements →
    ∃ elements', p.elements? [n] = some elements' ∧
      List.Forall₂ (Spliced (quiet n.name) n.body) elements elements'
  | .atom a suffixes, elements, hindifferent, h => by
    rw [Phrase.Indifferent] at hindifferent
    rw [Phrase.elements?] at h
    obtain ⟨r, hr, h⟩ := Option.bind_eq_some_iff.mp h
    obtain ⟨last, hlast, h⟩ := Option.bind_eq_some_iff.mp h
    cases h
    obtain ⟨r', hr', hspliced⟩ := Atom.rule?_spliced hr
    obtain ⟨last', hlast', hone⟩ :=
      appliedAll?_spliced hcapture (hindifferent r hr) hlast hspliced
    refine ⟨[last'], ?_, .cons hone .nil⟩
    rw [Phrase.elements?]
    exact Option.bind_eq_some_iff.mpr
      ⟨r', hr', Option.bind_eq_some_iff.mpr ⟨last', hlast', rfl⟩⟩
  | .group first others suffixes, elements, hindifferent, h => by
    rw [Phrase.Indifferent] at hindifferent
    obtain ⟨hapart, hfirst, hothers, hsuffixes⟩ := hindifferent
    obtain ⟨rules, hrules, more, hmore, h⟩ := Phrase.elements?_group.mp h
    obtain ⟨rules', hrules', hspliced⟩ := elements?_spliced hcapture first hfirst hrules
    obtain ⟨more', hmore', haparts, hsplicedMore⟩ :=
      others?_spliced hcapture others hothers hmore
    have hfolded := folded_spliced hcapture
      (List.forall_mem_cons.mpr ⟨hapart rules hrules, haparts⟩) hspliced hsplicedMore
    obtain ⟨elements', helements', hgrouped⟩ :=
      grouped?_spliced hcapture (hsuffixes rules hrules more hmore) h hfolded
    exact ⟨elements',
      Phrase.elements?_group.mpr ⟨rules', hrules', more', hmore', helements'⟩, hgrouped⟩

theorem elements?_spliced (hcapture : n.body.isCapture = false) :
    ∀ (phrases : List Phrase) {elements : List Rule},
    Indifferent (quiet n.name) n.body phrases → elements? [] phrases = some elements →
    ∃ elements', elements? [n] phrases = some elements' ∧
      List.Forall₂ (Spliced (quiet n.name) n.body) elements elements'
  | [], elements, _, h => by
    rw [elements?] at h
    cases h
    exact ⟨[], rfl, .nil⟩
  | p :: rest, elements, hindifferent, h => by
    rw [Indifferent] at hindifferent
    rw [elements?] at h
    obtain ⟨these, hthese, h⟩ := Option.bind_eq_some_iff.mp h
    obtain ⟨those, hthose, h⟩ := Option.bind_eq_some_iff.mp h
    cases h
    obtain ⟨these', hthese', hspliced⟩ :=
      Phrase.elements?_spliced hcapture p hindifferent.1 hthese
    obtain ⟨those', hthose', hsplicedRest⟩ :=
      elements?_spliced hcapture rest hindifferent.2 hthose
    refine ⟨these' ++ those', ?_, List.rel_append hspliced hsplicedRest⟩
    rw [elements?]
    exact Option.bind_eq_some_iff.mpr ⟨these', hthese',
      Option.bind_eq_some_iff.mpr ⟨those', hthose', rfl⟩⟩

theorem others?_spliced (hcapture : n.body.isCapture = false) :
    ∀ (others : List (List Phrase)) {elements : List (List Rule)},
    OthersIndifferent (quiet n.name) n.body others → others? [] others = some elements →
    ∃ elements', others? [n] others = some elements' ∧
      (∀ rules ∈ elements, Apart (quiet n.name) n.body rules) ∧
      List.Forall₂ (List.Forall₂ (Spliced (quiet n.name) n.body)) elements elements'
  | [], elements, _, h => by
    rw [others?] at h
    cases h
    exact ⟨[], rfl, nofun, .nil⟩
  | phrases :: rest, elements, hindifferent, h => by
    rw [OthersIndifferent] at hindifferent
    obtain ⟨hapart, hphrases, hrest⟩ := hindifferent
    rw [others?] at h
    obtain ⟨these, hthese, h⟩ := Option.bind_eq_some_iff.mp h
    obtain ⟨those, hthose, h⟩ := Option.bind_eq_some_iff.mp h
    cases h
    obtain ⟨these', hthese', hspliced⟩ :=
      elements?_spliced hcapture phrases hphrases hthese
    obtain ⟨those', hthose', haparts, hsplicedRest⟩ :=
      others?_spliced hcapture rest hrest hthose
    refine ⟨these' :: those', ?_, List.forall_mem_cons.mpr ⟨hapart these hthese, haparts⟩,
      .cons hspliced hsplicedRest⟩
    rw [others?]
    exact Option.bind_eq_some_iff.mpr ⟨these', hthese',
      Option.bind_eq_some_iff.mpr ⟨those', hthose', rfl⟩⟩

end

/-- A declaration that may be read before another one may be read after it, and
then stands for a spliced rule. -/
theorem Declaration.rule?_spliced (hcapture : n.body.isCapture = false) {d : Declaration}
    {r : Rule} (hindifferent : d.Indifferent (quiet n.name) n.body)
    (h : d.rule? [] = some r) :
    ∃ r', d.rule? [n] = some r' ∧ Spliced (quiet n.name) n.body r r' := by
  obtain ⟨hapart, hfirst, hothers⟩ := hindifferent
  obtain ⟨elements, helements, h⟩ := Option.bind_eq_some_iff.mp h
  obtain ⟨more, hmore, h⟩ := Option.bind_eq_some_iff.mp h
  cases h
  obtain ⟨elements', helements', hspliced⟩ :=
    elements?_spliced hcapture d.first hfirst helements
  obtain ⟨more', hmore', haparts, hsplicedMore⟩ :=
    others?_spliced hcapture d.others hothers hmore
  have hfolded := folded_spliced hcapture
    (List.forall_mem_cons.mpr ⟨hapart elements helements, haparts⟩) hspliced hsplicedMore
  refine ⟨_, Option.bind_eq_some_iff.mpr ⟨elements', helements',
    Option.bind_eq_some_iff.mpr ⟨more', hmore', rfl⟩⟩, ?_⟩
  exact Spliced.named (rel_getD hfolded (.refl _ _ _)) hcapture d.title.isQuiet_name

end RuleGraph.Terse
