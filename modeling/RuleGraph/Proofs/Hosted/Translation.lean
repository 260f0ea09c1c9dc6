import RuleGraph.Hosted.Declarations
import RuleGraph.Proofs.Hosted.Notation

/-!
# Tokens of a document are read as its rules

The tokens of a document stand in one list, and where the tokens of a part end
can be told from their depths alone. So a part is always looked at in a list
that goes on: its tokens come first, and what comes behind them is anything that
is not deeper (`Shallow`). That is all it takes for a suffix to belong to what it
is written on. Skipping what lies below a token leads past every suffix inside,
and it leads to the next token of the same depth.

Reading goes wrong for one reason only, a leaf that is not sound. What reading a
part comes to is therefore said in one go: it `Settles` on what the part stands
for. Settling is closed under reading one part after another, with the leaves of
both, so there is one lemma for each kind of part, and an induction over the
tree puts them together.
-/

namespace RuleGraph.Hosted

open Stretch (listing listing_nil listing_append)

/-! ## What reading settles on -/

/-- A part is read as what it stands for if its leaves are sound, and otherwise
one of them is refused. -/
def Settles {α : Type} (leaves : List Leaf) (built : Built α) (a : α) : Prop :=
  (Sound leaves → built = .ok a) ∧
    (¬Sound leaves → ∃ label index, built = .error (.illegible label index))

section Settling

variable {α β : Type} {first second leaves : List Leaf}

theorem sound_nil : Sound [] := nofun

theorem sound_append : Sound (first ++ second) ↔ Sound first ∧ Sound second :=
  List.forall_mem_append

theorem sound_singleton {leaf : Leaf} : Sound [leaf] ↔ leaf.Sound :=
  List.forall_mem_singleton

theorem Settles.ok (a : α) : Settles [] (.ok a) a :=
  ⟨fun _ => rfl, fun h => absurd sound_nil h⟩

theorem Settles.bind {built : Built α} {a : α} {next : α → Built β} {b : β}
    (hfirst : Settles first built a) (hnext : Settles second (next a) b) :
    Settles (first ++ second) (built >>= next) b := by
  constructor
  · intro h
    obtain ⟨hsound, hsound'⟩ := sound_append.mp h
    rw [hfirst.1 hsound]
    exact hnext.1 hsound'
  · intro h
    by_cases hsound : Sound first
    · rw [hfirst.1 hsound]
      exact hnext.2 fun hsound' => h (sound_append.mpr ⟨hsound, hsound'⟩)
    · obtain ⟨label, index, herror⟩ := hfirst.2 hsound
      exact ⟨label, index, by rw [herror]; rfl⟩

/-- Going on without a further leaf. -/
theorem Settles.then {built : Built α} {a : α} {next : α → Built β} {b : β}
    (hfirst : Settles leaves built a) (hnext : next a = .ok b) :
    Settles leaves (built >>= next) b := by
  have h : Settles [] (next a) b := hnext ▸ .ok b
  simpa only [List.append_nil] using hfirst.bind h

/-- What a part stands for matters only if its leaves are sound. -/
theorem Settles.imp {built : Built α} {a b : α} (h : Settles leaves built a)
    (heq : Sound leaves → a = b) : Settles leaves built b :=
  ⟨fun hsound => heq hsound ▸ h.1 hsound, h.2⟩

theorem Settles.congr {built : Built α} {a : α} (h : Settles first built a)
    (hiff : Sound first ↔ Sound second) : Settles second built a :=
  ⟨fun hsound => h.1 (hiff.mpr hsound), fun hsound => h.2 fun hfirst =>
    hsound (hiff.mp hfirst)⟩

theorem Settles.cons {f : α → Built β} {a : α} {rest : List α} {b : β} {bs : List β}
    (hfirst : Settles first (f a) b) (hrest : Settles second (rest.mapM f) bs) :
    Settles (first ++ second) ((a :: rest).mapM f) (b :: bs) := by
  rw [List.mapM_cons]
  exact hfirst.bind (hrest.then rfl)

theorem Settles.alone {f : α → Built β} {a : α} {b : β} (h : Settles leaves (f a) b) :
    Settles leaves ([a].mapM f) [b] := by
  rw [List.mapM_cons, List.mapM_nil]
  exact h.then rfl

end Settling

/-! ## Where the tokens of a forest lead -/

/-- The token of a stretch around the bytes at an offset. -/
def token (label : Label) (offset : Nat) (bytes : Bytes) (depth : Nat) : Token Label :=
  ⟨label, offset, offset + bytes.length, depth⟩

section Places

variable {c : Context} {label other : Label} {offset depth : Nat} {bytes : Bytes}
  {inner rest : List (Stretch Label)} {p : Place} {t parent : Token Label}

@[simp] theorem token_depth : (token label offset bytes depth).depth = depth :=
  Int.natAbs_natCast depth

theorem listing_around : listing depth (around label offset bytes inner :: rest) =
    token label offset bytes depth :: (listing (depth + 1) inner ++ listing depth rest) :=
  Stretch.listing_cons ..

/-- What comes next is not deeper than that. -/
def Shallow (depth : Nat) (p : Place) : Prop :=
  ∀ s ∈ p.head?, s.depth ≤ depth

theorem Shallow.mono {deeper : Nat} (h : Shallow depth p) (hle : depth ≤ deeper) :
    Shallow deeper p :=
  fun s hs => Nat.le_trans (h s hs) hle

theorem shallow_token : Shallow depth (token label offset bytes depth :: p) := by
  rintro s ⟨⟩
  exact Nat.le_of_eq token_depth

theorem depth_of_mem_listing {forest : List (Stretch Label)} :
    ∀ {depth : Nat}, t ∈ listing depth forest → depth ≤ t.depth := by
  induction forest using Stretch.forestInduction with
  | nil => simp
  | cons label start stop inner rest ihInner ihRest =>
    intro depth h
    rw [Stretch.listing_cons, List.mem_cons, List.mem_append] at h
    rcases h with rfl | h | h
    · exact Nat.le_of_eq (Int.natAbs_natCast depth).symm
    · exact Nat.le_of_succ_le (ihInner h)
    · exact ihRest h

theorem behind_listing (h : Shallow depth p) :
    behind (token label offset bytes depth) (listing (depth + 1) inner ++ p) = p := by
  unfold behind
  rw [List.dropWhile_append_of_pos]
  · cases p with
    | nil => rfl
    | cons s rest =>
      have := h s rfl
      rw [List.dropWhile_cons_of_neg]
      simpa using this
  · intro s hs
    have := depth_of_mem_listing hs
    simpa using Nat.lt_of_succ_le this

theorem behind_leaf (h : Shallow depth p) :
    behind (token label offset bytes depth) p = p := by
  have hbehind : behind (token label offset bytes depth) (listing (depth + 1) [] ++ p) =
      p :=
    behind_listing h
  rwa [listing_nil, List.nil_append] at hbehind

/-- A function that skips what is deeper, and has nothing to skip at a place
that is not, goes on behind everything that lies below a token. -/
theorem skip_below {β : Type} {f : Option Nat → Place → β}
    (hskip : ∀ t rest, depth < t.depth → f (some depth) (t :: rest) = f (some depth) rest)
    (hstop : ∀ p, Shallow depth p → f (some depth) p = f none p) (h : Shallow depth p) :
    f (some depth) (listing (depth + 1) inner ++ p) = f none p := by
  have hdeeper : ∀ deeper : Place, (∀ s ∈ deeper, depth < s.depth) →
      f (some depth) (deeper ++ p) = f none p := by
    intro deeper hdeeper
    induction deeper with
    | nil => exact hstop p h
    | cons s rest ih =>
      obtain ⟨hs, hrest⟩ := List.forall_mem_cons.mp hdeeper
      rw [List.cons_append, hskip s _ hs]
      exact ih hrest
  exact hdeeper _ fun s hs => depth_of_mem_listing hs

theorem parts_below {accept : Token Label → Bool} (h : Shallow depth p) :
    parts accept (some depth) (listing (depth + 1) inner ++ p) = parts accept none p := by
  refine skip_below (fun t rest ht => ?_) (fun p hp => ?_) h
  · rw [parts, if_pos (by simpa using ht)]
  · cases p with
    | nil => rfl
    | cons s rest => simp [parts, Nat.not_lt.mpr (hp s rfl)]

/-- The first of the parts is the token that comes first, if it is accepted. -/
theorem parts_token {accept : Token Label → Bool} (h : Shallow depth p)
    (haccept : accept (token label offset bytes depth) = true) :
    parts accept none
      (token label offset bytes depth :: (listing (depth + 1) inner ++ p)) =
        ((token label offset bytes depth, listing (depth + 1) inner ++ p) ::
          (parts accept none p).1, (parts accept none p).2) := by
  rw [parts, if_neg (by simp), if_pos haccept, token_depth, parts_below h]

theorem parts_none {accept : Token Label → Bool} (h : ∀ s ∈ p.head?, accept s = false) :
    parts accept none p = ([], p) := by
  cases p with
  | nil => rfl
  | cons s rest => simp [parts, h s rfl]

theorem not_inside (h : Shallow parent.depth p) :
    ∀ s ∈ p.head?, inside parent s = false :=
  fun s hs => by simp [inside, Nat.not_lt.mpr (h s hs)]

theorem inside_token (hdepth : parent.depth < depth)
    (hstop : offset + bytes.length ≤ parent.stop) :
    inside parent (token label offset bytes depth) = true := by
  simp only [inside, token_depth, hdepth, decide_true, Bool.true_and]
  exact decide_eq_true hstop

theorem partsOf_nil (h : Shallow parent.depth p) : partsOf parent label p = [] := by
  rw [partsOf, parts_none fun s hs => by rw [not_inside h s hs, Bool.false_and]]

theorem partsOf_token (hdepth : parent.depth < depth)
    (hstop : offset + bytes.length ≤ parent.stop) (h : Shallow depth p) :
    partsOf parent label
      (token label offset bytes depth :: (listing (depth + 1) inner ++ p)) =
        (token label offset bytes depth, listing (depth + 1) inner ++ p) ::
          partsOf parent label p := by
  rw [partsOf, parts_token h]
  · rfl
  · rw [inside_token hdepth hstop]
    exact decide_eq_true rfl

/-- No part follows that lies in the parent. -/
theorem sibling?_none (h : Shallow depth p)
    (hinside : ∀ s ∈ p.head?, inside parent s = false) :
    sibling? parent other (token label offset bytes depth)
      (listing (depth + 1) inner ++ p) = none := by
  rw [sibling?, behind_listing h]
  cases p with
  | nil => rfl
  | cons s rest => simp [hinside s rfl]

theorem sibling?_token {label' : Label} {offset' : Nat} {bytes' : Bytes} {rest : Place}
    (hdepth : parent.depth < depth) (hstop : offset' + bytes'.length ≤ parent.stop) :
    sibling? parent other (token label offset bytes depth)
        (listing (depth + 1) inner ++ token label' offset' bytes' depth :: rest) =
      if label' = other then some (token label' offset' bytes' depth, rest)
      else none := by
  rw [sibling?, behind_listing shallow_token]
  simp only [inside_token hdepth hstop, Bool.true_and, decide_eq_true_eq]
  rfl

/-! ## What is asked of a token -/

theorem check_token : c.check label (token label offset bytes depth :: p) =
    .ok (token label offset bytes depth, p) :=
  if_pos rfl

end Places

/-- Bytes are where they are said to be. -/
def Lies (source : Bytes) (offset : Nat) (bytes : Bytes) : Prop :=
  ∃ before after, source = before ++ (bytes ++ after) ∧ before.length = offset

section Texts

variable {c : Context} {source first second : Bytes} {label : Label} {offset depth : Nat}
  {bytes : Bytes} {p : Place}

theorem Lies.left (h : Lies source offset (first ++ second)) :
    Lies source offset first := by
  obtain ⟨before, after, hsource, hlength⟩ := h
  exact ⟨before, second ++ after, by rw [hsource, List.append_assoc], hlength⟩

theorem Lies.right (h : Lies source offset (first ++ second)) :
    Lies source (offset + first.length) second := by
  obtain ⟨before, after, hsource, hlength⟩ := h
  exact ⟨before ++ first, after, by rw [hsource, List.append_assoc, List.append_assoc],
    by rw [List.length_append, hlength]⟩

theorem Lies.tail {b : UInt8} (h : Lies source offset (b :: bytes)) :
    Lies source (offset + 1) bytes :=
  Lies.right (show Lies source offset ([b] ++ bytes) from h)

theorem Lies.slice? (h : Lies source offset bytes) :
    Parse.slice? source offset (offset + bytes.length) = some bytes := by
  obtain ⟨before, after, rfl, rfl⟩ := h
  rw [Parse.slice?, if_pos (by simp), List.drop_left, Nat.add_sub_cancel_left,
    List.take_left]

theorem isSome_scalars?_iff (bytes : Bytes) :
    (Utf8.scalars? bytes).isSome ↔ ∃ text, bytes = utf8 text := by
  constructor
  · exact Utf8.exists_text_of_scalars?
  · rintro ⟨text, rfl⟩
    rw [Utf8.scalars?_utf8]
    rfl

theorem bytes_token (h : Lies c.source offset bytes) {text : List Char}
    (hbytes : bytes = utf8 text) :
    c.bytes (token label offset bytes depth) p = .ok bytes := by
  unfold Context.bytes
  dsimp only [token]
  rw [h.slice?]
  exact if_pos ((isSome_scalars?_iff bytes).mpr ⟨text, hbytes⟩)

theorem text_token (h : Lies c.source offset bytes) {text : List Char}
    (hbytes : bytes = utf8 text) :
    c.text (token label offset bytes depth) p = .ok text := by
  rw [Context.text, bytes_token h hbytes]
  show Except.ok _ = _
  rw [hbytes, Utf8.text?_utf8]
  rfl

theorem text_refuses (h : Lies c.source offset bytes)
    (hbytes : ¬∃ text, bytes = utf8 text) :
    ∃ label' index,
      c.text (token label offset bytes depth) p = .error (.illegible label' index) := by
  have hnone : c.bytes (token label offset bytes depth) p =
      .error (c.illegible (token label offset bytes depth) p) := by
    unfold Context.bytes
    dsimp only [token]
    rw [h.slice?]
    exact if_neg fun hsome => hbytes ((isSome_scalars?_iff bytes).mp hsome)
  exact ⟨_, _, by rw [Context.text, hnone]; rfl⟩

theorem name_token {n : Name} (h : Lies c.source offset n.bytes) :
    c.name (token .name offset n.bytes depth :: p) =
      .ok (token .name offset n.bytes depth, p, String.ofList n.text) := by
  rw [Context.name, check_token]
  show c.text _ _ >>= _ = _
  rw [text_token h rfl]
  rfl

/-- Reading a numeral on goes well if the number is sound. -/
theorem Settles.numeral {α : Type} {base : Nat} {n : Numeral base}
    {next : Nat → Built α} {a : α} {label : Label} {index : Nat}
    (hnext : next n.value = .ok a) :
    Settles [.number n.value] (match readWord base n.digits with
      | some value => next value
      | none => .error (.illegible label index)) a := by
  rw [Numeral.readWord_digits]
  constructor
  · intro hsound
    rw [if_pos (show n.value ≤ maxWord from sound_singleton.mp hsound)]
    exact hnext
  · intro hsound
    rw [if_neg fun hle : n.value ≤ maxWord => hsound (sound_singleton.mpr hle)]
    exact ⟨_, _, rfl⟩

theorem number_settles {n : Numeral 10} (h : Lies c.source offset n.bytes) :
    Settles [.number n.value] (c.number (token label offset n.bytes depth) p)
      n.value := by
  rw [Context.number, text_token h rfl]
  exact .numeral rfl

end Texts

/-! ## Sets -/

section Sets

variable {c : Context} {offset depth : Nat} {p : Place}

theorem listing_first {s : Stretch Label} {rest : List (Stretch Label)} :
    listing depth (s :: rest) = listing depth [s] ++ listing depth rest :=
  listing_append depth [s] rest

theorem listing_singleton {depth offset : Nat} {label : Label} {bytes : Bytes}
    {inner : List (Stretch Label)} : listing depth [around label offset bytes inner] =
      token label offset bytes depth :: listing (depth + 1) inner := by
  rw [listing_around, listing_nil, List.append_nil]

/-- The text between two quotes is a text if all of it is. -/
theorem exists_text_quoted_iff {bytes : Bytes} :
    (∃ text, 0x27 :: (bytes ++ [0x27]) = utf8 text) ↔ ∃ text, bytes = utf8 text := by
  constructor
  · rintro ⟨text, h⟩
    obtain ⟨-, text', h⟩ :=
      Utf8.exists_texts_around (by decide) (show [] ++ (0x27 : UInt8) :: _ = _ from h)
    exact (Utf8.exists_texts_around (by decide) h).1
  · rintro ⟨text, rfl⟩
    exact ⟨'\'' :: (text ++ ['\'']), by rw [utf8_cons, utf8_append]; rfl⟩

theorem quoted_refuses {bytes : Bytes} {label : Label}
    (h : Lies c.source offset (0x27 :: (bytes ++ [0x27])))
    (hsound : ¬Sound [.text bytes]) :
    ∃ label' index, c.text (token label offset (0x27 :: (bytes ++ [0x27])) depth) p =
      .error (.illegible label' index) :=
  text_refuses h fun htext =>
    hsound (sound_singleton.mpr (exists_text_quoted_iff.mp htext))

theorem Glyph.exists_char {g : Utf8.Glyph} (h : ∃ text, g.bytes = utf8 text) :
    ∃ char, g = .char char := by
  cases g with
  | char char => exact ⟨char, rfl⟩
  | stray b high =>
    have hnone : Utf8.scalars? [b] = none := by
      rw [Utf8.scalars?, Utf8.scalarsAfter, Utf8.scalar?_stray high (by simp)]
    have hsome := (isSome_scalars?_iff [b]).mpr h
    rw [hnone] at hsome
    cases hsome

theorem literal_settles {code : Code} (h : Lies c.source offset code.bytes) :
    Settles code.leaves (literal c (listing depth [code.stretch offset] ++ p))
      (token .literal offset code.bytes depth,
        listing (depth + 1) [around code.label offset code.bytes []] ++ p,
        code.value) := by
  rw [Code.stretch, listing_singleton, listing_singleton, listing_nil, List.cons_append,
    List.singleton_append, literal, check_token]
  cases code with
  | quoted glyph unquoted =>
    show Settles _ (c.text _ p >>= _) _
    constructor
    · intro hsound
      obtain ⟨char, rfl⟩ := Glyph.exists_char (sound_singleton.mp hsound)
      have hbytes : (Code.quoted (.char char) unquoted).bytes =
          utf8 ['\'', char, '\''] := by
        simp only [Code.bytes, Utf8.Glyph.bytes, utf8_cons, utf8_nil, List.append_nil]
        rfl
      rw [text_token h hbytes]
      rfl
    · intro hsound
      obtain ⟨label, index, herror⟩ := quoted_refuses h hsound
      exact ⟨label, index, by rw [Code.bytes, herror]; rfl⟩
  | point digits =>
    show Settles _ (c.bytes _ p >>= _) _
    have hbytes : (Code.point digits).bytes = utf8 ('U' :: '+' :: digits.digits) := by
      simp only [utf8_cons]
      rfl
    rw [bytes_token h hbytes]
    show Settles _ (match (Utf8.text? (utf8 digits.digits)).bind (readWord 16) with
      | some n => _ | none => _) _
    rw [Utf8.text?_utf8]
    exact .numeral rfl

theorem plainRanges_settles {cls : Class} (h : Lies c.source offset cls.bytes) :
    Settles cls.leaves (plainRanges c (listing depth [cls.stretch offset] ++ p))
      cls.set := by
  cases cls with
  | common k =>
    rw [Class.stretch, listing_singleton]
    cases k <;> exact .ok _
  | hidden hidden =>
    rw [Class.stretch, listing_singleton]
    have hbytes : (Class.hidden hidden).bytes =
        utf8 ['\\', Char.ofNat hidden.sign.toNat] := by
      cases hidden <;> rfl
    show Settles _
      (c.bytes (token .shortname offset (Class.hidden hidden).bytes depth) _ >>= _) _
    rw [bytes_token h hbytes]
    cases hidden <;> exact .ok _
  | range low high =>
    rw [Class.stretch, listing_singleton, Class.inner, listing_first, List.cons_append,
      List.append_assoc]
    refine (literal_settles h.left).bind ?_
    show Settles _ (literal c (behind _ _) >>= _) _
    rw [behind_listing (by rw [Code.stretch, listing_singleton]; exact shallow_token)]
    exact (literal_settles h.right.tail).then rfl
  | single code =>
    have hread :
        Settles code.leaves (literal c (listing depth [code.stretch offset] ++ p)) _ :=
      literal_settles h
    rw [Code.stretch, listing_singleton] at hread
    rw [Class.stretch, listing_singleton]
    exact hread.then rfl

theorem ranges_plain {t : Token Label} {bytes : Bytes} (h : t.label ≠ .not) :
    ranges c (token .ranges offset bytes depth :: t :: p) = plainRanges c (t :: p) := by
  rw [ranges, check_token]
  exact if_neg h

theorem ranges_negated {t : Token Label} {bytes : Bytes} (h : t.label = .not) :
    ranges c (token .ranges offset bytes depth :: t :: p) =
      plainRanges c p >>= fun set => .ok set.negate := by
  rw [ranges, check_token]
  exact if_pos h

theorem Class.label_ne_not (cls : Class) : cls.label ≠ .not := by
  cases cls with
  | common k => cases k <;> nofun
  | hidden | range | single => nofun

theorem ranges_settles {r : Ranges} (h : Lies c.source offset r.bytes) :
    Settles r.leaves (ranges c (listing depth [r.stretch offset] ++ p)) r.set := by
  obtain ⟨negated, cls⟩ := r
  rw [Ranges.stretch, listing_singleton, List.cons_append]
  cases negated with
  | false =>
    have hinner : Ranges.inner offset ⟨false, cls⟩ = [cls.stretch offset] := rfl
    have hread :
        Settles cls.leaves (plainRanges c (listing (depth + 1) [cls.stretch offset] ++ p))
        cls.set := plainRanges_settles h
    rw [Class.stretch, listing_singleton, List.cons_append] at hread
    rw [hinner, Class.stretch, listing_singleton, List.cons_append,
      ranges_plain cls.label_ne_not]
    exact hread
  | true =>
    have hinner : Ranges.inner offset ⟨true, cls⟩ =
        around .not offset [0x5E] [] :: [cls.stretch (offset + 1)] := rfl
    rw [hinner, listing_around, listing_nil, List.nil_append, List.cons_append,
      ranges_negated rfl]
    exact (plainRanges_settles h.tail).then rfl

end Sets

/-! ## Terminals -/

section Terminals

variable {c : Context} {offset depth : Nat} {p : Place} {parent : Token Label}

theorem name_listing {n : Name} (h : Lies c.source offset n.bytes) :
    c.name (listing depth [n.stretch offset] ++ p) =
      .ok (token .name offset n.bytes depth, p, String.ofList n.text) := by
  rw [Name.stretch, listing_singleton, listing_nil, List.singleton_append, name_token h]

/-- A figure as it is read: a set, or the name of a rule. -/
def Figure.entry : Figure → CharSet ⊕ String
  | .ranges r => .inl r.set
  | .name n => .inr (String.ofList (if n.quiet then n.text else quietSign :: n.text))

theorem Name.quietened (n : Name) :
    (if isQuiet (String.ofList n.text) then String.ofList n.text
      else RuleGraph.quiet (String.ofList n.text)) =
      String.ofList (if n.quiet then n.text else quietSign :: n.text) := by
  obtain ⟨quiet, first, others, hfirst, hothers⟩ := n
  cases quiet with
  | true => simp [Name.text, isQuiet, quietSign]
  | false =>
    have hne : first ≠ quietSign := by
      rintro rfl
      exact absurd hfirst (by decide)
    simp [Name.text, isQuiet, RuleGraph.quiet, hne]

theorem figure_settles {f : Figure} (h : Lies c.source offset f.bytes) :
    Settles f.leaves (figure c (token f.label offset f.bytes depth,
      listing (depth + 1) (f.inner offset) ++ p)) f.entry := by
  cases f with
  | ranges r =>
    have hread : Settles r.leaves (ranges c (listing depth [r.stretch offset] ++ p)) _ :=
      ranges_settles h
    rw [Ranges.stretch, listing_singleton, List.cons_append] at hread
    exact hread.then rfl
  | name n =>
    have hlies : Lies c.source offset n.bytes := h
    show Settles [] (c.text (token .name offset n.bytes depth) _ >>= _) _
    rw [text_token hlies rfl]
    show Settles [] (.ok (Sum.inr (if _ then _ else _))) _
    rw [n.quietened]
    exact .ok _

theorem figures_members_settle (hdepth : parent.depth < depth)
    (hp : ∀ s ∈ p.head?, (inside parent s && s.label != .capture) = false)
    (hshallow : Shallow depth p) :
    ∀ {members : List (Figure × Pad)} {offset : Nat},
      Lies c.source offset (paddedBytes Figure.bytes members) →
      offset + (paddedBytes Figure.bytes members).length ≤ parent.stop →
      ∃ entries, parts (fun s => inside parent s && s.label != .capture) none
          (listing depth (paddedStretches Figure.bytes Figure.stretch offset members) ++
            p) = (entries, p) ∧
        Settles (paddedLeaves Figure.leaves members) (entries.mapM (figure c))
          (members.map fun item => item.1.entry) := by
  intro members
  induction members with
  | nil => exact fun _ _ => ⟨[], parts_none hp, .ok _⟩
  | cons item rest ih =>
    obtain ⟨f, pad⟩ := item
    intro offset hlies hstop
    simp only [paddedBytes, List.length_append] at hlies hstop
    obtain ⟨entries, hparts, hsettles⟩ := ih hlies.right.right (by omega)
    rw [paddedStretches, Figure.stretch, listing_around, List.cons_append,
      List.append_assoc, parts_token]
    · rw [hparts]
      exact ⟨_, rfl, (figure_settles hlies.left).cons hsettles⟩
    · cases rest with
      | nil => exact hshallow
      | cons next rest =>
        rw [paddedStretches, Figure.stretch, listing_around]
        exact shallow_token
    · rw [inside_token hdepth (by omega), Bool.true_and]
      cases f <;> rfl

theorem figuresRule_entries (members : List (Figure × Pad)) (before : Pad) :
    figuresRule (members.map fun item => item.1.entry) =
      Figures.rule ⟨before, members, none⟩ := by
  have hsets : (members.map fun item => item.1.entry).filterMap Sum.getLeft? =
      (members.map Prod.fst).filterMap Figure.set? := by
    rw [List.filterMap_map, List.filterMap_map]
    congr 1
    funext ⟨f, pad⟩
    cases f <;> rfl
  have hreferences : (members.map fun item => item.1.entry).filterMap
      (fun f => f.getRight?.map Rule.reference) =
      (members.map Prod.fst).filterMap Figure.reference? := by
    rw [List.filterMap_map, List.filterMap_map]
    congr 1
    funext ⟨f, pad⟩
    cases f <;> rfl
  simp only [figuresRule, Figures.rule, Figures.alternatives, Capture.name, hsets,
    hreferences]
  cases (members.map Prod.fst).filterMap Figure.set? with
  | nil => rfl
  | cons set sets => rfl

/-- A capture is not one of the figures, and neither is what lies outside. -/
theorem stops_figures {capture : Capture} (hp : Shallow parent.depth p)
    (hdepth : parent.depth < depth) :
    (∀ s ∈ (listing depth (capture.stretches offset) ++ p).head?,
      (inside parent s && s.label != .capture) = false) ∧
      Shallow depth (listing depth (capture.stretches offset) ++ p) := by
  cases capture with
  | none =>
    rw [Capture.stretches, listing_nil, List.nil_append]
    exact ⟨fun s hs => by rw [not_inside hp s hs, Bool.false_and],
      hp.mono (Nat.le_of_lt hdepth)⟩
  | some n =>
    rw [Capture.stretches, listing_singleton, List.cons_append]
    exact ⟨by rintro s ⟨⟩; exact Bool.and_false _, shallow_token⟩

theorem figures_settles {f : Figures} (h : Lies c.source offset f.bytes)
    (hp : Shallow depth p) :
    Settles f.leaves (figures c (token .figures offset f.bytes depth ::
      (listing (depth + 1) (f.inner offset) ++ p))) f.rule := by
  obtain ⟨before, members, capture⟩ := f
  have hlies := h.tail.right
  have hlength : (Figures.bytes ⟨before, members, capture⟩).length =
      1 + before.bytes.length +
        (paddedBytes Figure.bytes members).length + 1 + capture.bytes.length := by
    simp only [Figures.bytes, List.length_cons, List.length_append]
    omega
  rw [Figures.inner, listing_append, List.append_assoc, figures, check_token]
  dsimp only
  generalize Figures.bytes ⟨before, members, capture⟩ = bytes at hlength ⊢
  generalize hstart : offset + 1 + before.bytes.length +
    (paddedBytes Figure.bytes members).length + 1 = start
  have hcapture : Lies c.source start capture.bytes := hstart ▸ hlies.right.tail
  have hparent : Shallow (token .figures offset bytes depth).depth p := by
    rwa [token_depth]
  have hdepth : (token .figures offset bytes depth).depth < depth + 1 := by
    rw [token_depth]
    exact Nat.lt_succ_self depth
  obtain ⟨hstops, hshallow⟩ : _ ∧
      Shallow (depth + 1) (listing _ (capture.stretches start) ++ p) :=
    stops_figures hparent hdepth
  obtain ⟨entries, hparts, hsettles⟩ :=
    figures_members_settle hdepth hstops hshallow hlies.left (by simp only [token]; omega)
  show Settles _ (List.mapM _ (parts _ _ _).1 >>= _) _
  dsimp only at hparts ⊢
  rw [hparts]
  refine hsettles.then ?_
  dsimp only
  rw [figuresRule_entries members before]
  cases capture with
  | none =>
    rw [Capture.stretches, listing_nil, List.nil_append]
    cases p with
    | nil => rfl
    | cons s rest =>
      have hinside : inside _ s = false := not_inside hparent s rfl
      exact if_neg (by simp [hinside])
  | some n =>
    rw [Capture.stretches, listing_singleton, List.cons_append]
    have hinside : inside _ (token .capture start (Capture.bytes (some n)) (depth + 1)) =
        true :=
      inside_token hdepth (show _ ≤ offset + bytes.length by omega)
    refine (if_pos (Bool.and_eq_true_iff.mpr ⟨hinside, decide_eq_true rfl⟩)).trans ?_
    show c.name (listing _ [n.stretch (start + 1)] ++ p) >>= _ = _
    rw [name_listing hcapture.tail]
    rfl

theorem captured_listing {label : Label} {bytes : Bytes}
    {inner : List (Stretch Label)} {r : Rule} {start : Nat} {capture : Capture}
    (hcapture : Lies c.source start capture.bytes)
    (hstop : start + capture.bytes.length ≤ parent.stop) (hdepth : parent.depth < depth)
    (hp : Shallow parent.depth p) :
    captured c parent (token label offset bytes depth)
      (listing (depth + 1) inner ++ (listing depth (capture.stretches start) ++ p)) r =
      .ok (capture.name r) := by
  cases capture with
  | none =>
    rw [Capture.stretches, listing_nil, List.nil_append, captured,
      sibling?_none (hp.mono (Nat.le_of_lt hdepth)) (not_inside hp)]
    rfl
  | some n =>
    rw [Capture.stretches, listing_singleton, List.cons_append, captured,
      sibling?_token hdepth hstop, if_pos rfl]
    show c.name (listing _ [n.stretch (start + 1)] ++ p) >>= _ = _
    rw [name_listing hcapture.tail]
    rfl

theorem spacing_listing (s : Spacing) :
    spacing c (token .pattern offset (utf8 [s.sign]) depth ::
      (listing (depth + 1) [around (spacingLabel s) offset (utf8 [s.sign]) []] ++ p)) =
        .ok s := by
  rw [listing_singleton, List.cons_append, spacing, check_token]
  cases s <;> rfl

theorem terminal_settles {t : Terminal} (h : Lies c.source offset t.bytes)
    (hp : Shallow depth p) :
    Settles t.leaves (terminal c (listing (depth + 1) [t.inner offset] ++ p))
      t.written := by
  cases t with
  | ranges r =>
    have hread :
        Settles r.leaves (ranges c (listing (depth + 1) [r.stretch offset] ++ p)) _ :=
      ranges_settles h
    rw [Ranges.stretch, listing_singleton] at hread
    rw [Terminal.inner, Ranges.stretch, listing_singleton, List.cons_append]
    exact hread.then rfl
  | figures f =>
    rw [Terminal.inner, listing_singleton]
    exact figures_settles h (hp.mono (Nat.le_succ depth))
  | spacing s =>
    rw [Terminal.inner, listing_singleton]
    show Settles _ (spacing c _ >>= _) _
    rw [List.cons_append, spacing_listing]
    exact .ok _

theorem simplified_written (t : Terminal) : simplified t.written = t.rule := by
  unfold simplified Terminal.rule
  split
  · rename_i set hshape
    rw [hshape]
    obtain ⟨ranges⟩ := set
    rcases ranges with _ | ⟨⟨code, high⟩, _ | _⟩
    · rfl
    · by_cases hcode : code = high
      · subst hcode
        simp [CharSet.single?, Rule.symbol, Rule.string, utf8_cons]
      · simp [CharSet.single?, hcode]
    · rfl
  · rename_i hshape
    split
    · rename_i heq
      exact absurd heq (hshape _)
    · rfl

end Terminals

/-! ## Occurrences -/

section Occurrences

variable {c : Context} {offset depth : Nat} {p : Place}

theorem occurrence_settles {o : Occurrence} (h : Lies c.source offset o.bytes)
    (hp : Shallow depth p) :
    Settles o.leaves (occurrence c (token .occurrence offset o.bytes depth)
      (listing (depth + 1) (o.inner offset) ++ p)) o.bound := by
  have hdepth : ∀ bytes, (token .occurrence offset bytes depth).depth < depth + 1 :=
    fun bytes => by
      rw [token_depth]
      exact Nat.lt_succ_self depth
  have hparent : ∀ bytes, Shallow (token .occurrence offset bytes depth).depth p :=
    fun bytes => by
      rwa [token_depth]
  have hlater : Shallow (depth + 1) p := hp.mono (Nat.le_succ depth)
  cases o with
  | plus | star | qmark =>
    rw [Occurrence.inner, listing_singleton]
    exact .ok _
  | exactly n =>
    rw [Occurrence.inner, listing_singleton, List.cons_append]
    refine (number_settles h.tail.left).then ?_
    rw [sibling?_none hlater (not_inside (hparent _))]
    show Except.ok (Bound.between n.value n.value) = _
    rw [Bound.between, Nat.max_self]
    rfl
  | atLeast n =>
    rw [Occurrence.inner, listing_around, listing_singleton, List.cons_append,
      List.append_assoc, List.cons_append]
    refine Settles.imp (a := Bound.between n.value Bound.unlimited) ?_ fun hsound => ?_
    · refine (number_settles h.tail.left).then ?_
      rw [sibling?_token (hdepth _) (by simp [token, Occurrence.bytes]; omega),
        if_pos rfl]
      dsimp only
      rw [sibling?_none hlater (not_inside (hparent _))]
      rfl
    · have hle : n.value ≤ Bound.unlimited := sound_singleton.mp hsound
      rw [Bound.between, Nat.max_eq_left hle]
      rfl
  | between n m =>
    rw [Occurrence.inner, listing_around, listing_around, listing_singleton,
      List.cons_append, List.append_assoc, List.cons_append, List.append_assoc,
      List.cons_append]
    have hmost := h.tail.right.tail.left
    show Settles ([.number n.value] ++ [.number m.value]) (c.number _ _ >>= _) _
    refine (number_settles h.tail.left).bind ?_
    rw [sibling?_token (hdepth _) (by simp [token, Occurrence.bytes]; omega), if_pos rfl]
    dsimp only
    rw [sibling?_token (hdepth _) (by simp [token, Occurrence.bytes]; omega), if_pos rfl]
    dsimp only
    refine (number_settles hmost).then ?_
    rw [Bound.between, Nat.max_comm]
    rfl

end Occurrences

/-! ## Selections -/

/-- An element as it is read, where a distinction has no rule. -/
def piece : Option Rule → Piece
  | none => .cut
  | some r => .rule r

theorem collect_pieces (rules : List (Option Rule)) (elements : List Rule)
    (cut : Option Nat) :
    (rules.map piece).foldl collect (elements, cut) =
      (elements ++ rules.filterMap id,
        ((cutOf rules).map (elements.length + ·)).or cut) := by
  induction rules generalizing elements cut with
  | nil => simp [cutOf]
  | cons r rest ih =>
    rw [List.map_cons, List.foldl_cons]
    cases r with
    | none =>
      rw [piece, collect, ih, cutOf]
      cases cutOf rest <;> simp
    | some r =>
      rw [piece, collect, ih, cutOf]
      cases cutOf rest with
      | none => simp
      | some count => simp [Nat.add_assoc, Nat.add_comm 1 count]

theorem sequenceRule_pieces (rules : List (Option Rule)) :
    sequenceRule (rules.map piece) = series rules := by
  have hpieces := collect_pieces rules [] none
  rw [List.nil_append, List.length_nil, Option.or_none] at hpieces
  simp only [Nat.zero_add, Option.map_id'] at hpieces
  rw [sequenceRule, series, hpieces]
  rcases rules.filterMap id with _ | ⟨r, _ | ⟨r', rest⟩⟩ <;> rfl

section Selections

variable {c : Context} {offset depth room : Nat} {p : Place} {parent : Token Label}

/-- A form is read as what it stands for, wherever it stands. -/
def Form.Settled (c : Context) (f : Form) : Prop :=
  ∀ (offset depth room : Nat) (p : Place) (written : Bound),
    Lies c.source offset f.bytes →
    Shallow depth p → (listing (depth + 1) (f.inner offset) ++ p).length ≤ room →
    Settles f.leaves
      (pieceOf c (selection c room) written (token f.label offset f.bytes depth)
        (listing (depth + 1) (f.inner offset) ++ p)) (piece (f.rule? written))

def Element.Settled (c : Context) (e : Element) : Prop :=
  ∀ (offset depth room : Nat) (p : Place), Lies c.source offset e.bytes →
    Shallow depth p → (listing (depth + 1) (e.inner offset) ++ p).length ≤ room →
    Settles e.leaves (element c (selection c room) (token .element offset e.bytes depth)
      (listing (depth + 1) (e.inner offset) ++ p)) (piece e.rule?)

/-- Elements are read one by one as parts of a token around them. -/
def Sequence.Settled (c : Context) (s : Sequence) : Prop :=
  ∀ (offset depth room : Nat) (p : Place) (parent : Token Label),
    Lies c.source offset s.bytes →
    offset + s.bytes.length ≤ parent.stop → parent.depth < depth →
    Shallow parent.depth p → (listing depth (s.inner offset) ++ p).length ≤ room →
    Settles s.leaves ((partsOf parent .element (listing depth (s.inner offset) ++ p)).mapM
      fun (t, rest) => element c (selection c room) t rest) (s.rules.map piece)

def Selection.Settled (c : Context) (s : Selection) : Prop :=
  ∀ (offset depth room : Nat) (p : Place) (parent : Token Label),
    Lies c.source offset s.bytes →
    offset + s.bytes.length ≤ parent.stop → parent.depth < depth →
    Shallow parent.depth p → (listing depth (s.inner offset) ++ p).length ≤ room →
    Settles s.leaves
      ((partsOf parent .sequence (listing depth (s.inner offset) ++ p)).mapM
        fun (t, rest) => sequence c (selection c room) t rest) s.rules

theorem sequence_settles {s : Sequence} (hs : s.Settled c)
    (h : Lies c.source offset s.bytes) (hp : Shallow depth p)
    (hroom : (listing (depth + 1) (s.inner offset) ++ p).length ≤ room) :
    Settles s.leaves (sequence c (selection c room) (token .sequence offset s.bytes depth)
      (listing (depth + 1) (s.inner offset) ++ p)) (series s.rules) := by
  have hread := hs offset (depth + 1) room p (token .sequence offset s.bytes depth) h
    (Nat.le_refl _) (by simp) (by rwa [token_depth]) hroom
  exact hread.then (congrArg _ (sequenceRule_pieces s.rules))

theorem selection_settles {s : Selection} (hs : s.Settled c)
    (h : Lies c.source offset s.bytes) (hp : Shallow depth p)
    (hroom :
      (listing depth [around .selection offset s.bytes (s.inner offset)] ++ p).length ≤
        room) :
    Settles s.leaves (selection c room
      (listing depth [around .selection offset s.bytes (s.inner offset)] ++ p))
      (choice s.rules) := by
  rw [listing_singleton, List.cons_append] at hroom ⊢
  cases room with
  | zero => exact absurd hroom (by simp)
  | succ room =>
    rw [selection, check_token]
    have hread := hs offset (depth + 1) room p (token .selection offset s.bytes depth) h
      (Nat.le_refl _) (by simp) (by rwa [token_depth]) (Nat.le_of_succ_le_succ hroom)
    refine hread.then ?_
    cases s with
    | last s => rfl
    | more s before after rest => cases rest <;> rfl

theorem nested_settles {label : Label} {bytes : Bytes} {start stop : Nat} {s : Selection}
    {capture : Capture} (hs : s.Settled c) (h : Lies c.source start s.bytes)
    (hcapture : Lies c.source stop capture.bytes)
    (hstop : stop + capture.bytes.length ≤ offset + bytes.length) (hp : Shallow depth p)
    (hroom : (listing (depth + 1) (around .selection start s.bytes (s.inner start) ::
      capture.stretches stop) ++ p).length ≤ room) :
    Settles s.leaves (nested c (selection c room) (token label offset bytes depth)
      (listing (depth + 1) (around .selection start s.bytes (s.inner start) ::
        capture.stretches stop) ++ p)) (capture.name (choice s.rules)) := by
  have hdepth : (token label offset bytes depth).depth < depth + 1 := by simp
  have hparent : Shallow (token label offset bytes depth).depth p := by rwa [token_depth]
  rw [listing_first, List.append_assoc] at hroom ⊢
  refine (selection_settles hs h (stops_figures hparent hdepth).2 hroom).then ?_
  rw [listing_singleton, List.cons_append]
  exact captured_listing hcapture hstop hdepth hparent

theorem Form.settled_nested {bracket : Bracket} {before after : Pad} {s : Selection}
    {capture : Capture} (hs : s.Settled c) :
    (Form.nested bracket before s after capture).Settled c := by
  intro offset depth room p written h hp hroom
  simp only [Form.bytes] at h
  simp only [Form.inner] at hroom ⊢
  generalize hbytes : (Form.nested bracket before s after capture).bytes = bytes
  have hlength : bytes.length =
      1 + before.bytes.length + s.bytes.length + after.bytes.length + 1 +
        capture.bytes.length := by
    simp [← hbytes, Form.bytes]
    omega
  have hread : Settles s.leaves
      (Hosted.nested c (selection c room) (token bracket.label offset bytes depth) _) _ :=
    nested_settles hs h.tail.right.left h.tail.right.right.right.tail (by omega) hp hroom
  cases bracket <;> exact hread.then rfl

theorem Form.settled_terminal (t : Terminal) : (Form.terminal t).Settled c := by
  intro offset depth room p written h hp hroom
  simp only [Form.bytes, Form.inner, Form.leaves, Form.rule?] at h ⊢
  refine (terminal_settles h hp).then ?_
  rw [simplified_written]
  rfl

theorem Form.settled_string (text : Bytes) (unquoted : ∀ b ∈ text, b ≠ 0x27) :
    (Form.string text unquoted).Settled c := by
  intro offset depth room p written h hp hroom
  show Settles [.text text] (c.text _ _ >>= fun text => _)
    (Piece.rule ((Rule.literal text).repeated written))
  constructor
  · intro hsound
    obtain ⟨chars, rfl⟩ := sound_singleton.mp hsound
    have hbytes : (Form.string (utf8 chars) unquoted).bytes =
        utf8 ('\'' :: (chars ++ ['\''])) := by
      rw [Form.bytes, utf8_cons, utf8_append]
      rfl
    have hunquoted : unquoted? ('\'' :: (chars ++ ['\''])) = some chars := by
      simp [unquoted?]
    rw [text_token h hbytes]
    simp only [bind, Except.bind]
    rw [hunquoted]
    rfl
  · intro hsound
    rw [Form.bytes] at h ⊢
    obtain ⟨label, index, herror⟩ := quoted_refuses h hsound
    exact ⟨label, index, by rw [herror]; rfl⟩

theorem reference_listing {name : Name} {capture : Capture} {bytes : Bytes}
    (h : Lies c.source offset (name.bytes ++ capture.bytes))
    (hlength : name.bytes.length + capture.bytes.length ≤ bytes.length)
    (hp : Shallow depth p) :
    reference c (token .ref offset bytes depth) (listing (depth + 1)
        (name.stretch offset :: capture.stretches (offset + name.bytes.length)) ++ p) =
      .ok (capture.name (Rule.reference (String.ofList name.text))) := by
  have hparent : Shallow (token .ref offset bytes depth).depth p := by rwa [token_depth]
  rw [listing_first, List.append_assoc, reference, name_listing h.left]
  show captured c _ _ ([] ++ _) _ = _
  rw [← listing_nil (depth + 1 + 1)]
  exact captured_listing h.right (by simp only [token]; omega) (by simp) hparent

theorem Form.settled_ref (name : Name) (capture : Capture) :
    (Form.ref name capture).Settled c := by
  intro offset depth room p written h hp hroom
  simp only [Form.bytes, Form.inner, Form.leaves, Form.rule?, Form.label] at h ⊢
  show Settles [] (reference c _ _ >>= _) _
  rw [reference_listing h (by simp) hp]
  exact .ok _

theorem Element.settled_mk {form : Form} (hform : form.Settled c)
    (o : Option Occurrence) : (Element.mk form o).Settled c := by
  intro offset depth room p h hp hroom
  have hlater := hp.mono (Nat.le_succ depth)
  cases o with
  | none =>
    simp only [Element.bytes, Element.inner, Element.leaves, Element.rule?] at h hroom ⊢
    rw [listing_singleton, List.cons_append] at hroom ⊢
    show Settles _ (boundOf c _ _ _ >>= _) _
    rw [boundOf, sibling?_none hlater (not_inside (by rwa [token_depth]))]
    exact hform _ _ _ _ _ h hlater (Nat.le_of_succ_le hroom)
  | some o =>
    simp only [Element.bytes, Element.inner, Element.leaves, Element.rule?] at h hroom ⊢
    generalize hbytes : form.bytes ++ o.bytes = bytes at h
    have hstop : offset + form.bytes.length + o.bytes.length ≤ offset + bytes.length := by
      rw [← hbytes, List.length_append]
      omega
    subst hbytes
    rw [listing_around, Occurrence.stretch, listing_singleton, List.cons_append,
      List.append_assoc, List.cons_append] at hroom ⊢
    show Settles _ (boundOf c _ _ _ >>= _) _
    rw [boundOf, sibling?_token (by simp) hstop, if_pos rfl]
    refine Settles.congr ((occurrence_settles h.right hlater).bind
      (hform _ _ _ _ o.bound h.left shallow_token (Nat.le_of_succ_le hroom))) ?_
    rw [sound_append, sound_append, and_comm]

theorem Sequence.settled_last {e : Element}
    (he : e.Settled c) : (Sequence.last e).Settled c := by
  intro offset depth room p parent h hstop hdepth hp hroom
  simp only [Sequence.bytes, Sequence.inner, Sequence.leaves, Sequence.rules]
    at h hstop hroom ⊢
  rw [listing_singleton, List.cons_append] at hroom ⊢
  have hlater := hp.mono (Nat.le_of_lt hdepth)
  rw [partsOf_token hdepth hstop hlater, partsOf_nil hp]
  exact (he _ _ _ _ h hlater (Nat.le_of_succ_le hroom)).alone

theorem Sequence.settled_more {e : Element} {gap : Indent} {rest : Sequence}
    (he : e.Settled c) (hrest : rest.Settled c) :
    (Sequence.more e gap rest).Settled c := by
  intro offset depth room p parent h hstop hdepth hp hroom
  simp only [Sequence.bytes, Sequence.inner, Sequence.leaves, Sequence.rules]
    at h hstop hroom ⊢
  simp only [List.length_append] at hstop
  rw [listing_around, List.cons_append, List.append_assoc] at hroom ⊢
  have hlater : Shallow depth (listing depth
      (rest.inner (offset + e.bytes.length + gap.bytes.length)) ++ p) := by
    cases rest <;> (rw [Sequence.inner, listing_around]; exact shallow_token)
  rw [partsOf_token hdepth (by omega) hlater]
  refine Settles.cons ?_ ?_
  · exact he _ _ _ _ h.left hlater (Nat.le_of_succ_le hroom)
  refine hrest _ _ _ _ _ h.right.right (by omega) hdepth hp ?_
  simp only [List.length_cons, List.length_append] at hroom ⊢
  omega

theorem Selection.settled_last {s : Sequence} (hs : s.Settled c) :
    (Selection.last s).Settled c := by
  intro offset depth room p parent h hstop hdepth hp hroom
  simp only [Selection.bytes, Selection.inner, Selection.leaves, Selection.rules]
    at h hstop hroom ⊢
  rw [listing_singleton, List.cons_append] at hroom ⊢
  have hlater := hp.mono (Nat.le_of_lt hdepth)
  rw [partsOf_token hdepth hstop hlater, partsOf_nil hp]
  exact (sequence_settles hs h hlater (Nat.le_of_succ_le hroom)).alone

theorem Selection.settled_more {s : Sequence} {before after : Indent} {rest : Selection}
    (hs : s.Settled c) (hrest : rest.Settled c) :
    (Selection.more s before after rest).Settled c := by
  intro offset depth room p parent h hstop hdepth hp hroom
  simp only [Selection.bytes, Selection.inner, Selection.leaves, Selection.rules]
    at h hstop hroom ⊢
  simp only [List.length_append, List.length_cons] at hstop
  rw [listing_around, List.cons_append, List.append_assoc] at hroom ⊢
  have hlater : Shallow depth (listing depth (rest.inner (offset + s.bytes.length +
      before.bytes.length + 1 + after.bytes.length)) ++ p) := by
    cases rest <;> (rw [Selection.inner, listing_around]; exact shallow_token)
  rw [partsOf_token hdepth (by omega) hlater]
  refine Settles.cons ?_ ?_
  · exact sequence_settles hs h.left hlater (Nat.le_of_succ_le hroom)
  refine hrest _ _ _ _ _ h.right.right.tail.right (by omega) hdepth hp ?_
  simp only [List.length_cons, List.length_append] at hroom ⊢
  omega

variable (c)

mutual

theorem Form.settled : ∀ f : Form, f.Settled c
  | .distinction => fun _ _ _ _ _ _ _ _ => .ok _
  | .completion => fun _ _ _ _ _ _ _ _ => .ok _
  | .nested _ _ s _ _ => Form.settled_nested s.settled
  | .terminal t => Form.settled_terminal t
  | .string text unquoted => Form.settled_string text unquoted
  | .ref name capture => Form.settled_ref name capture

theorem Element.settled : ∀ e : Element, e.Settled c
  | .mk form o => Element.settled_mk form.settled o

theorem Sequence.settled : ∀ s : Sequence, s.Settled c
  | .last e => Sequence.settled_last e.settled
  | .more e _ rest => Sequence.settled_more e.settled rest.settled

theorem Selection.settled : ∀ s : Selection, s.Settled c
  | .last s => Selection.settled_last s.settled
  | .more s _ _ rest => Selection.settled_more s.settled rest.settled

end

end Selections

/-! ## Documents -/

section Documents

variable {c : Context} {offset depth : Nat} {p : Place}

theorem declaration_eq {name : Name} {bytes : Bytes} (h : Lies c.source offset name.bytes)
    (hp : Shallow (depth + 1) p) :
    declaration c (token .rule offset bytes depth ::
        (listing (depth + 1) [name.stretch offset] ++ p)) =
      selection c (listing (depth + 1) [name.stretch offset] ++ p).length.succ
        p >>= fun r =>
        .ok (r.named (String.ofList name.text)) := by
  rw [declaration, check_token]
  show c.name _ >>= _ = _
  rw [name_listing h]
  show selection c _ (behind _ p) >>= _ = _
  rw [behind_leaf hp]
  rfl

theorem declaration_settles {name : Name} {before after : Indent} {body : Selection}
    (h : Lies c.source offset (Member.rule name before after body).bytes)
    (hp : Shallow depth p) :
    Settles body.leaves
      (declaration c
        (listing depth [(Member.rule name before after body).inner offset] ++ p))
      ((choice body.rules).named (String.ofList name.text)) := by
  simp only [Member.inner]
  generalize hbytes : (Member.rule name before after body).bytes = bytes at h
  rw [Member.bytes] at hbytes
  subst hbytes
  rw [listing_singleton, List.cons_append, listing_first, List.append_assoc]
  rw [declaration_eq h.left (by rw [listing_singleton]; exact shallow_token)]
  refine (selection_settles (body.settled c) h.right.right.tail.right
    (hp.mono (Nat.le_add_right depth 1)) ?_).then rfl
  simp only [List.length_append]
  omega

theorem declared_settles {m : Member} (h : Lies c.source offset m.bytes)
    (hp : Shallow depth p) :
    Settles m.leaves (declared c (listing depth [m.inner offset] ++ p)) m.rule? := by
  cases m with
  | comment text hopen =>
    rw [Member.inner, listing_singleton]
    exact .ok _
  | rule name before after body =>
    have hread := declaration_settles h hp
    rw [Member.inner, listing_singleton] at hread ⊢
    exact hread.then rfl

theorem declarations_below {inner : List (Stretch Label)} (h : Shallow depth p) :
    declarations c (some depth) (listing (depth + 1) inner ++ p) = declarations c
      none p := by
  refine skip_below (fun t rest ht => ?_) (fun p hp => ?_) h
  · rw [declarations, if_pos (by simpa using ht)]
  · cases p with
    | nil => rw [declarations, declarations]
    | cons s rest => simp [declarations, Nat.not_lt.mpr (hp s rfl)]

theorem declarations_settle : ∀ {members : List (Member × Pad)} {offset : Nat},
    Lies c.source offset (paddedBytes Member.bytes members) →
    Settles (paddedLeaves Member.leaves members)
      (declarations c none
        (listing depth (paddedStretches Member.bytes Member.stretch offset members)))
      (members.filterMap fun item => item.1.rule?) := by
  intro members
  induction members with
  | nil =>
    intro offset h
    rw [paddedStretches, listing_nil, declarations]
    exact .ok _
  | cons item rest ih =>
    obtain ⟨m, pad⟩ := item
    intro offset h
    rw [paddedBytes] at h
    have hlater :
        Shallow depth (listing depth (paddedStretches Member.bytes Member.stretch
          (offset + m.bytes.length + pad.bytes.length) rest)) := by
      cases rest with
      | nil => rw [paddedStretches, listing_nil]; nofun
      | cons next rest =>
        rw [paddedStretches, Member.stretch, listing_around]; exact shallow_token
    rw [paddedStretches, Member.stretch, listing_around, declarations, if_neg (by simp)]
    show Settles (m.leaves ++ paddedLeaves Member.leaves rest) (declared c _ >>= _) _
    refine (declared_settles h.left (hlater.mono (Nat.le_succ depth))).bind ?_
    rw [token_depth, declarations_below hlater]
    refine (ih h.right.right).then ?_
    cases hrule : m.rule? with
    | none => simp [hrule]; rfl
    | some r => simp [hrule]; rfl

end Documents

/-- The tokens of a document are read as its rules. -/
theorem rulesOf_document (d : Document) (p : Parse Label) (hsource : p.source = d.bytes)
    (htokens : p.overlay.tokens.toList = listing 0 d.forest) :
    Settles d.leaves (rulesOf p) d.rules := by
  have hlies : Lies d.bytes 0 (d.before.bytes ++ paddedBytes Member.bytes d.members) :=
    ⟨[], [], (List.append_nil _).symm, rfl⟩
  rw [rulesOf, htokens, hsource, Document.forest, listing_singleton, declarations,
    if_neg (by simp)]
  show Settles _ (declarations _ none _) _
  rw [← Nat.zero_add d.before.bytes.length]
  exact declarations_settle hlies.right

/-- The rules of a document are what its tokens are read as. -/
theorem rulesOf_eq_rules (d : Document) (p : Parse Label) (hsource : p.source = d.bytes)
    (htokens : p.overlay.tokens.toList = listing 0 d.forest) (hsound : Sound d.leaves) :
    rulesOf p = .ok d.rules :=
  (rulesOf_document d p hsource htokens).1 hsound

/-- A rule with suffixes inside of a group that has one itself:
`r = (a@b+ < 'xy'{2-3}){4}`. -/
def suffixes : Document :=
  let blank : Indent := ⟨[0x20], List.forall_mem_singleton.mpr rfl⟩
  let nothing : Pad := ⟨[], nofun⟩
  let first : Element :=
    .mk (.ref ⟨false, 'a', [], by decide, nofun⟩
      (some ⟨false, 'b', [], by decide, nofun⟩)) (some .plus)
  let last : Element :=
    .mk (.string [0x78, 0x79] (by simp))
      (some (.between ⟨['2'], 2, nofun, rfl⟩ ⟨['3'], 3, nofun, rfl⟩))
  let inner : Selection :=
    .last (.more first blank (.more (.mk .distinction none) blank (.last last)))
  let group : Element :=
    .mk (.nested .round nothing inner nothing none)
      (some (.exactly ⟨['4'], 4, nofun, rfl⟩))
  ⟨nothing,
    [(.rule ⟨false, 'r', [], by decide, nofun⟩ blank blank (.last (.last group)),
      nothing)]⟩

theorem rulesOf_eq_rules_suffixes :
    suffixes.bytes = stringBytes "r = (a@b+ < 'xy'\x7b2-3\x7d)\x7b4\x7d" ∧
      rulesOf suffixes.parsed =
        .ok [Rule.capture "r" (Rule.bare (.iteration (Rule.sequenceCut
          [Rule.bare (.iteration (Rule.capture "b" (Rule.reference "a")) ⟨1, maxWord⟩),
            Rule.bare (.iteration (Rule.string ['x', 'y']) ⟨2, 3⟩)] (some 1))
              ⟨4, 4⟩))] := by
  have hsound : Sound suffixes.leaves := by
    show ∀ leaf ∈ [Leaf.text [0x78, 0x79], .number 2, .number 3, .number 4], leaf.Sound
    simp only [List.forall_mem_cons, Leaf.Sound]
    exact ⟨⟨['x', 'y'], rfl⟩, by decide, by decide, by decide, nofun⟩
  refine ⟨rfl, ?_⟩
  rw [rulesOf_eq_rules suffixes suffixes.parsed rfl rfl hsound]
  rfl

end RuleGraph.Hosted
