import RuleGraph.Proofs.Overlay.Growth

/-!
# Nested stretches and the tokens that list them

An overlay is flat. What it stands for is a forest: labelled stretches of the
input with stretches inside them. `Stretch.listing` goes from the forest to the
flat list, parents first, with the nesting depth as the level. It is the one
place where levels are made up.

A forest is `Orderly` between two offsets if its stretches follow one another
without overlap and lie inside those that contain them. `listing_wellFormed` is
what this amounts to in the flat list, where nothing says which token lies
inside which except the levels. The way there leads through `Nested`, which says
the same by recursion on the list: it splits at an append, which statements over
indices do not.
-/

namespace RuleGraph

/-- The token inside of one more. -/
def Token.deeper {α : Type} (t : Token α) : Token α :=
  { t with level := t.level + 1 }

/-- A labelled stretch of the input with the stretches inside it. -/
inductive Stretch (α : Type) where
  | node (label : α) (start stop : Nat) (inner : List (Stretch α))

namespace Stretch

variable {α : Type}

mutual

/-- The tokens of a stretch that lies inside `depth` others. -/
def tokens (depth : Nat) : Stretch α → List (Token α)
  | node label start stop inner =>
    ⟨label, start, stop, depth⟩ :: listing (depth + 1) inner

/-- The tokens of several stretches, one after the other. -/
def listing (depth : Nat) : List (Stretch α) → List (Token α)
  | [] => []
  | s :: rest => tokens depth s ++ listing depth rest

end

/-- Stretches that follow one another between two offsets and hold only such
stretches in turn. -/
def Orderly (low high : Nat) : List (Stretch α) → Prop
  | [] => low ≤ high
  | node _ start stop inner :: rest =>
    low ≤ start ∧ Orderly start stop inner ∧ Orderly stop high rest

@[simp] theorem listing_nil (depth : Nat) :
    listing depth ([] : List (Stretch α)) = [] := by
  rw [listing]

theorem listing_cons (depth : Nat) (label : α) (start stop : Nat)
    (inner rest : List (Stretch α)) :
    listing depth (node label start stop inner :: rest) =
      ⟨label, start, stop, depth⟩ ::
        (listing (depth + 1) inner ++ listing depth rest) := by
  rw [listing, tokens, List.cons_append]

theorem listing_append (depth : Nat) (first second : List (Stretch α)) :
    listing depth (first ++ second) = listing depth first ++ listing depth second := by
  induction first with
  | nil => simp
  | cons s rest ih => rw [List.cons_append, listing, listing, ih, List.append_assoc]

/-- To prove something of every forest, prove it of one whose first stretch
holds a forest that has it and is followed by one that has it. -/
theorem forestInduction {motive : List (Stretch α) → Prop} (nil : motive [])
    (cons : ∀ label start stop inner rest, motive inner → motive rest →
      motive (node label start stop inner :: rest)) :
    ∀ forest, motive forest
  | [] => nil
  | node label start stop inner :: rest =>
    cons label start stop inner rest (forestInduction nil cons inner)
      (forestInduction nil cons rest)

theorem listing_succ (forest : List (Stretch α)) :
    ∀ depth, listing (depth + 1) forest = (listing depth forest).map Token.deeper := by
  induction forest using forestInduction with
  | nil => simp
  | cons label start stop inner rest ihInner ihRest =>
    intro depth
    rw [listing_cons, listing_cons, List.map_cons, List.map_append, ihInner, ihRest]
    rfl

theorem Orderly.le {forest : List (Stretch α)} :
    ∀ {low high : Nat}, Orderly low high forest → low ≤ high := by
  induction forest using forestInduction with
  | nil =>
    intro low high h
    rw [Orderly] at h
    exact h
  | cons label start stop inner rest ihInner ihRest =>
    intro low high h
    rw [Orderly] at h
    obtain ⟨hlow, hinner, hrest⟩ := h
    have := ihInner hinner
    have := ihRest hrest
    omega

theorem Orderly.append {first second : List (Stretch α)} :
    ∀ {low middle high : Nat}, Orderly low middle first → Orderly middle high second →
      Orderly low high (first ++ second) := by
  induction first with
  | nil =>
    intro low middle high hfirst hsecond
    rw [Orderly] at hfirst
    rw [List.nil_append]
    cases second with
    | nil =>
      rw [Orderly] at hsecond ⊢
      omega
    | cons s rest =>
      cases s
      rw [Orderly] at hsecond ⊢
      exact ⟨by omega, hsecond.2⟩
  | cons s rest ih =>
    cases s
    intro low middle high hfirst hsecond
    rw [Orderly] at hfirst
    rw [List.cons_append, Orderly]
    exact ⟨hfirst.1, hfirst.2.1, ih hfirst.2.2 hsecond⟩

end Stretch

/-! ## Nesting in a flat list -/

namespace Overlay

variable {α : Type}

/-- Nesting by recursion on the list: the next token lies at most one deeper,
what lies below a token lies inside it, and what lies beside it later starts
where it has stopped. -/
def Nested : List (Token α) → Prop
  | [] => True
  | t :: rest =>
    (∀ s ∈ rest.head?, s.depth ≤ t.depth + 1) ∧
    (∀ s ∈ below rest t.depth, t.start ≤ s.start ∧ s.stop ≤ t.stop) ∧
    (∀ s ∈ rest.takeWhile (fun s => t.depth ≤ s.depth), s.depth = t.depth →
      t.stop ≤ s.start) ∧
    Nested rest

theorem Nested.drop {tokens : List (Token α)} (h : Nested tokens) (count : Nat) :
    Nested (tokens.drop count) := by
  induction count generalizing tokens with
  | zero => exact h
  | succ n ih =>
    cases tokens with
    | nil => exact h
    | cons t rest => exact ih h.2.2.2

/-- A run of deeper tokens ends where a list begins that is not deeper. -/
theorem takeWhile_append_of_shallow {p : Token α → Bool} {first second : List (Token α)}
    (hhead : ∀ t ∈ second.head?, p t = false) :
    (first ++ second).takeWhile p = first.takeWhile p := by
  induction first with
  | nil =>
    cases second with
    | nil => rfl
    | cons t rest => simp [hhead t rfl]
  | cons t rest ih => by_cases h : p t <;> simp [h, ih]

theorem Nested.append {depth : Nat} {first second : List (Token α)}
    (hfirst : Nested first) (hsecond : Nested second)
    (hdeep : ∀ t ∈ first, depth < t.depth) (hhead : ∀ t ∈ second.head?, t.depth ≤ depth) :
    Nested (first ++ second) := by
  induction first with
  | nil => exact hsecond
  | cons t rest ih =>
    obtain ⟨hnext, hbelow, hbeside, hrest⟩ := hfirst
    have ht := hdeep t List.mem_cons_self
    have hends (p : Token α → Bool) (hp : ∀ s : Token α, s.depth ≤ depth → p s = false) :
        (rest ++ second).takeWhile p = rest.takeWhile p :=
      takeWhile_append_of_shallow fun s hs => hp s (hhead s hs)
    rw [List.cons_append]
    refine ⟨?_, ?_, ?_, ih hrest fun s hs => hdeep s (List.mem_cons_of_mem _ hs)⟩
    · intro s hs
      cases rest with
      | nil =>
        have := hhead s hs
        omega
      | cons u rest => exact hnext s hs
    · rw [below, hends _ fun s hs => decide_eq_false (show ¬t.depth < s.depth by omega)]
      exact hbelow
    · rw [hends _ fun s hs => decide_eq_false (show ¬t.depth ≤ s.depth by omega)]
      exact hbeside

/-! ## The tokens of an orderly forest -/

open Stretch

@[simp] theorem depth_mk (label : α) (start stop depth : Nat) :
    Token.depth (⟨label, start, stop, (depth : Int)⟩ : Token α) = depth :=
  Int.natAbs_natCast depth

/-- Where the tokens of an orderly forest lie, and how deep. -/
theorem mem_listing {forest : List (Stretch α)} :
    ∀ {depth low high : Nat}, Orderly low high forest → ∀ t ∈ listing depth forest,
      t.level = t.depth ∧ depth ≤ t.depth ∧ low ≤ t.start ∧ t.start ≤ t.stop ∧
      t.stop ≤ high := by
  induction forest using forestInduction with
  | nil => simp
  | cons label start stop inner rest ihInner ihRest =>
    intro depth low high h t ht
    rw [Orderly] at h
    obtain ⟨hlow, hinner, hrest⟩ := h
    have hspan := hinner.le
    have hhigh := hrest.le
    rw [listing_cons, List.mem_cons, List.mem_append] at ht
    rcases ht with rfl | ht | ht
    · rw [depth_mk]
      exact ⟨rfl, Nat.le_refl _, hlow, hspan, hhigh⟩
    · obtain ⟨hlevel, hdepth, hstart, hle, hstop⟩ := ihInner hinner t ht
      exact ⟨hlevel, by omega, by omega, hle, by omega⟩
    · obtain ⟨hlevel, hdepth, hstart, hle, hstop⟩ := ihRest hrest t ht
      exact ⟨hlevel, hdepth, by omega, hle, hstop⟩

/-- A listing begins at the depth it is listed at. -/
theorem depth_head?_listing {depth : Nat} {forest : List (Stretch α)} {t : Token α}
    (ht : t ∈ (listing depth forest).head?) : t.depth = depth := by
  cases forest with
  | nil => simp at ht
  | cons s rest =>
    cases s
    rw [listing_cons] at ht
    cases ht
    exact depth_mk ..

theorem nested_listing {forest : List (Stretch α)} :
    ∀ {depth low high : Nat}, Orderly low high forest →
      Nested (listing depth forest) := by
  induction forest using forestInduction with
  | nil => simp [Nested]
  | cons label start stop inner rest ihInner ihRest =>
    intro depth low high h
    rw [Orderly] at h
    obtain ⟨hlow, hinner, hrest⟩ := h
    have hdeep : ∀ t ∈ listing (depth + 1) inner, depth < t.depth :=
      fun t ht => (mem_listing hinner t ht).2.1
    have hhead : ∀ t ∈ (listing depth rest).head?, t.depth ≤ depth :=
      fun t ht => Nat.le_of_eq (depth_head?_listing ht)
    rw [listing_cons]
    refine ⟨?_, ?_, ?_, (ihInner hinner).append (ihRest hrest) hdeep hhead⟩
    · intro s hs
      rw [depth_mk]
      cases hfirst : listing (depth + 1) inner with
      | nil =>
        rw [hfirst, List.nil_append] at hs
        have := hhead s hs
        omega
      | cons t _ =>
        rw [hfirst, List.cons_append] at hs
        have hinside : s ∈ (listing (depth + 1) inner).head? := by
          rw [hfirst]
          exact hs
        exact Nat.le_of_eq (depth_head?_listing hinside)
    · intro s hs
      rw [depth_mk, below, takeWhile_append_of_shallow fun t ht =>
        decide_eq_false (show ¬depth < t.depth by have := hhead t ht; omega)] at hs
      obtain ⟨-, -, hstart, -, hstop⟩ :=
        mem_listing hinner s ((List.takeWhile_sublist _).subset hs)
      exact ⟨hstart, hstop⟩
    · intro s hs hdepth
      rw [depth_mk] at hdepth
      rcases List.mem_append.mp ((List.takeWhile_sublist _).subset hs) with hs | hs
      · have := hdeep s hs
        omega
      · exact (mem_listing hrest s hs).2.2.1

/-! ## The same over indices -/

/-- Whether the second token lies below the first. -/
def Below (o : Overlay α) (i j : Nat) : Prop :=
  ∃ next, o.after? i = some next ∧ i < j ∧ j < next

/-- Whether the second token lies beside the first and after it: equally deep,
with nothing less deep in between. -/
def Beside (o : Overlay α) (i j : Nat) : Prop :=
  i < j ∧ ∃ s t, o.tokens[i]? = some s ∧ o.tokens[j]? = some t ∧ s.depth = t.depth ∧
    ∀ k u, i < k → k < j → o.tokens[k]? = some u → s.depth ≤ u.depth

/-- What a finished overlay up to an offset looks like. -/
structure WellFormed (o : Overlay α) (stop : Nat) : Prop where
  /-- Nothing is pending. -/
  closed : o.pending = []
  /-- The first token lies inside none. -/
  first : ∀ t, o.tokens[0]? = some t → t.level = 0
  /-- Every token lies inside at most one more than the token before it. -/
  next : ∀ (i : Nat) (s t : Token α), o.tokens[i]? = some s → o.tokens[i + 1]? = some t →
    0 ≤ t.level ∧ t.level ≤ s.level + 1
  /-- Tokens stop where they start or later, and none stops behind the offset. -/
  span : ∀ (i : Nat) (t : Token α), o.tokens[i]? = some t → t.start ≤ t.stop ∧
  t.stop ≤ stop
  /-- What lies below a token lies inside its span. -/
  inside : ∀ (i j : Nat) (s t : Token α), o.Below i j → o.tokens[i]? = some s →
    o.tokens[j]? = some t → s.start ≤ t.start ∧ t.stop ≤ s.stop
  /-- What lies beside a token and after it starts where it has stopped. -/
  apart : ∀ (i j : Nat) (s t : Token α), o.Beside i j → o.tokens[i]? = some s →
    o.tokens[j]? = some t → s.stop ≤ t.start

theorem drop_eq_cons {o : Overlay α} {i : Nat} {t : Token α} (h : o.tokens[i]? = some t) :
    o.tokens.toList.drop i = t :: o.tokens.toList.drop (i + 1) := by
  rw [← Array.getElem?_toList] at h
  obtain ⟨hlt, rfl⟩ := List.getElem?_eq_some_iff.mp h
  exact List.drop_eq_getElem_cons hlt

theorem getElem?_drop_later {o : Overlay α} {i j : Nat} {t : Token α} (hij : i < j)
    (h : o.tokens[j]? = some t) :
    (o.tokens.toList.drop (i + 1))[j - (i + 1)]? = some t := by
  rw [List.getElem?_drop, Nat.add_sub_cancel' hij, Array.getElem?_toList]
  exact h

theorem mem_takeWhile_of_forall {p : Token α → Bool} :
    ∀ {tokens : List (Token α)} {k : Nat} {t : Token α}, tokens[k]? = some t →
      (∀ l u, l ≤ k → tokens[l]? = some u → p u = true) → t ∈ tokens.takeWhile p
  | [], _, _, h, _ => by simp at h
  | s :: rest, 0, t, h, hall => by
    cases h
    rw [List.takeWhile_cons, if_pos (hall 0 _ (Nat.le_refl _) rfl)]
    exact List.mem_cons_self
  | s :: rest, k + 1, t, h, hall => by
    rw [List.takeWhile_cons, if_pos (hall 0 s (Nat.zero_le _) rfl)]
    refine List.mem_cons_of_mem _ (mem_takeWhile_of_forall h fun l u hl hu => ?_)
    exact hall (l + 1) u (by omega) hu

/-- What lies below a token is among the deeper tokens that follow it. -/
theorem Below.mem_below {o : Overlay α} {i j : Nat} {s t : Token α} (h : o.Below i j)
    (hs : o.tokens[i]? = some s) (ht : o.tokens[j]? = some t) :
    t ∈ below (o.tokens.toList.drop (i + 1)) s.depth := by
  obtain ⟨next, hnext, hij, hj⟩ := h
  rw [after?, hs, Option.map_some, Option.some.injEq] at hnext
  have hlt : j - (i + 1) < (below (o.tokens.toList.drop (i + 1)) s.depth).length := by
    omega
  have hlater := getElem?_drop_later hij ht
  rw [List.prefix_iff_getElem?.mp (List.takeWhile_prefix _) _ hlt] at hlater
  cases hlater
  exact List.getElem_mem hlt

theorem Nested.inside {o : Overlay α} (h : Nested o.tokens.toList) {i j : Nat}
    {s t : Token α} (hbelow : o.Below i j) (hs : o.tokens[i]? = some s)
    (ht : o.tokens[j]? = some t) : s.start ≤ t.start ∧ t.stop ≤ s.stop := by
  have hnested := h.drop i
  rw [drop_eq_cons hs] at hnested
  exact hnested.2.1 t (hbelow.mem_below hs ht)

theorem Nested.apart {o : Overlay α} (h : Nested o.tokens.toList) {i j : Nat}
    {s t : Token α} (hbeside : o.Beside i j) (hs : o.tokens[i]? = some s)
    (ht : o.tokens[j]? = some t) : s.stop ≤ t.start := by
  obtain ⟨hij, s', t', hs', ht', hdepth, hbetween⟩ := hbeside
  cases hs.symm.trans hs'
  cases ht.symm.trans ht'
  have hnested := h.drop i
  rw [drop_eq_cons hs] at hnested
  refine hnested.2.2.1 t
    (mem_takeWhile_of_forall (getElem?_drop_later hij ht) ?_) hdepth.symm
  intro l u hl hu
  rw [List.getElem?_drop, Array.getElem?_toList] at hu
  rcases Nat.lt_or_ge (i + 1 + l) j with hlt | hge
  · exact decide_eq_true (hbetween _ u (by omega) hlt hu)
  · have hlast : i + 1 + l = j := by omega
    rw [hlast] at hu
    cases hu.symm.trans ht
    exact decide_eq_true (Nat.le_of_eq hdepth)

/-- The tokens of an orderly forest, listed from the outermost level on, are a
well-formed overlay. -/
theorem listing_wellFormed {forest : List (Stretch α)} {low high : Nat}
    (h : Orderly low high forest) :
    (⟨(listing 0 forest).toArray, []⟩ : Overlay α).WellFormed high := by
  have hnested : Nested (listing 0 forest) := nested_listing h
  have hmem {i : Nat} {t : Token α} (ht : (listing 0 forest).toArray[i]? = some t) :
      t ∈ listing 0 forest :=
    List.mem_of_getElem? (List.getElem?_toArray ▸ ht)
  refine ⟨rfl, ?_, ?_, ?_, fun i j s t => Nested.inside hnested,
    fun i j s t => Nested.apart hnested⟩
  · intro t ht
    have hhead : t ∈ (listing 0 forest).head? := by
      rw [List.head?_eq_getElem?, ← List.getElem?_toArray]
      exact ht
    rw [(mem_listing h t (hmem ht)).1, depth_head?_listing hhead]
    rfl
  · intro i s t hs ht
    have hlist := hnested.drop i
    rw [drop_eq_cons (o := ⟨(listing 0 forest).toArray, []⟩) hs,
      drop_eq_cons (o := ⟨(listing 0 forest).toArray, []⟩) ht] at hlist
    have hrise := hlist.1 t rfl
    rw [(mem_listing h s (hmem hs)).1, (mem_listing h t (hmem ht)).1]
    omega
  · intro i t ht
    obtain ⟨-, -, -, hle, hstop⟩ := mem_listing h t (hmem ht)
    exact ⟨hle, hstop⟩

end Overlay

end RuleGraph
