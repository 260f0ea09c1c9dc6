import RuleGraph.Proofs.Overlay.Reading

/-!
# Overlays in columns

The tokens of an overlay can be kept in four arrays, one for the labels, one each
for the offsets and one for the levels. Nothing in such a representation says that
the arrays are of one length. Every operation that adds or takes back tokens does it
four times, and every access takes an index that another array has been measured
for. An access beyond the end of an array is an outcome of its own here.

`History` is any sequence of operations, and it has two readings, as an overlay and
in columns. They never part, so the arrays stay of one length and no access goes
beyond their ends.

Filling is the long case. In columns it is a loop over indices that puts tokens and
gaps into a second overlay while it goes along, and on overlays it is a function of
trees. What connects the two is the forest that the tokens are listed from: the loop
does to a stretch of indices what `Tree.filled` does to the trees there.
-/

namespace RuleGraph

variable {α : Type}

/-- An overlay whose tokens are spread over four arrays. -/
structure Columns (α : Type) where
  labels : Array α
  starts : Array Nat
  stops : Array Nat
  levels : Array Int
  pending : List Nat
deriving DecidableEq, Repr

namespace Columns

def empty : Columns α := ⟨#[], #[], #[], #[], []⟩

section Operations

variable (c : Columns α)

/-- The first array is the one that is asked for the number of tokens. -/
def count : Nat := c.labels.size

/-- All arrays have as many entries as there are tokens. -/
def Aligned : Prop :=
  c.starts.size = c.count ∧ c.stops.size = c.count ∧ c.levels.size = c.count

def push (label : α) (start stop : Nat) (level : Int) : Columns α :=
  { c with
    labels := c.labels.push label
    starts := c.starts.push start
    stops := c.stops.push stop
    levels := c.levels.push level }

def shrink (count : Nat) : Columns α :=
  { c with
    labels := c.labels.shrink count
    starts := c.starts.shrink count
    stops := c.stops.shrink count
    levels := c.levels.shrink count }

def begin (label : α) (start : Nat) : Columns α :=
  { c.push label start start c.pending.length with pending := c.count :: c.pending }

def finish (stop : Nat) : Option (Columns α) :=
  match c.pending with
  | [] => some c
  | index :: rest =>
    if h : index < c.stops.size then
      some { c with stops := c.stops.set index stop h, pending := rest }
    else none

def abandon : Columns α :=
  match c.pending with
  | [] => c
  | index :: rest => { c.shrink index with pending := rest }

def rewind (count : Nat) : Columns α :=
  if count < c.count then
    { c.shrink count with pending := c.pending.filter (· < count) }
  else c

/-- How many of the first tokens are left when the last ones are dropped as far as
they reach beyond a position. -/
def reaching (stops : Array Nat) (position : Nat) : Nat → Option Nat
  | 0 => some 0
  | count + 1 => do
    if position < (← stops[count]?) then reaching stops position count
    else return count + 1

def trim (position : Nat) : Option (Columns α) :=
  (reaching c.stops position c.count).map c.rewind

def map {β : Type} (f : α → β) : Columns β :=
  { c with labels := c.labels.map f }

end Operations

section Filling

variable (c : Columns α)

/-- The first index from `next` on that is not deeper, or the count. -/
def beyond (depth next : Nat) : Option Nat :=
  if next < c.count then do
    if depth < (← c.levels[next]?).natAbs then beyond depth (next + 1) else return next
  else some next
termination_by c.count - next

def after? (index : Nat) : Option Nat := do
  c.beyond (← c.levels[index]?).natAbs (index + 1)

/-- Puts the token at an index behind those of `target`. -/
def copyToken (target : Columns α) (index : Nat) : Option (Columns α) := do
  return target.push (← c.labels[index]?) (← c.starts[index]?) (← c.stops[index]?)
    (← c.levels[index]?)

/-- Puts a gap of the token at an index behind those of `target`, if there is room
for one. -/
def copyGap (target : Columns α) (index start stop : Nat) : Option (Columns α) :=
  if start < stop then do
    return target.push (← c.labels[index]?) start stop
      (-((← c.levels[index]?).natAbs + 1))
  else some target

mutual

/-- Puts the token at an index and what lies below it behind the tokens of `target`,
with the gaps filled. Comes back with the index after all of it. -/
def copy (target : Columns α) (index : Nat) : Option (Columns α × Nat) :=
  if index < c.count then do
    let target ← c.copyToken target index
    let next ← c.after? index
    if index + 1 = next then return (target, next)
    else return (← copyBelow target index next (← c.starts[index]?) (index + 1), next)
  else none
termination_by (c.count - index, 0)

/-- The children of a token from one index to another, where everything up to
`covered` needs no filling any more. -/
def copyBelow
    (target : Columns α) (parent stop covered child : Nat) : Option (Columns α) :=
  if child < stop then do
    let target ← c.copyGap target parent covered (← c.starts[child]?)
    let (target, next) ← copy target child
    if child < next ∧ next ≤ c.count then
      copyBelow target parent stop (max covered (← c.stops[child]?)) next
    else none
  else do c.copyGap target parent covered (← c.stops[parent]?)
termination_by (c.count - child, 1)

end

/-- Copies all tokens from an index on. -/
def copyAll (target : Columns α) (index : Nat) : Option (Columns α) :=
  if index < c.count then do
    let (target, next) ← c.copy target index
    if index < next then copyAll target next else none
  else some target
termination_by c.count - index

def filled : Option (Columns α) :=
  c.copyAll empty 0

end Filling

end Columns

/-! ## Histories -/

/-- What has been done to an overlay since it was empty. -/
inductive History : Type → Type 1 where
  | empty {α : Type} : History α
  | begin {α : Type} (label : α) (start : Nat) (earlier : History α) : History α
  | finish {α : Type} (stop : Nat) (earlier : History α) : History α
  | abandon {α : Type} (earlier : History α) : History α
  | rewind {α : Type} (count : Nat) (earlier : History α) : History α
  | trim {α : Type} (position : Nat) (earlier : History α) : History α
  | map {α β : Type} (f : α → β) (earlier : History α) : History β
  | filled {α : Type} (earlier : History α) : History α

namespace History

def overlay : {α : Type} → History α → Overlay α
  | _, empty => Overlay.empty
  | _, begin label start earlier => earlier.overlay.begin label start
  | _, finish stop earlier => earlier.overlay.finish stop
  | _, abandon earlier => earlier.overlay.abandon
  | _, rewind count earlier => earlier.overlay.rewind count
  | _, trim position earlier => earlier.overlay.trim position
  | _, map f earlier => earlier.overlay.map f
  | _, filled earlier => earlier.overlay.filled

def columns? : {α : Type} → History α → Option (Columns α)
  | _, empty => some Columns.empty
  | _, begin label start earlier => earlier.columns?.map (·.begin label start)
  | _, finish stop earlier => earlier.columns?.bind (·.finish stop)
  | _, abandon earlier => earlier.columns?.map (·.abandon)
  | _, rewind count earlier => earlier.columns?.map (·.rewind count)
  | _, trim position earlier => earlier.columns?.bind (·.trim position)
  | _, map f earlier => earlier.columns?.map (·.map f)
  | _, filled earlier => earlier.columns?.bind (·.filled)

theorem reachable (h : History α) : h.overlay.Reachable := by
  induction h with
  | empty => exact .empty
  | begin label start _ ih => exact .begin label start ih
  | finish stop _ ih => exact .finish stop ih
  | abandon _ ih => exact .abandon ih
  | rewind count _ ih => exact .rewind count ih
  | trim position _ ih => exact .trim position ih
  | map f _ ih => exact .map f ih
  | filled _ ih => exact .filled ih

end History

theorem Overlay.Reachable.history {o : Overlay α} (h : o.Reachable) :
    ∃ run : History α, run.overlay = o := by
  induction h with
  | empty => exact ⟨.empty, rfl⟩
  | begin label start _ ih =>
    exact ih.imp' (.begin label start) fun _ => congrArg (Overlay.begin · label start)
  | finish stop _ ih =>
    exact ih.imp' (.finish stop) fun _ => congrArg (Overlay.finish · stop)
  | abandon _ ih => exact ih.imp' .abandon fun _ => congrArg Overlay.abandon
  | rewind count _ ih =>
    exact ih.imp' (.rewind count) fun _ => congrArg (Overlay.rewind · count)
  | trim position _ ih =>
    exact ih.imp' (.trim position) fun _ => congrArg (Overlay.trim · position)
  | map f _ ih => exact ih.imp' (.map f) fun _ => congrArg (Overlay.map f)
  | filled _ ih => exact ih.imp' .filled fun _ => congrArg Overlay.filled

namespace Overlay

def columns (o : Overlay α) : Columns α :=
  ⟨o.tokens.map Token.label, o.tokens.map Token.start, o.tokens.map Token.stop,
    o.tokens.map Token.level, o.pending⟩

@[simp] theorem count_columns (o : Overlay α) : o.columns.count = o.count :=
  Array.size_map

theorem columns_empty : (Overlay.empty : Overlay α).columns = Columns.empty := by
  simp [columns, empty, Columns.empty]

theorem aligned_columns (o : Overlay α) : o.columns.Aligned := by
  simp [Columns.Aligned, Columns.count, columns]

/-! ## Operations on the tokens as they are -/

theorem columns_push (o : Overlay α) (t : Token α) :
    o.columns.push t.label t.start t.stop t.level = (o.grow [t]).columns := by
  simp [columns, Columns.push, grow]

theorem columns_shrink (o : Overlay α) (count : Nat) (pending : List Nat) :
    { o.columns.shrink count with pending := pending } =
      columns ⟨o.tokens.shrink count, pending⟩ := by
  simp [columns, Columns.shrink]

theorem columns_begin (o : Overlay α) (label : α) (start : Nat) :
    o.columns.begin label start = (o.begin label start).columns := by
  simp [columns, Columns.begin, Columns.push, begin, Columns.count, count]

theorem columns_abandon (o : Overlay α) : o.columns.abandon = o.abandon.columns := by
  obtain ⟨tokens, pending⟩ := o
  cases pending with
  | nil => rfl
  | cons index rest => exact columns_shrink ⟨tokens, index :: rest⟩ index rest

theorem columns_rewind (o : Overlay α) (count : Nat) :
    o.columns.rewind count = (o.rewind count).columns := by
  unfold Columns.rewind rewind
  rw [count_columns]
  split
  · exact columns_shrink o count _
  · rfl

theorem columns_map {β : Type} (o : Overlay α) (f : α → β) :
    o.columns.map f = (o.map f).columns := by
  simp [columns, Columns.map, map, Function.comp_def]

/-- Only the stops of the tokens change when one of them is finished. -/
theorem map_finished {β : Type} (tokens : Array (Token α)) (index stop : Nat)
    (f : Token α → β) (hf : ∀ t : Token α, f { t with stop := stop } = f t) :
    (tokens.modify index fun t => { t with stop := stop }).map f = tokens.map f := by
  refine Array.ext_getElem? fun i => ?_
  rw [Array.getElem?_map, Array.getElem?_map, Array.getElem?_modify]
  split
  · cases tokens[i]? with
    | none => rfl
    | some t => exact congrArg some (hf t)
  · rfl

theorem columns_finish {o : Overlay α} (h : o.InRange) (stop : Nat) :
    o.columns.finish stop = some (o.finish stop).columns := by
  obtain ⟨tokens, pending⟩ := o
  cases pending with
  | nil => rfl
  | cons index rest =>
    have hlt : index < (tokens.map Token.stop).size := by
      rw [Array.size_map]
      exact h index List.mem_cons_self
    have hstops : (tokens.map Token.stop).set index stop hlt =
        (tokens.modify index fun t => { t with stop := stop }).map Token.stop := by
      refine Array.ext_getElem? fun i => ?_
      rw [Array.getElem?_set, Array.getElem?_map, Array.getElem?_map,
        Array.getElem?_modify]
      split
      · rename_i heq
        subst heq
        rw [Array.getElem?_eq_getElem (by simpa using hlt)]
        rfl
      · rfl
    show dite _ _ _ = _
    rw [columns, dif_pos hlt, hstops]
    simp only [columns, finish]
    rw [map_finished tokens index stop Token.label fun _ => rfl,
      map_finished tokens index stop Token.start fun _ => rfl,
      map_finished tokens index stop Token.level fun _ => rfl]

theorem reaching_eq (tokens : Array (Token α)) (position : Nat) : ∀ {count : Nat},
    count ≤ tokens.size → Columns.reaching (tokens.map Token.stop) position count =
      some ((tokens.toList.take count).reverse.dropWhile fun t =>
        position < t.stop).length := by
  intro count
  induction count with
  | zero => exact fun _ => rfl
  | succ count ih =>
    intro hle
    have hlast : tokens[count]? = some tokens[count] := Array.getElem?_eq_getElem hle
    rw [Columns.reaching, Array.getElem?_map, hlast, List.take_add_one,
      Array.getElem?_toList, hlast]
    simp only [Option.map_some, Option.bind_eq_bind, Option.bind_some, Option.toList_some,
      List.reverse_append, List.reverse_singleton, List.singleton_append,
      List.dropWhile_cons, decide_eq_true_eq]
    split
    · exact ih (Nat.le_of_lt hle)
    · rw [List.length_cons, List.length_reverse, List.length_take, Array.length_toList,
        Nat.min_eq_left (Nat.le_of_lt hle)]
      rfl

theorem columns_trim (o : Overlay α) (position : Nat) :
    o.columns.trim position = some (o.trim position).columns := by
  have hreaching := reaching_eq o.tokens position (Nat.le_refl _)
  rw [← Array.length_toList, List.take_length, Array.length_toList] at hreaching
  rw [Columns.trim, count_columns]
  show (Columns.reaching (o.tokens.map Token.stop) position o.tokens.size).map _ = _
  rw [hreaching, Option.map_some, columns_rewind]
  rfl

/-! ## Filling -/

theorem columns_beyond (o : Overlay α) (depth next : Nat) : o.columns.beyond depth next =
    some (next + (below (o.tokens.toList.drop next) depth).length) := by
  induction hleft : o.count - next generalizing next with
  | zero =>
    rw [Columns.beyond, count_columns, if_neg (by omega),
      List.drop_eq_nil_of_le
        (by rw [Array.length_toList]; exact Nat.le_of_sub_eq_zero hleft)]
    rfl
  | succ left ih =>
    have hlt : next < o.count := by omega
    have hnext : o.tokens[next]? = some o.tokens[next] := Array.getElem?_eq_getElem hlt
    have hlevel : o.columns.levels[next]? = some o.tokens[next].level := by
      rw [columns, Array.getElem?_map, hnext, Option.map_some]
    rw [Columns.beyond, count_columns, if_pos hlt, hlevel, drop_eq_cons hnext, below,
      List.takeWhile_cons]
    simp only [Option.bind_eq_bind, Option.bind_some, decide_eq_true_eq]
    show ite (depth < o.tokens[next].depth) _ _ = _
    split
    · rw [ih (next + 1) (by omega), List.length_cons, below]
      exact congrArg some (by omega)
    · rfl

theorem columns_after? (o : Overlay α) (index : Nat) :
    o.columns.after? index = o.after? index := by
  rw [Columns.after?, after?, columns, Array.getElem?_map]
  cases o.tokens[index]? with
  | none => rfl
  | some t => exact o.columns_beyond t.depth (index + 1)

variable {o : Overlay α} {t : Token α} {index : Nat}

/-- What the columns have of a token. -/
theorem columns_at (ht : o.tokens[index]? = some t) :
    o.columns.labels[index]? = some t.label ∧ o.columns.starts[index]? = some t.start ∧
      o.columns.stops[index]? = some t.stop ∧
      o.columns.levels[index]? = some t.level := by
  simp [columns, ht]

theorem columns_copyToken (ht : o.tokens[index]? = some t) (target : Overlay α) :
    o.columns.copyToken target.columns index = some (target.grow [t]).columns := by
  obtain ⟨hlabel, hstart, hstop, hlevel⟩ := columns_at ht
  rw [Columns.copyToken, hlabel, hstart, hstop, hlevel, ← columns_push]
  rfl

theorem columns_copyGap (ht : o.tokens[index]? = some t) (target : Overlay α)
    (start stop : Nat) : o.columns.copyGap target.columns index start stop =
      some (target.grow (Tree.listTokens (Tree.gapBetween t start stop))).columns := by
  obtain ⟨hlabel, -, -, hlevel⟩ := columns_at ht
  unfold Columns.copyGap Tree.gapBetween
  split
  · rw [Tree.gap, Tree.listTokens_cons, Tree.listTokens_nil, List.append_nil,
      ← columns_push, hlabel, hlevel]
    rfl
  · rw [Tree.listTokens_nil, grow_nil]

/-- Copying a token is filling its tree, if that is so for the trees below it. -/
theorem columns_copy {children : List (Tree α)} {next : Nat}
    (ht : o.tokens[index]? = some t) (hafter : o.after? index = some next)
    (hnext : next = index + 1 + (Tree.listTokens children).length)
    (hbelow : ∀ target : Overlay α,
      o.columns.copyBelow target.columns index next t.start (index + 1) =
        some (target.grow (Tree.listTokens (Tree.filledList t t.start children))).columns)
    (target : Overlay α) : o.columns.copy target.columns index =
      some ((target.grow (Tree.tokens (Tree.filled (.node t children)))).columns,
        next) := by
  rw [Columns.copy, count_columns, if_pos (lt_after? hafter).2, columns_copyToken ht,
    columns_after?, hafter, (columns_at ht).2.1]
  simp only [Option.bind_eq_bind, Option.bind_some]
  cases children with
  | nil =>
    rw [if_pos (by rw [hnext, Tree.listTokens_nil]; rfl), Tree.filled, Tree.tokens,
      Tree.listTokens_nil]
    rfl
  | cons tree rest =>
    obtain ⟨s, inner⟩ := tree
    rw [if_neg (by rw [hnext, Tree.listTokens_cons, List.length_cons]; omega), hbelow,
      Tree.filled, Tree.tokens, grow_grow]
    rfl

/-- The loops over the indices of trees do what filling does to the trees. -/
theorem columns_copied {trees : List (Tree α)} :
    ∀ {depth first : Nat} {rest : List (Token α)},
      o.tokens.toList.drop first = Tree.listTokens trees ++ rest →
      Tree.Levelled depth trees → (∀ s ∈ rest.head?, s.depth ≤ depth) →
      (∀ (parent covered : Nat) (t : Token α), o.tokens[parent]? = some t →
          ∀ target : Overlay α,
            o.columns.copyBelow target.columns parent
              (first + (Tree.listTokens trees).length) covered first =
              some (target.grow
                (Tree.listTokens (Tree.filledList t covered trees))).columns) ∧
        (rest = [] → ∀ target : Overlay α, o.columns.copyAll target.columns first =
          some (target.grow (Tree.listTokens (trees.map Tree.filled))).columns) := by
  induction trees using Tree.forestInduction with
  | nil =>
    intro depth first rest hdrop _ _
    rw [Tree.listTokens_nil, List.nil_append] at hdrop
    constructor
    · intro parent covered t ht target
      rw [Tree.listTokens_nil, List.length_nil, Nat.add_zero, Columns.copyBelow,
        if_neg (Nat.lt_irrefl first),
        (columns_at ht).2.2.1, Tree.filledList]
      exact columns_copyGap ht target covered t.stop
    · rintro rfl target
      have hge : o.count ≤ first := by
        rw [count, ← Array.length_toList]
        exact List.drop_eq_nil_iff.mp hdrop
      rw [Columns.copyAll, count_columns, if_neg (Nat.not_lt.mpr hge), List.map_nil,
        Tree.listTokens_nil, grow_nil]
  | cons s children others ihChildren ihOthers =>
    intro depth first rest hdrop hlevelled hrest
    obtain ⟨-, hchildren, hothers⟩ := Tree.levelled_cons.mp hlevelled
    obtain ⟨hfirst, hafter, hlater, hhead, hbehind⟩ := node_of_drop hdrop hlevelled hrest
    have hcopy := columns_copy hfirst hafter rfl
      ((ihChildren hlater hchildren hhead).1 first s.start s hfirst)
    obtain ⟨hbelow, hall⟩ := ihOthers hbehind hothers hrest
    have hmoved : first < first + 1 + (Tree.listTokens children).length := by omega
    constructor
    · intro parent covered t ht target
      obtain ⟨-, hstart, hstop, -⟩ := columns_at hfirst
      rw [length_listTokens_cons, Columns.copyBelow, if_pos (by omega), hstart, hstop]
      simp only [Option.bind_eq_bind, Option.bind_some]
      rw [columns_copyGap ht, Option.bind_some, hcopy, Option.bind_some,
        if_pos ⟨hmoved, by rw [count_columns]; exact after?_le_count hafter⟩,
        hbelow parent (max covered s.stop) t ht, Tree.filledList, Tree.listTokens_append,
        Tree.listTokens, grow_grow, grow_grow]
      rfl
    · intro hnil target
      rw [Columns.copyAll, count_columns, if_pos (lt_after? hafter).2, hcopy]
      simp only [Option.bind_eq_bind, Option.bind_some]
      rw [if_pos hmoved, hall hnil, grow_grow, List.map_cons, Tree.listTokens]

theorem columns_filled (h : o.Reachable) :
    o.columns.filled = some o.filled.columns := by
  have hdrop : o.tokens.toList.drop 0 =
      Tree.listTokens (Tree.forest o.tokens.toList) ++ [] := by
    rw [List.drop_zero, List.append_nil, Tree.listTokens_forest]
  have hcopied :=
    columns_copied hdrop (Tree.levelled_forest h.anchored.1) (by rintro _ ⟨⟩)
  rw [Columns.filled, ← columns_empty, hcopied.2 rfl Overlay.empty]
  simp [filled, grow, empty]

end Overlay

/-! ## Histories in columns -/

namespace History

/-- Whatever is done, it can be done in columns, and what comes of it are the columns
of the overlay. -/
theorem columns?_eq (h : History α) : h.columns? = some h.overlay.columns := by
  induction h with
  | empty => exact congrArg some Overlay.columns_empty.symm
  | begin label start earlier ih =>
    rw [columns?, ih, Option.map_some, Overlay.columns_begin, overlay]
  | finish stop earlier ih =>
    rw [columns?, ih, Option.bind_some,
      Overlay.columns_finish earlier.reachable.inRange, overlay]
  | abandon earlier ih =>
    rw [columns?, ih, Option.map_some, Overlay.columns_abandon, overlay]
  | rewind count earlier ih =>
    rw [columns?, ih, Option.map_some, Overlay.columns_rewind, overlay]
  | trim position earlier ih =>
    rw [columns?, ih, Option.bind_some, Overlay.columns_trim, overlay]
  | map f earlier ih => rw [columns?, ih, Option.map_some, Overlay.columns_map, overlay]
  | filled earlier ih =>
    rw [columns?, ih, Option.bind_some, Overlay.columns_filled earlier.reachable, overlay]

end History

end RuleGraph
