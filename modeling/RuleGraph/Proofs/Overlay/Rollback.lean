import RuleGraph.Proofs.Overlay.Growth

/-!
# Going back after any moves

A mark is a number of tokens, and going back to it cuts the tokens at this number and
the stack of pending tokens at the indices that lie below it. Nothing else is kept for
the way back. So it must hold of every overlay in between that the tokens of the marked
one stand in front, as they were, and that the pending tokens from there are still
pending and no others of them (`Keeps`).

A move breaks this only if it finishes or takes back one of the marked tokens, and it
keeps it in every other state, however tokens have begun, ended and been taken back in
the meantime. An abandoned token is the same case: what was there when it began is
marked by its own index.
-/

namespace RuleGraph.Overlay

variable {α : Type}

/-- What can be done to an overlay between a mark and the way back to it. -/
inductive Move (α : Type) where
  | begin (label : α) (start : Nat)
  | finish (stop : Nat)
  | abandon
  | rewind (count : Nat)
deriving DecidableEq, Repr

def play (o : Overlay α) : Move α → Overlay α
  | .begin label start => o.begin label start
  | .finish stop => o.finish stop
  | .abandon => o.abandon
  | .rewind count => o.rewind count

def playAll (o : Overlay α) (moves : List (Move α)) : Overlay α :=
  moves.foldl play o

/-- The move neither finishes nor takes back one of the first `count` tokens. -/
def Move.Spares (count : Nat) (o : Overlay α) : Move α → Prop
  | .begin _ _ => True
  | .finish _ | .abandon => ∀ index ∈ o.pending.head?, count ≤ index
  | .rewind mark => count ≤ mark

instance (count : Nat) (o : Overlay α) : (move : Move α) → Decidable (move.Spares count o)
  | .begin _ _ => .isTrue trivial
  | .finish _ | .abandon =>
    inferInstanceAs (Decidable (∀ index ∈ o.pending.head?, count ≤ index))
  | .rewind mark => inferInstanceAs (Decidable (count ≤ mark))

/-- No move of a run finishes or takes back one of the first `count` tokens. -/
def Spared (count : Nat) : Overlay α → List (Move α) → Prop
  | _, [] => True
  | o, move :: rest => move.Spares count o ∧ Spared count (o.play move) rest

instance decidableSpared (count : Nat) :
    (o : Overlay α) → (moves : List (Move α)) → Decidable (Spared count o moves)
  | _, [] => .isTrue trivial
  | o, move :: rest =>
    have := decidableSpared count (o.play move) rest
    inferInstanceAs (Decidable (move.Spares count o ∧ Spared count (o.play move) rest))

theorem Reachable.play {o : Overlay α} (h : o.Reachable) (move : Move α) :
    (o.play move).Reachable := by
  cases move with
  | begin label start => exact .begin label start h
  | finish stop => exact .finish stop h
  | abandon => exact .abandon h
  | rewind count => exact .rewind count h

theorem Reachable.playAll {o : Overlay α} (h : o.Reachable) (moves : List (Move α)) :
    (o.playAll moves).Reachable := by
  induction moves generalizing o with
  | nil => exact h
  | cons move rest ih => exact ih (h.play move)

/-- The tokens of the one overlay are the first of the other, and the pending tokens
among these are the same. -/
structure Keeps (base o : Overlay α) : Prop where
  tokens : base.tokens.toList <+: o.tokens.toList
  pending : o.pending.filter (· < base.count) = base.pending

namespace Keeps

variable {base o : Overlay α}

theorem refl (h : o.InRange) : Keeps o o where
  tokens := List.prefix_refl _
  pending := List.filter_eq_self.mpr fun index hmem => decide_eq_true (h index hmem)

theorem begin (h : Keeps base o) (label : α) (start : Nat) :
    Keeps base (o.begin label start) where
  tokens := by
    rw [Overlay.begin, Array.toList_push]
    exact h.tokens.trans (List.prefix_append _ _)
  pending := by
    have hle : base.count ≤ o.count := h.tokens.length_le
    rw [pending_begin, List.filter_cons_of_neg (by simpa using hle), h.pending]

theorem finish (h : Keeps base o) (stop : Nat)
    (hspares : ∀ index ∈ o.pending.head?, base.count ≤ index) :
    Keeps base (o.finish stop) := by
  obtain ⟨tokens, pending⟩ := o
  cases pending with
  | nil => exact h
  | cons index rest =>
    have hindex : base.count ≤ index := hspares index rfl
    refine ⟨?_, ?_⟩
    · rw [Overlay.finish, Array.toList_modify, List.modify_eq_take_drop]
      exact (List.prefix_take_iff.mpr ⟨h.tokens, hindex⟩).trans (List.prefix_append _ _)
    · have hpending := h.pending
      rwa [List.filter_cons_of_neg (by simpa using hindex)] at hpending

theorem shrink (h : base.tokens.toList <+: o.tokens.toList) {count : Nat}
    (hcount : base.count ≤ count) :
    base.tokens.toList <+: (o.tokens.shrink count).toList := by
  rw [Array.toList_shrink]
  exact List.prefix_take_iff.mpr ⟨h, hcount⟩

theorem abandon (h : Keeps base o)
    (hspares : ∀ index ∈ o.pending.head?, base.count ≤ index) : Keeps base o.abandon := by
  obtain ⟨tokens, pending⟩ := o
  cases pending with
  | nil => exact h
  | cons index rest =>
    have hindex : base.count ≤ index := hspares index rfl
    refine ⟨shrink h.tokens hindex, ?_⟩
    have hpending := h.pending
    rwa [List.filter_cons_of_neg (by simpa using hindex)] at hpending

theorem rewind (h : Keeps base o) {count : Nat} (hcount : base.count ≤ count) :
    Keeps base (o.rewind count) := by
  unfold Overlay.rewind
  split
  · refine ⟨shrink h.tokens hcount, ?_⟩
    rw [List.filter_filter, ← h.pending]
    refine List.filter_congr fun index _ => ?_
    simp
    omega
  · exact h

theorem play (h : Keeps base o) {move : Move α} (hspares : move.Spares base.count o) :
    Keeps base (o.play move) := by
  cases move with
  | begin label start => exact h.begin label start
  | finish stop => exact h.finish stop hspares
  | abandon => exact h.abandon hspares
  | rewind count => exact h.rewind hspares

theorem playAll {moves : List (Move α)} (h : Keeps base o)
    (hspared : Spared base.count o moves) : Keeps base (o.playAll moves) := by
  induction moves generalizing o with
  | nil => exact h
  | cons move rest ih => exact ih (h.play hspared.1) hspared.2

theorem tokens_eq {tokens : Array (Token α)} (h : base.tokens.toList <+: tokens.toList) :
    tokens.shrink base.count = base.tokens := by
  rw [← Array.toList_inj, Array.toList_shrink]
  exact (List.prefix_iff_eq_take.mp h).symm

/-- What is kept comes back with a rewind. -/
theorem rewound (h : Keeps base o) (hrange : o.InRange) : o.rewind base.count = base := by
  unfold Overlay.rewind
  split
  · rw [tokens_eq h.tokens, h.pending]
  · rename_i hge
    have htokens : o.tokens = base.tokens :=
      Array.toList_inj.mp (h.tokens.eq_of_length_le (Nat.le_of_not_lt hge)).symm
    have hall : o.pending.filter (· < base.count) = o.pending :=
      List.filter_eq_self.mpr fun index hmem =>
        decide_eq_true (Nat.lt_of_lt_of_le (hrange index hmem) (Nat.le_of_not_lt hge))
    show (⟨o.tokens, o.pending⟩ : Overlay α) = base
    rw [htokens, ← hall, h.pending]

/-- What was there when a token began comes back when it is abandoned. -/
theorem abandoned {label : α} {start : Nat} (h : Keeps (base.begin label start) o)
    (hstacked : o.Stacked) (hinnermost : o.pending.head? = some base.count) :
    o.abandon = base := by
  obtain ⟨tokens, pending⟩ := o
  cases pending with
  | nil => cases hinnermost
  | cons index rest =>
    obtain rfl : index = base.count := Option.some.inj hinnermost
    have htokens : base.tokens.toList <+: tokens.toList := by
      have hbegun := h.tokens
      rw [Overlay.begin, Array.toList_push] at hbegun
      exact (List.prefix_append _ _).trans hbegun
    have hpending : rest = base.pending := by
      -- no index further out is as high as that of the token itself
      have hbelow := (List.pairwise_cons.mp (List.pairwise_cons.mp hstacked).2).1
      have hall : rest.filter (· < base.count + 1) = rest :=
        List.filter_eq_self.mpr fun index hmem =>
          decide_eq_true (Nat.lt_succ_of_lt (hbelow index hmem))
      have hkept := h.pending
      rw [count_begin, pending_begin, List.filter_cons_of_pos (by simp), hall] at hkept
      exact (List.cons.inj hkept).2
    show (⟨tokens.shrink base.count, rest⟩ : Overlay α) = base
    rw [tokens_eq htokens, hpending]

end Keeps

/-- After any moves that neither finish nor take back a token of an overlay, a rewind to
its count gives it back. And after any moves that neither finish nor take back such a
token or one that has begun behind it, if that one is again the innermost, the overlay
comes back when it is abandoned. -/
theorem Reachable.rolled_back {t : Overlay α} (h : t.Reachable) :
    (∀ moves, Spared t.count t moves → (t.playAll moves).rewind t.count = t) ∧
      ∀ label start moves,
      Spared (t.begin label start).count (t.begin label start) moves →
        ((t.begin label start).playAll moves).pending.head? = some t.count →
          ((t.begin label start).playAll moves).abandon = t := by
  refine ⟨fun moves hspared => ?_, fun label start moves hspared hinnermost => ?_⟩
  · have hkeeps := (Keeps.refl h.inRange).playAll hspared
    exact hkeeps.rewound (h.playAll moves).inRange
  · have hbegun : (t.begin label start).Reachable := .begin label start h
    have hkeeps := (Keeps.refl hbegun.inRange).playAll hspared
    exact hkeeps.abandoned (hbegun.playAll moves).stacked hinnermost

/-- Tokens that begin and end in a pending one and are taken back one by one, first behind
a mark and then behind a token that is abandoned. -/
theorem rolled_back_interleaved :
    let t := ((empty.begin 'a' 0).begin 'b' 1).finish 2
    let moves : List (Move Char) :=
      [.begin 'c' 2, .begin 'd' 3, .finish 4, .begin 'e' 4, .rewind 4,
        .abandon, .begin 'f' 9, .begin 'g' 9, .abandon, .finish 5]
    let inside : List (Move Char) := [.begin 'c' 2, .begin 'd' 3, .rewind 4, .finish 5]
    let opened := t.begin 'x' 2
    t.Reachable ∧ t.pending = [0] ∧ Spared t.count t moves ∧ (t.playAll moves).count = 3 ∧
      (t.playAll moves).rewind t.count = t ∧ Spared opened.count opened inside ∧
      (opened.playAll inside).pending = [2, 0] ∧ (opened.playAll inside).count = 4 ∧
      (opened.playAll inside).abandon = t := by
  intro t moves inside opened
  have h : t.Reachable := .finish 2 (.begin 'b' 1 (.begin 'a' 0 .empty))
  have hspared : Spared t.count t moves := by decide +kernel
  have hinside : Spared opened.count opened inside := by decide +kernel
  have hpending : (opened.playAll inside).pending = [2, 0] := by decide +kernel
  have hinnermost : (opened.playAll inside).pending.head? = some t.count := by
    rw [hpending]
    rfl
  exact ⟨h, by decide +kernel, hspared, by decide +kernel,
    h.rolled_back.1 moves hspared, hinside, hpending, by decide +kernel,
    h.rolled_back.2 'x' 2 inside hinside hinnermost⟩

end RuleGraph.Overlay
