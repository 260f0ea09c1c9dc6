/-!
# Overlays

An overlay says which stretches of an input were recognised as what. It is a
flat list of tokens, parents before children, and the nesting is in the depth of
each token alone: below a token lie the deeper ones that follow it, up to the
first that is not deeper.

An overlay is written while the input is read. `begin` adds a token inside the
ones that have begun and not ended, `finish` fixes where the innermost of them
ends, and `abandon` takes it back together with everything added since.
`rewind` goes back to an earlier number of tokens, which is how a matcher
forgets an attempt.

A negative level marks a token that was never recognised as such but fills a
stretch between others. Its depth is the absolute value. Levels are integers of
any size. So overlays with 2147483648 pending tokens and more, where a level no
longer fits into 32 bits with a sign, are left out of account.
-/

namespace RuleGraph

structure Token (α : Type) where
  label : α
  start : Nat
  stop : Nat
  level : Int
deriving DecidableEq, Repr

namespace Token

/-- How many tokens this one lies inside. -/
def depth {α : Type} (t : Token α) : Nat :=
  t.level.natAbs

/-- Whether the token only fills a stretch that nothing was recognised in. -/
def isGap {α : Type} (t : Token α) : Bool :=
  t.level < 0

end Token

/-- Tokens, and which of them have begun and not ended, innermost first. -/
structure Overlay (α : Type) where
  tokens : Array (Token α)
  pending : List Nat
deriving DecidableEq, Repr

namespace Overlay

variable {α : Type}

def empty : Overlay α := ⟨#[], []⟩

def count (o : Overlay α) : Nat := o.tokens.size

/-- Begins a token inside the pending ones. Until it is finished it ends where
it starts. -/
def begin (o : Overlay α) (label : α) (start : Nat) : Overlay α :=
  let index := o.count
  ⟨o.tokens.push ⟨label, start, start, o.pending.length⟩, index :: o.pending⟩

def finish (o : Overlay α) (stop : Nat) : Overlay α :=
  match o.pending with
  | [] => o
  | index :: rest => ⟨o.tokens.modify index fun t => { t with stop := stop }, rest⟩

/-- Takes back the innermost pending token and every token after it. -/
def abandon (o : Overlay α) : Overlay α :=
  match o.pending with
  | [] => o
  | index :: rest => ⟨o.tokens.shrink index, rest⟩

def rewind (o : Overlay α) (count : Nat) : Overlay α :=
  if count < o.count then ⟨o.tokens.shrink count, o.pending.filter (· < count)⟩ else o

/-- Takes back the last tokens as far as they reach beyond a position. -/
def trim (o : Overlay α) (position : Nat) : Overlay α :=
  o.rewind (o.tokens.toList.reverse.dropWhile fun t => position < t.stop).length

def isPending (o : Overlay α) (index : Nat) : Bool :=
  o.pending.contains index

/-- The tokens that come after an index and lie below it. -/
def below (tokens : List (Token α)) (depth : Nat) : List (Token α) :=
  tokens.takeWhile fun t => depth < t.depth

/-- The index that follows everything below a token, if there is such a
token. -/
def after? (o : Overlay α) (index : Nat) : Option Nat :=
  (o.tokens[index]?).map fun t =>
    index + 1 + (below (o.tokens.toList.drop (index + 1)) t.depth).length

def rootStop? (o : Overlay α) : Option Nat :=
  (o.tokens[0]?).map Token.stop

def map {β : Type} (f : α → β) (o : Overlay α) : Overlay β :=
  ⟨o.tokens.map fun t => ⟨f t.label, t.start, t.stop, t.level⟩, o.pending⟩

/-- The same overlay under other labels, unless one has no counterpart. -/
def tryMap {β ε : Type} (f : α → Except ε β) (o : Overlay α) : Except ε (Overlay β) := do
  let tokens ← o.tokens.toList.mapM fun t => do
    let label ← f t.label
    return (⟨label, t.start, t.stop, t.level⟩ : Token β)
  return ⟨tokens.toArray, o.pending⟩

end Overlay

end RuleGraph
