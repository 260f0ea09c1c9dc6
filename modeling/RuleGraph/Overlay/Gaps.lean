import RuleGraph.Overlay.Basic

/-!
# Filling the gaps of an overlay

The children of a token need not cover it. `Overlay.filled` adds a token for
every stretch that they leave open, so that the leaves below a token spell out
its text.

The work is done on trees. `forest` reads the nesting off the depths, from the
last token to the first: a token takes as children the trees at the front that
are deeper than itself. `Tree.filled` then goes along the children and keeps
track of how far they have come. A token without children is a leaf and is left
alone.
-/

namespace RuleGraph

inductive Tree (α : Type) where
  | node (token : Token α) (children : List (Tree α))

namespace Tree

variable {α : Type}

def token : Tree α → Token α
  | node t _ => t

/-- Puts a token in front of trees, as the parent of those that are deeper. -/
def graft (t : Token α) (trees : List (Tree α)) : List (Tree α) :=
  let isBelow := fun s : Tree α => t.depth < s.token.depth
  node t (trees.takeWhile isBelow) :: trees.dropWhile isBelow

def forest (tokens : List (Token α)) : List (Tree α) :=
  tokens.foldr graft []

/-- A leaf for a stretch of `t` that no child covers. -/
def gap (t : Token α) (start stop : Nat) : Tree α :=
  node ⟨t.label, start, stop, -(t.depth + 1)⟩ []

/-- The gap of `t` between two offsets, if there is room for one. -/
def gapBetween (t : Token α) (start stop : Nat) : List (Tree α) :=
  if start < stop then [gap t start stop] else []

mutual

def tokens : Tree α → List (Token α)
  | node t children => t :: listTokens children

def listTokens : List (Tree α) → List (Token α)
  | [] => []
  | tree :: rest => tokens tree ++ listTokens rest

end

mutual

def filled : Tree α → Tree α
  | node t [] => node t []
  | node t (child :: rest) => node t (filledList t t.start (child :: rest))

/-- The children of `t` with the gaps between them, where everything up to
`covered` needs no filling any more. -/
def filledList (t : Token α) (covered : Nat) : List (Tree α) → List (Tree α)
  | [] => gapBetween t covered t.stop
  | child :: rest =>
    gapBetween t covered child.token.start ++
      filled child :: filledList t (max covered child.token.stop) rest

end

end Tree

/-- The overlay with a token for every stretch that the children of a token
leave open. -/
def Overlay.filled {α : Type} (o : Overlay α) : Overlay α :=
  ⟨(Tree.listTokens ((Tree.forest o.tokens.toList).map Tree.filled)).toArray, []⟩

end RuleGraph
