import RuleGraph.Text.Ascii

/-!
# How often something may repeat

A bound has a least and a greatest count. The greatest word stands for "no
limit", so an unlimited repetition needs no constructor of its own. That makes
it a limit like any other, just one that no input reaches.
-/

namespace RuleGraph

/-- The least and the greatest number of repetitions. -/
structure Bound where
  least : Nat
  most : Nat
deriving DecidableEq, Repr

namespace Bound

/-- The greatest count of a repetition without limit. -/
def unlimited : Nat := maxWord

/-- A bound between two counts. A greatest count below the least one is raised
to it. -/
def between (least most : Nat) : Bound :=
  ⟨least, max most least⟩

def once : Bound := ⟨1, 1⟩
def optional : Bound := ⟨0, 1⟩
def star : Bound := ⟨0, unlimited⟩
def plus : Bound := ⟨1, unlimited⟩
def never : Bound := ⟨0, 0⟩

def isUnlimited (b : Bound) : Bool :=
  b.most == unlimited

def text (b : Bound) : List Char :=
  if b = once then []
  else if b = optional then ['?']
  else if b = star then ['*']
  else if b = plus then ['+']
  else
    let counts :=
      if b.least = b.most then decimal b.least
      else if b.isUnlimited then decimal b.least ++ ['-', '*']
      else decimal b.least ++ '-' :: decimal b.most
    "\x7b".toList ++ counts ++ "\x7d".toList

end Bound

end RuleGraph
