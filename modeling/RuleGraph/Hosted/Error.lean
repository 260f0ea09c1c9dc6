import RuleGraph.Grammar.Error
import RuleGraph.Hosted.Label

/-!
# Why tokens are not declarations

Tokens come as a flat list, and nothing about the list promises that it has the
shape of a hosted source. So every place where a part is looked for has its own
way to fail. Two of the failures are about the overlay and not about the
notation: a token that does not exist was asked for its place, and a token lies
outside of the source.
-/

namespace RuleGraph.Hosted

inductive TokenError
  | mismatch (expected actual : Label)
  | absent (expected : Label) (index : Nat)
  /-- A part that has no meaning where it stands. -/
  | unexpected (label : Label)
  | unknown (name : String)
  | illegible (label : Label) (index : Nat)
  /-- There is no token at an index, so nothing follows it. -/
  | noToken (index : Nat)
  /-- The token at an index does not lie in the source. -/
  | outside (index : Nat)
deriving DecidableEq, Repr

def TokenError.message : TokenError → String
  | mismatch expected actual =>
    "expected " ++ expected.text ++ " but got: " ++ actual.text
  | absent expected index =>
    "expected " ++ expected.text ++ " at token " ++ numberText index ++
      " but the tree ends"
  | unexpected label => "Unexpected token: " ++ label.text
  | unknown name => "Unknown token: " ++ name
  | illegible label index =>
    "Invalid text for " ++ label.text ++ " at token " ++ numberText index
  | noToken index => "No token: " ++ numberText index
  | outside index => "Token outside of the source: " ++ numberText index

end RuleGraph.Hosted
