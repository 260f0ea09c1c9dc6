import RuleGraph.Grammar.Basic

/-!
# The printed forms of rules and grammars

A rule prints in the terse notation. Captures print as their name, so printing
stops at the rules that have a line of their own. What a completion runs up to
is not printed either, since it follows in the sequence.

A grammar has one line for every rule that has a name: the name, an equals sign
and the body.
-/

namespace RuleGraph

namespace Rule

def joined (separator : List Char) (texts : List (List Char)) : List Char :=
  (texts.intersperse separator).flatten

/-- A literal between quotes. Bytes that are no text print as replacement
characters. -/
def literalText (bytes : Bytes) : List Char :=
  '\'' :: escape (Utf8.lossy bytes) ++ ['\'']

mutual

def text : Rule → List Char
  | ⟨name, shape⟩ => shapeText name shape

def shapeText (name : String) : Shape Rule → List Char
  | .literal bytes => literalText bytes
  | .terminal set => set.text
  | .spacing contract => [contract.sign]
  | .iteration child bound => text child ++ bound.text
  | .sequence elements _ => '(' :: joined [' '] (texts elements) ++ [')']
  | .selection alternatives => '(' :: joined [' ', '|', ' '] (texts alternatives) ++ [')']
  | .completion _ => ['~']
  | .lookahead child => '(' :: text child ++ [')', '>']
  | .capture _ => name.toList
  | .decision => ['<']
  | .reference target => target.toList

def texts : List Rule → List (List Char)
  | [] => []
  | r :: rest => text r :: texts rest

end

end Rule

namespace Grammar

def ruleLine (r : Rule) : List Char :=
  r.name.toList ++ [' ', '=', ' '] ++ r.body.text ++ ['\n']

def text (g : Grammar) : List Char :=
  (g.rules.filter fun r => r.name != "").flatMap ruleLine

end Grammar

end RuleGraph
