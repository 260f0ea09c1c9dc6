import RuleGraph.Hosted.Declarations
import RuleGraph.Hosted.MetaGrammar
import RuleGraph.Matching.Run

/-!
# Reading a hosted source

A hosted source is matched as a whole against the grammar of the notation. The
tokens that this leaves carry names. What is built from them goes by kinds, so
the names are looked up once and for all.

A hosted source fails while it is matched, because its tokens have the wrong
shape, or because the rules that come out make no grammar.
-/

namespace RuleGraph

def Matching.Failure.message : Matching.Failure → String
  | notFound name => "Missing rule: " ++ name
  | noMatch position => "No match, furthest position: " ++ numberText position
  | tooDeep limit => "Recursion deeper than " ++ numberText limit ++ " rules"

inductive Error
  | grammar (cause : GrammarError)
  | tokens (cause : Hosted.TokenError)
  | matching (cause : Matching.Failure)
deriving DecidableEq, Repr

def Error.message : Error → String
  | grammar cause => cause.message
  | tokens cause => cause.message
  | matching cause => cause.message

namespace Hosted

def labelOf (name : String) : Except TokenError Label :=
  match Label.ofText? name with
  | some label => .ok label
  | none => .error (.unknown name)

def labelled (p : Parse String) : Except TokenError (Parse Label) := do
  let overlay ← p.overlay.tryMap labelOf
  return ⟨p.source, overlay, p.stop⟩

def parse (source : Bytes) : Except Error (Parse Label) := do
  let p ← (metaGrammar.matchWith Matching.usualLimit metaStart source).mapError .matching
  if p.isComplete then (labelled p).mapError .tokens
  else .error (.matching (.noMatch p.stop))

def rules (source : Bytes) : Except Error (List Rule) := do
  let p ← parse source
  (rulesOf p).mapError .tokens

end Hosted

end RuleGraph
