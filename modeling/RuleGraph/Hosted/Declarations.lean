import RuleGraph.Hosted.Classes
import RuleGraph.Rule.Basic

/-!
# The rules of a hosted source

The tokens of a source are gone through part by part, and each declaration
becomes a rule. The notation nests through groups and options only, which hold a
selection again, so `selection` is the one recursive function. It recurses on a
bound for the number of tokens that are left. Every selection begins behind the
token of the one around it, so the bound is never what ends the recursion. With
no tokens left there is no selection to be found anyway.
-/

namespace RuleGraph.Hosted

inductive Piece
  | rule (r : Rule)
  /-- The elements from here on are set apart. -/
  | cut

def occurrence (c : Context) (t : Token Label) (rest : Place) : Built Bound := do
  let (part, after) ← c.expect .least rest
  match part.label with
  | .plus => return Bound.plus
  | .star => return Bound.star
  | .qmark => return Bound.optional
  | .least =>
    let least ← c.number part after
    match sibling? t .upTo part after with
    | none => return Bound.between least least
    | some (sign, after) =>
      match sibling? t .most sign after with
      | none => return Bound.between least Bound.unlimited
      | some (part, after) =>
        let most ← c.number part after
        return Bound.between least most
  | label => .error (.unexpected label)

/-- Names a rule if a capture follows the given part of `parent`. -/
def captured (c : Context) (parent part : Token Label) (after : Place) (r : Rule) :
    Built Rule :=
  match sibling? parent .capture part after with
  | none => .ok r
  | some (_, rest) => do
    let (_, _, name) ← c.name rest
    return r.named name

def reference (c : Context) (t : Token Label) (rest : Place) : Built Rule := do
  let (part, after, name) ← c.name rest
  captured c t part after (Rule.reference name)

def spacing (c : Context) (p : Place) : Built Spacing := do
  let (_, rest) ← c.check .pattern p
  let (part, _) ← c.expect .gap rest
  match part.label with
  | .gap => return .mayIndent
  | .pad => return .mayBreak
  | .indent => return .mustIndent
  | .separator => return .mustSeparate
  | .wrap => return .mustWrap
  | label => .error (.unexpected label)

/-- One of the figures: a set, or the quiet name of a rule. -/
def figure (c : Context) (part : Token Label × Place) : Built (CharSet ⊕ String) := do
  let (t, rest) := part
  match t.label with
  | .ranges =>
    let set ← ranges c (t :: rest)
    return .inl set
  | .name =>
    let name := String.ofList (← c.text t rest)
    return .inr (if isQuiet name then name else quiet name)
  | label => .error (.unexpected label)

/-- The rule that figures amount to. The sets become one terminal, which is
tried after the rules. -/
def figuresRule (figures : List (CharSet ⊕ String)) : Rule :=
  let references := figures.filterMap fun f => (f.getRight?).map Rule.reference
  let terminals :=
    match figures.filterMap Sum.getLeft? with
    | [] => []
    | set :: sets => [Rule.terminal (sets.foldl CharSet.union set)]
  match references ++ terminals with
  | [] => Rule.terminal CharSet.empty
  | [r] => r
  | rs => Rule.selection rs

def figures (c : Context) (p : Place) : Built Rule := do
  let (t, rest) ← c.check .figures p
  let (entries, place) := parts (fun s => inside t s && s.label != .capture) none rest
  let r := figuresRule (← entries.mapM (figure c))
  match place with
  | [] => return r
  | next :: rest =>
    if inside t next && next.label = .capture then
      let (_, _, name) ← c.name rest
      return r.named name
    else return r

def terminal (c : Context) (rest : Place) : Built Rule := do
  let (part, _) ← c.expect .ranges rest
  match part.label with
  | .ranges => return Rule.terminal (← ranges c rest)
  | .figures => figures c rest
  | .pattern => return Rule.spacing (← spacing c rest)
  | label => .error (.unexpected label)

/-- A terminal of a single character is a literal. -/
def simplified (r : Rule) : Rule :=
  match r.shape with
  | .terminal set =>
    match set.single? with
    | some code => if code.isValidChar then Rule.symbol (Char.ofNat code) else r
    | none => r
  | _ => r

def unquoted? : List Char → Option (List Char)
  | '\'' :: rest => if rest.getLast? = some '\'' then some rest.dropLast else none
  | _ => none

/-- How often an element with this form may repeat. -/
def boundOf (c : Context) (t form : Token Label) (after : Place) : Built Bound :=
  match sibling? t .occurrence form after with
  | some (part, rest) => occurrence c part rest
  | none => .ok Bound.once

/-- What stands in a group or an option, where `inner` builds the selections in
it. -/
def nested (c : Context) (inner : Place → Built Rule) (form : Token Label)
    (after : Place) :
    Built Rule := do
  let r ← inner after
  match after with
  | [] => return r
  | part :: rest => captured c form part rest r

/-- The element of a form that may repeat within a bound. -/
def pieceOf (c : Context) (inner : Place → Built Rule) (bound : Bound)
    (form : Token Label) (after : Place) : Built Piece :=
  match form.label with
  | .distinction => return .cut
  | .completion => return .rule Rule.completion
  | .group => return .rule ((← nested c inner form after).repeated bound)
  | .option => return .rule ((← nested c inner form after).repeated Bound.optional)
  | .terminal => return .rule ((simplified (← terminal c after)).repeated bound)
  | .string => do
    match unquoted? (← c.text form after) with
    | some text => return .rule ((Rule.string text).repeated bound)
    | none => .error (c.illegible form after)
  | .ref => return .rule ((← reference c form after).repeated bound)
  | label => .error (.unexpected label)

/-- An element, where `inner` builds the selections in it. -/
def element (c : Context) (inner : Place → Built Rule) (t : Token Label) (rest : Place) :
    Built Piece :=
  match rest with
  | [] => .error (.noToken c.count)
  | form :: after => do
    let bound ← boundOf c t form after
    pieceOf c inner bound form after

/-- Adds what an element contributes. The last cut counts. -/
def collect : List Rule × Option Nat → Piece → List Rule × Option Nat
  | (elements, cut), .rule r => (elements ++ [r], cut)
  | (elements, _), .cut => (elements, some elements.length)

def sequenceRule (pieces : List Piece) : Rule :=
  match pieces.foldl collect ([], none) with
  | ([r], _) => r
  | (elements, cut) => Rule.sequenceCut elements cut

/-- A sequence, where `inner` builds the selections in it. -/
def sequence (c : Context) (inner : Place → Built Rule) (t : Token Label) (rest : Place) :
    Built Rule := do
  let pieces ← (partsOf t .element rest).mapM fun (t, rest) => element c inner t rest
  return sequenceRule pieces

/-- The selection that must be at a place from which `room` tokens are left. -/
def selection (c : Context) : Nat → Place → Built Rule
  | 0, _ => .error (.absent .selection c.count)
  | room + 1, p => do
    let (t, rest) ← c.check .selection p
    let alternatives ←
      (partsOf t .sequence rest).mapM fun (t, rest) =>
        sequence c (selection c room) t rest
    match alternatives with
    | [] => .error (.absent .sequence (c.index p + 1))
    | [r] => return r
    | rs => return Rule.selection rs

def declaration (c : Context) (p : Place) : Built Rule := do
  let (_, rest) ← c.check .rule p
  let (t, after, name) ← c.name rest
  let r ← selection c p.length (behind t after)
  return r.named name

/-- What a member declares whose parts are at a place: nothing if it is a
comment. -/
def declared (c : Context) : Place → Built (Option Rule)
  | [] => return none
  | t :: rest =>
    if t.label = .rule then some <$> declaration c (t :: rest) else return none

/-- The declarations from a place on. While `below` is set, everything deeper
belongs to the last member. -/
def declarations (c : Context) : Option Nat → Place → Built (List Rule)
  | _, [] => .ok []
  | below, t :: rest =>
    if below.any (· < t.depth) then declarations c below rest
    else
      match t.label with
      | .grammar => declarations c none rest
      | .member => do
        let rule ← declared c rest
        let others ← declarations c (some t.depth) rest
        return rule.toList ++ others
      | label => .error (.unexpected label)

def rulesOf (p : Parse Label) : Built (List Rule) :=
  let tokens := p.overlay.tokens.toList
  declarations ⟨p.source, tokens.length⟩ none tokens

end RuleGraph.Hosted
