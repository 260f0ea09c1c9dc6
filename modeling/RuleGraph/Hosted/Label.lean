/-!
# The parts of a hosted source

The labels that the grammar of the hosted notation gives to the parts of a
source. Their texts are the names of its rules, so `Label.ofText?` leads from
the names that matching leaves behind to kinds that can be told apart.
-/

namespace RuleGraph.Hosted

inductive Label
  | grammar | member | comment | rule | name
  | selection | sequence | element
  | distinction | completion | group | option | capture
  | terminal | ranges | not
  | wildcard | letter | upper | lower | hex | octal | binary | digit
  | whitespace | shortname
  | range | literal | symbol | codePoint
  | figures
  | pattern | gap | pad | indent | separator | wrap
  | string | ref
  | occurrence | plus | star | qmark | least | upTo | most
deriving DecidableEq, Repr

namespace Label

def text : Label → String
  | grammar => "grammar" | member => "member" | comment => "comment" | rule => "rule"
  | name => "name" | selection => "selection" | sequence => "sequence"
  | element => "element"
  | distinction => "distinction" | completion => "completion" | group => "group"
  | option => "option" | capture => "capture" | terminal => "terminal"
  | ranges => "ranges"
  | not => "not" | wildcard => "wildcard" | letter => "letter" | upper => "upper"
  | lower => "lower" | hex => "hex" | octal => "octal" | binary => "binary"
  | digit => "digit"
  | whitespace => "whitespace" | shortname => "shortname" | range => "range"
  | literal => "literal" | symbol => "symbol" | codePoint => "code_point"
  | figures => "figures" | pattern => "pattern" | gap => "gap" | pad => "pad"
  | indent => "indent" | separator => "separator" | wrap => "wrap" | string => "string"
  | ref => "ref" | occurrence => "occurrence" | plus => "plus" | star => "star"
  | qmark => "qmark" | least => "min" | upTo => "to" | most => "max"

def all : List Label :=
  [grammar, member, comment, rule, name, selection, sequence, element,
    distinction, completion, group, option, capture, terminal, ranges, not, wildcard,
    letter, upper, lower, hex, octal, binary, digit, whitespace, shortname, range,
    literal, symbol, codePoint, figures, pattern, gap, pad, indent, separator, wrap,
    string, ref, occurrence, plus, star, qmark, least, upTo, most]

def ofText? (name : String) : Option Label :=
  all.find? (·.text == name)

end Label

end RuleGraph.Hosted
