import RuleGraph.Grammar.Basic
import RuleGraph.Terse.Compile

/-!
# The grammar of the hosted notation

The hosted notation is described in the terse one. Its rules leave a token for
every part that has a meaning of its own. The first three are only included in
others, so they leave none.

Where the forms of the notation overlap, order decides. A range stands before a
single character, and a terminal before a string, so a quoted text of one
character is a character.
-/

namespace RuleGraph.Hosted

def metaLines : List String :=
  [ "apos = [\x7b#27\x7d]",
    "alpha = [\x7b'a'-'z'\x7d\x7b'A'-'Z'\x7d'_']",
    "alnum = [\\alpha\x7b'0'-'9'\x7d]",
    "grammar = . (member .)*",
    "member = comment | rule",
    "comment = '%' ~ '%'",
    "rule = name , '=' , selection",
    "name = '-'? \\alpha \\alnum*",
    "selection = sequence (, '|' , sequence)*",
    "sequence = element (, element)*",
    "element = (distinction | completion | group | option | terminal | string | ref)" ++
      " occurrence?",
    "distinction = '<'",
    "completion = '~'",
    "group = '(' . selection . ')' capture?",
    "option = '[' . selection . ']' capture?",
    "capture = '@' name",
    "terminal = ranges | figures | pattern",
    "ranges = not? (wildcard | letter | upper | lower | hex | octal | binary | digit" ++
      " | range | literal | whitespace | shortname)",
    "not = '^'",
    "wildcard = '$'",
    "letter = '\\a'",
    "upper = '\\u'",
    "lower = '\\l'",
    "hex = '\\x'",
    "octal = '\\o'",
    "binary = '\\b'",
    "digit = '\\d'",
    "whitespace = '\\s'",
    "shortname = '\\' ['tnr']",
    "range = literal '-' literal",
    "literal = symbol | code_point",
    "symbol = \\apos [\\apos]^ \\apos",
    "code_point = 'U+' [\x7b'0'-'9'\x7d\x7b'A'-'F'\x7d\x7b'a'-'f'\x7d]+",
    "figures = '\x7b' . ((ranges | name) .)* '\x7d' capture?",
    "pattern = gap | pad | indent | separator | wrap",
    "gap = ','",
    "pad = '.'",
    "indent = ';'",
    "separator = ':'",
    "wrap = '!'",
    "string = \\apos [\\apos]^* \\apos",
    "ref = name capture?",
    "occurrence = plus | star | qmark | '\x7b' min (to max?)? '\x7d'",
    "plus = '+'",
    "star = '*'",
    "qmark = '?'",
    "min = [\x7b'0'-'9'\x7d]+",
    "to = '-'",
    "max = [\x7b'0'-'9'\x7d]+" ]

def metaSource : Bytes :=
  metaLines.flatMap fun line => stringBytes line ++ [0x0A]

def metaRules : Except GrammarError (List Rule) :=
  Terse.compile Limits.usual [] metaSource

/-- The grammar of the hosted notation. -/
def metaGrammar : Grammar :=
  ⟨metaRules.toOption.getD []⟩

/-- The rule that a whole source is matched against. -/
def metaStart : String := "grammar"

end RuleGraph.Hosted
