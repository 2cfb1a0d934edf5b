import Packrat.Grammar.Build

/-!
# The grammar of specifications

A specification is the text of a grammar: rules `Name <- expression ;`, with `#` comments to the end
of a line. The notation is itself described by a grammar, and specifications are read by the
ordinary parser.

* `Spec.definitions` — the rules of the notation.
* `Spec.notationGrammar` — the grammar that they make.
-/

namespace Packrat
namespace Spec

/-- Blanks and comments. -/
def ws : Expr := .reference "WS"

/-- An operand followed by an operator. -/
def suffixed (operator : String) : Expr := .seq [.reference "Suffix", ws, .lit operator]

/-- An operator followed by its operand. -/
def prefixed (operator : String) : Expr := .seq [.lit operator, ws, .reference "Prefix"]

/-- Any character that does not start one of the given texts. -/
def anyExcept (texts : List String) : Expr :=
  .seq [.notAhead (.choice (texts.map .lit)), .anyChar]

/-- The rules of the notation. -/
def definitions : List Definition :=
  [ ⟨"Grammar", .seq [ws, .plus (.seq [.reference "Rule", ws])]⟩,
    ⟨"Rule", .seq [.optional (.lit "~"), .reference "Identifier", ws, .lit "<-", ws,
      .reference "Expression", ws, .lit ";", ws]⟩,
    ⟨"Expression", .reference "Choice"⟩,
    ⟨"Choice", .seq [.reference "Sequence",
      .star (.seq [ws, .lit "/", ws, .reference "Sequence"])]⟩,
    ⟨"Sequence", .seq [.reference "Prefix", .star (.seq [ws, .reference "Prefix"])]⟩,
    ⟨"Prefix", .choice [prefixed "&", prefixed "!", prefixed "~", .reference "Suffix"]⟩,
    ⟨"Suffix", .choice [suffixed "*", suffixed "+", suffixed "?", .reference "Primary"]⟩,
    ⟨"Primary", .choice [.reference "Identifier", .reference "StringLiteral",
      .reference "CharLiteral", .reference "CharClass", .reference "AnyChar",
      .reference "Parens"]⟩,
    ⟨"Parens", .seq [.lit "(", ws, .optional (.reference "Expression"), ws, .lit ")"]⟩,
    ⟨"Identifier", .seq [.choice [.range 'a' 'z', .range 'A' 'Z', .char '_'],
      .star (.choice [.range 'a' 'z', .range 'A' 'Z', .range '0' '9', .char '_'])]⟩,
    ⟨"StringLiteral", .seq [.lit "\"",
      .star (.choice [.reference "EscapeSequence", anyExcept ["\"", "\\"]]), .lit "\""]⟩,
    ⟨"CharLiteral", .seq [.lit "'",
      .choice [.reference "EscapeSequence", anyExcept ["'", "\\"]], .lit "'"]⟩,
    ⟨"EscapeSequence", .seq [.lit "\\",
      .oneOf ['n', 'r', 't', '\\', '\x22', '\x27', '[', ']', '-']]⟩,
    ⟨"CharClass", .seq [.lit "[", .optional (.lit "^"),
      .plus (.choice [.reference "CharRange", .reference "CharClassChar"]), .lit "]"]⟩,
    ⟨"CharRange", .seq [.reference "CharClassChar", .lit "-", .reference "CharClassChar"]⟩,
    ⟨"CharClassChar", .choice [.reference "EscapeSequence", anyExcept ["]", "\\", "-"]]⟩,
    ⟨"AnyChar", .lit "."⟩,
    ⟨"~WS", .star (.choice [.oneOf [' ', '\t', '\n', '\r'], .reference "Comment"])⟩,
    ⟨"Comment", .seq [.lit "#", .star (.seq [.notAhead (.char '\n'), .anyChar]),
      .optional (.char '\n')]⟩ ]

/-- The grammar of specifications. -/
def notationGrammar : Except GrammarError Grammar := Grammar.build definitions

end Spec
end Packrat
