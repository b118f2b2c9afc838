import SchemaSql.Token

/-!
# Kinds of tokens

The names by which diagnostics and data tell the kinds of tokens apart.
-/

namespace SchemaSql.Token

/-- The name of a token's kind. -/
def kind : Token → String
  | .eof => "EOF"
  | .word _ => "Word"
  | .number _ _ => "Number"
  | .char _ => "Char"
  | .singleQuoted _ => "SingleQuotedString"
  | .doubleQuoted _ => "DoubleQuotedString"
  | .whitespace _ => "Whitespace"
  | .comma => "Comma"
  | .doubleEq => "DoubleEq"
  | .eq => "Eq"
  | .neq => "Neq"
  | .lt => "Lt"
  | .gt => "Gt"
  | .ltEq => "LtEq"
  | .gtEq => "GtEq"
  | .spaceship => "Spaceship"
  | .plus => "Plus"
  | .minus => "Minus"
  | .mul => "Mul"
  | .div => "Div"
  | .mod => "Mod"
  | .concat => "StringConcat"
  | .lparen => "LParen"
  | .rparen => "RParen"
  | .period => "Period"
  | .colon => "Colon"
  | .doubleColon => "DoubleColon"
  | .semicolon => "SemiColon"
  | .lbracket => "LBracket"
  | .rbracket => "RBracket"
  | .ampersand => "Ampersand"
  | .pipe => "Pipe"
  | .caret => "Caret"
  | .pipeArrow => "VerticalBarRightAngleBracket"

/-- The tokens that are told apart by their kind alone. -/
def plain : List Token :=
  [.eof, .comma, .doubleEq, .eq, .neq, .lt, .gt, .ltEq, .gtEq, .spaceship, .plus, .minus, .mul,
   .div, .mod, .concat, .lparen, .rparen, .period, .colon, .doubleColon, .semicolon, .lbracket,
   .rbracket, .ampersand, .pipe, .caret, .pipeArrow]

end SchemaSql.Token
