import SchemaSql.Token

/-!
# Captured text — tokens written back as text

Clauses without a structure are kept as text.  Tokens are written one after the other; blanks
and comments between two of them become one space, except behind an opening and in front of
a closing parenthesis.
-/

namespace SchemaSql

/-- Text in the making. -/
structure CapturedText where
  /-- The characters so far, the last first. -/
  reversed : List Char := []
  /-- Whether blanks stand behind them. -/
  gap      : Bool := false
  deriving DecidableEq, Repr, Inhabited

namespace CapturedText

/-- Writes one more token.  Blanks in front of all text leave no gap. -/
def push (captured : CapturedText) : Token → CapturedText
  | .whitespace _ => { captured with gap := !captured.reversed.isEmpty }
  | token =>
    let spaced := captured.gap && captured.reversed.head? != some '(' && token != .rparen
    let before := if spaced then ' ' :: captured.reversed else captured.reversed
    ⟨token.text.toList.reverse ++ before, false⟩

/-- The text of a list of tokens. -/
def ofTokens (tokens : List Token) : String :=
  String.ofList (tokens.foldl push {}).reversed.reverse

end CapturedText

end SchemaSql
