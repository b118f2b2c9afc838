import SchemaSql.Text.Diagnostic
import SchemaSql.Token.Kind

/-!
# Tokens in diagnostics

Where a message must tell apart tokens that have the same text, it names the kind of the token
and shows its parts.
-/

namespace SchemaSql

/-- A truth value in a diagnostic. -/
def diagnosticBool (b : Bool) : String := if b then "true" else "false"

/-- A blank or comment in a diagnostic. -/
def Whitespace.diagnostic : Whitespace → String
  | .space => "Space"
  | .newline => "Newline"
  | .tab => "Tab"
  | .lineComment content opener =>
    "SingleLineComment \x7b comment: " ++ Text.diagnosticString content ++ ", prefix: "
      ++ Text.diagnosticString opener ++ " \x7d"
  | .blockComment content => "MultiLineComment(" ++ Text.diagnosticString content ++ ")"

/-- A word in a diagnostic. -/
def Word.diagnostic (w : Word) : String :=
  let quote := match w.quote with
    | some q => "Some(" ++ Text.diagnosticOfChar q ++ ")"
    | none => "None"
  "Word \x7b value: " ++ Text.diagnosticString w.value ++ ", quote_style: " ++ quote
    ++ ", keyword: " ++ Keyword.label w.keyword ++ " \x7d"

/-- A token in a diagnostic. -/
def Token.diagnostic (token : Token) : String :=
  let held := match token with
    | .word w => some w.diagnostic
    | .number digits long => some (Text.diagnosticString digits ++ ", " ++ diagnosticBool long)
    | .char c => some (Text.diagnosticOfChar c)
    | .singleQuoted value | .doubleQuoted value => some (Text.diagnosticString value)
    | .whitespace ws => some ws.diagnostic
    | _ => none
  match held with
  | some held => token.kind ++ "(" ++ held ++ ")"
  | none => token.kind

end SchemaSql
