import SchemaSql.Unicode.Printable

/-!
# Diagnostic text — values shown unambiguously in a message

A message shows a text between double quotes and a character between single quotes.  Control
characters have their letter, the quote in use and the backslash are escaped, and everything
that would not show is written by code point, as in `\u{301}`.
-/

namespace SchemaSql.Text

/-- A character inside a diagnostic that is enclosed by `quote`. -/
def diagnosticChar (quote : Char) (c : Char) : List Char :=
  if c = '\x00' then ['\\', '0']
  else if c = '\t' then ['\\', 't']
  else if c = '\r' then ['\\', 'r']
  else if c = '\n' then ['\\', 'n']
  else if c = quote || c = '\\' then ['\\', c]
  else if Unicode.isPrintable c then [c]
  else ['\\', 'u', '\x7b'] ++ Nat.toDigits 16 c.toNat ++ ['\x7d']

/-- A text as a diagnostic shows it, between double quotes. -/
def diagnosticString (s : String) : String :=
  String.ofList (['"'] ++ s.toList.flatMap (diagnosticChar '"') ++ ['"'])

/-- A character as a diagnostic shows it, between single quotes. -/
def diagnosticOfChar (c : Char) : String :=
  String.ofList (['\''] ++ diagnosticChar '\'' c ++ ['\''])

end SchemaSql.Text
