/-!
# Quoting — how a text is written between quotes

The text of a literal may come from a lexer that decoded it or from one that kept it as
written, so a quote in it may already be doubled or stand behind a backslash.  Escaping leaves
those two alone and doubles a quote that stands for itself; escaping twice is escaping once.
-/

namespace SchemaSql.Text

/-- Writes `cs` for use between two `quote`s, where `prev` is the character before them.  A
    quote behind a backslash is written once; any other quote is written twice, together with
    a second quote that follows it. -/
def escapeFrom (quote : Char) : (prev : Char) → List Char → List Char
  | _, [] => []
  | prev, [c] => if c = quote ∧ prev ≠ '\\' then [c, c] else [c]
  | prev, c :: d :: rest =>
    if c = quote ∧ prev ≠ '\\' then
      if d = quote then c :: c :: escapeFrom quote c rest
      else c :: c :: escapeFrom quote c (d :: rest)
    else c :: escapeFrom quote c (d :: rest)

/-- Writes a text for use between two `quote`s. -/
def escape (quote : Char) (s : String) : String :=
  String.ofList (escapeFrom quote '\x00' s.toList)

/-- A text between two quotes, escaped. -/
def enclose (quote : Char) (s : String) : String :=
  quote.toString ++ escape quote s ++ quote.toString

end SchemaSql.Text
