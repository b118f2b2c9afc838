import SchemaSql.Datum
import SchemaSql.Token.Kind

/-!
# Data of tokens
-/

namespace SchemaSql

/-- A keyword is the text of its name. -/
instance : DataForm Keyword where
  toDatum keyword := .text keyword.name
  ofDatum?
    | .text name => Keyword.find? name
    | _ => none

/-- The keyword of a word, if it has one.  This is not null for a word that is no keyword. -/
structure WordKeyword where
  keyword? : Option Keyword
  deriving DecidableEq, Repr, Inhabited

instance : DataForm WordKeyword where
  toDatum k := .text (Keyword.label k.keyword?)
  ofDatum?
    | .text name =>
      if name = Keyword.label none then some ⟨none⟩
      else (Keyword.find? name).map fun keyword => ⟨some keyword⟩
    | _ => none

instance : DataForm Word where
  toDatum w := .record [("value", toDatum w.value), ("quote_style", toDatum w.quote),
    ("keyword", toDatum (WordKeyword.mk w.keyword))]
  ofDatum? d := do
    let keyword : WordKeyword ← d.get? "keyword"
    return ⟨← d.get? "value", ← d.get? "quote_style", keyword.keyword?⟩

instance : DataForm Whitespace where
  toDatum
    | .space => .text "Space"
    | .newline => .text "Newline"
    | .tab => .text "Tab"
    | .lineComment content opener => .case "SingleLineComment"
      (.record [("comment", toDatum content), ("prefix", toDatum opener)])
    | .blockComment content => .case "MultiLineComment" (toDatum content)
  ofDatum? d := do
    match ← d.case? with
    | ("Space", _) => return .space
    | ("Newline", _) => return .newline
    | ("Tab", _) => return .tab
    | ("SingleLineComment", c) => return .lineComment (← c.get? "comment") (← c.get? "prefix")
    | ("MultiLineComment", c) => .blockComment <$> ofDatum? c
    | _ => none

instance : DataForm Token where
  toDatum token := match token with
    | .word w => .case token.kind (toDatum w)
    | .number digits long => .case token.kind (toDatum (digits, long))
    | .char c => .case token.kind (toDatum c)
    | .singleQuoted value | .doubleQuoted value => .case token.kind (toDatum value)
    | .whitespace ws => .case token.kind (toDatum ws)
    | _ => .text token.kind
  ofDatum? d := do
    match ← d.case? with
    | ("Word", c) => .word <$> ofDatum? c
    | ("Number", c) =>
      let (digits, long) ← ofDatum? c
      return .number digits long
    | ("Char", c) => .char <$> ofDatum? c
    | ("SingleQuotedString", c) => .singleQuoted <$> ofDatum? c
    | ("DoubleQuotedString", c) => .doubleQuoted <$> ofDatum? c
    | ("Whitespace", c) => .whitespace <$> ofDatum? c
    | (name, _) => Token.plain.find? (·.kind = name)

instance : DataForm Location where
  toDatum loc := .record [("line", toDatum loc.line), ("column", toDatum loc.column)]
  ofDatum? d := return ⟨← d.get? "line", ← d.get? "column"⟩

end SchemaSql
