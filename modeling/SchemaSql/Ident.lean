import SchemaSql.Token

/-!
# Identifiers and object names

An identifier keeps the quotes it was written with, so that printing it names the same thing.
An object name is a path of identifiers: schema, table, column.
-/

namespace SchemaSql

/-- A name, and the quote it stands in. -/
structure Ident where
  value : String
  quote : Option Char := none
  deriving DecidableEq, Repr, Inhabited

namespace Ident

/-- The identifier that a word names. -/
def ofWord (w : Word) : Ident := ⟨w.value, w.quote⟩

/-- The text of an identifier.  Between quotes that are doubled inside, the name is escaped;
    between brackets it stands as it is. -/
def text (ident : Ident) : String :=
  match ident.quote with
  | none => ident.value
  | some q =>
    if q = '"' ∨ q = '\'' ∨ q = '\x60' then Text.enclose q ident.value
    else q.toString ++ ident.value ++ (closingQuote q).toString

end Ident

/-- The name of a table or another object, such as `db.schema.table`. -/
structure ObjectName where
  parts : List Ident
  deriving DecidableEq, Repr, Inhabited

namespace ObjectName

/-- The name of one part without quotes. -/
def simple (name : String) : ObjectName := ⟨[{ value := name }]⟩

/-- The parts with periods between them. -/
def text (name : ObjectName) : String := ".".intercalate (name.parts.map Ident.text)

end ObjectName

end SchemaSql
