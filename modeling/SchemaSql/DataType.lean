import SchemaSql.Text.Chunks

/-!
# Data types — kept as they are written

A type is not resolved: its name keeps the spelling of the text, its arguments are the texts
between the parentheses.
-/

namespace SchemaSql

/-- The type of a column. -/
inductive DataType where
  /-- A name of one or more words and the arguments behind it, as in `decimal (10, 2)`. -/
  | plain (name : String) (arguments : List String)
  /-- A type of collections, as in `ARRAY<STRING (MAX)>`. -/
  | collection (name : String) (element : DataType) (arguments : List String)
  deriving DecidableEq, Repr, Inhabited

namespace DataType

/-- The arguments of a type in parentheses; nothing if there are none. -/
def argumentsText (arguments : List String) : String :=
  if arguments.isEmpty then "" else " (" ++ Text.commaSeparated arguments ++ ")"

/-- The text of a type. -/
def text : DataType → String
  | .plain name arguments => name ++ argumentsText arguments
  | .collection name element arguments =>
    name ++ "<" ++ element.text ++ ">" ++ argumentsText arguments

end DataType

end SchemaSql
