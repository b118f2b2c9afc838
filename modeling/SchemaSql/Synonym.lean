import SchemaSql.Ident
import SchemaSql.Text.Chunks

/-!
# CREATE SYNONYM
-/

namespace SchemaSql

/-- `CREATE [OR REPLACE] [PUBLIC] SYNONYM synonym FOR object`. -/
structure CreateSynonym where
  orReplace : Bool := false
  isPublic  : Bool := false
  synonym   : ObjectName
  object    : ObjectName
  deriving DecidableEq, Repr, Inhabited

namespace CreateSynonym

/-- The pieces of a statement's text. -/
def chunks (s : CreateSynonym) : Text.Chunks :=
  ["CREATE " ++ (if s.orReplace then "OR REPLACE " else "") ++ (if s.isPublic then "PUBLIC " else ""),
    "SYNONYM " ++ s.synonym.text ++ " FOR " ++ s.object.text]

/-- The text of a statement. -/
def text (s : CreateSynonym) : String := Text.Chunks.text s.chunks

end CreateSynonym

end SchemaSql
