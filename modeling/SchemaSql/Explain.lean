import SchemaSql.Keyed
import SchemaSql.Query.Printer

/-!
# EXPLAIN and DESCRIBE

A statement that explains a query or describes a table.  Its options are settings: repeating
one changes its value in place.
-/

namespace SchemaSql

/-- The word that a statement starts with. -/
inductive ExplainKeyword where
  | explain | describe | desc
  deriving DecidableEq, Repr, Inhabited

/-- The text of the word. -/
def ExplainKeyword.text : ExplainKeyword → String
  | .explain => "EXPLAIN"
  | .describe => "DESCRIBE"
  | .desc => "DESC"

/-- The settings of an explanation. -/
inductive ExplainOptionKind where
  | analyze | verbose | costs | buffers | format | plan | planFor
  deriving DecidableEq, Repr, Inhabited

/-- The words of a setting. -/
def ExplainOptionKind.text : ExplainOptionKind → String
  | .analyze => "ANALYZE"
  | .verbose => "VERBOSE"
  | .costs => "COSTS"
  | .buffers => "BUFFERS"
  | .format => "FORMAT"
  | .plan => "PLAN"
  | .planFor => "PLAN FOR"

/-- A setting and its value. -/
structure ExplainOption where
  kind  : ExplainOptionKind
  value : Option String := none
  deriving DecidableEq, Repr, Inhabited

/-- The text of a setting. -/
def ExplainOption.text (option : ExplainOption) : String :=
  match option.value with
  | some value => option.kind.text ++ " " ++ value
  | none => option.kind.text

/-- What is explained. -/
inductive ExplainTarget where
  | table (name : ObjectName)
  | query (query : Query)
  deriving DecidableEq, Repr, Inhabited

/-- `EXPLAIN|DESCRIBE|DESC [options] target`. -/
structure Explain where
  keyword : ExplainKeyword
  options : List ExplainOption := []
  target  : ExplainTarget
  deriving DecidableEq, Repr, Inhabited

namespace Explain

/-- Sets an option, in the place of an earlier setting of its kind. -/
def addOption (explain : Explain) (option : ExplainOption) : Explain :=
  { explain with options := Keyed.upsert ExplainOption.kind option explain.options }

/-- The setting of a kind. -/
def option? (explain : Explain) (kind : ExplainOptionKind) : Option ExplainOption :=
  Keyed.find? ExplainOption.kind kind explain.options

/-- The pieces of a statement's text.  In front of a table the options are left out. -/
def chunks (explain : Explain) : Text.Chunks :=
  match explain.target with
  | .table name => [explain.keyword.text ++ " " ++ name.text]
  | .query query =>
    explain.keyword.text
      :: (explain.options.map fun option => " " ++ option.text)
      ++ " " :: query.chunks

/-- The text of a statement. -/
def text (explain : Explain) : String := Text.Chunks.text explain.chunks

end Explain

end SchemaSql
