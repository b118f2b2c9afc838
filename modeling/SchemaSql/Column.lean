import SchemaSql.DataType
import SchemaSql.Expr.Printer

/-!
# Columns — definitions and changes of a single column

What follows the type of a column is kept as it is written: each word, literal or group in
parentheses is one entry of the column's specification.
-/

namespace SchemaSql

/-- The word `COLUMN` or `COLUMNS` in front of a column, or neither. -/
inductive ColumnKeyword where
  | none | column | columns
  deriving DecidableEq, Repr, Inhabited

/-- The keyword and the space behind it. -/
def ColumnKeyword.lead : ColumnKeyword → String
  | .none => ""
  | .column => "COLUMN "
  | .columns => "COLUMNS "

/-- A column with its type and specification, as `ADD`, `MODIFY` and `CHANGE` take it. -/
structure ColumnDefinition where
  /-- `COLUMN` in front of an item of a list in parentheses. -/
  keyword  : ColumnKeyword := .none
  name     : Ident
  dataType : Option DataType := none
  specs    : List String := []
  deriving DecidableEq, Repr, Inhabited

namespace ColumnDefinition

/-- The pieces of a column definition's text. -/
def chunks (column : ColumnDefinition) : Text.Chunks :=
  (column.keyword.lead ++ column.name.text)
    :: (column.dataType.toList.map fun t => " " ++ t.text)
    ++ column.specs.map (" " ++ ·)

/-- The text of a column definition. -/
def text (column : ColumnDefinition) : String := Text.Chunks.text column.chunks

end ColumnDefinition

/-- What `ALTER COLUMN` does to a column. -/
inductive ColumnAction where
  /-- `TYPE t`, or `SET DATA TYPE t` with the words in front. -/
  | setDataType (dataType : DataType) (setData : Bool)
  | setDefault (value : Expr)
  | dropDefault
  | setNotNull
  | dropNotNull
  /-- `SET VISIBLE` or `SET INVISIBLE`. -/
  | setVisible (visible : Bool)
  /-- `SET OPTIONS` with the group in parentheses as it is written. -/
  | setOptions (options : String)
  deriving DecidableEq, Repr, Inhabited

/-- `VISIBLE` or `INVISIBLE`. -/
def visibility (visible : Bool) : String := if visible then "VISIBLE" else "INVISIBLE"

/-- The pieces of an action's text. -/
def ColumnAction.chunks : ColumnAction → Text.Chunks
  | .setDataType dataType setData => [(if setData then "SET DATA " else "") ++ "TYPE " ++ dataType.text]
  | .setDefault value => "SET DEFAULT " :: value.chunks
  | .dropDefault => ["DROP DEFAULT"]
  | .setNotNull => ["SET NOT NULL"]
  | .dropNotNull => ["DROP NOT NULL"]
  | .setVisible visible => ["SET " ++ visibility visible]
  | .setOptions options => ["SET OPTIONS " ++ options]

end SchemaSql
