import SchemaSql.Expr.Printer
import SchemaSql.Index

/-!
# Queries

A query is a `SELECT` or a bare `FROM`, and any number of pipe operators behind it, each of
which works on the rows that the query has so far.
-/

namespace SchemaSql

/-- A table and the name it goes by. -/
structure TableRef where
  name   : ObjectName
  /-- The name behind `AS`. -/
  asName : Option Ident := none
  deriving DecidableEq, Repr, Inhabited

/-- The text of a table reference. -/
def TableRef.text (table : TableRef) : String :=
  match table.asName with
  | some asName => table.name.text ++ " AS " ++ asName.text
  | none => table.name.text

/-- One column of a result. -/
inductive SelectItem where
  | unnamed (e : Expr)
  | aliased (e : Expr) (asName : Ident)
  /-- `*`, all columns. -/
  | wildcard
  deriving DecidableEq, Repr, Inhabited

/-- `SELECT [DISTINCT] items [FROM table] [WHERE selection]`. -/
structure Select where
  distinct   : Bool := false
  projection : List SelectItem
  source     : Option TableRef := none
  selection  : Option Expr := none
  deriving DecidableEq, Repr, Inhabited

/-- What a query starts with. -/
inductive QueryBody where
  | select (s : Select)
  | «from» (table : TableRef)
  deriving DecidableEq, Repr, Inhabited

/-- An expression that rows are sorted by. -/
structure OrderItem where
  expr      : Expr
  direction : Option Direction := none
  deriving DecidableEq, Repr, Inhabited

/-- A column and its new name. -/
structure Renaming where
  name    : Ident
  newName : Ident
  deriving DecidableEq, Repr, Inhabited

/-- The text of a renaming. -/
def Renaming.text (r : Renaming) : String := r.name.text ++ " AS " ++ r.newName.text

/-- An operator behind `|>`. -/
inductive PipeOperator where
  | «where» (condition : Expr)
  | select (items : List SelectItem)
  | extend (items : List SelectItem)
  | drop (columns : List Ident)
  | «as» (asName : Ident)
  | limit (count : Expr) (offset : Option Expr)
  | orderBy (items : List OrderItem)
  | rename (renamings : List Renaming)
  | aggregate (items groupBy : List SelectItem)
  deriving DecidableEq, Repr, Inhabited

/-- A query. -/
structure Query where
  body  : QueryBody
  pipes : List PipeOperator := []
  deriving DecidableEq, Repr, Inhabited

/-- Adds an operator at the end. -/
def Query.withPipe (query : Query) (pipe : PipeOperator) : Query :=
  { query with pipes := query.pipes ++ [pipe] }

end SchemaSql
