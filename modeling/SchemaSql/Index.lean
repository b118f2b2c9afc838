import SchemaSql.Ident
import SchemaSql.Text.Chunks

/-!
# Indexes

The definition of an index: its kind, its columns, the options behind them as they are
written, and the states that a constraint may be in.
-/

namespace SchemaSql

/-- An order of values: `ASC` or `DESC`. -/
inductive Direction where
  | ascending | descending
  deriving DecidableEq, Repr, Inhabited

/-- The direction behind a space, or nothing. -/
def Direction.trailer : Option Direction → String
  | some .ascending => " ASC"
  | some .descending => " DESC"
  | none => ""

/-- What an index is for. -/
inductive IndexKind where
  | plain | primary | unique | fulltext | spatial
  deriving DecidableEq, Repr, Inhabited

/-- `INDEX` or `KEY`, which mean the same. -/
inductive IndexKeyword where
  | index | key
  deriving DecidableEq, Repr, Inhabited

/-- The text of the keyword. -/
def IndexKeyword.text : IndexKeyword → String
  | .index => "INDEX"
  | .key => "KEY"

/-- A column of an index, perhaps only a part of its length: `name (10) DESC`. -/
structure IndexColumn where
  name      : Ident
  length    : Option String := none
  direction : Option Direction := none
  deriving DecidableEq, Repr, Inhabited

/-- The text of a column of an index. -/
def IndexColumn.text (column : IndexColumn) : String :=
  let length := match column.length with
    | some n => "(" ++ n ++ ")"
    | none => ""
  column.name.text ++ length ++ Direction.trailer column.direction

/-- When and whether a constraint is checked. -/
inductive ConstraintState where
  | deferrable | notDeferrable | initiallyDeferred | initiallyImmediate
  | enable | disable | validate | noValidate
  deriving DecidableEq, Repr, Inhabited

/-- The text of a state. -/
def ConstraintState.text : ConstraintState → String
  | .deferrable => "DEFERRABLE"
  | .notDeferrable => "NOT DEFERRABLE"
  | .initiallyDeferred => "INITIALLY DEFERRED"
  | .initiallyImmediate => "INITIALLY IMMEDIATE"
  | .enable => "ENABLE"
  | .disable => "DISABLE"
  | .validate => "VALIDATE"
  | .noValidate => "NOVALIDATE"

/-- An index. -/
structure Index where
  kind    : IndexKind
  keyword : Option IndexKeyword := none
  name    : Option Ident := none
  /-- The method that `USING` names in front of the columns. -/
  method  : Option Ident := none
  columns : List IndexColumn := []
  /-- The options behind the columns, one entry each. -/
  specs   : List String := []
  states  : List ConstraintState := []
  deriving DecidableEq, Repr, Inhabited

namespace Index

/-- The words an index starts with. -/
def head (index : Index) : String :=
  let keyword := match index.keyword with
    | some k => " " ++ k.text
    | none => ""
  match index.kind with
  | .plain => (index.keyword.getD .index).text
  | .primary => "PRIMARY KEY"
  | .unique => "UNIQUE" ++ keyword
  | .fulltext => "FULLTEXT" ++ keyword
  | .spatial => "SPATIAL" ++ keyword

/-- Whether the columns stand directly behind the name: they do in a named text or spatial
    index. -/
def abutsColumns (index : Index) : Bool :=
  index.name.isSome && (index.kind == .fulltext || index.kind == .spatial)

/-- The columns in parentheses; nothing if there are none. -/
def columnsText (index : Index) : String :=
  if index.columns.isEmpty then ""
  else (if index.abutsColumns then "" else " ")
    ++ "(" ++ Text.commaSeparated (index.columns.map IndexColumn.text) ++ ")"

/-- The pieces of an index's text. -/
def chunks (index : Index) : Text.Chunks :=
  index.head
    :: (index.name.toList.map fun name => " " ++ name.text)
    ++ (index.method.toList.map fun method => " USING " ++ method.text)
    ++ [index.columnsText]
    ++ index.specs.map (" " ++ ·)
    ++ index.states.map fun state => " " ++ state.text

/-- The text of an index. -/
def text (index : Index) : String := Text.Chunks.text index.chunks

/-- The names of the indexed columns. -/
def columnNames (index : Index) : List String := index.columns.map fun column => column.name.value

end Index

end SchemaSql
