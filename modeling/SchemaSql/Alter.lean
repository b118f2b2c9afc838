import SchemaSql.Column
import SchemaSql.Constraint
import SchemaSql.Partition
import SchemaSql.Unicode.Uppercase

/-!
# ALTER TABLE

A statement that changes a table is a list of clauses.  `AlterClause` has one constructor per
form of clause; clauses that differ in a word only share one.  Every clause has an operation,
the name under which changes are reported.
-/

namespace SchemaSql

/-- What may happen to what depends on a dropped object. -/
inductive DropBehavior where
  | cascade | restrict
  deriving DecidableEq, Repr, Inhabited

/-- The text of a behaviour. -/
def DropBehavior.text : DropBehavior → String
  | .cascade => "CASCADE"
  | .restrict => "RESTRICT"

/-- The behaviour behind a space, or nothing. -/
def DropBehavior.trailer : Option DropBehavior → String
  | some behavior => " " ++ behavior.text
  | none => ""

/-- The kinds of named objects inside a table. -/
inductive RenameKind where
  | index | key | constraint
  deriving DecidableEq, Repr, Inhabited

/-- The text of the kind. -/
def RenameKind.text : RenameKind → String
  | .index => "INDEX"
  | .key => "KEY"
  | .constraint => "CONSTRAINT"

/-- The word for a constraint that is switched on or off. -/
inductive EnforcementKeyword where
  | constraint | check
  deriving DecidableEq, Repr, Inhabited

/-- The text of the word. -/
def EnforcementKeyword.text : EnforcementKeyword → String
  | .constraint => "CONSTRAINT"
  | .check => "CHECK"

/-- `name [=] value`, an option without a clause of its own. -/
structure TableOption where
  /-- The name in upper case. -/
  name   : String
  equals : Bool
  value  : Expr
  deriving DecidableEq, Repr, Inhabited

namespace TableOption

/-- The option with this name, whatever its case. -/
def of (name : String) (equals : Bool) (value : Expr) : TableOption :=
  ⟨Unicode.upper name, equals, value⟩

/-- The pieces of an option's text. -/
def chunks (option : TableOption) : Text.Chunks :=
  (option.name ++ equalsText option.equals ++ " ") :: option.value.chunks

/-- The text of an option. -/
def text (option : TableOption) : String := Text.Chunks.text option.chunks

end TableOption

/-- `COLLATE [=] name` behind a character set. -/
structure CharacterSetCollation where
  equals    : Bool
  collation : Ident
  deriving DecidableEq, Repr, Inhabited

/-- The text of the clause, with the space in front of it; nothing if there is none. -/
def CharacterSetCollation.trailer : Option CharacterSetCollation → String
  | some c => " COLLATE" ++ equalsText c.equals ++ " " ++ c.collation.text
  | none => ""

/-- The settings whose value is a name. -/
inductive NamedSetting where
  | lock | algorithm | engine
  deriving DecidableEq, Repr, Inhabited

/-- The text of a setting's word. -/
def NamedSetting.text : NamedSetting → String
  | .lock => "LOCK"
  | .algorithm => "ALGORITHM"
  | .engine => "ENGINE"

/-- What can be done to a list of partitions. -/
inductive PartitionCommand where
  | drop | truncate | analyze | check | optimize | rebuild | repair
  | discardTablespace | importTablespace
  deriving DecidableEq, Repr, Inhabited

namespace PartitionCommand

/-- The word in front of the partitions. -/
def verb : PartitionCommand → String
  | .drop => "DROP"
  | .truncate => "TRUNCATE"
  | .analyze => "ANALYZE"
  | .check => "CHECK"
  | .optimize => "OPTIMIZE"
  | .rebuild => "REBUILD"
  | .repair => "REPAIR"
  | .discardTablespace => "DISCARD"
  | .importTablespace => "IMPORT"

/-- The word behind the partitions, with the space in front of it. -/
def trailer : PartitionCommand → String
  | .discardTablespace | .importTablespace => " TABLESPACE"
  | _ => ""

end PartitionCommand

/-- A clause of `ALTER TABLE`. -/
inductive AlterClause where
  | addColumns (keyword : ColumnKeyword) (ifNotExists parenthesized : Bool)
      (columns : List ColumnDefinition)
  | addConstraint (constraint : TableConstraint)
  | addPartition (partitions : List PartitionDefinition)
  | alterColumn (keyword : ColumnKeyword) (name : Ident) (action : ColumnAction)
  | alterIndex (name : Ident) (visible : Bool)
  | alterConstraint (keyword : EnforcementKeyword) (name : Ident) (enforced : Bool)
  | dropColumn (keyword : ColumnKeyword) (ifExists : Bool) (name : Ident)
      (behavior : Option DropBehavior)
  | dropConstraint (ifExists : Bool) (name : Ident) (behavior : Option DropBehavior)
  | dropIndex (keyword : IndexKeyword) (name : Ident)
  | dropPrimaryKey
  | dropUnique (columns : List Ident)
  | dropForeignKey (name : Option Ident) (columns : List Ident)
  | modify (keyword : ColumnKeyword) (parenthesized : Bool) (columns : List ColumnDefinition)
  | change (keyword : ColumnKeyword) (oldName : Ident) (column : ColumnDefinition)
  | renameColumn (keyword : ColumnKeyword) (oldName newName : Ident)
  | renameObject (kind : RenameKind) (oldName newName : Ident)
  /-- `RENAME TO` or, with the flag, `RENAME AS`. -/
  | renameTable (asKeyword : Bool) (newName : ObjectName)
  | comment (equals : Bool) (text : Literal)
  | collate (default equals : Bool) (collation : Ident)
  /-- `[DEFAULT] CHARACTER SET` or, with the first flag, `CONVERT TO CHARACTER SET`. -/
  | convert (convertTo default equals : Bool) (charset : Ident)
      (collation : Option CharacterSetCollation)
  | setting (kind : NamedSetting) (equals : Bool) (value : Ident)
  | keyBlockSize (equals : Bool) (size : Nat)
  | force
  | tableOption (option : TableOption)
  | discardTablespace
  | importTablespace
  | disableKeys
  | enableKeys
  | onPartitions (command : PartitionCommand) (partitions : List Ident)
  | coalescePartition (count : Nat)
  | reorganizePartition (partitions : List Ident) (into : List PartitionDefinition)
  | exchangePartition (partition : Ident) (table : ObjectName) (validation : Option Bool)
  | removePartitioning
  | partitionBy (partitioning : Partitioning)
  /-- A clause without a structure, kept as it is written. -/
  | unspecific (text : String)
  deriving DecidableEq, Repr, Inhabited

/-- `ALTER TABLE [IF EXISTS] [ONLY] table clause, …`. -/
structure Alter where
  ifExists : Bool := false
  /-- `ONLY`: tables that inherit from this one stay as they are. -/
  only     : Bool := false
  table    : ObjectName
  clauses  : List AlterClause := []
  deriving DecidableEq, Repr, Inhabited

/-- Adds a clause at the end. -/
def Alter.withClause (alter : Alter) (clause : AlterClause) : Alter :=
  { alter with clauses := alter.clauses ++ [clause] }

namespace AlterClause

/-! ## The plain forms of common clauses -/

/-- `ADD COLUMN column`. -/
def ofNewColumn (column : ColumnDefinition) : AlterClause := .addColumns .column false false [column]

/-- `DROP COLUMN name`. -/
def ofDroppedColumn (name : Ident) : AlterClause := .dropColumn .column false name none

/-- `DROP CONSTRAINT name`. -/
def ofDroppedConstraint (name : Ident) : AlterClause := .dropConstraint false name none

/-- `RENAME COLUMN old TO new`. -/
def ofRenamedColumn (oldName newName : Ident) : AlterClause := .renameColumn .column oldName newName

/-- `COMMENT = 'text'`. -/
def ofComment (text : String) : AlterClause := .comment true (.singleQuoted text)

/-- `COLLATE = collation`. -/
def ofCollation (collation : Ident) : AlterClause := .collate false true collation

/-- `LOCK = value`, `ALGORITHM = value` or `ENGINE = value`. -/
def ofSetting (kind : NamedSetting) (value : Ident) : AlterClause := .setting kind true value

/-- `name = value`. -/
def ofTableOption (name : String) (value : Expr) : AlterClause :=
  .tableOption (TableOption.of name true value)

end AlterClause

end SchemaSql
