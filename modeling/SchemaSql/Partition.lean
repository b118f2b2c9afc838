import SchemaSql.Expr.Printer

/-!
# Partitions

A partition is defined by the values it takes, which are kept as they are written.  A table is
partitioned by an expression or by columns.
-/

namespace SchemaSql

/-- ` =` where an equals sign is written, or nothing. -/
def equalsText (equals : Bool) : String := if equals then " =" else ""

/-- How the values of a partition bound it. -/
inductive PartitionBound where
  | lessThan | oneOf
  deriving DecidableEq, Repr, Inhabited

/-- The words in front of the values. -/
def PartitionBound.text : PartitionBound → String
  | .lessThan => "VALUES LESS THAN"
  | .oneOf => "VALUES IN"

/-- `[STORAGE] ENGINE [=] name`. -/
structure PartitionEngine where
  storage : Bool := false
  equals  : Bool := true
  name    : Ident
  deriving DecidableEq, Repr, Inhabited

/-- The text of the clause, with the space in front of it. -/
def PartitionEngine.text (engine : PartitionEngine) : String :=
  (if engine.storage then " STORAGE" else "") ++ " ENGINE" ++ equalsText engine.equals ++ " "
    ++ engine.name.text

/-- One partition of a table. -/
structure PartitionDefinition where
  name   : Ident
  bound  : Option PartitionBound := none
  values : List String := []
  engine : Option PartitionEngine := none
  deriving DecidableEq, Repr, Inhabited

namespace PartitionDefinition

/-- `VALUES LESS THAN (values)`. -/
def lessThan (partition : PartitionDefinition) (values : List String) : PartitionDefinition :=
  { partition with bound := some .lessThan, values }

/-- `VALUES IN (values)`. -/
def oneOf (partition : PartitionDefinition) (values : List String) : PartitionDefinition :=
  { partition with bound := some .oneOf, values }

/-- The pieces of a partition's text. -/
def chunks (partition : PartitionDefinition) : Text.Chunks :=
  ("PARTITION " ++ partition.name.text)
    :: (partition.bound.toList.map fun bound =>
        " " ++ bound.text ++ " (" ++ Text.commaSeparated partition.values ++ ")")
    ++ partition.engine.toList.map PartitionEngine.text

/-- The text of a partition. -/
def text (partition : PartitionDefinition) : String := Text.Chunks.text partition.chunks

/-- The pieces of a comma separated list of partitions. -/
def listChunks (partitions : List PartitionDefinition) : Text.Chunks :=
  Text.Chunks.separated ", " (partitions.map chunks)

end PartitionDefinition

/-- How rows are assigned to partitions. -/
inductive PartitionMethod where
  | range | list | hash | key
  deriving DecidableEq, Repr, Inhabited

/-- The text of a method. -/
def PartitionMethod.text : PartitionMethod → String
  | .range => "RANGE"
  | .list => "LIST"
  | .hash => "HASH"
  | .key => "KEY"

/-- What rows are assigned by. -/
inductive PartitionKey where
  | expression (e : Expr)
  /-- Columns, and whether the word `COLUMNS` stands in front of them. -/
  | columns (keyword : Bool) (names : List Ident)
  deriving DecidableEq, Repr, Inhabited

/-- The pieces of a partition key's text. -/
def PartitionKey.chunks : PartitionKey → Text.Chunks
  | .expression e => " (" :: e.chunks ++ [")"]
  | .columns keyword names =>
    [(if keyword then " COLUMNS(" else " (") ++ Text.commaSeparated (names.map Ident.text) ++ ")"]

/-- How a table is partitioned. -/
structure Partitioning where
  linear     : Bool := false
  method     : PartitionMethod
  key        : PartitionKey
  count      : Option Nat := none
  partitions : List PartitionDefinition := []
  deriving DecidableEq, Repr, Inhabited

namespace Partitioning

/-- The pieces of a partitioning's text. -/
def chunks (partitioning : Partitioning) : Text.Chunks :=
  ("PARTITION BY " ++ (if partitioning.linear then "LINEAR " else "") ++ partitioning.method.text)
    :: partitioning.key.chunks
    ++ (partitioning.count.toList.map fun n => " PARTITIONS " ++ toString n)
    ++ if partitioning.partitions.isEmpty then []
      else " (" :: PartitionDefinition.listChunks partitioning.partitions ++ [")"]

/-- The text of a partitioning. -/
def text (partitioning : Partitioning) : String := Text.Chunks.text partitioning.chunks

end Partitioning

end SchemaSql
