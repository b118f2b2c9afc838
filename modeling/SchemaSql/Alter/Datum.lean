import SchemaSql.Alter.Operation
import SchemaSql.Column.Datum
import SchemaSql.Constraint.Datum
import SchemaSql.Partition.Datum

/-!
# Data of ALTER TABLE
-/

namespace SchemaSql

instance : Named DropBehavior where
  names := [(.cascade, "Cascade"), (.restrict, "Restrict")]

instance : Named RenameKind where
  names := [(.index, "Index"), (.key, "Key"), (.constraint, "Constraint")]

instance : Named EnforcementKeyword where
  names := [(.constraint, "Constraint"), (.check, "Check")]

instance : Named PartitionCommand where
  names := [(.drop, "DropPartition"), (.truncate, "TruncatePartition"),
    (.analyze, "AnalyzePartition"), (.check, "CheckPartition"), (.optimize, "OptimizePartition"),
    (.rebuild, "RebuildPartition"), (.repair, "RepairPartition"),
    (.discardTablespace, "DiscardPartition"), (.importTablespace, "ImportPartition")]

instance : Named AlterOperation where
  names :=
    [(.add, "Add"), (.alter, "Alter"), (.drop, "Drop"), (.dropPrimaryKey, "DropPrimaryKey"),
     (.dropUnique, "DropUnique"), (.dropForeignKey, "DropForeignKey"), (.modify, "Modify"),
     (.change, "Change"), (.rename, "Rename"), (.renameTable, "RenameTable"),
     (.renameIndex, "RenameIndex"), (.renameKey, "RenameKey"),
     (.renameConstraint, "RenameConstraint"), (.collate, "Collate"), (.convert, "Convert"),
     (.lock, "Lock"), (.algorithm, "Algorithm"), (.engine, "Engine"), (.force, "Force"),
     (.comment, "Comment"), (.setTableOption, "SetTableOption"), (.keyBlockSize, "KeyBlockSize"),
     (.addPartition, "AddPartition"), (.dropPartition, "DropPartition"),
     (.truncatePartition, "TruncatePartition"), (.coalescePartition, "CoalescePartition"),
     (.reorganizePartition, "ReorganizePartition"), (.exchangePartition, "ExchangePartition"),
     (.analyzePartition, "AnalyzePartition"), (.checkPartition, "CheckPartition"),
     (.optimizePartition, "OptimizePartition"), (.rebuildPartition, "RebuildPartition"),
     (.repairPartition, "RepairPartition"), (.removePartitioning, "RemovePartitioning"),
     (.discardPartition, "DiscardPartition"), (.importPartition, "ImportPartition"),
     (.discardTablespace, "DiscardTablespace"), (.importTablespace, "ImportTablespace"),
     (.disableKeys, "DisableKeys"), (.enableKeys, "EnableKeys"), (.partitionBy, "PartitionBy"),
     (.unspecific, "Unspecific")]

instance : DataForm TableOption where
  toDatum option := .record [("name", toDatum option.name), ("equals", toDatum option.equals),
    ("value", toDatum option.value)]
  ofDatum? d := return ⟨← d.get? "name", ← d.get? "equals", ← d.get? "value"⟩

instance : DataForm CharacterSetCollation where
  toDatum c := .record [("equals", toDatum c.equals), ("collation", toDatum c.collation)]
  ofDatum? d := return ⟨← d.get? "equals", ← d.get? "collation"⟩

namespace AlterClause

/-- The neutral form of a clause. -/
def datum : AlterClause → Datum
  | .addColumns keyword ifNotExists parenthesized columns =>
    .case "AddColumns" (.record [("column_keyword", toDatum keyword),
      ("if_not_exists", toDatum ifNotExists), ("parenthesized", toDatum parenthesized),
      ("columns", toDatum columns)])
  | .addConstraint constraint => .case "AddConstraint" (toDatum constraint)
  | .addPartition partitions =>
    .case "AddPartition" (.record [("partitions", toDatum partitions)])
  | .alterColumn keyword name action =>
    .case "AlterColumn" (.record [("column_keyword", toDatum keyword),
      ("column_name", toDatum name), ("action", toDatum action)])
  | .alterIndex name visible =>
    .case "AlterIndex" (.record [("name", toDatum name), ("visible", toDatum visible)])
  | .alterConstraint keyword name enforced =>
    .case "AlterConstraint" (.record [("keyword", toDatum keyword), ("name", toDatum name),
      ("enforced", toDatum enforced)])
  | .dropColumn keyword ifExists name behavior =>
    .case "DropColumn" (.record [("column_keyword", toDatum keyword),
      ("if_exists", toDatum ifExists), ("column_name", toDatum name),
      ("drop_behavior", toDatum behavior)])
  | .dropConstraint ifExists name behavior =>
    .case "DropConstraint" (.record [("if_exists", toDatum ifExists), ("name", toDatum name),
      ("drop_behavior", toDatum behavior)])
  | .dropIndex keyword name =>
    .case "DropIndex" (.record [("keyword", toDatum keyword), ("name", toDatum name)])
  | .dropPrimaryKey => .text "DropPrimaryKey"
  | .dropUnique columns => .case "DropUnique" (.record [("columns", toDatum columns)])
  | .dropForeignKey name columns =>
    .case "DropForeignKey" (.record [("name", toDatum name), ("columns", toDatum columns)])
  | .modify keyword parenthesized columns =>
    .case "Modify" (.record [("column_keyword", toDatum keyword),
      ("parenthesized", toDatum parenthesized), ("columns", toDatum columns)])
  | .change keyword oldName column =>
    .case "Change" (.record [("column_keyword", toDatum keyword), ("old_name", toDatum oldName),
      ("column", toDatum column)])
  | .renameColumn keyword oldName newName =>
    .case "RenameColumn" (.record [("column_keyword", toDatum keyword),
      ("old_name", toDatum oldName), ("new_name", toDatum newName)])
  | .renameObject kind oldName newName =>
    .case "RenameObject" (.record [("kind", toDatum kind), ("old_name", toDatum oldName),
      ("new_name", toDatum newName)])
  | .renameTable asKeyword newName =>
    .case "RenameTable" (.record [("as_keyword", toDatum asKeyword), ("new_name", toDatum newName)])
  | .comment equals text =>
    .case "Comment" (.record [("equals", toDatum equals), ("text", toDatum text)])
  | .collate default equals collation =>
    .case "Collate" (.record [("default", toDatum default), ("equals", toDatum equals),
      ("collation", toDatum collation)])
  | .convert convertTo default equals charset collation =>
    .case "Convert" (.record [("convert_to", toDatum convertTo), ("default", toDatum default),
      ("equals", toDatum equals), ("character_set", toDatum charset),
      ("collate", toDatum collation)])
  | .setting .lock equals value =>
    .case "Lock" (.record [("equals", toDatum equals), ("lock", toDatum value)])
  | .setting .algorithm equals value =>
    .case "Algorithm" (.record [("equals", toDatum equals), ("algorithm", toDatum value)])
  | .setting .engine equals value =>
    .case "Engine" (.record [("equals", toDatum equals), ("engine", toDatum value)])
  | .keyBlockSize equals size =>
    .case "KeyBlockSize" (.record [("equals", toDatum equals), ("size", toDatum size)])
  | .force => .text "Force"
  | .tableOption option => .case "SetTableOption" (toDatum option)
  | .discardTablespace => .text "DiscardTablespace"
  | .importTablespace => .text "ImportTablespace"
  | .disableKeys => .text "DisableKeys"
  | .enableKeys => .text "EnableKeys"
  | .onPartitions command partitions =>
    .case ((Named.name? command).getD "") (.record [("partitions", toDatum partitions)])
  | .coalescePartition count => .case "CoalescePartition" (.record [("count", toDatum count)])
  | .reorganizePartition partitions into =>
    .case "ReorganizePartition"
      (.record [("partitions", toDatum partitions), ("into", toDatum into)])
  | .exchangePartition partition table validation =>
    .case "ExchangePartition" (.record [("partition", toDatum partition), ("table", toDatum table),
      ("validation", toDatum validation)])
  | .removePartitioning => .text "RemovePartitioning"
  | .partitionBy partitioning => .case "PartitionBy" (toDatum partitioning)
  | .unspecific text => .case "Unspecific" (toDatum text)

/-- Reads a clause. -/
def ofDatum? (d : Datum) : Option AlterClause := do
  match ← d.case? with
  | ("AddColumns", c) =>
    return .addColumns (← c.get? "column_keyword") (← c.get? "if_not_exists")
      (← c.get? "parenthesized") (← c.get? "columns")
  | ("AddConstraint", c) => .addConstraint <$> DataForm.ofDatum? c
  | ("AddPartition", c) => .addPartition <$> c.get? "partitions"
  | ("AlterColumn", c) =>
    return .alterColumn (← c.get? "column_keyword") (← c.get? "column_name") (← c.get? "action")
  | ("AlterIndex", c) => return .alterIndex (← c.get? "name") (← c.get? "visible")
  | ("AlterConstraint", c) =>
    return .alterConstraint (← c.get? "keyword") (← c.get? "name") (← c.get? "enforced")
  | ("DropColumn", c) =>
    return .dropColumn (← c.get? "column_keyword") (← c.get? "if_exists") (← c.get? "column_name")
      (← c.get? "drop_behavior")
  | ("DropConstraint", c) =>
    return .dropConstraint (← c.get? "if_exists") (← c.get? "name") (← c.get? "drop_behavior")
  | ("DropIndex", c) => return .dropIndex (← c.get? "keyword") (← c.get? "name")
  | ("DropPrimaryKey", _) => return .dropPrimaryKey
  | ("DropUnique", c) => .dropUnique <$> c.get? "columns"
  | ("DropForeignKey", c) => return .dropForeignKey (← c.get? "name") (← c.get? "columns")
  | ("Modify", c) =>
    return .modify (← c.get? "column_keyword") (← c.get? "parenthesized") (← c.get? "columns")
  | ("Change", c) =>
    return .change (← c.get? "column_keyword") (← c.get? "old_name") (← c.get? "column")
  | ("RenameColumn", c) =>
    return .renameColumn (← c.get? "column_keyword") (← c.get? "old_name") (← c.get? "new_name")
  | ("RenameObject", c) =>
    return .renameObject (← c.get? "kind") (← c.get? "old_name") (← c.get? "new_name")
  | ("RenameTable", c) => return .renameTable (← c.get? "as_keyword") (← c.get? "new_name")
  | ("Comment", c) => return .comment (← c.get? "equals") (← c.get? "text")
  | ("Collate", c) =>
    return .collate (← c.get? "default") (← c.get? "equals") (← c.get? "collation")
  | ("Convert", c) =>
    return .convert (← c.get? "convert_to") (← c.get? "default") (← c.get? "equals")
      (← c.get? "character_set") (← c.get? "collate")
  | ("Lock", c) => return .setting .lock (← c.get? "equals") (← c.get? "lock")
  | ("Algorithm", c) => return .setting .algorithm (← c.get? "equals") (← c.get? "algorithm")
  | ("Engine", c) => return .setting .engine (← c.get? "equals") (← c.get? "engine")
  | ("KeyBlockSize", c) => return .keyBlockSize (← c.get? "equals") (← c.get? "size")
  | ("Force", _) => return .force
  | ("SetTableOption", c) => .tableOption <$> DataForm.ofDatum? c
  | ("DiscardTablespace", _) => return .discardTablespace
  | ("ImportTablespace", _) => return .importTablespace
  | ("DisableKeys", _) => return .disableKeys
  | ("EnableKeys", _) => return .enableKeys
  | ("CoalescePartition", c) => .coalescePartition <$> c.get? "count"
  | ("ReorganizePartition", c) =>
    return .reorganizePartition (← c.get? "partitions") (← c.get? "into")
  | ("ExchangePartition", c) =>
    return .exchangePartition (← c.get? "partition") (← c.get? "table") (← c.get? "validation")
  | ("RemovePartitioning", _) => return .removePartitioning
  | ("PartitionBy", c) => .partitionBy <$> DataForm.ofDatum? c
  | ("Unspecific", c) => .unspecific <$> DataForm.ofDatum? c
  | (name, c) => return .onPartitions (← Named.ofName? name) (← c.get? "partitions")

end AlterClause

instance : DataForm AlterClause where
  toDatum := AlterClause.datum
  ofDatum? := AlterClause.ofDatum?

instance : DataForm Alter where
  toDatum alter := .record [("if_exists", toDatum alter.ifExists), ("only", toDatum alter.only),
    ("table", toDatum alter.table), ("expressions", toDatum alter.clauses)]
  ofDatum? d := return ⟨← d.get? "if_exists", ← d.get? "only", ← d.get? "table",
    ← d.get? "expressions"⟩

end SchemaSql
