import SchemaSql.Expr.Datum
import SchemaSql.Partition

/-!
# Data of partitions
-/

namespace SchemaSql

instance : Named PartitionBound where
  names := [(.lessThan, "LessThan"), (.oneOf, "In")]

instance : Named PartitionMethod where
  names := [(.range, "Range"), (.list, "List"), (.hash, "Hash"), (.key, "Key")]

instance : DataForm PartitionEngine where
  toDatum engine := .record [("storage", toDatum engine.storage), ("equals", toDatum engine.equals),
    ("name", toDatum engine.name)]
  ofDatum? d := return ⟨← d.get? "storage", ← d.get? "equals", ← d.get? "name"⟩

instance : DataForm PartitionDefinition where
  toDatum partition := .record [("name", toDatum partition.name),
    ("operation", toDatum partition.bound), ("values", toDatum partition.values),
    ("storage_engine", toDatum partition.engine)]
  ofDatum? d := return ⟨← d.get? "name", ← d.get? "operation", ← d.get? "values",
    ← d.get? "storage_engine"⟩

instance : DataForm PartitionKey where
  toDatum
    | .expression e => .case "Expression" (toDatum e)
    | .columns keyword names =>
      .case "Columns" (.record [("columns_keyword", toDatum keyword), ("columns", toDatum names)])
  ofDatum? d := do
    match ← d.case? with
    | ("Expression", c) => .expression <$> ofDatum? c
    | ("Columns", c) => return .columns (← c.get? "columns_keyword") (← c.get? "columns")
    | _ => none

instance : DataForm Partitioning where
  toDatum p := .record [("linear", toDatum p.linear), ("method", toDatum p.method),
    ("key", toDatum p.key), ("partition_count", toDatum p.count),
    ("partitions", toDatum p.partitions)]
  ofDatum? d := do
    return {
      linear := ← d.get? "linear"
      method := ← d.get? "method"
      key := ← d.get? "key"
      count := ← d.get? "partition_count"
      partitions := ← d.get? "partitions" }

end SchemaSql
