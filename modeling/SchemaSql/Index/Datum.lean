import SchemaSql.Ident.Datum
import SchemaSql.Index

/-!
# Data of indexes
-/

namespace SchemaSql

/-- A direction is whether it is ascending. -/
instance : DataForm Direction where
  toDatum direction := .bool (direction = .ascending)
  ofDatum?
    | .bool true => some .ascending
    | .bool false => some .descending
    | _ => none

instance : Named IndexKind where
  names := [(.plain, "Plain"), (.primary, "Primary"), (.unique, "Unique"), (.fulltext, "Fulltext"),
    (.spatial, "Spatial")]

instance : Named IndexKeyword where
  names := [(.index, "Index"), (.key, "Key")]

instance : Named ConstraintState where
  names := [(.deferrable, "Deferrable"), (.notDeferrable, "NotDeferrable"),
    (.initiallyDeferred, "InitiallyDeferred"), (.initiallyImmediate, "InitiallyImmediate"),
    (.enable, "Enable"), (.disable, "Disable"), (.validate, "Validate"),
    (.noValidate, "NoValidate")]

instance : DataForm IndexColumn where
  toDatum column := .record [("name", toDatum column.name), ("length", toDatum column.length),
    ("asc", toDatum column.direction)]
  ofDatum? d := return ⟨← d.get? "name", ← d.get? "length", ← d.get? "asc"⟩

instance : DataForm Index where
  toDatum index := .record [("index_type", toDatum index.kind), ("keyword", toDatum index.keyword),
    ("name", toDatum index.name), ("using", toDatum index.method),
    ("columns", toDatum index.columns), ("index_spec", toDatum index.specs),
    ("characteristics", toDatum index.states)]
  ofDatum? d := return ⟨← d.get? "index_type", ← d.get? "keyword", ← d.get? "name",
    ← d.get? "using", ← d.get? "columns", ← d.get? "index_spec", ← d.get? "characteristics"⟩

end SchemaSql
