import SchemaSql.Column
import SchemaSql.DataType.Datum
import SchemaSql.Expr.Datum

/-!
# Data of columns
-/

namespace SchemaSql

instance : Named ColumnKeyword where
  names := [(.none, "None"), (.column, "Column"), (.columns, "Columns")]

instance : DataForm ColumnDefinition where
  toDatum column := .record [("column_keyword", toDatum column.keyword),
    ("column_name", toDatum column.name), ("data_type", toDatum column.dataType),
    ("column_specs", toDatum column.specs)]
  ofDatum? d := return ⟨← d.get? "column_keyword", ← d.get? "column_name", ← d.get? "data_type",
    ← d.get? "column_specs"⟩

instance : DataForm ColumnAction where
  toDatum
    | .setDataType dataType setData => .case "SetDataType"
      (.record [("data_type", toDatum dataType), ("set_data_keywords", toDatum setData)])
    | .setDefault value => .case "SetDefault" (toDatum value)
    | .dropDefault => .text "DropDefault"
    | .setNotNull => .text "SetNotNull"
    | .dropNotNull => .text "DropNotNull"
    | .setVisible visible => .case "SetVisibility" (toDatum visible)
    | .setOptions options => .case "SetOptions" (toDatum options)
  ofDatum? d := do
    match ← d.case? with
    | ("SetDataType", c) => return .setDataType (← c.get? "data_type") (← c.get? "set_data_keywords")
    | ("SetDefault", c) => .setDefault <$> ofDatum? c
    | ("DropDefault", _) => return .dropDefault
    | ("SetNotNull", _) => return .setNotNull
    | ("DropNotNull", _) => return .dropNotNull
    | ("SetVisibility", c) => .setVisible <$> ofDatum? c
    | ("SetOptions", c) => .setOptions <$> ofDatum? c
    | _ => none

end SchemaSql
