import SchemaSql.Constraint
import SchemaSql.Expr.Datum
import SchemaSql.Index.Datum

/-!
# Data of table constraints
-/

namespace SchemaSql

instance : Named ReferentialEvent where
  names := [(.update, "Update"), (.delete, "Delete")]

instance : Named ReferentialAction where
  names := [(.cascade, "Cascade"), (.setNull, "SetNull"), (.setDefault, "SetDefault"),
    (.restrict, "Restrict"), (.noAction, "NoAction")]

instance : DataForm ReferentialRule where
  toDatum rule := .record [("kind", toDatum rule.event), ("action", toDatum rule.action)]
  ofDatum? d := return ⟨← d.get? "kind", ← d.get? "action"⟩

instance : DataForm ForeignKey where
  toDatum key := .record [("name", toDatum key.name), ("columns", toDatum key.columns),
    ("foreign_table", toDatum key.referredTable),
    ("referred_columns", toDatum key.referredColumns),
    ("referential_actions", toDatum key.rules), ("characteristics", toDatum key.states)]
  ofDatum? d := return ⟨← d.get? "name", ← d.get? "columns", ← d.get? "foreign_table",
    ← d.get? "referred_columns", ← d.get? "referential_actions", ← d.get? "characteristics"⟩

instance : DataForm TableConstraint where
  toDatum
    | .index definition => .case "Index" (toDatum definition)
    | .named name definition =>
      .case "Named" (.record [("name", toDatum name), ("index", toDatum definition)])
    | .foreignKey key => .case "ForeignKey" (toDatum key)
    | .check name condition =>
      .case "Check" (.record [("name", toDatum name), ("expression", toDatum condition)])
  ofDatum? d := do
    match ← d.case? with
    | ("Index", c) => .index <$> ofDatum? c
    | ("Named", c) => return .named (← c.get? "name") (← c.get? "index")
    | ("ForeignKey", c) => .foreignKey <$> ofDatum? c
    | ("Check", c) => return .check (← c.get? "name") (← c.get? "expression")
    | _ => none

end SchemaSql
