import SchemaSql.Datum
import SchemaSql.Literal

/-!
# Data of literals
-/

namespace SchemaSql

instance : DataForm Literal where
  toDatum
    | .number digits long => .case "Number" (toDatum (digits, long))
    | .singleQuoted value => .case "SingleQuotedString" (toDatum value)
    | .doubleQuoted value => .case "DoubleQuotedString" (toDatum value)
    | .boolean b => .case "Boolean" (toDatum b)
    | .null => .text "Null"
  ofDatum? d := do
    match ← d.case? with
    | ("Number", c) =>
      let (digits, long) ← ofDatum? c
      return .number digits long
    | ("SingleQuotedString", c) => .singleQuoted <$> ofDatum? c
    | ("DoubleQuotedString", c) => .doubleQuoted <$> ofDatum? c
    | ("Boolean", c) => .boolean <$> ofDatum? c
    | ("Null", _) => return .null
    | _ => none

end SchemaSql
