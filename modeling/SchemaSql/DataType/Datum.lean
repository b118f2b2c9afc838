import SchemaSql.DataType
import SchemaSql.Datum

/-!
# Data of data types

The data have the element of a collection as a field, which is null for a plain type.
-/

namespace SchemaSql

namespace DataType

/-- The neutral form of a type. -/
def datum : DataType → Datum
  | .plain name arguments =>
    .record [("name", toDatum name), ("arguments", toDatum arguments), ("element", .null)]
  | .collection name element arguments =>
    .record [("name", toDatum name), ("arguments", toDatum arguments), ("element", element.datum)]

/-- Reads a type of at most so many levels.  Arguments that are missing are none. -/
def ofDatumAt? : Nat → Datum → Option DataType
  | 0, _ => none
  | level + 1, d => do
    let name ← d.get? "name"
    let arguments : Option (List String) ← d.get? "arguments"
    match d.field "element" with
    | .null => return .plain name (arguments.getD [])
    | element => return .collection name (← ofDatumAt? level element) (arguments.getD [])

end DataType

instance : DataForm DataType where
  toDatum := DataType.datum
  ofDatum? d := DataType.ofDatumAt? d.depth d

end SchemaSql
