import SchemaSql.Datum
import SchemaSql.Ident

/-!
# Data of names

Reading takes a bare text too: as an identifier it is one without quotes, as an object name it
is one part without quotes, whatever periods it has.
-/

namespace SchemaSql

instance : DataForm Ident where
  toDatum ident := .record [("value", toDatum ident.value), ("quote_style", toDatum ident.quote)]
  ofDatum?
    | .text value => some { value }
    | d => return ⟨← d.get? "value", ← d.get? "quote_style"⟩

instance : DataForm ObjectName where
  toDatum name := toDatum name.parts
  ofDatum?
    | .text name => some (ObjectName.simple name)
    | d => ObjectName.mk <$> ofDatum? d

end SchemaSql
