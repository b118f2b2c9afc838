/-!
# Data — the neutral form of the library's values

Every node of a statement has a neutral form, made of nothing but truth values, counts, texts,
lists and records, in which other programs keep and exchange it.  A structure is the record of
its fields, a list the list of its elements, a value that is missing is null.  A value of a type
with several constructors is a record of one field that is named for its constructor, or only
that name if the constructor holds nothing.
-/

namespace SchemaSql

/-- A neutral value. -/
inductive Datum where
  | null
  | bool (b : Bool)
  | nat (n : Nat)
  | text (s : String)
  | list (items : List Datum)
  | record (fields : List (String × Datum))
  deriving Repr, Inhabited

namespace Datum

/-- What a constructor with this name holds. -/
def case (name : String) (content : Datum) : Datum := .record [(name, content)]

/-- The name of a constructor and what it holds, which is null if the name stands alone. -/
def case? : Datum → Option (String × Datum)
  | .text name => some (name, .null)
  | .record [entry] => some entry
  | _ => none

/-- The field with this name.  A field that is missing is null. -/
def field : Datum → String → Datum
  | .record fields, name => (fields.lookup name).getD .null
  | _, _ => .null

mutual

/-- How deeply lists and records are nested, at least 1. -/
def depth : Datum → Nat
  | .list items => listDepth items + 1
  | .record fields => recordDepth fields + 1
  | .null | .bool _ | .nat _ | .text _ => 1

/-- The greatest depth of several values. -/
def listDepth : List Datum → Nat
  | [] => 0
  | item :: rest => max item.depth (listDepth rest)

/-- The greatest depth of several fields. -/
def recordDepth : List (String × Datum) → Nat
  | [] => 0
  | (_, content) :: rest => max content.depth (recordDepth rest)

end

end Datum

/-- The types whose values have a neutral form. -/
class DataForm (α : Type) where
  /-- The neutral form of a value. -/
  toDatum : α → Datum
  /-- The value with this neutral form, if there is one. -/
  ofDatum? : Datum → Option α

export DataForm (toDatum ofDatum?)

/-- Reads a field of a record. -/
def Datum.get? {α : Type} [DataForm α] (d : Datum) (name : String) : Option α :=
  ofDatum? (d.field name)

/-! ## Plain values -/

instance : DataForm Bool where
  toDatum := .bool
  ofDatum?
    | .bool b => some b
    | _ => none

instance : DataForm Nat where
  toDatum := .nat
  ofDatum?
    | .nat n => some n
    | _ => none

instance : DataForm String where
  toDatum := .text
  ofDatum?
    | .text s => some s
    | _ => none

/-- A character is the text of that character. -/
instance : DataForm Char where
  toDatum c := .text c.toString
  ofDatum?
    | .text s =>
      match s.toList with
      | [c] => some c
      | _ => none
    | _ => none

section

variable {α β : Type} [DataForm α] [DataForm β]

instance : DataForm (Option α) where
  toDatum
    | some a => toDatum a
    | none => .null
  ofDatum?
    | .null => some none
    | d => some <$> ofDatum? d

instance : DataForm (List α) where
  toDatum as := .list (as.map toDatum)
  ofDatum?
    | .list items => items.mapM ofDatum?
    | _ => none

/-- A pair is a list of two values. -/
instance : DataForm (α × β) where
  toDatum pair := .list [toDatum pair.1, toDatum pair.2]
  ofDatum?
    | .list [a, b] => return (← ofDatum? a, ← ofDatum? b)
    | _ => none

end

/-! ## Enumerations -/

/-- The types whose values go by names. -/
class Named (α : Type) where
  /-- The values with their names. -/
  names : List (α × String)

namespace Named

variable {α : Type} [Named α] [DecidableEq α]

/-- The name of a value; a value that is not listed has none. -/
def name? (a : α) : Option String := names.lookup a

/-- The value with this name. -/
def ofName? (name : String) : Option α :=
  (names.find? fun entry => entry.2 = name).map Prod.fst

/-- A named value is the text of its name. -/
instance : DataForm α where
  toDatum a := toDatum (name? a)
  ofDatum?
    | .text name => ofName? name
    | _ => none

end Named

end SchemaSql
