/-!
# Sorted tables — looking a name up by halving

An array whose entries are sorted by name is searched between two positions: the name in the
middle decides which half can still hold the key.
-/

namespace SchemaSql.Sorted

variable {α : Type}

/-- The entry named `key` among the positions `lo ≤ i < hi` of a table sorted by `name`. -/
def findBetween (table : Array α) (name : α → String) (key : String) (lo hi : Nat) : Option α :=
  if lo < hi then
    match table[(lo + hi) / 2]? with
    | none => none
    | some entry =>
      if name entry = key then some entry
      else if name entry < key then findBetween table name key ((lo + hi) / 2 + 1) hi
      else findBetween table name key lo ((lo + hi) / 2)
  else none
termination_by hi - lo

/-- The entry named `key` of a table sorted by `name`. -/
def find? (table : Array α) (name : α → String) (key : String) : Option α :=
  findBetween table name key 0 table.size

end SchemaSql.Sorted
