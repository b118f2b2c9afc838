/-!
# Keyed lists — one entry per key, in the order of first use

Some clauses may repeat a setting.  The list of settings then keeps the place of the first
and the value of the last.
-/

namespace SchemaSql.Keyed

variable {α κ : Type} [DecidableEq κ]

/-- Puts an entry in the place of the first one with its key, or at the end. -/
def upsert (key : α → κ) (entry : α) : List α → List α
  | [] => [entry]
  | first :: rest =>
    if key first = key entry then entry :: rest else first :: upsert key entry rest

/-- The first entry with this key. -/
def find? (key : α → κ) (k : κ) (entries : List α) : Option α :=
  entries.find? fun entry => key entry = k

end SchemaSql.Keyed
