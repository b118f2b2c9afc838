import SchemaSql.Expr.Printer
import SchemaSql.Index
import SchemaSql.Keyed

/-!
# Table constraints

What `ALTER TABLE … ADD` can add besides columns and partitions: an index, perhaps under a
constraint's name, a foreign key, or a check.  A foreign key has at most one rule for each
event on the table it refers to.
-/

namespace SchemaSql

/-- What happens to a row that is referred to. -/
inductive ReferentialEvent where
  | update | delete
  deriving DecidableEq, Repr, Inhabited

/-- The text of an event. -/
def ReferentialEvent.text : ReferentialEvent → String
  | .update => "ON UPDATE"
  | .delete => "ON DELETE"

/-- What is then done to the rows that refer to it. -/
inductive ReferentialAction where
  | cascade | setNull | setDefault | restrict | noAction
  deriving DecidableEq, Repr, Inhabited

/-- The text of an action. -/
def ReferentialAction.text : ReferentialAction → String
  | .cascade => "CASCADE"
  | .setNull => "SET NULL"
  | .setDefault => "SET DEFAULT"
  | .restrict => "RESTRICT"
  | .noAction => "NO ACTION"

/-- The action for an event. -/
structure ReferentialRule where
  event  : ReferentialEvent
  action : ReferentialAction
  deriving DecidableEq, Repr, Inhabited

/-- The text of a rule. -/
def ReferentialRule.text (rule : ReferentialRule) : String :=
  rule.event.text ++ " " ++ rule.action.text

/-- A foreign key. -/
structure ForeignKey where
  name            : Option Ident := none
  columns         : List Ident
  referredTable   : ObjectName
  referredColumns : List Ident
  rules           : List ReferentialRule := []
  states          : List ConstraintState := []
  deriving DecidableEq, Repr, Inhabited

namespace ForeignKey

/-- Sets the action for an event, in the place of an earlier one. -/
def setAction (fk : ForeignKey) (event : ReferentialEvent) (action : ReferentialAction) :
    ForeignKey :=
  { fk with rules := Keyed.upsert ReferentialRule.event ⟨event, action⟩ fk.rules }

/-- The action for an event. -/
def action? (fk : ForeignKey) (event : ReferentialEvent) : Option ReferentialAction :=
  (Keyed.find? ReferentialRule.event event fk.rules).map ReferentialRule.action

/-- The referred columns in parentheses; nothing if there are none.  Under a constraint's name
    they stand directly behind the table. -/
def referredColumnsText (fk : ForeignKey) : String :=
  if fk.referredColumns.isEmpty then ""
  else (if fk.name.isSome then "" else " ")
    ++ "(" ++ Text.commaSeparated (fk.referredColumns.map Ident.text) ++ ")"

/-- The pieces of a foreign key's text. -/
def chunks (fk : ForeignKey) : Text.Chunks :=
  (fk.name.toList.map fun name => "CONSTRAINT " ++ name.text ++ " ")
    ++ ["FOREIGN KEY (" ++ Text.commaSeparated (fk.columns.map Ident.text) ++ ") REFERENCES "
        ++ fk.referredTable.text,
      fk.referredColumnsText]
    ++ (fk.rules.map fun rule => " " ++ rule.text)
    ++ fk.states.map fun state => " " ++ state.text

end ForeignKey

/-- A constraint or index of a table. -/
inductive TableConstraint where
  | index (definition : Index)
  /-- `CONSTRAINT`, perhaps a name, and an index. -/
  | named (name : Option Ident) (definition : Index)
  | foreignKey (key : ForeignKey)
  | check (name : Option Ident) (condition : Expr)
  deriving DecidableEq, Repr, Inhabited

namespace TableConstraint

/-- The pieces of a constraint's text. -/
def chunks : TableConstraint → Text.Chunks
  | .index definition => definition.chunks
  | .named name definition =>
    "CONSTRAINT " :: (name.toList.map fun name => name.text ++ " ") ++ definition.chunks
  | .foreignKey key => key.chunks
  | .check name condition =>
    (name.toList.map fun name => "CONSTRAINT " ++ name.text ++ " ")
      ++ ["CHECK ("] ++ condition.chunks ++ [")"]

/-- The text of a constraint. -/
def text (constraint : TableConstraint) : String := Text.Chunks.text constraint.chunks

end TableConstraint

end SchemaSql
