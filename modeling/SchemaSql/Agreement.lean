import SchemaSql.Alter.Operation
import SchemaSql.Statement.Parser

/-!
# Agreement — one text in several dialects

A panel is a list of dialects that are expected to read a text alike.  A check answers with
what they all read, or with nothing: because two of them differ, because the text is not of
the form asked for, or because there is no dialect at all.
-/

namespace SchemaSql

/-- Dialects that are asked together, and how they read. -/
structure Panel where
  dialects : List Dialect
  options  : Options := {}
  depth    : Nat := 50

namespace Panel

variable {α : Type}

/-- The context of one dialect of the panel. -/
def context (panel : Panel) (dialect : Dialect) : Context :=
  { dialect, options := panel.options, depth := panel.depth }

/-- The value that `f` has in every dialect, if it is the same in all. -/
def common (panel : Panel) (same : α → α → Bool) (f : Context → α) : Option α :=
  match panel.dialects.map fun dialect => f (panel.context dialect) with
  | [] => none
  | first :: rest => if rest.all (same first) then some first else none

/-- Whether two outcomes are the same value, or errors that say the same. -/
def sameOutcome [BEq α] : Except ParseError α → Except ParseError α → Bool
  | .ok a, .ok b => a == b
  | .error a, .error b => a.agrees b
  | _, _ => false

/-- What all dialects make of a text of statements. -/
def statements (panel : Panel) (text : String) : Option (Except ParseError (List Statement)) :=
  panel.common sameOutcome fun context => Statement.parseAll.runText context text

/-- The one statement of a text that prints as `canonical`, which reads as the same statement.
    An empty `canonical` asks for nothing more than one statement. -/
def statement (panel : Panel) (text canonical : String) : Option Statement := do
  let .ok [statement] ← panel.statements text | none
  if canonical.isEmpty then return statement
  if text ≠ canonical then
    let .ok again ← panel.statements canonical | none
    if again ≠ [statement] then none
  if statement.text = canonical then return statement else none

/-- The one statement of a text that is its own printed form. -/
def canonicalStatement (panel : Panel) (text : String) : Option Statement :=
  panel.statement text text

/-- The one `ALTER TABLE` of a text that is its own printed form. -/
def canonicalAlter (panel : Panel) (text : String) : Option Alter := do
  match ← panel.canonicalStatement text with
  | .alter alter => return alter
  | _ => none

/-- The one query of a text that is its own printed form. -/
def canonicalQuery (panel : Panel) (text : String) : Option Query := do
  match ← panel.canonicalStatement text with
  | .query query => return query
  | _ => none

/-- The `SELECT` of the one query of a text that is its own printed form. -/
def canonicalSelect (panel : Panel) (text : String) : Option Select := do
  match (← panel.canonicalQuery text).body with
  | .select s => return s
  | .from _ => none

/-- The expression at the start of a text, if it prints as `canonical`. -/
def expression (panel : Panel) (text canonical : String) : Option Expr := do
  let .ok e ← panel.common sameOutcome fun context => Expr.parse.runText context text | none
  if e.text = canonical then return e else none

/-- The only clause of a statement on the table `name`. -/
def onlyClause (name : String) : Statement → Option AlterClause
  | .alter alter =>
    match alter.clauses with
    | [clause] => if alter.table.text = name then some clause else none
    | _ => none
  | _ => none

/-- Whether every dialect reads a text as these tokens; an empty panel does not. -/
def readsTokens (panel : Panel) (text : String) (tokens : List Token) : Bool :=
  !panel.dialects.isEmpty && panel.dialects.all fun dialect =>
    match (panel.context dialect).lex text with
    | .ok located => located.map Located.token = tokens
    | .error _ => false

end Panel

end SchemaSql
