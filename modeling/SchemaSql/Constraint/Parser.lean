import SchemaSql.Column
import SchemaSql.Constraint
import SchemaSql.Expr.Parser

/-!
# Reading indexes and constraints
-/

namespace SchemaSql

open SchemaSql.Parser

/-- Reads `ASC`, `DESC` or nothing. -/
def Direction.parse : Parser (Option Direction) := do
  if ← acceptKeyword .asc then return some .ascending
  if ← acceptKeyword .desc then return some .descending
  return none

/-- Reads `INDEX`, `KEY` or nothing. -/
def IndexKeyword.parse : Parser (Option IndexKeyword) := do
  if ← acceptKeyword .index then return some .index
  if ← acceptKeyword .key then return some .key
  return none

/-- Reads a state of a constraint if there is one. -/
def ConstraintState.parse : Parser (Option ConstraintState) := do
  if ← acceptKeyword .deferrable then return some .deferrable
  if ← acceptKeywords [.not, .deferrable] then return some .notDeferrable
  if ← acceptKeywords [.initially, .deferred] then return some .initiallyDeferred
  if ← acceptKeywords [.initially, .immediate] then return some .initiallyImmediate
  if ← acceptKeyword .enable then return some .enable
  if ← acceptKeyword .disable then return some .disable
  if ← acceptKeyword .validate then return some .validate
  if ← acceptKeyword .novalidate then return some .noValidate
  return none

namespace Index

/-- Reads a column of an index. -/
def parseColumn : Parser IndexColumn := do
  let name ← Ident.parse false
  let length ←
    if ← accept .lparen then
      let found ← next
      match found.token with
      | .number digits _ =>
        let _ ← expect .rparen
        pure (some digits)
      | _ => expected "an index prefix length" found
    else pure none
  return { name, length, direction := ← Direction.parse }

/-- Reads an option behind the columns of an index if there is one.  Options are written in
    one form, whatever the text has. -/
def parseSpec : Parser (Option String) := do
  if ← acceptKeyword .using then return some ("USING " ++ (← Ident.parse false).text)
  if ← acceptKeyword .keyBlockSize then
    let _ ← acceptEquals
    return some ("KEY_BLOCK_SIZE = " ++ toString (← Literal.parseCount))
  if ← acceptKeywords [.with, .parser] then
    return some ("WITH PARSER " ++ (← Ident.parse false).text)
  if ← acceptKeyword .comment then return some ("COMMENT " ++ (← Literal.parseString).text)
  if ← acceptKeyword .visible then return some (visibility true)
  if ← acceptKeyword .invisible then return some (visibility false)
  return none

/-- Reads the words an index starts with. -/
def parseHead : Parser (IndexKind × Option IndexKeyword) := do
  match ← expectOneOf [.primary, .unique, .index, .key, .fulltext, .spatial] with
  | .primary =>
    let _ ← expectKeyword .key
    return (.primary, none)
  | .index => return (.plain, some .index)
  | .key => return (.plain, some .key)
  | .unique => return (.unique, ← IndexKeyword.parse)
  | .fulltext => return (.fulltext, ← IndexKeyword.parse)
  | _ => return (.spatial, ← IndexKeyword.parse)

/-- Reads an index. -/
def parse : Parser Index := do
  let (kind, keyword) ← parseHead
  let unnamed := (← peek).token = .lparen || (← peekKeyword .using)
  let name ← if unnamed then pure none else some <$> Ident.parse false
  let method ← if ← acceptKeyword .using then some <$> Ident.parse false else pure none
  let columns ← parenthesizedList parseColumn
  let specs ← many parseSpec
  return { kind, keyword, name, method, columns, specs, states := ← many ConstraintState.parse }

end Index

namespace ForeignKey

/-- Reads the action of a rule. -/
def parseAction : Parser ReferentialAction := do
  if ← acceptKeyword .restrict then return .restrict
  if ← acceptKeyword .cascade then return .cascade
  if ← acceptKeywords [.set, .null] then return .setNull
  if ← acceptKeywords [.no, .action] then return .noAction
  if ← acceptKeywords [.set, .default] then return .setDefault
  expected "one of RESTRICT, CASCADE, SET NULL, NO ACTION or SET DEFAULT" (← peek)

/-- Reads one more rule of a foreign key if there is one; its event has to be new. -/
def parseRule (fk : ForeignKey) : Parser (Option ForeignKey) := do
  match ← acceptKeyword? .on with
  | none => return none
  | some start =>
    let event ← match ← expectOneOf [.update, .delete] with
      | .update => pure ReferentialEvent.update
      | _ => pure ReferentialEvent.delete
    if (fk.action? event).isSome then throw (.repeatedRule event start.location)
    return some (fk.setAction event (← parseAction))

/-- Reads a foreign key behind `FOREIGN`. -/
def parse (name : Option Ident) : Parser ForeignKey := do
  let _ ← expectKeyword .key
  let columns ← Ident.parseList
  let _ ← expectKeyword .references
  let referredTable ← ObjectName.parse
  let referredColumns ← if (← peek).token = .lparen then Ident.parseList else pure []
  let fk ← iterate parseRule { name, columns, referredTable, referredColumns }
  return { fk with states := ← many ConstraintState.parse }

end ForeignKey

namespace TableConstraint

/-- Reads the condition of a check. -/
def parseCondition : Parser Expr := parenthesized Expr.parse

/-- Whether a token starts an unnamed constraint behind `CONSTRAINT`. -/
def startsUnnamed (token : Token) : Bool :=
  token.bareKeyword?.any (· ∈ [.primary, .unique, .foreign, .check])

/-- Whether a token starts a constraint or index. -/
def startsConstraint (token : Token) : Bool :=
  token.bareKeyword?.any
    (· ∈ [.constraint, .primary, .unique, .index, .key, .fulltext, .spatial, .foreign, .check])

/-- Reads a constraint or index. -/
def parse : Parser TableConstraint := do
  if ← acceptKeyword .constraint then
    let name ← if startsUnnamed (← peek).token then pure none else some <$> Ident.parse false
    if ← acceptKeyword .foreign then return .foreignKey (← ForeignKey.parse name)
    if ← acceptKeyword .check then return .check name (← parseCondition)
    return .named name (← Index.parse)
  if ← acceptKeyword .foreign then return .foreignKey (← ForeignKey.parse none)
  if ← acceptKeyword .check then return .check none (← parseCondition)
  return .index (← Index.parse)

end TableConstraint

end SchemaSql
