import SchemaSql.Alter
import SchemaSql.Column.Parser
import SchemaSql.Constraint.Parser
import SchemaSql.Partition.Parser

/-!
# Reading ALTER TABLE

Each clause starts with a bare keyword that tells its form.  Lists inside a clause never end
in a comma, whatever the options say, since a comma separates clauses too.
-/

namespace SchemaSql

open SchemaSql.Parser

/-- Reads `CASCADE`, `RESTRICT` or nothing. -/
def DropBehavior.parse : Parser (Option DropBehavior) := do
  if ← acceptKeyword .cascade then return some .cascade
  if ← acceptKeyword .restrict then return some .restrict
  return none

/-- Reads `COLLATE` and a collation if they are there. -/
def CharacterSetCollation.parse : Parser (Option CharacterSetCollation) := do
  if ← acceptKeyword .collate then
    let equals ← acceptEquals
    return some ⟨equals, ← Ident.parse false⟩
  return none

namespace AlterClause

/-- The keywords that a clause may start with.  A comma in front of one of them ends a list of
    partitions. -/
def clauseStarts : List Keyword :=
  [.add, .algorithm, .alter, .analyze, .autoIncrement, .avgRowLength, .change, .character, .check,
   .checksum, .coalesce, .collate, .comment, .compression, .convert, .default, .delayKeyWrite,
   .disable, .discard, .drop, .enable, .encryption, .engine, .exchange, .force, .import,
   .insertMethod, .keyBlockSize, .lock, .maxRows, .minRows, .modify, .move, .optimize, .packKeys,
   .partition, .rebuild, .remove, .rename, .reorganize, .repair, .rowFormat, .statsAutoRecalc,
   .statsPersistent, .statsSamplePages, .tablespace, .truncate]

/-- The keywords that are names of table options. -/
def tableOptions : List Keyword :=
  [.autoIncrement, .avgRowLength, .checksum, .compression, .delayKeyWrite, .encryption,
   .insertMethod, .maxRows, .minRows, .packKeys, .rowFormat, .statsAutoRecalc, .statsPersistent,
   .statsSamplePages, .tablespace]

/-- Whether a token starts a clause. -/
def startsClause (token : Token) : Bool := token.bareKeyword?.any (· ∈ clauseStarts)

/-- Whether a token ends a clause. -/
def endsClause (token : Token) : Bool :=
  match token with
  | .comma | .semicolon | .rparen | .eof => true
  | _ => false

/-- Reads names of partitions, up to a comma that separates clauses. -/
def parsePartitions : Parser (List Ident) := do
  let first ← Ident.parse false
  let rest ← many do
    let cursor ← get
    if cursor.peek.token ≠ .comma || startsClause (cursor.peekNth 1).token then return none
    let _ ← next
    some <$> Ident.parse false
  return first :: rest

/-- Reads a clause behind `ADD`. -/
def parseAdd : Parser AlterClause := do
  if ← acceptKeyword .partition then return .addPartition (← PartitionDefinition.parseList)
  let keyword ← ColumnKeyword.parse
  if keyword = .none && TableConstraint.startsConstraint (← peek).token then
    return .addConstraint (← TableConstraint.parse)
  let ifNotExists ← acceptKeywords [.if, .not, .exists]
  if (← peek).token = .lparen then
    return .addColumns keyword ifNotExists true (← parenthesizedList ColumnDefinition.parse)
  return .addColumns keyword ifNotExists false [← ColumnDefinition.parse]

/-- Reads a clause behind `ALTER`. -/
def parseAlter : Parser AlterClause := do
  if ← acceptKeyword .index then
    let name ← Ident.parse false
    return .alterIndex name ((← expectOneOf [.visible, .invisible]) = .visible)
  if let some keyword ← acceptOneOf [.constraint, .check] then
    let name ← Ident.parse false
    let enforced := !(← acceptKeyword .not)
    let _ ← expectKeyword .enforced
    return .alterConstraint (if keyword = .constraint then .constraint else .check) name enforced
  let keyword ← ColumnKeyword.parse
  let name ← Ident.parse false
  return .alterColumn keyword name (← ColumnAction.parse)

/-- Reads a clause behind `DROP`. -/
def parseDrop : Parser AlterClause := do
  if ← acceptKeywords [.primary, .key] then return .dropPrimaryKey
  if ← acceptKeyword .unique then return .dropUnique (← Ident.parseList)
  if ← acceptKeywords [.foreign, .key] then
    let after := (← peek).token
    let name ←
      if endsClause after || after = .lparen then pure none else some <$> Ident.parse false
    let columns ← if (← peek).token = .lparen then Ident.parseList else pure []
    return .dropForeignKey name columns
  if let some keyword ← IndexKeyword.parse then return .dropIndex keyword (← Ident.parse false)
  if ← acceptKeyword .partition then return .onPartitions .drop (← parsePartitions)
  if ← acceptKeyword .constraint then
    let ifExists ← acceptKeywords [.if, .exists]
    let name ← Ident.parse false
    return .dropConstraint ifExists name (← DropBehavior.parse)
  let keyword ← ColumnKeyword.parse
  let ifExists ← acceptKeywords [.if, .exists]
  let name ← Ident.parse false
  return .dropColumn keyword ifExists name (← DropBehavior.parse)

/-- Reads an item of the list in parentheses behind `MODIFY`. -/
def parseModifiedColumn : Parser ColumnDefinition := do
  let keyword := if ← acceptKeyword .column then .column else .none
  return { ← ColumnDefinition.parse with keyword }

/-- Reads a clause behind `MODIFY`. -/
def parseModify : Parser AlterClause := do
  let keyword ← ColumnKeyword.parse
  if (← peek).token = .lparen then
    return .modify keyword true (← parenthesizedList parseModifiedColumn)
  return .modify keyword false [← ColumnDefinition.parse]

/-- Reads a clause behind `CHANGE`. -/
def parseChange : Parser AlterClause := do
  let keyword ← ColumnKeyword.parse
  let oldName ← Ident.parse false
  return .change keyword oldName (← ColumnDefinition.parse)

/-- Reads `INDEX`, `KEY`, `CONSTRAINT` or nothing. -/
def parseRenameKind : Parser (Option RenameKind) := do
  if ← acceptKeyword .index then return some .index
  if ← acceptKeyword .key then return some .key
  if ← acceptKeyword .constraint then return some .constraint
  return none

/-- Reads a clause behind `RENAME`. -/
def parseRename : Parser AlterClause := do
  if let some keyword ← acceptOneOf [.to, .as] then
    return .renameTable (keyword = .as) (← ObjectName.parse)
  let kind ← parseRenameKind
  let keyword ← if kind.isSome then pure .none else ColumnKeyword.parse
  let oldName ← Ident.parse false
  let _ ← expectKeyword .to
  let newName ← Ident.parse false
  match kind with
  | some kind => return .renameObject kind oldName newName
  | none => return .renameColumn keyword oldName newName

/-- Reads a collation behind `[DEFAULT] COLLATE`. -/
def parseCollate (default : Bool) : Parser AlterClause := do
  let equals ← acceptEquals
  return .collate default equals (← Ident.parse false)

/-- Reads a character set behind `[DEFAULT] CHARACTER SET`. -/
def parseCharacterSet (default : Bool) : Parser AlterClause := do
  let equals ← acceptEquals
  let charset ← Ident.parse false
  return .convert false default equals charset (← CharacterSetCollation.parse)

/-- Reads a clause behind `DEFAULT`. -/
def parseDefault : Parser AlterClause := do
  if ← acceptKeyword .collate then return ← parseCollate true
  expectKeywords [.character, .set]
  parseCharacterSet true

/-- Reads a clause behind `CONVERT`. -/
def parseConvert : Parser AlterClause := do
  expectKeywords [.to, .character, .set]
  let charset ← Ident.parse false
  return .convert true false false charset (← CharacterSetCollation.parse)

/-- Reads the value of a setting. -/
def parseSetting (kind : NamedSetting) : Parser AlterClause := do
  let equals ← acceptEquals
  return .setting kind equals (← Ident.parse false)

/-- Reads a clause behind `DISCARD` or `IMPORT`: `whole` is the one for the table's own space,
    `command` the one for the spaces of its partitions. -/
def parseTablespace (whole : AlterClause) (command : PartitionCommand) : Parser AlterClause := do
  if ← acceptKeyword .tablespace then return whole
  let _ ← expectKeyword .partition
  let partitions ← parsePartitions
  let _ ← expectKeyword .tablespace
  return .onPartitions command partitions

/-- Reads `PARTITION` and the partitions that a command is for. -/
def parsePartitionCommand (command : PartitionCommand) : Parser AlterClause := do
  let _ ← expectKeyword .partition
  return .onPartitions command (← parsePartitions)

/-- Reads a clause behind `REORGANIZE`. -/
def parseReorganize : Parser AlterClause := do
  let _ ← expectKeyword .partition
  let partitions ← parsePartitions
  let _ ← expectKeyword .into
  return .reorganizePartition partitions (← PartitionDefinition.parseList)

/-- Reads a clause behind `EXCHANGE`. -/
def parseExchange : Parser AlterClause := do
  let _ ← expectKeyword .partition
  let partition ← Ident.parse false
  expectKeywords [.with, .table]
  let table ← ObjectName.parse
  if ← acceptKeywords [.with, .validation] then
    return .exchangePartition partition table (some true)
  if ← acceptKeywords [.without, .validation] then
    return .exchangePartition partition table (some false)
  return .exchangePartition partition table none

/-- Reads a clause behind the word `found`, whose keyword is the one given. -/
def parseAfter (found : Located) : Option Keyword → Parser AlterClause
  | some .add => parseAdd
  | some .alter => parseAlter
  | some .drop => parseDrop
  | some .modify => parseModify
  | some .change => parseChange
  | some .rename => parseRename
  | some .collate => parseCollate false
  | some .default => parseDefault
  | some .character => do
    let _ ← expectKeyword .set
    parseCharacterSet false
  | some .convert => parseConvert
  | some .lock => parseSetting .lock
  | some .algorithm => parseSetting .algorithm
  | some .engine => parseSetting .engine
  | some .keyBlockSize => do
    let equals ← acceptEquals
    return .keyBlockSize equals (← Literal.parseCount)
  | some .force => return .force
  | some .comment => do
    let equals ← acceptEquals
    return .comment equals (← Literal.parseString)
  | some .discard => parseTablespace .discardTablespace .discardTablespace
  | some .import => parseTablespace .importTablespace .importTablespace
  | some .disable => do
    let _ ← expectKeyword .keys
    return .disableKeys
  | some .enable => do
    let _ ← expectKeyword .keys
    return .enableKeys
  | some .truncate => parsePartitionCommand .truncate
  | some .analyze => parsePartitionCommand .analyze
  | some .check => parsePartitionCommand .check
  | some .optimize => parsePartitionCommand .optimize
  | some .rebuild => parsePartitionCommand .rebuild
  | some .repair => parsePartitionCommand .repair
  | some .coalesce => do
    let _ ← expectKeyword .partition
    return .coalescePartition (← Literal.parseCount)
  | some .reorganize => parseReorganize
  | some .exchange => parseExchange
  | some .remove => do
    let _ ← expectKeyword .partitioning
    return .removePartitioning
  | some .partition => do
    let _ ← expectKeyword .by
    return .partitionBy (← Partitioning.parse)
  | some .move => do
    back
    return .unspecific (← valueText)
  | some keyword =>
    if keyword ∈ tableOptions then do
      let equals ← acceptEquals
      return .tableOption ⟨keyword.name, equals, ← Expr.parse⟩
    else expected "an ALTER TABLE operation" found
  | none => expected "an ALTER TABLE operation" found

/-- Reads a clause. -/
def parse : Parser AlterClause := do
  let found ← next
  parseAfter found found.token.bareKeyword?

end AlterClause

namespace Alter

/-- Reads a statement behind `ALTER`. -/
def parse : Parser Alter := do
  let _ ← expectKeyword .table
  let ifExists ← acceptKeywords [.if, .exists]
  let only ← acceptKeyword .only
  let table ← ObjectName.parse
  return { ifExists, only, table, clauses := ← commaSeparatedWith false AlterClause.parse }

end Alter

end SchemaSql
