import SchemaSql.Alter
import SchemaSql.Explain
import SchemaSql.Synonym

/-!
# Emission — a text passed on while it is made

A printer need not build a text: it can pass it on piece by piece, to whatever takes it.  The
pieces go to a function in any monad, and one that fails ends the emission there.  A piece is
a word, a name or a sign; between quotes it is a single character, since each one is escaped
on its own.  An empty piece stands in front of the first item of a list, and wherever a word
that may be missing is missing.
-/

namespace SchemaSql

section

variable {m : Type → Type} [Monad m] (put : String → m Unit)

namespace Text

/-- Passes on items in order, each behind a piece: `lead` in front of the first one, and
    `separator` in front of the others. -/
def emitItems {α : Type} (separator : String) (emit : α → m Unit) :
    (lead : String) → List α → m Unit
  | _, [] => pure ()
  | lead, item :: rest => do
    put lead
    emit item
    emitItems separator emit separator rest

/-- Passes on items with `separator` between two of them. -/
def emitSeparated {α : Type} (separator : String) (emit : α → m Unit) (items : List α) : m Unit :=
  emitItems put separator emit "" items

/-- Passes on what stands between two `quote`s, character by character. -/
def emitEscaped (quote : Char) (s : String) : m Unit :=
  (escapeFrom quote '\x00' s.toList).forM fun c => put c.toString

/-- Passes on a text between two quotes. -/
def emitEnclosed (quote : Char) (s : String) : m Unit := do
  put quote.toString
  emitEscaped put quote s
  put quote.toString

/-- Passes on something that may be left out. -/
def emitIf (present : Bool) (emit : m Unit) : m Unit := if present then emit else pure ()

end Text

open Text

/-! ## Names, literals and expressions -/

/-- Passes on an identifier. -/
def Ident.emit (ident : Ident) : m Unit :=
  match ident.quote with
  | none => put ident.value
  | some q =>
    if q = '"' ∨ q = '\'' ∨ q = '\x60' then emitEnclosed put q ident.value
    else do
      put q.toString
      put ident.value
      put (closingQuote q).toString

/-- Passes on identifiers with a comma and a space between two of them. -/
def Ident.emitList (idents : List Ident) : m Unit := emitSeparated put ", " (Ident.emit put) idents

/-- Passes on a path of identifiers. -/
def ObjectName.emit (name : ObjectName) : m Unit :=
  emitSeparated put "." (Ident.emit put) name.parts

/-- Passes on a literal. -/
def Literal.emit : Literal → m Unit
  | .number digits long => do
    put digits
    put (if long then "L" else "")
  | .singleQuoted value => emitEnclosed put '\'' value
  | .doubleQuoted value => emitEnclosed put '"' value
  | .boolean b => put (if b then "TRUE" else "FALSE")
  | .null => put "NULL"

mutual

/-- Passes on an expression. -/
def Expr.emit : Expr → m Unit
  | .ident name => name.emit put
  | .compound parts => emitSeparated put "." (Ident.emit put) parts
  | .literal value => value.emit put
  | .binary left op right => do
    left.emit
    put " "
    put op.text
    put " "
    right.emit
  | .unary op operand => do
    put op.text
    emitIf (op == .not) (put " ")
    operand.emit
  | .nested inner => do
    put "("
    inner.emit
    put ")"
  | .call function args => do
    function.emit put
    put "("
    Expr.emitItems "" args
    put ")"
  | .isNull operand => do
    operand.emit
    put " IS NULL"
  | .isNotNull operand => do
    operand.emit
    put " IS NOT NULL"
  | .inList operand items negated => do
    operand.emit
    put " "
    put (negation negated)
    put "IN ("
    Expr.emitItems "" items
    put ")"
  | .between operand negated low high => do
    operand.emit
    put " "
    put (negation negated)
    put "BETWEEN "
    low.emit
    put " AND "
    high.emit
  | .wildcard => put "*"

/-- Passes on expressions with commas between them, and `lead` in front of the first one. -/
def Expr.emitItems : (lead : String) → List Expr → m Unit
  | _, [] => pure ()
  | lead, e :: rest => do
    put lead
    e.emit
    Expr.emitItems ", " rest

end

/-! ## Columns, indexes, constraints and partitions -/

/-- Passes on the arguments of a type. -/
def DataType.emitArguments (arguments : List String) : m Unit :=
  emitIf (!arguments.isEmpty) do
    put " ("
    emitSeparated put ", " put arguments
    put ")"

/-- Passes on a type. -/
def DataType.emit : DataType → m Unit
  | .plain name arguments => do
    put name
    emitArguments put arguments
  | .collection name element arguments => do
    put name
    put "<"
    element.emit
    put ">"
    emitArguments put arguments

/-- Passes on a column definition. -/
def ColumnDefinition.emit (column : ColumnDefinition) : m Unit := do
  put column.keyword.lead
  column.name.emit put
  column.dataType.forM fun t => do
    put " "
    t.emit put
  column.specs.forM fun spec => do
    put " "
    put spec

/-- Passes on what is done to a column. -/
def ColumnAction.emit : ColumnAction → m Unit
  | .setDataType dataType setData => do
    emitIf setData (put "SET DATA ")
    put "TYPE "
    dataType.emit put
  | .setDefault value => do
    put "SET DEFAULT "
    value.emit put
  | .dropDefault => put "DROP DEFAULT"
  | .setNotNull => put "SET NOT NULL"
  | .dropNotNull => put "DROP NOT NULL"
  | .setVisible visible => put (if visible then "SET VISIBLE" else "SET INVISIBLE")
  | .setOptions options => do
    put "SET OPTIONS "
    put options

/-- Passes on the direction behind a column or an expression. -/
def Direction.emitTrailer : Option Direction → m Unit
  | some .ascending => put " ASC"
  | some .descending => put " DESC"
  | none => pure ()

/-- Passes on a column of an index. -/
def IndexColumn.emit (column : IndexColumn) : m Unit := do
  column.name.emit put
  column.length.forM fun n => do
    put "("
    put n
    put ")"
  Direction.emitTrailer put column.direction

/-- Passes on the words an index starts with. -/
def Index.emitHead (index : Index) : m Unit :=
  let keyword := match index.keyword with
    | some k => " " ++ k.text
    | none => ""
  match index.kind with
  | .plain => put (index.keyword.getD .index).text
  | .primary => put "PRIMARY KEY"
  | .unique => do
    put "UNIQUE"
    put keyword
  | .fulltext => do
    put "FULLTEXT"
    put keyword
  | .spatial => do
    put "SPATIAL"
    put keyword

/-- Passes on the states of a constraint, each behind a space. -/
def ConstraintState.emitList (states : List ConstraintState) : m Unit :=
  states.forM fun state => do
    put " "
    put state.text

/-- Passes on an index. -/
def Index.emit (index : Index) : m Unit := do
  index.emitHead put
  index.name.forM fun name => do
    put " "
    name.emit put
  index.method.forM fun method => do
    put " USING "
    method.emit put
  emitIf (!index.columns.isEmpty) do
    emitIf (!index.abutsColumns) (put " ")
    put "("
    emitSeparated put ", " (IndexColumn.emit put) index.columns
    put ")"
  index.specs.forM fun spec => do
    put " "
    put spec
  ConstraintState.emitList put index.states

/-- Passes on the name of a constraint. -/
def TableConstraint.emitName (name : Option Ident) : m Unit :=
  name.forM fun name => do
    put "CONSTRAINT "
    name.emit put
    put " "

/-- Passes on a foreign key. -/
def ForeignKey.emit (key : ForeignKey) : m Unit := do
  TableConstraint.emitName put key.name
  put "FOREIGN KEY ("
  Ident.emitList put key.columns
  put ") REFERENCES "
  key.referredTable.emit put
  emitIf (!key.referredColumns.isEmpty) do
    put (if key.name.isSome then "" else " ")
    put "("
    Ident.emitList put key.referredColumns
    put ")"
  key.rules.forM fun rule => do
    put " "
    put rule.event.text
    put " "
    put rule.action.text
  ConstraintState.emitList put key.states

/-- Passes on a constraint. -/
def TableConstraint.emit : TableConstraint → m Unit
  | .index definition => definition.emit put
  | .named name definition => do
    put "CONSTRAINT "
    name.forM fun name => do
      name.emit put
      put " "
    definition.emit put
  | .foreignKey key => key.emit put
  | .check name condition => do
    TableConstraint.emitName put name
    put "CHECK ("
    condition.emit put
    put ")"

/-- Passes on the storage engine of a partition. -/
def PartitionEngine.emit (engine : PartitionEngine) : m Unit := do
  put (if engine.storage then " STORAGE" else "")
  put " ENGINE"
  put (equalsText engine.equals)
  put " "
  engine.name.emit put

/-- Passes on a partition. -/
def PartitionDefinition.emit (partition : PartitionDefinition) : m Unit := do
  put "PARTITION "
  partition.name.emit put
  partition.bound.forM fun bound => do
    put " "
    put bound.text
    put " ("
    emitSeparated put ", " put partition.values
    put ")"
  partition.engine.forM (PartitionEngine.emit put)

/-- Passes on partitions with commas between them. -/
def PartitionDefinition.emitList (partitions : List PartitionDefinition) : m Unit :=
  emitSeparated put ", " (PartitionDefinition.emit put) partitions

/-- Passes on what rows are assigned by. -/
def PartitionKey.emit : PartitionKey → m Unit
  | .expression e => do
    put " ("
    e.emit put
    put ")"
  | .columns keyword names => do
    put (if keyword then " COLUMNS(" else " (")
    Ident.emitList put names
    put ")"

/-- Passes on how a table is partitioned. -/
def Partitioning.emit (partitioning : Partitioning) : m Unit := do
  put "PARTITION BY "
  emitIf partitioning.linear (put "LINEAR ")
  put partitioning.method.text
  partitioning.key.emit put
  partitioning.count.forM fun n => do
    put " PARTITIONS "
    put (toString n)
  emitIf (!partitioning.partitions.isEmpty) do
    put " ("
    PartitionDefinition.emitList put partitioning.partitions
    put ")"

/-! ## ALTER TABLE -/

/-- Passes on a table option. -/
def TableOption.emit (option : TableOption) : m Unit := do
  put option.name
  put (equalsText option.equals)
  put " "
  option.value.emit put

/-- Passes on the collation behind a character set. -/
def CharacterSetCollation.emitTrailer (collation : Option CharacterSetCollation) : m Unit :=
  collation.forM fun c => do
    put " COLLATE"
    put (equalsText c.equals)
    put " "
    c.collation.emit put

/-- Passes on what happens to what depends on a dropped object. -/
def DropBehavior.emitTrailer (behavior : Option DropBehavior) : m Unit :=
  behavior.forM fun behavior => do
    put " "
    put behavior.text

namespace AlterClause

/-- Passes on a list of columns, in parentheses if it was written so. -/
def emitColumns (columns : List ColumnDefinition) (parenthesized : Bool) : m Unit := do
  emitIf parenthesized (put "(")
  emitSeparated put ", " (ColumnDefinition.emit put) columns
  emitIf parenthesized (put ")")

/-- Passes on the words `COMMAND PARTITION` and the names of the partitions. -/
def emitPartitions (verb : String) (partitions : List Ident) : m Unit := do
  put verb
  put " PARTITION "
  Ident.emitList put partitions

/-- Passes on a clause. -/
def emit : AlterClause → m Unit
  | .addColumns keyword ifNotExists parenthesized columns => do
    put "ADD "
    put keyword.lead
    emitIf ifNotExists (put "IF NOT EXISTS ")
    emitColumns put columns parenthesized
  | .addConstraint constraint => do
    put "ADD "
    constraint.emit put
  | .addPartition partitions => do
    put "ADD PARTITION ("
    PartitionDefinition.emitList put partitions
    put ")"
  | .alterColumn keyword name action => do
    put "ALTER "
    put keyword.lead
    name.emit put
    put " "
    action.emit put
  | .alterIndex name visible => do
    put "ALTER INDEX "
    name.emit put
    put " "
    put (visibility visible)
  | .alterConstraint keyword name enforced => do
    put "ALTER "
    put keyword.text
    put " "
    name.emit put
    put " "
    put (negation (!enforced))
    put "ENFORCED"
  | .dropColumn keyword ifExists name behavior => do
    put "DROP "
    put keyword.lead
    emitIf ifExists (put "IF EXISTS ")
    name.emit put
    DropBehavior.emitTrailer put behavior
  | .dropConstraint ifExists name behavior => do
    put "DROP CONSTRAINT "
    emitIf ifExists (put "IF EXISTS ")
    name.emit put
    DropBehavior.emitTrailer put behavior
  | .dropIndex keyword name => do
    put "DROP "
    put keyword.text
    put " "
    name.emit put
  | .dropPrimaryKey => put "DROP PRIMARY KEY"
  | .dropUnique columns => do
    put "DROP UNIQUE ("
    Ident.emitList put columns
    put ")"
  | .dropForeignKey name columns => do
    put "DROP FOREIGN KEY"
    name.forM fun name => do
      put " "
      name.emit put
    emitIf (!columns.isEmpty) do
      put " ("
      Ident.emitList put columns
      put ")"
  | .modify keyword parenthesized columns => do
    put "MODIFY "
    put keyword.lead
    emitColumns put columns parenthesized
  | .change keyword oldName column => do
    put "CHANGE "
    put keyword.lead
    oldName.emit put
    put " "
    column.emit put
  | .renameColumn keyword oldName newName => do
    put "RENAME "
    put keyword.lead
    oldName.emit put
    put " TO "
    newName.emit put
  | .renameObject kind oldName newName => do
    put "RENAME "
    put kind.text
    put " "
    oldName.emit put
    put " TO "
    newName.emit put
  | .renameTable asKeyword newName => do
    put "RENAME "
    put (if asKeyword then "AS" else "TO")
    put " "
    newName.emit put
  | .comment equals text => do
    put "COMMENT"
    put (equalsText equals)
    put " "
    text.emit put
  | .collate default equals collation => do
    emitIf default (put "DEFAULT ")
    put "COLLATE"
    put (equalsText equals)
    put " "
    collation.emit put
  | .convert convertTo default equals charset collation => do
    if convertTo then put "CONVERT TO CHARACTER SET "
    else do
      emitIf default (put "DEFAULT ")
      put "CHARACTER SET"
      put (equalsText equals)
      put " "
    charset.emit put
    CharacterSetCollation.emitTrailer put collation
  | .setting kind equals value => do
    put kind.text
    put (equalsText equals)
    put " "
    value.emit put
  | .keyBlockSize equals size => do
    put "KEY_BLOCK_SIZE"
    put (equalsText equals)
    put " "
    put (toString size)
  | .force => put "FORCE"
  | .tableOption option => option.emit put
  | .discardTablespace => put "DISCARD TABLESPACE"
  | .importTablespace => put "IMPORT TABLESPACE"
  | .disableKeys => put "DISABLE KEYS"
  | .enableKeys => put "ENABLE KEYS"
  | .onPartitions command partitions => do
    emitPartitions put command.verb partitions
    emitIf (command.trailer != "") (put command.trailer)
  | .coalescePartition count => do
    put "COALESCE PARTITION "
    put (toString count)
  | .reorganizePartition partitions into => do
    emitPartitions put "REORGANIZE" partitions
    put " INTO ("
    PartitionDefinition.emitList put into
    put ")"
  | .exchangePartition partition table validation => do
    put "EXCHANGE PARTITION "
    partition.emit put
    put " WITH TABLE "
    table.emit put
    validation.forM fun validation =>
      put (if validation then " WITH VALIDATION" else " WITHOUT VALIDATION")
  | .removePartitioning => put "REMOVE PARTITIONING"
  | .partitionBy partitioning => partitioning.emit put
  | .unspecific text => put text

end AlterClause

/-- Passes on an `ALTER TABLE`. -/
def Alter.emit (alter : Alter) : m Unit := do
  put "ALTER TABLE "
  emitIf alter.ifExists (put "IF EXISTS ")
  emitIf alter.only (put "ONLY ")
  alter.table.emit put
  emitIf (!alter.clauses.isEmpty) do
    put " "
    emitSeparated put ", " (AlterClause.emit put) alter.clauses

/-! ## Queries and the other statements -/

/-- Passes on a table reference. -/
def TableRef.emit (table : TableRef) : m Unit := do
  table.name.emit put
  table.asName.forM fun asName => do
    put " AS "
    asName.emit put

/-- Passes on an item of a query. -/
def SelectItem.emit : SelectItem → m Unit
  | .unnamed e => e.emit put
  | .aliased e asName => do
    e.emit put
    put " AS "
    asName.emit put
  | .wildcard => put "*"

/-- Passes on items of a query with commas between them. -/
def SelectItem.emitList (items : List SelectItem) : m Unit :=
  emitSeparated put ", " (SelectItem.emit put) items

/-- Passes on an expression that rows are sorted by. -/
def OrderItem.emit (item : OrderItem) : m Unit := do
  item.expr.emit put
  Direction.emitTrailer put item.direction

/-- Passes on a column and its new name. -/
def Renaming.emit (r : Renaming) : m Unit := do
  r.name.emit put
  put " AS "
  r.newName.emit put

/-- Passes on a pipe operator. -/
def PipeOperator.emit : PipeOperator → m Unit
  | .where condition => do
    put "WHERE "
    condition.emit put
  | .select items => do
    put "SELECT "
    SelectItem.emitList put items
  | .extend items => do
    put "EXTEND "
    SelectItem.emitList put items
  | .drop columns => do
    put "DROP "
    Ident.emitList put columns
  | .as asName => do
    put "AS "
    asName.emit put
  | .limit count offset => do
    put "LIMIT "
    count.emit put
    offset.forM fun offset => do
      put " OFFSET "
      offset.emit put
  | .orderBy items => do
    put "ORDER BY "
    emitSeparated put ", " (OrderItem.emit put) items
  | .rename renamings => do
    put "RENAME "
    emitSeparated put ", " (Renaming.emit put) renamings
  | .aggregate items groupBy => do
    put "AGGREGATE"
    emitIf (!items.isEmpty) do
      put " "
      SelectItem.emitList put items
    emitIf (!groupBy.isEmpty) do
      put " GROUP BY "
      SelectItem.emitList put groupBy

/-- Passes on what a query starts with. -/
def QueryBody.emit : QueryBody → m Unit
  | .select s => do
    put "SELECT "
    emitIf s.distinct (put "DISTINCT ")
    SelectItem.emitList put s.projection
    s.source.forM fun table => do
      put " FROM "
      table.emit put
    s.selection.forM fun condition => do
      put " WHERE "
      condition.emit put
  | .from table => do
    put "FROM "
    table.emit put

/-- Passes on a query. -/
def Query.emit (query : Query) : m Unit := do
  query.body.emit put
  query.pipes.forM fun pipe => do
    put " |> "
    pipe.emit put

/-- Passes on a setting of an explanation. -/
def ExplainOption.emit (option : ExplainOption) : m Unit := do
  put option.kind.text
  option.value.forM fun value => do
    put " "
    put value

/-- Passes on an `EXPLAIN`. -/
def Explain.emit (explain : Explain) : m Unit := do
  put explain.keyword.text
  match explain.target with
  | .table name => do
    put " "
    name.emit put
  | .query query => do
    explain.options.forM fun option => do
      put " "
      option.emit put
    put " "
    query.emit put

/-- Passes on a `CREATE SYNONYM`. -/
def CreateSynonym.emit (s : CreateSynonym) : m Unit := do
  put "CREATE "
  emitIf s.orReplace (put "OR REPLACE ")
  emitIf s.isPublic (put "PUBLIC ")
  put "SYNONYM "
  s.synonym.emit put
  put " FOR "
  s.object.emit put

end

end SchemaSql
