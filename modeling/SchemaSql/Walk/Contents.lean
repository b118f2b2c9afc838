import SchemaSql.Walk

/-!
# Contents — what a statement stores

The names of tables and other objects and the expressions that a statement is made of, in the
order of its fields.  Every constructor has a line of its own, so that a new one has to say what
it stores.  The name of a function is no name of an object, and is left out.
-/

namespace SchemaSql

namespace Node

/-- The expression that a node is. -/
def expr? : Node → Option Expr
  | .expr e => some e
  | .statement _ | .relation _ => none

/-- The name that a node is. -/
def relation? : Node → Option ObjectName
  | .relation name => some name
  | .statement _ | .expr _ => none

end Node

mutual

/-- An expression and the expressions in it. -/
def Expr.contents (e : Expr) : List Node :=
  .expr e :: match e with
    | .binary left _ right => left.contents ++ right.contents
    | .unary _ operand => operand.contents
    | .nested inner => inner.contents
    | .call _ args => Expr.listContents args
    | .isNull operand => operand.contents
    | .isNotNull operand => operand.contents
    | .inList operand items _ => operand.contents ++ Expr.listContents items
    | .between operand _ low high => operand.contents ++ low.contents ++ high.contents
    | .ident _ => []
    | .compound _ => []
    | .literal _ => []
    | .wildcard => []

/-- The expressions in a list of expressions. -/
def Expr.listContents : List Expr → List Node
  | [] => []
  | e :: rest => e.contents ++ Expr.listContents rest

end

/-- What an action on a column stores. -/
def ColumnAction.contents : ColumnAction → List Node
  | .setDefault value => value.contents
  | .setDataType _ _ => []
  | .dropDefault => []
  | .setNotNull => []
  | .dropNotNull => []
  | .setVisible _ => []
  | .setOptions _ => []

/-- What a constraint stores. -/
def TableConstraint.contents : TableConstraint → List Node
  | .foreignKey key => [.relation key.referredTable]
  | .check _ condition => condition.contents
  | .index _ => []
  | .named _ _ => []

/-- What a partition key stores. -/
def PartitionKey.contents : PartitionKey → List Node
  | .expression e => e.contents
  | .columns _ _ => []

/-- What a clause stores. -/
def AlterClause.contents : AlterClause → List Node
  | .addConstraint constraint => constraint.contents
  | .alterColumn _ _ action => action.contents
  | .renameTable _ newName => [.relation newName]
  | .exchangePartition _ table _ => [.relation table]
  | .tableOption option => option.value.contents
  | .partitionBy partitioning => partitioning.key.contents
  | .addColumns _ _ _ _ => []
  | .addPartition _ => []
  | .alterIndex _ _ => []
  | .alterConstraint _ _ _ => []
  | .dropColumn _ _ _ _ => []
  | .dropConstraint _ _ _ => []
  | .dropIndex _ _ => []
  | .dropPrimaryKey => []
  | .dropUnique _ => []
  | .dropForeignKey _ _ => []
  | .modify _ _ _ => []
  | .change _ _ _ => []
  | .renameColumn _ _ _ => []
  | .renameObject _ _ _ => []
  | .comment _ _ => []
  | .collate _ _ _ => []
  | .convert _ _ _ _ _ => []
  | .setting _ _ _ => []
  | .keyBlockSize _ _ => []
  | .force => []
  | .discardTablespace => []
  | .importTablespace => []
  | .disableKeys => []
  | .enableKeys => []
  | .onPartitions _ _ => []
  | .coalescePartition _ => []
  | .reorganizePartition _ _ => []
  | .removePartitioning => []
  | .unspecific _ => []

/-- What an `ALTER TABLE` stores. -/
def Alter.contents (alter : Alter) : List Node :=
  .relation alter.table :: alter.clauses.flatMap AlterClause.contents

/-- What an item of a query stores. -/
def SelectItem.contents : SelectItem → List Node
  | .unnamed e => e.contents
  | .aliased e _ => e.contents
  | .wildcard => []

/-- What a table reference stores. -/
def TableRef.contents (table : TableRef) : List Node := [.relation table.name]

/-- What the start of a query stores. -/
def QueryBody.contents : QueryBody → List Node
  | .select s =>
    s.projection.flatMap SelectItem.contents
      ++ (s.source.toList.flatMap TableRef.contents
        ++ s.selection.toList.flatMap Expr.contents)
  | .from table => table.contents

/-- What a pipe operator stores. -/
def PipeOperator.contents : PipeOperator → List Node
  | .where condition => condition.contents
  | .select items => items.flatMap SelectItem.contents
  | .extend items => items.flatMap SelectItem.contents
  | .limit count offset => count.contents ++ offset.toList.flatMap Expr.contents
  | .orderBy items => items.flatMap fun item => item.expr.contents
  | .aggregate items groupBy =>
    items.flatMap SelectItem.contents ++ groupBy.flatMap SelectItem.contents
  | .drop _ => []
  | .as _ => []
  | .rename _ => []

/-- What a query stores. -/
def Query.contents (query : Query) : List Node :=
  query.body.contents ++ query.pipes.flatMap PipeOperator.contents

/-- What an `EXPLAIN` stores. -/
def Explain.contents (explain : Explain) : List Node :=
  match explain.target with
  | .table name => [.relation name]
  | .query query => query.contents

/-- What a `CREATE SYNONYM` stores. -/
def CreateSynonym.contents (s : CreateSynonym) : List Node :=
  [.relation s.synonym, .relation s.object]

namespace Statement

/-- What a statement stores. -/
def contents : Statement → List Node
  | .alter s => s.contents
  | .explain s => s.contents
  | .createSynonym s => s.contents
  | .query s => s.contents

/-- The expressions that a statement stores. -/
def exprs (s : Statement) : List Expr := s.contents.filterMap Node.expr?

/-- The names of tables and other objects that a statement stores. -/
def relations (s : Statement) : List ObjectName := s.contents.filterMap Node.relation?

end Statement

end SchemaSql
