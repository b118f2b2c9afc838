import SchemaSql.Statement

/-!
# Walks — what a statement mentions, in order

A walk goes through a statement and reports when it enters and when it leaves a statement, the
name of a table or other object, and an expression.  Reports go to a function in any monad, so
that a walk can collect, count, or stop half way.
-/

namespace SchemaSql

/-- What a walk reports on. -/
inductive Node where
  | statement (s : Statement)
  /-- The name of a table or of another object; the name of a function is none. -/
  | relation (name : ObjectName)
  | expr (e : Expr)
  deriving DecidableEq, Repr, Inhabited

/-- The text of a node. -/
def Node.text : Node → String
  | .statement s => s.text
  | .relation name => name.text
  | .expr e => e.text

/-- A report of a walk. -/
inductive Event where
  | enter (node : Node)
  | leave (node : Node)
  deriving DecidableEq, Repr, Inhabited

section

variable {m : Type → Type} [Monad m] (visit : Event → m Unit)

/-- Reports a name, which has nothing inside it. -/
def ObjectName.walk (name : ObjectName) : m Unit := do
  visit (.enter (.relation name))
  visit (.leave (.relation name))

mutual

/-- Walks through an expression. -/
def Expr.walk : Expr → m Unit
  | e@(.binary left _ right) => do
    visit (.enter (.expr e))
    left.walk
    right.walk
    visit (.leave (.expr e))
  | e@(.unary _ operand) => do
    visit (.enter (.expr e))
    operand.walk
    visit (.leave (.expr e))
  | e@(.nested inner) => do
    visit (.enter (.expr e))
    inner.walk
    visit (.leave (.expr e))
  | e@(.call _ args) => do
    visit (.enter (.expr e))
    Expr.walkList args
    visit (.leave (.expr e))
  | e@(.isNull operand) => do
    visit (.enter (.expr e))
    operand.walk
    visit (.leave (.expr e))
  | e@(.isNotNull operand) => do
    visit (.enter (.expr e))
    operand.walk
    visit (.leave (.expr e))
  | e@(.inList operand items _) => do
    visit (.enter (.expr e))
    operand.walk
    Expr.walkList items
    visit (.leave (.expr e))
  | e@(.between operand _ low high) => do
    visit (.enter (.expr e))
    operand.walk
    low.walk
    high.walk
    visit (.leave (.expr e))
  | e@(.ident _) => do
    visit (.enter (.expr e))
    visit (.leave (.expr e))
  | e@(.compound _) => do
    visit (.enter (.expr e))
    visit (.leave (.expr e))
  | e@(.literal _) => do
    visit (.enter (.expr e))
    visit (.leave (.expr e))
  | e@.wildcard => do
    visit (.enter (.expr e))
    visit (.leave (.expr e))

/-- Walks through expressions in order. -/
def Expr.walkList : List Expr → m Unit
  | [] => pure ()
  | e :: rest => do
    e.walk
    Expr.walkList rest

end

/-- Walks through the constraint that a clause adds. -/
def TableConstraint.walk : TableConstraint → m Unit
  | .foreignKey key => key.referredTable.walk visit
  | .check _ condition => condition.walk visit
  | .index _ | .named _ _ => pure ()

/-- Walks through a clause. -/
def AlterClause.walk : AlterClause → m Unit
  | .addConstraint constraint => constraint.walk visit
  | .alterColumn _ _ (.setDefault value) => value.walk visit
  | .renameTable _ newName => newName.walk visit
  | .exchangePartition _ table _ => table.walk visit
  | .tableOption option => option.value.walk visit
  | .partitionBy partitioning =>
    match partitioning.key with
    | .expression e => e.walk visit
    | .columns _ _ => pure ()
  | _ => pure ()

/-- Walks through what is inside an `ALTER TABLE`. -/
def Alter.walk (alter : Alter) : m Unit := do
  alter.table.walk visit
  alter.clauses.forM (AlterClause.walk visit)

/-- Walks through one column of a result. -/
def SelectItem.walk : SelectItem → m Unit
  | .unnamed e | .aliased e _ => e.walk visit
  | .wildcard => pure ()

/-- Walks through what a query starts with. -/
def QueryBody.walk : QueryBody → m Unit
  | .select s => do
    s.projection.forM (SelectItem.walk visit)
    s.source.forM fun table => table.name.walk visit
    s.selection.forM (Expr.walk visit)
  | .from table => table.name.walk visit

/-- Walks through a pipe operator. -/
def PipeOperator.walk : PipeOperator → m Unit
  | .where condition => condition.walk visit
  | .select items | .extend items => items.forM (SelectItem.walk visit)
  | .limit count offset => do
    count.walk visit
    offset.forM (Expr.walk visit)
  | .orderBy items => items.forM fun item => item.expr.walk visit
  | .aggregate items groupBy => do
    items.forM (SelectItem.walk visit)
    groupBy.forM (SelectItem.walk visit)
  | .drop _ | .as _ | .rename _ => pure ()

/-- Walks through what is inside a query. -/
def Query.walk (query : Query) : m Unit := do
  query.body.walk visit
  query.pipes.forM (PipeOperator.walk visit)

/-- Walks through what is inside an `EXPLAIN`. -/
def Explain.walk (explain : Explain) : m Unit :=
  match explain.target with
  | .table name => name.walk visit
  | .query query => query.walk visit

/-- Walks through what is inside a `CREATE SYNONYM`. -/
def CreateSynonym.walk (s : CreateSynonym) : m Unit := do
  s.synonym.walk visit
  s.object.walk visit

/-- Walks through what is inside a statement. -/
def Statement.walkInside : Statement → m Unit
  | .alter s => s.walk visit
  | .explain s => s.walk visit
  | .createSynonym s => s.walk visit
  | .query s => s.walk visit

/-- Walks through a statement. -/
def Statement.walk (s : Statement) : m Unit := do
  visit (.enter (.statement s))
  s.walkInside visit
  visit (.leave (.statement s))

/-- Walks through statements in order. -/
def Statement.walkAll (statements : List Statement) : m Unit :=
  statements.forM (Statement.walk visit)

/-- Calls a function on every expression of a statement when it is entered. -/
def Statement.visitExpressions (f : Expr → m Unit) (s : Statement) : m Unit :=
  s.walk fun
    | .enter (.expr e) => f e
    | _ => pure ()

/-- Calls a function on every table or other object of a statement when it is entered. -/
def Statement.visitRelations (f : ObjectName → m Unit) (s : Statement) : m Unit :=
  s.walk fun
    | .enter (.relation name) => f name
    | _ => pure ()

end

namespace Event

variable {α : Type}

/-- Records what `pick` gives for a report, the last first, and stops the walk at the record
    with this number, counted from 1. -/
def record (pick : Event → Option α) (stopAt : Option Nat) (event : Event) :
    EStateM Unit (List α) Unit := do
  match pick event with
  | none => return ()
  | some entry =>
    modify (entry :: ·)
    if some (← get).length = stopAt then throw ()

/-- What a recording walk has recorded, in order, and whether it was stopped. -/
def recorded (walk : EStateM Unit (List α) Unit) : List α × Bool :=
  match walk [] with
  | .ok _ entries => (entries.reverse, false)
  | .error _ entries => (entries.reverse, true)

end Event

/-- Everything that a walk through a statement reports, in order. -/
def Statement.trace (s : Statement) : List Event :=
  (Event.recorded (s.walk (Event.record some none))).1

/-- Everything that a walk through statements reports, in order. -/
def Statement.traceAll (statements : List Statement) : List Event :=
  (Event.recorded (Statement.walkAll (Event.record some none) statements)).1

end SchemaSql
