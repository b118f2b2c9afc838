import SchemaSql.Expr.Datum
import SchemaSql.Index.Datum
import SchemaSql.Query

/-!
# Data of queries
-/

namespace SchemaSql

instance : DataForm TableRef where
  toDatum table := .record [("name", toDatum table.name), ("alias", toDatum table.asName)]
  ofDatum? d := return ⟨← d.get? "name", ← d.get? "alias"⟩

instance : DataForm SelectItem where
  toDatum
    | .unnamed e => .case "UnnamedExpr" (toDatum e)
    | .aliased e asName =>
      .case "ExprWithAlias" (.record [("expr", toDatum e), ("alias", toDatum asName)])
    | .wildcard => .text "Wildcard"
  ofDatum? d := do
    match ← d.case? with
    | ("UnnamedExpr", c) => .unnamed <$> ofDatum? c
    | ("ExprWithAlias", c) => return .aliased (← c.get? "expr") (← c.get? "alias")
    | ("Wildcard", _) => return .wildcard
    | _ => none

instance : DataForm Select where
  toDatum s := .record [("distinct", toDatum s.distinct), ("projection", toDatum s.projection),
    ("from", toDatum s.source), ("selection", toDatum s.selection)]
  ofDatum? d := return ⟨← d.get? "distinct", ← d.get? "projection", ← d.get? "from",
    ← d.get? "selection"⟩

instance : DataForm QueryBody where
  toDatum
    | .select s => .case "Select" (toDatum s)
    | .from table => .case "From" (toDatum table)
  ofDatum? d := do
    match ← d.case? with
    | ("Select", c) => .select <$> ofDatum? c
    | ("From", c) => .from <$> ofDatum? c
    | _ => none

instance : DataForm OrderItem where
  toDatum item := .record [("expr", toDatum item.expr), ("asc", toDatum item.direction)]
  ofDatum? d := return ⟨← d.get? "expr", ← d.get? "asc"⟩

instance : DataForm Renaming where
  toDatum r := .record [("ident", toDatum r.name), ("alias", toDatum r.newName)]
  ofDatum? d := return ⟨← d.get? "ident", ← d.get? "alias"⟩

instance : DataForm PipeOperator where
  toDatum
    | .where condition => .case "Where" (.record [("expr", toDatum condition)])
    | .select items => .case "Select" (.record [("exprs", toDatum items)])
    | .extend items => .case "Extend" (.record [("exprs", toDatum items)])
    | .drop columns => .case "Drop" (.record [("columns", toDatum columns)])
    | .as asName => .case "As" (.record [("alias", toDatum asName)])
    | .limit count offset =>
      .case "Limit" (.record [("expr", toDatum count), ("offset", toDatum offset)])
    | .orderBy items => .case "OrderBy" (.record [("exprs", toDatum items)])
    | .rename renamings => .case "Rename" (.record [("mappings", toDatum renamings)])
    | .aggregate items groupBy =>
      .case "Aggregate"
        (.record [("full_table_exprs", toDatum items), ("group_by_expr", toDatum groupBy)])
  ofDatum? d := do
    match ← d.case? with
    | ("Where", c) => .where <$> c.get? "expr"
    | ("Select", c) => .select <$> c.get? "exprs"
    | ("Extend", c) => .extend <$> c.get? "exprs"
    | ("Drop", c) => .drop <$> c.get? "columns"
    | ("As", c) => .as <$> c.get? "alias"
    | ("Limit", c) => return .limit (← c.get? "expr") (← c.get? "offset")
    | ("OrderBy", c) => .orderBy <$> c.get? "exprs"
    | ("Rename", c) => .rename <$> c.get? "mappings"
    | ("Aggregate", c) =>
      return .aggregate (← c.get? "full_table_exprs") (← c.get? "group_by_expr")
    | _ => none

instance : DataForm Query where
  toDatum query := .record [("body", toDatum query.body), ("pipe_operators", toDatum query.pipes)]
  ofDatum? d := return ⟨← d.get? "body", ← d.get? "pipe_operators"⟩

end SchemaSql
