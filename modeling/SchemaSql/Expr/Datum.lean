import SchemaSql.Expr
import SchemaSql.Ident.Datum
import SchemaSql.Literal.Datum

/-!
# Data of expressions

An expression is read level by level; what is inside a node is nested more deeply in the data
than the node, so the depth of the data bounds the levels.
-/

namespace SchemaSql

instance : Named UnaryOp where
  names := [(.plus, "Plus"), (.minus, "Minus"), (.not, "Not")]

instance : Named BinaryOp where
  names :=
    [(.plus, "Plus"), (.minus, "Minus"), (.multiply, "Multiply"), (.divide, "Divide"),
     (.modulo, "Modulo"), (.concat, "StringConcat"), (.gt, "Gt"), (.lt, "Lt"), (.gtEq, "GtEq"),
     (.ltEq, "LtEq"), (.spaceship, "Spaceship"), (.eq, "Eq"), (.notEq, "NotEq"), (.and, "And"),
     (.or, "Or"), (.bitwiseOr, "BitwiseOr"), (.bitwiseAnd, "BitwiseAnd"),
     (.bitwiseXor, "BitwiseXor")]

namespace Expr

mutual

/-- The neutral form of an expression. -/
def datum : Expr → Datum
  | .ident name => .case "Identifier" (toDatum name)
  | .compound parts => .case "CompoundIdentifier" (toDatum parts)
  | .literal value => .case "Value" (toDatum value)
  | .binary left op right =>
    .case "BinaryOp" (.record [("left", left.datum), ("op", toDatum op), ("right", right.datum)])
  | .unary op operand =>
    .case "UnaryOp" (.record [("op", toDatum op), ("expr", operand.datum)])
  | .nested inner => .case "Nested" inner.datum
  | .call function args =>
    .case "Function" (.record [("name", toDatum function), ("args", .list (listDatum args))])
  | .isNull operand => .case "IsNull" operand.datum
  | .isNotNull operand => .case "IsNotNull" operand.datum
  | .inList operand items negated =>
    .case "InList" (.record [("expr", operand.datum), ("list", .list (listDatum items)),
      ("negated", toDatum negated)])
  | .between operand negated low high =>
    .case "Between" (.record [("expr", operand.datum), ("negated", toDatum negated),
      ("low", low.datum), ("high", high.datum)])
  | .wildcard => .text "Wildcard"

/-- The neutral forms of several expressions. -/
def listDatum : List Expr → List Datum
  | [] => []
  | e :: rest => e.datum :: listDatum rest

end

/-- Reads an expression of at most so many levels. -/
def ofDatumAt? : Nat → Datum → Option Expr
  | 0, _ => none
  | level + 1, d => do
    let inside (d : Datum) (name : String) : Option Expr := ofDatumAt? level (d.field name)
    let insideAll (d : Datum) (name : String) : Option (List Expr) := do
      let .list items := d.field name | none
      items.mapM (ofDatumAt? level)
    match ← d.case? with
    | ("Identifier", c) => .ident <$> ofDatum? c
    | ("CompoundIdentifier", c) => .compound <$> ofDatum? c
    | ("Value", c) => .literal <$> ofDatum? c
    | ("BinaryOp", c) => return .binary (← inside c "left") (← c.get? "op") (← inside c "right")
    | ("UnaryOp", c) => return .unary (← c.get? "op") (← inside c "expr")
    | ("Nested", c) => .nested <$> ofDatumAt? level c
    | ("Function", c) => return .call (← c.get? "name") (← insideAll c "args")
    | ("IsNull", c) => .isNull <$> ofDatumAt? level c
    | ("IsNotNull", c) => .isNotNull <$> ofDatumAt? level c
    | ("InList", c) =>
      return .inList (← inside c "expr") (← insideAll c "list") (← c.get? "negated")
    | ("Between", c) =>
      return .between (← inside c "expr") (← c.get? "negated") (← inside c "low")
        (← inside c "high")
    | ("Wildcard", _) => return .wildcard
    | _ => none

end Expr

instance : DataForm Expr where
  toDatum := Expr.datum
  ofDatum? d := Expr.ofDatumAt? d.depth d

end SchemaSql
