import SchemaSql.Expr

/-!
# The nodes of an expression, from the root down
-/

namespace SchemaSql.Expr

/-- The expressions directly inside an expression, in the order of the text. -/
def children : Expr → List Expr
  | .binary left _ right => [left, right]
  | .unary _ operand | .nested operand | .isNull operand | .isNotNull operand => [operand]
  | .call _ args => args
  | .inList operand items _ => operand :: items
  | .between operand _ low high => [operand, low, high]
  | .ident _ | .compound _ | .literal _ | .wildcard => []

mutual

/-- Every node of an expression with its depth, a node in front of what is inside it. -/
def preorder (depth : Nat) : Expr → List (Nat × Expr)
  | e@(.binary left _ right) =>
    (depth, e) :: left.preorder (depth + 1) ++ right.preorder (depth + 1)
  | e@(.unary _ operand) => (depth, e) :: operand.preorder (depth + 1)
  | e@(.nested inner) => (depth, e) :: inner.preorder (depth + 1)
  | e@(.call _ args) => (depth, e) :: listPreorder (depth + 1) args
  | e@(.isNull operand) => (depth, e) :: operand.preorder (depth + 1)
  | e@(.isNotNull operand) => (depth, e) :: operand.preorder (depth + 1)
  | e@(.inList operand items _) =>
    (depth, e) :: operand.preorder (depth + 1) ++ listPreorder (depth + 1) items
  | e@(.between operand _ low high) =>
    (depth, e) :: operand.preorder (depth + 1) ++ low.preorder (depth + 1)
      ++ high.preorder (depth + 1)
  | e@(.ident _) => [(depth, e)]
  | e@(.compound _) => [(depth, e)]
  | e@(.literal _) => [(depth, e)]
  | e@.wildcard => [(depth, e)]

/-- The nodes of several expressions, one after the other. -/
def listPreorder (depth : Nat) : List Expr → List (Nat × Expr)
  | [] => []
  | e :: rest => e.preorder depth ++ listPreorder depth rest

end

end SchemaSql.Expr
