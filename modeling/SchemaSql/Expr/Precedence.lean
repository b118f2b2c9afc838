import SchemaSql.Expr

/-!
# Precedence — which operators bind tighter

A token is an operator with a precedence or it ends the expression.  Both what an operator
means and how tight it binds are read off the one table of binary operators, so the reader
that asks for a precedence and the one that reads the operator cannot disagree.
-/

namespace SchemaSql

/-- The precedence of an operator: a larger one binds tighter. -/
def BinaryOp.precedence : BinaryOp → Nat
  | .or => 5
  | .and => 10
  | .gt | .lt | .gtEq | .ltEq | .spaceship | .eq | .notEq => 20
  | .bitwiseOr => 21
  | .bitwiseXor => 22
  | .bitwiseAnd => 23
  | .plus | .minus => 30
  | .multiply | .divide | .modulo | .concat => 40

namespace Precedence

/-- The precedence of `NOT` in front of an operand. -/
def not : Nat := 15

/-- The precedence of `IS NULL` and `IS NOT NULL`. -/
def is : Nat := 17

/-- The precedence of `IN` and `BETWEEN`, negated or not. -/
def range : Nat := 20

/-- The precedence of a sign in front of an operand. -/
def sign : Nat := 50

end Precedence

namespace Token

/-- The operator that a token stands for between two operands. -/
def binaryOp? : Token → Option BinaryOp
  | .spaceship => some .spaceship
  | .doubleEq | .eq => some .eq
  | .neq => some .notEq
  | .gt => some .gt
  | .gtEq => some .gtEq
  | .lt => some .lt
  | .ltEq => some .ltEq
  | .plus => some .plus
  | .minus => some .minus
  | .mul => some .multiply
  | .mod => some .modulo
  | .concat => some .concat
  | .pipe => some .bitwiseOr
  | .caret => some .bitwiseXor
  | .ampersand => some .bitwiseAnd
  | .div => some .divide
  | .word w => match w.keyword with
    | some .and => some .and
    | some .or => some .or
    | _ => none
  | _ => none

/-- How tight a token binds to the operand in front of it, `following` being the token behind
    it; 0 if it is no operator.  `NOT` is one only in front of `IN` or `BETWEEN`. -/
def precedence (token following : Token) : Nat :=
  match token.binaryOp? with
  | some op => op.precedence
  | none => match token.keyword? with
    | some .is => Precedence.is
    | some .in | some .between => Precedence.range
    | some .not => match following.keyword? with
      | some .in | some .between => Precedence.range
      | _ => 0
    | _ => 0

end Token

end SchemaSql
