import SchemaSql.Ident
import SchemaSql.Literal

/-!
# Expressions

Expressions are read without regard to types: `Expr` is the tree that the precedence of the
operators gives a text, and parentheses are nodes of it.  Equality of expressions is decided
here by hand, since an expression contains lists of expressions.
-/

namespace SchemaSql

/-- An operator in front of its operand. -/
inductive UnaryOp where
  | plus | minus | not
  deriving DecidableEq, Repr, Inhabited

/-- The text of the operator. -/
def UnaryOp.text : UnaryOp → String
  | .plus => "+"
  | .minus => "-"
  | .not => "NOT"

/-- An operator between two operands. -/
inductive BinaryOp where
  | plus | minus | multiply | divide | modulo | concat
  | gt | lt | gtEq | ltEq | spaceship | eq | notEq
  | and | or
  | bitwiseOr | bitwiseAnd | bitwiseXor
  deriving DecidableEq, Repr, Inhabited

/-- The text of the operator. -/
def BinaryOp.text : BinaryOp → String
  | .plus => "+"
  | .minus => "-"
  | .multiply => "*"
  | .divide => "/"
  | .modulo => "%"
  | .concat => "||"
  | .gt => ">"
  | .lt => "<"
  | .gtEq => ">="
  | .ltEq => "<="
  | .spaceship => "<=>"
  | .eq => "="
  | .notEq => "<>"
  | .and => "AND"
  | .or => "OR"
  | .bitwiseOr => "|"
  | .bitwiseAnd => "&"
  | .bitwiseXor => "^"

/-- An expression. -/
inductive Expr where
  | ident (name : Ident)
  /-- A path such as `t.a`. -/
  | compound (parts : List Ident)
  | literal (value : Literal)
  | binary (left : Expr) (op : BinaryOp) (right : Expr)
  | unary (op : UnaryOp) (operand : Expr)
  /-- An expression in parentheses. -/
  | nested (inner : Expr)
  | call (function : ObjectName) (args : List Expr)
  | isNull (operand : Expr)
  | isNotNull (operand : Expr)
  | inList (operand : Expr) (items : List Expr) (negated : Bool)
  | between (operand : Expr) (negated : Bool) (low high : Expr)
  /-- The `*` of `COUNT(*)`. -/
  | wildcard
  deriving Repr, Inhabited

namespace Expr

/-! ## Equality -/

mutual

/-- Whether two expressions are the same. -/
def beq : Expr → Expr → Bool
  | .ident a, .ident b => a == b
  | .compound a, .compound b => a == b
  | .literal a, .literal b => a == b
  | .binary l op r, .binary l' op' r' => beq l l' && op == op' && beq r r'
  | .unary op e, .unary op' e' => op == op' && beq e e'
  | .nested e, .nested e' => beq e e'
  | .call f args, .call f' args' => f == f' && beqList args args'
  | .isNull e, .isNull e' => beq e e'
  | .isNotNull e, .isNotNull e' => beq e e'
  | .inList e items n, .inList e' items' n' => beq e e' && beqList items items' && n == n'
  | .between e n lo hi, .between e' n' lo' hi' =>
    beq e e' && n == n' && beq lo lo' && beq hi hi'
  | .wildcard, .wildcard => true
  | _, _ => false

/-- Whether two lists of expressions are the same. -/
def beqList : List Expr → List Expr → Bool
  | [], [] => true
  | a :: as, b :: bs => beq a b && beqList as bs
  | _, _ => false

end

mutual

/-- Only equal expressions pass the comparison. -/
theorem eq_of_beq : ∀ (a b : Expr), beq a b = true → a = b
  | .ident x, b, h => by cases b <;> simp_all [beq]
  | .compound x, b, h => by cases b <;> simp_all [beq]
  | .literal x, b, h => by cases b <;> simp_all [beq]
  | .binary l op r, b, h => by
    cases b <;> simp [beq] at h
    rw [eq_of_beq l _ h.1.1, h.1.2, eq_of_beq r _ h.2]
  | .unary op e, b, h => by
    cases b <;> simp [beq] at h
    rw [h.1, eq_of_beq e _ h.2]
  | .nested e, b, h => by
    cases b <;> simp [beq] at h
    rw [eq_of_beq e _ h]
  | .call f args, b, h => by
    cases b <;> simp [beq] at h
    rw [h.1, eq_of_beqList args _ h.2]
  | .isNull e, b, h => by
    cases b <;> simp [beq] at h
    rw [eq_of_beq e _ h]
  | .isNotNull e, b, h => by
    cases b <;> simp [beq] at h
    rw [eq_of_beq e _ h]
  | .inList e items n, b, h => by
    cases b <;> simp [beq] at h
    rw [eq_of_beq e _ h.1.1, eq_of_beqList items _ h.1.2, h.2]
  | .between e n lo hi, b, h => by
    cases b <;> simp [beq] at h
    rw [eq_of_beq e _ h.1.1.1, h.1.1.2, eq_of_beq lo _ h.1.2, eq_of_beq hi _ h.2]
  | .wildcard, b, h => by cases b <;> simp_all [beq]

/-- Only equal lists pass the comparison. -/
theorem eq_of_beqList : ∀ (as bs : List Expr), beqList as bs = true → as = bs
  | [], bs, h => by cases bs <;> simp_all [beqList]
  | a :: as, bs, h => by
    cases bs <;> simp [beqList] at h
    rw [eq_of_beq a _ h.1, eq_of_beqList as _ h.2]

end

mutual

/-- An expression passes the comparison with itself. -/
theorem beq_refl : ∀ a : Expr, beq a a = true
  | .ident _ => by simp [beq]
  | .compound _ => by simp [beq]
  | .literal _ => by simp [beq]
  | .binary l _ r => by simp [beq, beq_refl l, beq_refl r]
  | .unary _ e => by simp [beq, beq_refl e]
  | .nested e => by simp [beq, beq_refl e]
  | .call _ args => by simp [beq, beqList_refl args]
  | .isNull e => by simp [beq, beq_refl e]
  | .isNotNull e => by simp [beq, beq_refl e]
  | .inList e items _ => by simp [beq, beq_refl e, beqList_refl items]
  | .between e _ lo hi => by simp [beq, beq_refl e, beq_refl lo, beq_refl hi]
  | .wildcard => by simp [beq]

/-- A list passes the comparison with itself. -/
theorem beqList_refl : ∀ as : List Expr, beqList as as = true
  | [] => by simp [beqList]
  | a :: as => by simp [beqList, beq_refl a, beqList_refl as]

end

instance : DecidableEq Expr := fun a b =>
  if h : beq a b = true then isTrue (eq_of_beq a b h)
  else isFalse fun heq => h (heq ▸ beq_refl a)

end Expr

end SchemaSql
