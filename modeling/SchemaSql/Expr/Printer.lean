import SchemaSql.Expr
import SchemaSql.Text.Chunks

/-!
# Printing expressions

Nothing is put in parentheses that is not a `nested` node: the text of a tree that reading
produced reads back as that tree.  A sign has no blank behind it, so two minus signs in a row
are printed as the start of a comment.
-/

namespace SchemaSql

/-- `NOT `, or nothing. -/
def negation (negated : Bool) : String := if negated then "NOT " else ""

namespace Expr

mutual

/-- The pieces of an expression's text. -/
def chunks : Expr → Text.Chunks
  | .ident name => [name.text]
  | .compound parts => [".".intercalate (parts.map Ident.text)]
  | .literal value => [value.text]
  | .binary left op right => left.chunks ++ [" " ++ op.text ++ " "] ++ right.chunks
  | .unary .not operand => "NOT " :: operand.chunks
  | .unary op operand => op.text :: operand.chunks
  | .nested inner => "(" :: inner.chunks ++ [")"]
  | .call function args => (function.text ++ "(") :: listChunks args ++ [")"]
  | .isNull operand => operand.chunks ++ [" IS NULL"]
  | .isNotNull operand => operand.chunks ++ [" IS NOT NULL"]
  | .inList operand items negated =>
    operand.chunks ++ [" " ++ negation negated ++ "IN ("] ++ listChunks items ++ [")"]
  | .between operand negated low high =>
    operand.chunks ++ [" " ++ negation negated ++ "BETWEEN "] ++ low.chunks ++ [" AND "]
      ++ high.chunks
  | .wildcard => ["*"]

/-- The pieces of a comma separated list of expressions. -/
def listChunks : List Expr → Text.Chunks
  | [] => []
  | [e] => e.chunks
  | e :: rest => e.chunks ++ ", " :: listChunks rest

end

/-- The text of an expression. -/
def text (e : Expr) : String := Text.Chunks.text e.chunks

end Expr

end SchemaSql
