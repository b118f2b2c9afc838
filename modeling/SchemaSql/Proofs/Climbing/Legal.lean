import SchemaSql.Expr.Precedence
import SchemaSql.Proofs.Denotation
import SchemaSql.Proofs.Keywords

/-! # Legal trees — the expressions that their tokens stand for

    Not every expression can be written down without parentheses.  A tree is legal if its
    operators stand where their precedences put them, and if its names can be read as names.

    * `Expr.LeftAbove` and `Expr.RightFrom` look down the two edges of a tree: on the left are
      the operators that an operator in front of the tree could tear off, on the right those
      that could take in an operator behind it.
    * `Expr.Legal` puts the conditions together, and `Expr.levels` counts the levels of
      nesting that reading the tree takes.
    * `Expr.tokens` are the tokens of a tree as they are printed; `Expr.Spelled` are all the
      tokens that stand for it, since keywords and equals signs can be written in several
      ways. -/

namespace SchemaSql

/-! ## Names and operators as tokens -/

/-- The word that an identifier is written as. -/
def Ident.word (name : Ident) : Word := Word.of name.value name.quote

/-- Names that are written as the same word are the same. -/
theorem Ident.word_inj {a b : Ident} (h : a.word = b.word) : a = b := by
  obtain ⟨value, quote⟩ := a
  obtain ⟨value', quote'⟩ := b
  simp_all [Ident.word, Word.of]

/-- A name without quotes that means something else at the start of an operand. -/
def Ident.Reserved (name : Ident) : Prop :=
  name.word.keyword ∈ [some .true, some .false, some .null, some .not]

/-- The parts of a path behind the first one, with their periods. -/
def partTokens (parts : List Ident) : List Token :=
  parts.flatMap fun name => [.period, .word name.word]

/-- The tokens of a path. -/
def pathTokens : List Ident → List Token
  | [] => []
  | first :: rest => .word first.word :: partTokens rest

/-- A bare word. -/
def Token.bare (v : String) : Token := .word (Word.of v none)

/-- A keyword as it is printed. -/
def Token.ofKeyword (k : Keyword) : Token := .word (Word.of k.name none)

/-- An operator between operands as it is printed. -/
def BinaryOp.token : BinaryOp → Token
  | .plus => .plus
  | .minus => .minus
  | .multiply => .mul
  | .divide => .div
  | .modulo => .mod
  | .concat => .concat
  | .gt => .gt
  | .lt => .lt
  | .gtEq => .gtEq
  | .ltEq => .ltEq
  | .spaceship => .spaceship
  | .eq => .eq
  | .notEq => .neq
  | .and => .ofKeyword .and
  | .or => .ofKeyword .or
  | .bitwiseOr => .pipe
  | .bitwiseAnd => .ampersand
  | .bitwiseXor => .caret

namespace UnaryOp

/-- An operator in front of an operand as it is printed. -/
def token : UnaryOp → Token
  | .plus => .plus
  | .minus => .minus
  | .not => .ofKeyword .not

/-- How tight an operator binds to the operand behind it. -/
def precedence : UnaryOp → Nat
  | .plus | .minus => Precedence.sign
  | .not => Precedence.not

end UnaryOp

namespace Literal

/-- The token that a literal is printed as. -/
def token : Literal → Token
  | .number digits long => .number digits long
  | .singleQuoted value => .singleQuoted value
  | .doubleQuoted value => .doubleQuoted value
  | .boolean true => .ofKeyword .true
  | .boolean false => .ofKeyword .false
  | .null => .ofKeyword .null

end Literal

namespace Token

/-- The operator that a token stands for in front of an operand. -/
def unaryOp? : Token → Option UnaryOp
  | .plus => some .plus
  | .minus => some .minus
  | t => if t.bareKeyword? = some .not then some .not else none

/-- The literal that a token stands for. -/
def literal? : Token → Option Literal
  | .number digits long => some (.number digits long)
  | .singleQuoted value => some (.singleQuoted value)
  | .doubleQuoted value => some (.doubleQuoted value)
  | t => match t.bareKeyword? with
    | some .true => some (.boolean true)
    | some .false => some (.boolean false)
    | some .null => some .null
    | _ => none

end Token

/-- `NOT`, or nothing. -/
def negationTokens (negated : Bool) : List Token := if negated then [.ofKeyword .not] else []

/-- These tokens are `NOT`, or there are none. -/
def IsNegation : Bool → List Token → Prop
  | false, N => N = []
  | true, N => ∃ t, N = [t] ∧ t.keyword? = some .not

namespace Expr

/-! ## Legal trees -/

/-- The operators on the left edge all bind tighter than `p`. -/
def LeftAbove (p : Nat) : Expr → Prop
  | .binary left op _ => p < op.precedence ∧ left.LeftAbove p
  | .isNull operand => p < Precedence.is ∧ operand.LeftAbove p
  | .isNotNull operand => p < Precedence.is ∧ operand.LeftAbove p
  | .inList operand _ _ => p < Precedence.range ∧ operand.LeftAbove p
  | .between operand _ _ _ => p < Precedence.range ∧ operand.LeftAbove p
  | .ident _ | .compound _ | .literal _ | .unary _ _ | .nested _ | .call _ _ | .wildcard => True

/-- The operators on the right edge that have an operand behind them all bind at least as tight
    as `p`.  A sign does so anyway. -/
def RightFrom (p : Nat) : Expr → Prop
  | .binary _ op right => p ≤ op.precedence ∧ right.RightFrom p
  | .between _ _ _ high => p ≤ Precedence.range ∧ high.RightFrom p
  | .unary .not operand => p ≤ Precedence.not ∧ operand.RightFrom p
  | .unary .plus operand => operand.RightFrom p
  | .unary .minus operand => operand.RightFrom p
  | .ident _ | .compound _ | .literal _ | .nested _ | .call _ _ | .isNull _ | .isNotNull _
  | .inList _ _ _ | .wildcard => True

mutual

/-- Every operator stands where its precedence puts it, and every name can be read as one. -/
def Legal : Expr → Prop
  | .ident name => ¬ name.Reserved
  | .compound parts => 2 ≤ parts.length ∧ ∀ name ∈ parts.head?, ¬ name.Reserved
  | .literal _ => True
  | .binary left op right =>
    left.Legal ∧ left.RightFrom op.precedence ∧ right.Legal ∧ right.LeftAbove op.precedence
  | .unary op operand => operand.Legal ∧ operand.LeftAbove op.precedence
  | .nested inner => inner.Legal
  | .call function args =>
    1 ≤ function.parts.length ∧ (∀ name ∈ function.parts.head?, ¬ name.Reserved) ∧
      listLegal args
  | .isNull operand => operand.Legal ∧ operand.RightFrom Precedence.is
  | .isNotNull operand => operand.Legal ∧ operand.RightFrom Precedence.is
  | .inList operand items _ =>
    operand.Legal ∧ operand.RightFrom Precedence.range ∧ items ≠ [] ∧ listLegal items
  | .between operand _ low high =>
    operand.Legal ∧ operand.RightFrom Precedence.range ∧
      low.Legal ∧ low.LeftAbove Precedence.range ∧ high.Legal ∧ high.LeftAbove Precedence.range
  | .wildcard => True

/-- All of these trees are legal. -/
def listLegal : List Expr → Prop
  | [] => True
  | e :: rest => e.Legal ∧ listLegal rest

end

mutual

/-- The levels of nesting that reading a tree takes: an operator adds one for the operand behind
    it, but none for the one in front of it. -/
def levels : Expr → Nat
  | .ident _ | .compound _ | .literal _ | .wildcard => 1
  | .binary left _ right => max left.levels (right.levels + 1)
  | .unary _ operand => operand.levels + 1
  | .nested inner => inner.levels + 1
  | .call _ args => listLevels args + 1
  | .isNull operand => operand.levels
  | .isNotNull operand => operand.levels
  | .inList operand items _ => max operand.levels (listLevels items + 1)
  | .between operand _ low high => max operand.levels (max (low.levels + 1) (high.levels + 1))

/-- The levels of nesting that reading the deepest of these trees takes. -/
def listLevels : List Expr → Nat
  | [] => 0
  | e :: rest => max e.levels (listLevels rest)

end

/-! ## The tokens of a tree -/

mutual

/-- The tokens of a tree, in the order in which it is printed. -/
def tokens : Expr → List Token
  | .ident name => [.word name.word]
  | .compound parts => pathTokens parts
  | .literal value => [value.token]
  | .binary left op right => left.tokens ++ op.token :: right.tokens
  | .unary op operand => op.token :: operand.tokens
  | .nested inner => .lparen :: (inner.tokens ++ [.rparen])
  | .call function args => pathTokens function.parts ++ .lparen :: (listTokens args ++ [.rparen])
  | .isNull operand => operand.tokens ++ [.ofKeyword .is, .ofKeyword .null]
  | .isNotNull operand => operand.tokens ++ [.ofKeyword .is, .ofKeyword .not, .ofKeyword .null]
  | .inList operand items negated =>
    operand.tokens ++ (negationTokens negated
      ++ .ofKeyword .in :: .lparen :: (listTokens items ++ [.rparen]))
  | .between operand negated low high =>
    operand.tokens ++ (negationTokens negated
      ++ .ofKeyword .between :: (low.tokens ++ .ofKeyword .and :: high.tokens))
  | .wildcard => [.mul]

/-- The tokens of a list of trees. -/
def listTokens : List Expr → List Token
  | [] => []
  | [e] => e.tokens
  | e :: rest => e.tokens ++ .comma :: listTokens rest

end

mutual

/-- The tokens stand for the tree, if every operator in them is where the tree has it. -/
def Spelled : Expr → List Token → Prop
  | .ident name, S => S = [.word name.word]
  | .compound parts, S => S = pathTokens parts
  | .literal value, S => ∃ t, S = [t] ∧ t.literal? = some value
  | .binary left op right, S =>
    ∃ L t R, S = L ++ t :: R ∧ left.Spelled L ∧ t.binaryOp? = some op ∧ right.Spelled R
  | .unary op operand, S => ∃ t X, S = t :: X ∧ t.unaryOp? = some op ∧ operand.Spelled X
  | .nested inner, S => ∃ X, S = .lparen :: (X ++ [.rparen]) ∧ inner.Spelled X
  | .call function args, S =>
    ∃ A, S = pathTokens function.parts ++ .lparen :: (A ++ [.rparen]) ∧ listSpelled args A
  | .isNull operand, S =>
    ∃ X t t', S = X ++ [t, t'] ∧ operand.Spelled X ∧ t.keyword? = some .is ∧
      t'.keyword? = some .null
  | .isNotNull operand, S =>
    ∃ X t t' t'', S = X ++ [t, t', t''] ∧ operand.Spelled X ∧ t.keyword? = some .is ∧
      t'.keyword? = some .not ∧ t''.keyword? = some .null
  | .inList operand items negated, S =>
    ∃ X N t A, S = X ++ (N ++ t :: .lparen :: (A ++ [.rparen])) ∧ operand.Spelled X ∧
      IsNegation negated N ∧ t.keyword? = some .in ∧ listSpelled items A
  | .between operand negated low high, S =>
    ∃ X N t L a H, S = X ++ (N ++ t :: (L ++ a :: H)) ∧ operand.Spelled X ∧
      IsNegation negated N ∧ t.keyword? = some .between ∧ low.Spelled L ∧
      a.keyword? = some .and ∧ high.Spelled H
  | .wildcard, S => S = [.mul]

/-- The tokens stand for the list of trees. -/
def listSpelled : List Expr → List Token → Prop
  | [], S => S = []
  | [e], S => e.Spelled S
  | e :: rest, S => ∃ E A, S = E ++ .comma :: A ∧ e.Spelled E ∧ listSpelled rest A

end

end Expr

end SchemaSql
