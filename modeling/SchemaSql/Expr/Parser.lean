import SchemaSql.Expr.Precedence
import SchemaSql.Ident.Parser
import SchemaSql.Literal.Parser

/-!
# Reading expressions

An expression is an operand and whatever operators follow that bind tighter than the ones
around it.  The readers for the parts of an expression take the reader `sub` for expressions
inside it, which is given the precedence to stop at; `Expr.parseAt` ties the knot and counts
the levels of nesting.
-/

namespace SchemaSql

namespace Expr

open SchemaSql.Parser

/-- A reader for the expressions inside another: it stops at operators that bind no tighter
    than the precedence it is given. -/
abbrev SubParser := Nat → Parser Expr

/-- How tight the next token binds to an operand in front of it. -/
def nextPrecedence : Parser Nat := do
  let cursor ← get
  return (cursor.peekNth 0).token.precedence (cursor.peekNth 1).token

/-- Reads what follows an identifier: further parts behind periods, or arguments. -/
def parsePath (sub : SubParser) (first : Ident) : Parser Expr := do
  let rest ← many do
    if ← accept .period then
      let found ← next
      match found.token with
      | .word w => return some (Ident.ofWord w)
      | _ => expected "an identifier after '.'" found
    else return none
  if ← accept .lparen then
    let args ← commaSeparatedUntil .rparen (sub 0)
    let _ ← expect .rparen
    return .call ⟨first :: rest⟩ args
  if rest.isEmpty then return .ident first
  return .compound (first :: rest)

/-- Reads an operand: a literal, a name, a call, an expression in parentheses, or an operator
    in front of an operand. -/
def parseOperand (sub : SubParser) : Parser Expr := do
  let found ← next
  match found.token with
  | .word w =>
    match found.token.bareKeyword? with
    | some .true => return .literal (.boolean true)
    | some .false => return .literal (.boolean false)
    | some .null => return .literal .null
    | some .not => return .unary .not (← sub Precedence.not)
    | _ => parsePath sub (Ident.ofWord w)
  | .number digits long => return .literal (.number digits long)
  | .singleQuoted value => return .literal (.singleQuoted value)
  | .doubleQuoted value => return .literal (.doubleQuoted value)
  | .minus => return .unary .minus (← sub Precedence.sign)
  | .plus => return .unary .plus (← sub Precedence.sign)
  | .lparen =>
    let inner ← sub 0
    let _ ← expect .rparen
    return .nested inner
  | .mul => return .wildcard
  | _ => expected "an expression" found

/-- Reads the list behind `IN`. -/
def parseInList (sub : SubParser) (operand : Expr) (negated : Bool) : Parser Expr := do
  let items ← parenthesized (commaSeparated (sub 0))
  return .inList operand items negated

/-- Reads the bounds behind `BETWEEN`, which end in front of an `AND` or a looser operator. -/
def parseBetween (sub : SubParser) (operand : Expr) (negated : Bool) : Parser Expr := do
  let low ← sub Precedence.range
  let _ ← expectKeyword .and
  let high ← sub Precedence.range
  return .between operand negated low high

/-- Reads an operator of this precedence and what belongs to it behind `left`. -/
def parseOperator (sub : SubParser) (left : Expr) (precedence : Nat) : Parser Expr := do
  let found ← next
  match found.token.binaryOp? with
  | some op => return .binary left op (← sub precedence)
  | none => match found.token.keyword? with
    | some .is =>
      if ← acceptKeyword .null then return .isNull left
      if ← acceptKeywords [.not, .null] then return .isNotNull left
      expected "[NOT] NULL after IS" (← peek)
    | some .not | some .in | some .between =>
      back
      let negated ← acceptKeyword .not
      if ← acceptKeyword .in then return ← parseInList sub left negated
      if ← acceptKeyword .between then return ← parseBetween sub left negated
      expected "IN or BETWEEN after NOT" (← peek)
    | _ => throw (.notAnOperator found)

/-- Reads an expression up to the first operator that binds no tighter than `precedence`, which
    counts as one level of nesting.  At most `levels` are left. -/
def parseAt : (levels : Nat) → SubParser
  | 0, _ => throw .recursionLimitExceeded
  | levels + 1, precedence => descend do
    let operand ← parseOperand (parseAt levels)
    iterate (fun left => do
      let next ← nextPrecedence
      if next ≤ precedence then return none
      some <$> parseOperator (parseAt levels) left next) operand

/-- Reads an expression up to the first operator that binds no tighter than `precedence`. -/
def parseAbove : SubParser := fun precedence => do parseAt (← remaining) precedence

/-- Reads an expression. -/
def parse : Parser Expr := parseAbove 0

end Expr

end SchemaSql
