import SchemaSql.Literal
import SchemaSql.Parser

/-!
# Reading literals
-/

namespace SchemaSql

/-- The largest number that counts and sizes can have: they are 64 bits wide. -/
def maxCount : Nat := 0xffffffffffffffff

/-- Goes on reading a decimal number whose digits so far make `n`.  The first fault from the
    left counts. -/
def countFrom (n : Nat) : List Char → Except IntegerFault Nat
  | [] => .ok n
  | c :: rest =>
    if !c.isDigit then .error .invalidDigit
    else
      let n := n * 10 + (c.toNat - '0'.toNat)
      if n ≤ maxCount then countFrom n rest else .error .tooLarge

/-- The number that digits stand for; a plus sign in front of them is allowed. -/
def count (digits : String) : Except IntegerFault Nat :=
  match digits.toList with
  | [] => .error .empty
  | ['+'] => .error .invalidDigit
  | '+' :: rest => countFrom 0 rest
  | digits => countFrom 0 digits

namespace Literal

open SchemaSql.Parser

/-- Reads a literal. -/
def parse : Parser Literal := do
  let found ← next
  match found.token with
  | .word w =>
    if w.quote.isSome then expected "a value" found
    else match w.keyword with
      | some .true => return .boolean true
      | some .false => return .boolean false
      | some .null => return .null
      | _ => expected "a concrete value" found
  | .number digits long => return .number digits long
  | .singleQuoted value => return .singleQuoted value
  | .doubleQuoted value => return .doubleQuoted value
  | _ => expected "a value" found

/-- Reads a string literal. -/
def parseString : Parser Literal := do
  let found ← next
  match found.token with
  | .singleQuoted value => return .singleQuoted value
  | .doubleQuoted value => return .doubleQuoted value
  | _ => expected "literal string" found

/-- Reads a count or size. -/
def parseCount : Parser Nat := do
  let found ← next
  match found.token with
  | .number digits _ =>
    match count digits with
    | .ok n => return n
    | .error fault => throw (.badInteger digits fault found.location)
  | _ => expected "literal int" found

end Literal

end SchemaSql
