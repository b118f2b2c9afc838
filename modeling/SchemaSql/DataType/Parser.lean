import SchemaSql.DataType
import SchemaSql.Parser.Capture

/-!
# Reading data types

A type is named by one word, except for the few standard types whose name goes on.
-/

namespace SchemaSql.DataType

open SchemaSql.Parser

/-- The words that may follow a type's name and belong to it. -/
def continuations (name : String) : List (List Keyword) :=
  match name.toLower with
  | "timestamp" | "time" | "date" => [[.with, .time, .zone], [.without, .time, .zone]]
  | "bit" | "char" | "character" => [[.varying]]
  | "double" => [[.precision]]
  | _ => []

/-- Reads the first of these continuations that is there. -/
def parseContinuation : List (List Keyword) → Parser (Option String)
  | [] => return none
  | words :: rest => do
    match ← acceptKeywordsAsWritten words with
    | some spelling => return some spelling
    | none => parseContinuation rest

/-- Reads the name of a type. -/
def parseName : Parser String := do
  let found ← next
  match found.token with
  | .word w =>
    match ← parseContinuation (continuations w.text) with
    | some spelling => return w.text ++ " " ++ spelling
    | none => return w.text
  | _ => expected "a data type name" found

/-- Reads the arguments of a type, if it has any. -/
def parseArguments : Parser (List String) := do
  if ← accept .lparen then
    let arguments ← commaSeparatedWith false valueText
    let _ ← expect .rparen
    return arguments
  return []

/-- Reads a type, which counts as one level of nesting.  At most `levels` are left. -/
def parseAt : (levels : Nat) → Parser DataType
  | 0 => throw .recursionLimitExceeded
  | levels + 1 => descend do
    let name ← parseName
    if ← accept .lt then
      let element ← parseAt levels
      let _ ← expect .gt
      return .collection name element (← parseArguments)
    return .plain name (← parseArguments)

/-- Reads a type. -/
def parse : Parser DataType := do parseAt (← remaining)

end SchemaSql.DataType
