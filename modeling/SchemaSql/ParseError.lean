import SchemaSql.Constraint
import SchemaSql.Token.Diagnostic
import SchemaSql.Token.Lexer

/-!
# Errors — why a text is no statement

An error is its cause: what was expected and what stood there instead, or which rule the text
breaks.  `ParseError.message` is the wording, `ParseError.kind` the class of the error.
-/

namespace SchemaSql

/-- Why digits are no unsigned 64-bit number. -/
inductive IntegerFault where
  | empty | invalidDigit | tooLarge
  deriving DecidableEq, Repr, Inhabited

/-- What a message says about the fault. -/
def IntegerFault.text : IntegerFault → String
  | .empty => "cannot parse integer from empty string"
  | .invalidDigit => "invalid digit found in string"
  | .tooLarge => "number too large to fit in target type"

/-- Why a text is no statement. -/
inductive ParseError where
  /-- The text has no tokens. -/
  | lexical (error : LexError)
  | expected (what : String) (found : Located)
  /-- An operator was needed. -/
  | notAnOperator (found : Located)
  /-- A foreign key has two rules for one event. -/
  | repeatedRule (event : ReferentialEvent) (location : Location)
  | badInteger (digits : String) (fault : IntegerFault) (location : Location)
  | recursionLimitExceeded
  deriving DecidableEq, Repr, Inhabited

/-- The classes of errors. -/
inductive ErrorKind where
  | lexical | syntactic | recursionLimit
  deriving DecidableEq, Repr, Inhabited

namespace ParseError

/-- The class of an error. -/
def kind : ParseError → ErrorKind
  | .lexical _ => .lexical
  | .recursionLimitExceeded => .recursionLimit
  | _ => .syntactic

/-- What a message says about the cause, and where. -/
def cause : ParseError → String
  | .lexical error => error.message
  | .expected what found =>
    "Expected: " ++ what ++ ", found: " ++ found.token.text ++ found.location.text
  | .notAnOperator found =>
    "No infix parser for token " ++ found.token.diagnostic ++ found.location.text
  | .repeatedRule event location => "Duplicate " ++ event.text ++ " clause" ++ location.text
  | .badInteger digits fault location =>
    "Could not parse '" ++ digits ++ "' as u64: " ++ fault.text ++ location.text
  | .recursionLimitExceeded => "recursion limit exceeded"

/-- The message of an error. -/
def message (e : ParseError) : String := "sql parser error: " ++ e.cause

/-- Whether two errors are of one class and say the same. -/
def agrees (a b : ParseError) : Bool := a.kind == b.kind && a.cause == b.cause

end ParseError

end SchemaSql
