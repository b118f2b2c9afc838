import SchemaSql.Unicode.Alphabetic
import SchemaSql.Unicode.Numeric

/-!
# Dialects — where implementations of SQL differ

A dialect says which characters make up a bare word, which quotes enclose an identifier, and
which optional parts of the language exist.  Six dialects are built in; the generic one reads
what the others read wherever they do not contradict each other.
-/

namespace SchemaSql

/-- The implementations with rules of their own. -/
inductive Vendor where
  | generic | ansi | mysql | postgresql | bigquery | oracle
  deriving DecidableEq, Repr, Inhabited

/-- The differences between implementations that reading a text depends on. -/
structure Dialect where
  /-- The vendor whose special rules apply, if any. -/
  vendor : Option Vendor := none
  /-- Whether a bare word may start with the character. -/
  startsIdentifier : Char → Bool
  /-- Whether a bare word may go on with the character. -/
  continuesIdentifier : Char → Bool
  /-- Whether the character opens an identifier in quotes. -/
  opensQuotedIdentifier : Char → Bool := fun c => c == '"'
  /-- Whether a backslash in a string literal escapes the character behind it. -/
  backslashEscape : Bool := false
  /-- Whether a query may go on with `|>` operators. -/
  pipeOperators : Bool := false
  /-- Whether synonyms can be created. -/
  synonyms : Bool := false

namespace Dialect

/-- The backtick, which encloses identifiers in some dialects. -/
def backtick : Char := '\x60'

/-- The most permissive dialect. -/
def generic : Dialect where
  vendor := some .generic
  startsIdentifier c := Unicode.isAlphabetic c || c == '_' || c == '#' || c == '@'
  continuesIdentifier c :=
    Unicode.isAlphabetic c || c.isDigit || c == '@' || c == '$' || c == '#' || c == '_'
  opensQuotedIdentifier c := c == '"' || c == backtick
  pipeOperators := true
  synonyms := true

/-- Standard SQL: words of ASCII letters, digits and underscores. -/
def ansi : Dialect where
  vendor := some .ansi
  startsIdentifier c := c.isAlpha
  continuesIdentifier c := c.isAlphanum || c == '_'

/-- A character that may start a bare word of MySQL: besides letters, every character of the
    Basic Multilingual Plane outside ASCII. -/
def startsMysqlIdentifier (c : Char) : Bool :=
  Unicode.isAlphabetic c || c == '_' || c == '$' || c == '@'
    || (0x80 ≤ c.toNat && c.toNat ≤ 0xffff)

/-- MySQL: double quotes enclose strings, backticks identifiers. -/
def mysql : Dialect where
  vendor := some .mysql
  startsIdentifier := startsMysqlIdentifier
  continuesIdentifier c := startsMysqlIdentifier c || c.isDigit
  opensQuotedIdentifier c := c == backtick
  backslashEscape := true

/-- PostgreSQL. -/
def postgresql : Dialect where
  vendor := some .postgresql
  startsIdentifier c := Unicode.isAlphabetic c || c == '_'
  continuesIdentifier c := Unicode.isAlphabetic c || c.isDigit || c == '$' || c == '_'

/-- BigQuery: the dialect of pipe queries and hyphenated table names. -/
def bigquery : Dialect where
  vendor := some .bigquery
  startsIdentifier c := c.isAlpha || c == '_'
  continuesIdentifier c := c.isAlphanum || c == '_'
  opensQuotedIdentifier c := c == backtick
  backslashEscape := true
  pipeOperators := true

/-- Oracle: words start with a letter and may go on with any number character. -/
def oracle : Dialect where
  vendor := some .oracle
  startsIdentifier c := Unicode.isAlphabetic c
  continuesIdentifier c :=
    Unicode.isAlphabetic c || Unicode.isNumeric c || c == '_' || c == '$' || c == '#' || c == '@'
  synonyms := true

/-- The built-in dialects. -/
def builtin : List Dialect := [generic, ansi, mysql, postgresql, bigquery, oracle]

/-- The built-in dialect with this name, in whatever case. -/
def ofName? (name : String) : Option Dialect :=
  match name.toLower with
  | "generic" => some generic
  | "ansi" => some ansi
  | "mysql" => some mysql
  | "postgresql" | "postgres" => some postgresql
  | "bigquery" => some bigquery
  | "oracle" => some oracle
  | _ => none

/-- Whether the rules of `vendor` apply. -/
def isVendor (dialect : Dialect) (vendor : Vendor) : Bool := dialect.vendor == some vendor

end Dialect

end SchemaSql
