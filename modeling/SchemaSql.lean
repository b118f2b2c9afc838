import SchemaSql.Agreement
import SchemaSql.Expr.Preorder
import SchemaSql.Proofs.ClauseLists
import SchemaSql.Proofs.Climbing
import SchemaSql.Proofs.Dialects
import SchemaSql.Proofs.Emission.Refusal
import SchemaSql.Proofs.Escaping.Runs
import SchemaSql.Proofs.Explanations.Printed
import SchemaSql.Proofs.HyphenatedNames
import SchemaSql.Proofs.Keywords.Words
import SchemaSql.Proofs.Levels
import SchemaSql.Proofs.Levels.Recursion
import SchemaSql.Proofs.Levels.Trees
import SchemaSql.Proofs.Lookahead
import SchemaSql.Proofs.Progress
import SchemaSql.Proofs.Progress.Clauses
import SchemaSql.Proofs.Progress.Definitions
import SchemaSql.Proofs.Progress.Expressions
import SchemaSql.Proofs.Progress.Queries
import SchemaSql.Proofs.Progress.Statements
import SchemaSql.Proofs.Repeats
import SchemaSql.Proofs.Reprinting
import SchemaSql.Proofs.Rereading
import SchemaSql.Proofs.Scanning.Chunks
import SchemaSql.Proofs.Scanning.Comments
import SchemaSql.Proofs.Scanning.Decoding
import SchemaSql.Proofs.Spacing
import SchemaSql.Proofs.Spelling.Captured
import SchemaSql.Proofs.TrailingCommas
import SchemaSql.Proofs.Walk
import SchemaSql.Proofs.Walk.Stops
import SchemaSql.Proofs.WellFormed
import SchemaSql.Statement.Datum
import SchemaSql.Token.Datum
