import SchemaSql.Alter.Printer
import SchemaSql.Emit

/-!
# Statements
-/

namespace SchemaSql

/-- A statement. -/
inductive Statement where
  | alter (statement : Alter)
  | explain (statement : Explain)
  | createSynonym (statement : CreateSynonym)
  | query (statement : Query)
  deriving DecidableEq, Repr, Inhabited

namespace Statement

/-- The pieces of a statement's text. -/
def chunks : Statement → Text.Chunks
  | .alter statement => statement.chunks
  | .explain statement => statement.chunks
  | .createSynonym statement => statement.chunks
  | .query statement => statement.chunks

/-- The text of a statement. -/
def text (statement : Statement) : String := Text.Chunks.text statement.chunks

/-- Passes on a statement, piece by piece. -/
def emit {m : Type → Type} [Monad m] (put : String → m Unit) : Statement → m Unit
  | .alter statement => statement.emit put
  | .explain statement => statement.emit put
  | .createSynonym statement => statement.emit put
  | .query statement => statement.emit put

/-- Writes a statement into a sink; the result is the sink's last state and whether it took
    the whole text. -/
def writeTo {σ : Type} (sink : Text.Sink σ) (state : σ) (statement : Statement) : σ × Bool :=
  match statement.emit sink.put state with
  | .ok _ state => (state, true)
  | .error _ state => (state, false)

/-- What is written into a sink that refuses nothing. -/
def pieces (statement : Statement) : List String := (statement.writeTo .tape []).1

end Statement

end SchemaSql
