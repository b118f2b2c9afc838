/-!
# Chunks — text produced piece by piece

A printer gives the pieces of its text in order; their concatenation is the text.  A sink takes
pieces one at a time and may refuse one.
-/

namespace SchemaSql.Text

/-- The pieces of a text, in order. -/
abbrev Chunks := List String

namespace Chunks

/-- The text that the pieces make up. -/
def text (chunks : Chunks) : String := String.join chunks

@[simp] theorem text_nil : text [] = "" := rfl

@[simp] theorem text_cons (s : String) (chunks : Chunks) :
    text (s :: chunks) = s ++ text chunks := by
  simp [text]

/-- The text of pieces is put together from left to right. -/
@[simp] theorem text_append (a b : Chunks) : text (a ++ b) = text a ++ text b := by
  simp [text]

/-- Lists of pieces one after the other, with `separator` between two of them. -/
def separated (separator : String) (items : List Chunks) : Chunks :=
  [separator].intercalate items

end Chunks

/-- Texts one after the other, with a comma and a space between two of them. -/
def commaSeparated (items : List String) : String := ", ".intercalate items

/-- A place that text is written to: taking a piece changes its state and may fail. -/
structure Sink (σ : Type) where
  /-- The state after a piece was offered, and whether the piece was taken as a whole. -/
  write : σ → String → σ × Bool

namespace Sink

variable {σ : Type}

/-- Offers a piece to a sink.  A sink that refuses it keeps the state it is then in, and nothing
    is offered behind a refusal. -/
def put (sink : Sink σ) (piece : String) : EStateM Unit σ Unit := fun state =>
  match sink.write state piece with
  | (state, true) => .ok () state
  | (state, false) => .error () state

/-- The sink that keeps every piece, in order. -/
def tape : Sink (List String) where
  write pieces piece := (pieces ++ [piece], true)

end Sink

/-- What a sink of limited size holds. -/
structure Limited where
  written : String := ""
  /-- How many more characters fit. -/
  room    : Nat
  deriving DecidableEq, Repr

/-- The sink that keeps as many characters as fit and refuses a piece that does not. -/
def Limited.sink : Sink Limited where
  write state chunk :=
    if chunk.length ≤ state.room then
      (⟨state.written ++ chunk, state.room - chunk.length⟩, true)
    else
      (⟨state.written ++ String.ofList (chunk.toList.take state.room), 0⟩, false)

end SchemaSql.Text
