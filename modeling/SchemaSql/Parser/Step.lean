import SchemaSql.Cursor
import SchemaSql.ParseError

/-!
# Steps — a place in the tokens, and how many levels are left

Reading moves a cursor, and it counts how much deeper the nesting may go.  The counter is state
as the cursor is: what goes one level down takes a level first, and gives it back when it is
done, also when it fails.

A `Step` may leave the counter at any value.  A `Parser` is a step that is put together from a
few operations (`Step.Built`): it moves the cursor, asks how many levels are left, raises an
error or goes on behind one, and holds a level while another reader runs (`Parser.descend`).
-/

namespace SchemaSql

/-- Choices about how a text is read. -/
structure Options where
  /-- Whether a list may end in a comma. -/
  trailingCommas : Bool := false
  /-- Whether a string literal holds the characters that it stands for. -/
  unescape : Bool := true
  deriving DecidableEq, Repr, Inhabited

/-- What stays the same while a text is read. -/
structure Settings where
  dialect : Dialect
  options : Options := {}

/-- How a text is read: the settings, and the limit on nesting. -/
structure Context extends Settings where
  /-- How many levels of nesting are allowed. -/
  depth : Nat := 50

namespace Parser

/-- What changes while a text is read. -/
structure State where
  /-- The place in the tokens. -/
  cursor    : Cursor
  /-- How many more levels of nesting are allowed. -/
  remaining : Nat

/-- A step from one state to a later one. -/
abbrev Step := ReaderT Settings (EStateM ParseError State)

namespace Step

variable {α : Type}

/-- How many levels are left. -/
def remaining : Step Nat := return (← get).remaining

/-- Moves the cursor. -/
def move (f : Cursor → α × Cursor) : Step α :=
  modifyGet fun state => ((f state.cursor).1, { state with cursor := (f state.cursor).2 })

/-- Goes on behind an error. -/
def recover (p : Step α) (handler : ParseError → Step α) : Step α := fun settings state =>
  match p settings state with
  | .ok a state => .ok a state
  | .error e state => handler e settings state

/-- Takes one of the levels that are left. -/
def takeLevel : Step Unit := do
  match (← get).remaining with
  | 0 => throw .recursionLimitExceeded
  | remaining + 1 => modify ({ · with remaining })

/-- Gives a level back. -/
def giveBack : Step Unit := modify fun state => { state with remaining := state.remaining + 1 }

/-- Holds a level while `body` runs. -/
def guarded (body : Step α) : Step α := do
  takeLevel
  try body finally giveBack

/-- How steps are put together from these operations.  The counter may be asked for, and a level
    may be held while a step runs; there is no other way to it. -/
inductive Built : {α : Type} → Step α → Prop where
  | pure {α : Type} (a : α) : Built (pure a)
  | bind {α β : Type} {p : Step α} {f : α → Step β} (first : Built p) (rest : ∀ a, Built (f a)) :
      Built (p >>= f)
  | throw {α : Type} (e : ParseError) : Built (throw e : Step α)
  | recover {α : Type} {p : Step α} {handler : ParseError → Step α} (inside : Built p)
      (handled : ∀ e, Built (handler e)) : Built (p.recover handler)
  | read : Built (read : Step Settings)
  | remaining : Built Step.remaining
  | move {α : Type} (f : Cursor → α × Cursor) : Built (move f)
  | guarded {α : Type} {body : Step α} (inside : Built body) : Built (guarded body)

end Step

end Parser

/-! ## Readers -/

/-- A reader: a step that is put together from the operations on the state. -/
structure Parser (α : Type) where
  step  : Parser.Step α
  built : step.Built

namespace Parser

variable {α β : Type}

instance : Monad Parser where
  pure a := ⟨pure a, .pure a⟩
  bind p f := ⟨p.step >>= fun a => (f a).step, p.built.bind fun a => (f a).built⟩

instance : MonadStateOf Cursor Parser where
  get := ⟨Step.move fun c => (c, c), .move _⟩
  set c := ⟨Step.move fun _ => ((), c), .move _⟩
  modifyGet f := ⟨Step.move f, .move f⟩

instance : MonadReaderOf Settings Parser where
  read := ⟨read, .read⟩

instance : MonadExceptOf ParseError Parser where
  throw e := ⟨throw e, .throw e⟩
  tryCatch p handler :=
    ⟨p.step.recover fun e => (handler e).step, p.built.recover fun e => (handler e).built⟩

/-- How many levels are left. -/
def remaining : Parser Nat := ⟨Step.remaining, .remaining⟩

/-- Reads one level further down, if one is left. -/
def descend (inner : Parser α) : Parser α := ⟨Step.guarded inner.step, .guarded inner.built⟩

/-- What a step gave, and the place where it ended. -/
def Step.place : EStateM.Result ParseError State α → EStateM.Result ParseError Cursor α
  | .ok a state => .ok a state.cursor
  | .error e state => .error e state.cursor

/-- What a reader does from a place on, with all the levels of the context: its value or its error,
    and the place where it ended. -/
def run (p : Parser α) (context : Context) (c : Cursor) : EStateM.Result ParseError Cursor α :=
  Step.place (p.step context.toSettings ⟨c, context.depth⟩)

instance : CoeFun (Parser α) fun _ => Context → Cursor → EStateM.Result ParseError Cursor α where
  coe := run

end Parser

end SchemaSql
