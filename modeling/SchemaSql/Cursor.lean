import SchemaSql.Token

/-!
# Cursors — a place between tokens

A cursor stands between the tokens that were read and those that are left.  Reading skips
blanks and comments; reading at the end gives the end of the text each time, and the cursor
counts such reads so that stepping back undoes them one by one.
-/

namespace SchemaSql

/-- A place in a list of tokens. -/
structure Cursor where
  /-- The tokens in front of the place, the nearest first. -/
  read    : List Located := []
  /-- The tokens behind the place. -/
  unread  : List Located
  /-- How often the end of the text was read. -/
  overrun : Nat := 0
  deriving DecidableEq, Repr, Inhabited

/-- Whether a located token is a blank or a comment. -/
def Located.isWhitespace (t : Located) : Bool := t.token.isWhitespace

namespace Cursor

/-- The place in front of all tokens. -/
def ofTokens (tokens : List Located) : Cursor := { unread := tokens }

/-- All tokens, read or not. -/
def tokens (cursor : Cursor) : List Located := cursor.read.reverse ++ cursor.unread

/-- The first unread token, blanks included. -/
def peekRaw (cursor : Cursor) : Located := cursor.unread.head?.getD .eof

/-- The token behind `n` others, not counting blanks. -/
def nthSolid : Nat → List Located → Located
  | _, [] => .eof
  | n, t :: rest =>
    if t.isWhitespace then nthSolid n rest
    else match n with
      | 0 => t
      | n + 1 => nthSolid n rest

/-- The unread token behind `n` others, not counting blanks. -/
def peekNth (cursor : Cursor) (n : Nat) : Located := nthSolid n cursor.unread

/-- The first unread token, not counting blanks. -/
def peek (cursor : Cursor) : Located := cursor.peekNth 0

/-- The first token that is no blank, and what stands behind it. -/
def takeSolid : List Located → Token × List Located
  | [] => (.eof, [])
  | t :: rest => if t.isWhitespace then takeSolid rest else (t.token, rest)

/-- The first `n` tokens, not counting blanks: each is looked for behind the one before. -/
def solidPrefix : Nat → List Located → List Token
  | 0, _ => []
  | n + 1, tokens => (takeSolid tokens).1 :: solidPrefix n (takeSolid tokens).2

/-- The next `n` unread tokens, not counting blanks. -/
def peekTokens (cursor : Cursor) (n : Nat) : List Token := solidPrefix n cursor.unread

/-- Reads up to the first token of `unread` that is no blank. -/
def nextFrom (overrun : Nat) : (read unread : List Located) → Located × Cursor
  | read, [] => (.eof, ⟨read, [], overrun + 1⟩)
  | read, t :: rest =>
    if t.isWhitespace then nextFrom overrun (t :: read) rest
    else (t, ⟨t :: read, rest, overrun⟩)

/-- Reads the next token, and the blanks in front of it. -/
def next (cursor : Cursor) : Located × Cursor :=
  nextFrom cursor.overrun cursor.read cursor.unread

/-- Reads the next token, blank or not. -/
def nextRaw (cursor : Cursor) : Option Located × Cursor :=
  match cursor.unread with
  | [] => (none, { cursor with overrun := cursor.overrun + 1 })
  | t :: rest => (some t, { cursor with read := t :: cursor.read, unread := rest })

/-- Steps back over the last token of `read` that is no blank. -/
def backFrom : (read unread : List Located) → Cursor
  | [], unread => { unread }
  | t :: read, unread =>
    if t.isWhitespace then backFrom read (t :: unread) else { read, unread := t :: unread }

/-- Undoes the last read; in front of all tokens there is nothing to undo. -/
def back (cursor : Cursor) : Cursor :=
  match cursor.overrun with
  | 0 => backFrom cursor.read cursor.unread
  | n + 1 => { cursor with overrun := n }

/-- Reads `n` tokens, blanks included. -/
def skip (n : Nat) (cursor : Cursor) : Cursor :=
  { cursor with
    read := (cursor.unread.take n).reverse ++ cursor.read
    unread := cursor.unread.drop n }

/-- Reads up to the end of the text, or to an end mark among the tokens. -/
def nextEofFrom (overrun : Nat) : (read unread : List Located) → Located × Cursor
  | read, [] => (.eof, ⟨read, [], overrun + 1⟩)
  | read, t :: rest =>
    if t.token = .eof then (t, ⟨t :: read, rest, overrun⟩)
    else nextEofFrom overrun (t :: read) rest

/-- Reads up to the end of the text, or to an end mark among the tokens. -/
def nextEof (cursor : Cursor) : Located × Cursor :=
  nextEofFrom cursor.overrun cursor.read cursor.unread

end Cursor

end SchemaSql
