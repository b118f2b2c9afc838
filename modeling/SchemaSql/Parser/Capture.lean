import SchemaSql.Parser
import SchemaSql.Token.Capture

/-!
# Reading text as it is written

A group runs to the parenthesis that closes it.  A value runs to the comma, semicolon or
closing parenthesis that ends it; commas and parentheses inside a group do not.
-/

namespace SchemaSql.Parser

/-- The tokens up to the parenthesis that closes a group, and with it, `inner` being the number
    of groups open inside; `none` if the text ends first. -/
def groupTokens : (inner : Nat) → List Located → Option (List Located)
  | _, [] => none
  | inner, t :: rest =>
    match t.token with
    | .eof => none
    | .lparen => (t :: ·) <$> groupTokens (inner + 1) rest
    | .rparen => match inner with
      | 0 => some [t]
      | inner + 1 => (t :: ·) <$> groupTokens inner rest
    | _ => (t :: ·) <$> groupTokens inner rest

/-- The tokens in front of what ends a value, `inner` being the number of groups open in it. -/
def valueTokens : (inner : Nat) → List Located → List Located
  | _, [] => []
  | inner, t :: rest =>
    match t.token with
    | .eof | .semicolon => []
    | .lparen => t :: valueTokens (inner + 1) rest
    | .rparen => match inner with
      | 0 => []
      | inner + 1 => t :: valueTokens inner rest
    | .comma => match inner with
      | 0 => []
      | inner + 1 => t :: valueTokens (inner + 1) rest
    | _ => t :: valueTokens inner rest

/-- Reads a group in parentheses; its text includes them. -/
def groupText : Parser String := do
  let _ ← expect .lparen
  match groupTokens 0 (← get).unread with
  | some group =>
    modify (Cursor.skip group.length)
    return CapturedText.ofTokens (.lparen :: group.map Located.token)
  | none => expected ")" (← modifyGet Cursor.nextEof)

/-- Reads a value, which is not empty. -/
def valueText : Parser String := do
  let value := valueTokens 0 (← get).unread
  modify (Cursor.skip value.length)
  let text := CapturedText.ofTokens (value.map Located.token)
  if text.isEmpty then expected "a value" (← peek)
  return text

end SchemaSql.Parser
