import SchemaSql.Parser.Step

/-!
# Readers of tokens and lists

Readers named `accept…` take what they look for if it is there; those named `expect…` fail
without it.
-/

namespace SchemaSql

namespace Parser

variable {α β : Type}

/-! ## Single tokens -/

/-- The next token; it stays unread. -/
def peek : Parser Located := return (← get).peek

/-- Takes the next token. -/
def next : Parser Located := modifyGet Cursor.next

/-- Puts the last token back. -/
def back : Parser Unit := modify Cursor.back

/-- Fails because `found` stands where `what` is needed. -/
def expected (what : String) (found : Located) : Parser α := throw (.expected what found)

/-- Takes the next token if it is `token`. -/
def accept (token : Token) : Parser Bool := do
  if (← peek).token = token then
    let _ ← next
    return true
  else return false

/-- Takes the next token, which has to be `token`. -/
def expect (token : Token) : Parser Located := do
  let found ← peek
  if found.token = token then next else expected token.text found

/-- Takes the equals sign that may stand between a setting and its value. -/
def acceptEquals : Parser Bool := accept .eq

/-- Takes the next token if it is a bare word with this spelling, in whatever case. -/
def acceptSpelling (spelling : String) : Parser Bool := do
  match (← peek).token with
  | .word w =>
    if w.quote.isNone && w.value.toLower == spelling.toLower then
      let _ ← next
      return true
    else return false
  | _ => return false

/-! ## Several tokens: all of them or none -/

/-- Takes what all the readers take, one after the other, or nothing if one takes nothing. -/
def acceptAll (readers : List (Parser Bool)) : Parser Bool := do
  let start ← get
  if ← readers.allM id then return true
  set start
  return false

/-- Takes the next tokens if they are these. -/
def acceptTokens (tokens : List Token) : Parser Bool := acceptAll (tokens.map accept)

/-! ## Words by their keyword

What is asked for is a keyword, or `none` for a word that is no keyword. -/

/-- Takes the next token if it is a word with this keyword. -/
def acceptWord? (keyword : Option Keyword) : Parser (Option Located) := do
  match (← peek).token with
  | .word w => if w.keyword = keyword then some <$> next else return none
  | _ => return none

/-- Takes the next token if it is a word with this keyword. -/
def acceptWord (keyword : Option Keyword) : Parser Bool := Option.isSome <$> acceptWord? keyword

/-- Whether the next token is a word with this keyword. -/
def peekWord (keyword : Option Keyword) : Parser Bool := do
  match (← peek).token with
  | .word w => return w.keyword = keyword
  | _ => return false

/-- Takes the next token, which has to be a word with this keyword. -/
def expectWord (keyword : Option Keyword) : Parser Located := do
  match ← acceptWord? keyword with
  | some found => return found
  | none => expected (Keyword.label keyword) (← peek)

/-- Takes the next token if it is a word with one of these keywords. -/
def acceptWordOf (keywords : List (Option Keyword)) : Parser (Option (Option Keyword)) := do
  match (← peek).token with
  | .word w =>
    if w.keyword ∈ keywords then
      let _ ← next
      return some w.keyword
    else return none
  | _ => return none

/-- Fails because none of these keywords stands next. -/
def expectedOneOf (keywords : List (Option Keyword)) : Parser α := do
  expected ("one of " ++ " or ".intercalate (keywords.map Keyword.label)) (← peek)

/-- Takes the next token, which has to be a word with one of these keywords. -/
def expectWordOf (keywords : List (Option Keyword)) : Parser (Option Keyword) := do
  match ← acceptWordOf keywords with
  | some keyword => return keyword
  | none => expectedOneOf keywords

/-- Takes the next tokens if they are words with these keywords. -/
def acceptWords (keywords : List (Option Keyword)) : Parser Bool :=
  acceptAll (keywords.map acceptWord)

/-- Whether the next tokens are words with these keywords. -/
def peekWords (keywords : List (Option Keyword)) : Parser Bool := do
  let start ← get
  let found ← acceptWords keywords
  set start
  return found

/-- The spelling of the next tokens, with spaces between them, if they are words with these
    keywords. -/
def acceptWordsAsWritten (keywords : List (Option Keyword)) : Parser (Option String) := do
  let start ← get
  match ← go keywords with
  | some words => return some (" ".intercalate words)
  | none =>
    set start
    return none
where
  go : List (Option Keyword) → Parser (Option (List String))
    | [] => return some []
    | keyword :: rest => do
      match ← acceptWord? keyword with
      | none => return none
      | some found => return (← go rest).map (found.token.text :: ·)

/-- Takes the next tokens, which have to be words with these keywords. -/
def expectWords (keywords : List (Option Keyword)) : Parser Unit :=
  keywords.forM fun keyword => discard (expectWord keyword)

/-! ## Keywords -/

/-- Takes the next token if it is this keyword. -/
def acceptKeyword? (keyword : Keyword) : Parser (Option Located) := acceptWord? keyword

/-- Takes the next token if it is this keyword. -/
def acceptKeyword (keyword : Keyword) : Parser Bool := acceptWord keyword

/-- Whether the next token is this keyword. -/
def peekKeyword (keyword : Keyword) : Parser Bool := peekWord keyword

/-- Takes the next token, which has to be this keyword. -/
def expectKeyword (keyword : Keyword) : Parser Located := expectWord keyword

/-- Takes the next token if it is one of these keywords. -/
def acceptOneOf (keywords : List Keyword) : Parser (Option Keyword) :=
  Option.join <$> acceptWordOf (keywords.map some)

/-- Takes the next token, which has to be one of these keywords. -/
def expectOneOf (keywords : List Keyword) : Parser Keyword := do
  match ← acceptOneOf keywords with
  | some keyword => return keyword
  | none => expectedOneOf (keywords.map some)

/-- Takes the next tokens if they are these keywords. -/
def acceptKeywords (keywords : List Keyword) : Parser Bool := acceptWords (keywords.map some)

/-- Takes the next tokens, which have to be these keywords. -/
def expectKeywords (keywords : List Keyword) : Parser Unit := expectWords (keywords.map some)

/-- The spelling of the next tokens, with spaces between them, if they are these keywords. -/
def acceptKeywordsAsWritten (keywords : List Keyword) : Parser (Option String) :=
  acceptWordsAsWritten (keywords.map some)

/-! ## Repetition -/

/-- Applies a step again and again until it gives nothing, at most `n` times. -/
def iterateUpTo (step : β → Parser (Option β)) : Nat → β → Parser β
  | 0, state => return state
  | n + 1, state => do
    match ← step state with
    | none => return state
    | some state => iterateUpTo step n state

/-- Applies a step again and again until it gives nothing.  Every step that gives something
    takes a token, so there are at most as many as there are unread tokens. -/
def iterate (step : β → Parser (Option β)) (state : β) : Parser β := do
  iterateUpTo step ((← get).unread.length + 1) state

/-- The values that a reader gives until it gives nothing. -/
def many (item : Parser (Option α)) : Parser (List α) :=
  List.reverse <$> iterate (fun items => (·.map (· :: items)) <$> item) []

/-- Whether a comma behind which this token stands may be the end of a list. -/
def endsList : Token → Bool
  | .word w => match w.keyword with
    | some keyword => keyword ∈ Keyword.reservedForColumnAlias
    | none => false
  | .rparen | .semicolon | .eof | .pipeArrow => true
  | _ => false

/-- Takes the comma in front of a further item of a list; without one the list has ended, and
    with `trailing` it may end in a comma. -/
def acceptSeparator (trailing : Bool) : Parser Bool := do
  if ← accept .comma then
    return !(trailing && endsList (← peek).token)
  else return false

/-- One or more items with commas between them, and behind them if `trailing` allows it. -/
def commaSeparatedWith (trailing : Bool) (item : Parser α) : Parser (List α) := do
  let first ← item
  let rest ← many do
    if ← acceptSeparator trailing then some <$> item else return none
  return first :: rest

/-- One or more items with commas between them.  The options decide about a comma behind
    them. -/
def commaSeparated (item : Parser α) : Parser (List α) := do
  commaSeparatedWith (← read).options.trailingCommas item

/-- Any number of items with commas between them, up to `close`, which stays unread. -/
def commaSeparatedUntil (close : Token) (item : Parser α) : Parser (List α) := do
  if (← peek).token = close then return []
  if (← read).options.trailingCommas
      && (← get).peekTokens 2 = [.comma, close] then
    let _ ← next
    return []
  commaSeparated item

/-- What `inner` reads, in parentheses. -/
def parenthesized (inner : Parser α) : Parser α := do
  let _ ← expect .lparen
  let value ← inner
  let _ ← expect .rparen
  return value

/-- One or more items in parentheses, with commas between them only. -/
def parenthesizedList (item : Parser α) : Parser (List α) :=
  parenthesized (commaSeparatedWith false item)

end Parser

end SchemaSql
