import SchemaSql.Expr.Printer
import SchemaSql.Proofs.Climbing.Legal

/-! # Layout — the tokens of a printed expression

    `Expr.layout` are the tokens of a tree with the blanks that the printer puts between them:
    their texts make up the text of the tree, and without the blanks they are `Expr.tokens`.
    Those stand for the tree, and they are what the lexer makes of their spellings. -/

namespace SchemaSql

/-- A space between two tokens. -/
def Token.space : Token := .whitespace .space

/-- The text that a printer gives a token: in a quoted name a quote is doubled. -/
def Token.printed : Token → String
  | .word w => (Ident.ofWord w).text
  | t => t.text

/-- The printed text of tokens. -/
def printedText (tokens : List Token) : String := Text.Chunks.text (tokens.map Token.printed)

/-- The tokens that are no blanks. -/
def solid (tokens : List Token) : List Token := tokens.filter fun t => !t.isWhitespace

@[simp] theorem Token.printed_space : Token.space.printed = " " := rfl

@[simp] theorem Token.printed_ofKeyword (k : Keyword) : (Token.ofKeyword k).printed = k.name := rfl

@[simp] theorem Token.printed_word (name : Ident) :
    (Token.word name.word).printed = name.text := rfl

@[simp] theorem Token.printed_binary (op : BinaryOp) : op.token.printed = op.text := by
  cases op <;> rfl

@[simp] theorem Token.printed_unary (op : UnaryOp) : op.token.printed = op.text := by
  cases op <;> rfl

/-- A literal is printed as its token, with quotes where it has some. -/
@[simp] theorem Token.printed_literal (value : Literal) : value.token.printed = value.text := by
  match value with
  | .number _ _ | .singleQuoted _ | .doubleQuoted _ | .null => rfl
  | .boolean true | .boolean false => rfl

@[simp] theorem printedText_nil : printedText [] = "" := rfl

@[simp] theorem printedText_cons (t : Token) (tokens : List Token) :
    printedText (t :: tokens) = t.printed ++ printedText tokens := by
  simp [printedText]

/-- The text of tokens is put together from left to right. -/
@[simp] theorem printedText_append (P Q : List Token) :
    printedText (P ++ Q) = printedText P ++ printedText Q := by
  simp [printedText]

/-- The parts of a path stand between periods, without blanks. -/
theorem printedText_path (parts : List Ident) :
    printedText (pathTokens parts) = ".".intercalate (parts.map Ident.text) := by
  cases parts with
  | nil => rfl
  | cons first rest =>
      induction rest generalizing first with
      | nil => simp [pathTokens, partTokens]
      | cons second rest ih =>
          have hpath : pathTokens (first :: second :: rest) =
              .word first.word :: .period :: pathTokens (second :: rest) := rfl
          have hperiod : Token.printed .period = "." := rfl
          rw [hpath, printedText_cons, printedText_cons, ih, hperiod]
          simp [String.append_assoc]

/-! ## Without the blanks -/

@[simp] theorem isWhitespace_space : Token.space.isWhitespace = true := rfl

@[simp] theorem isWhitespace_word (w : Word) : (Token.word w).isWhitespace = false := rfl

@[simp] theorem isWhitespace_comma : Token.comma.isWhitespace = false := rfl

@[simp] theorem isWhitespace_lparen : Token.lparen.isWhitespace = false := rfl

@[simp] theorem isWhitespace_rparen : Token.rparen.isWhitespace = false := rfl

@[simp] theorem isWhitespace_mul : Token.mul.isWhitespace = false := rfl

@[simp] theorem isWhitespace_ofKeyword (k : Keyword) :
    (Token.ofKeyword k).isWhitespace = false := rfl

@[simp] theorem BinaryOp.isWhitespace_token (op : BinaryOp) : op.token.isWhitespace = false := by
  cases op <;> rfl

@[simp] theorem UnaryOp.isWhitespace_token (op : UnaryOp) : op.token.isWhitespace = false := by
  cases op <;> rfl

@[simp] theorem Literal.isWhitespace_token (value : Literal) :
    value.token.isWhitespace = false := by
  match value with
  | .number _ _ | .singleQuoted _ | .doubleQuoted _ | .null | .boolean true | .boolean false => rfl

@[simp] theorem solid_nil : solid [] = [] := rfl

@[simp] theorem solid_cons (t : Token) (P : List Token) :
    solid (t :: P) = if t.isWhitespace then solid P else t :: solid P := by
  cases ht : t.isWhitespace <;> simp [solid, ht]

/-- Blanks are left out token by token. -/
@[simp] theorem solid_append (P Q : List Token) : solid (P ++ Q) = solid P ++ solid Q := by
  simp [solid]

/-- The tokens of a text without its blanks, and without the places where they stand. -/
theorem solidTokens_eq (w : List Located) : solidTokens w = solid (w.map Located.token) := by
  induction w with
  | nil => rfl
  | cons t w ih =>
      by_cases ht : t.isWhitespace
      · have ht' : t.token.isWhitespace = true := ht
        simp [solidTokens, ht, ht', ← ih]
      · have ht' : ¬ t.token.isWhitespace = true := ht
        simp [solidTokens, ht, ht', ← ih]

/-- There are no blanks in a path. -/
@[simp] theorem solid_path (parts : List Ident) : solid (pathTokens parts) = pathTokens parts := by
  have hparts : ∀ rest : List Ident, solid (partTokens rest) = partTokens rest := by
    intro rest
    induction rest with
    | nil => rfl
    | cons name rest ih => exact congrArg (fun P => .period :: .word name.word :: P) ih
  cases parts with
  | nil => rfl
  | cons first rest => exact congrArg (.word first.word :: ·) (hparts rest)

namespace Expr

/-- `NOT` and a space, or nothing. -/
def negationLayout (negated : Bool) : List Token :=
  if negated then [.ofKeyword .not, .space] else []

mutual

/-- The tokens and blanks of a printed tree. -/
def layout : Expr → List Token
  | .ident name => [.word name.word]
  | .compound parts => pathTokens parts
  | .literal value => [value.token]
  | .binary left op right => left.layout ++ .space :: op.token :: .space :: right.layout
  | .unary .not operand => .ofKeyword .not :: .space :: operand.layout
  | .unary op operand => op.token :: operand.layout
  | .nested inner => .lparen :: (inner.layout ++ [.rparen])
  | .call function args => pathTokens function.parts ++ .lparen :: (listLayout args ++ [.rparen])
  | .isNull operand => operand.layout ++ [.space, .ofKeyword .is, .space, .ofKeyword .null]
  | .isNotNull operand =>
    operand.layout ++
      [.space, .ofKeyword .is, .space, .ofKeyword .not, .space, .ofKeyword .null]
  | .inList operand items negated =>
    operand.layout ++ .space :: (negationLayout negated
      ++ .ofKeyword .in :: .space :: .lparen :: (listLayout items ++ [.rparen]))
  | .between operand negated low high =>
    operand.layout ++ .space :: (negationLayout negated
      ++ .ofKeyword .between :: .space :: (low.layout
        ++ .space :: .ofKeyword .and :: .space :: high.layout))
  | .wildcard => [.mul]

/-- The tokens and blanks of a printed list of trees. -/
def listLayout : List Expr → List Token
  | [] => []
  | [e] => e.layout
  | e :: rest => e.layout ++ .comma :: .space :: listLayout rest

end

/-- The word `NOT` with the blank behind it is what the printer writes. -/
theorem printedText_negation (negated : Bool) :
    printedText (negationLayout negated) = negation negated := by
  cases negated <;> rfl

mutual

/-- The text of a tree is the text of its tokens and blanks. -/
theorem text_layout : ∀ e : Expr, printedText e.layout = Text.Chunks.text e.chunks
  | .ident _ | .literal _ => by
      simp [layout, chunks]
  | .wildcard => rfl
  | .compound parts => by
      simp [layout, chunks, printedText_path]
  | .binary left op right => by
      simp [layout, chunks, text_layout left, text_layout right, String.append_assoc]
  | .unary .not operand => by
      simp [layout, chunks, text_layout operand]
      rfl
  | .unary .plus operand | .unary .minus operand => by
      simp [layout, chunks, text_layout operand]
  | .nested inner => by
      simp [layout, chunks, text_layout inner]
      rfl
  | .call function args => by
      simp [layout, chunks, printedText_path, text_listLayout args, ObjectName.text,
        String.append_assoc]
      rfl
  | .isNull operand | .isNotNull operand => by
      simp [layout, chunks, text_layout operand]
      rfl
  | .inList operand items negated => by
      simp [layout, chunks, text_layout operand, text_listLayout items, printedText_negation,
        String.append_assoc]
      rfl
  | .between operand negated low high => by
      simp [layout, chunks, text_layout operand, text_layout low, text_layout high,
        printedText_negation, String.append_assoc]
      rfl

/-- So is the text of a list of trees. -/
theorem text_listLayout : ∀ items : List Expr,
    printedText (listLayout items) = Text.Chunks.text (listChunks items)
  | [] => rfl
  | [e] => by
      simp [listLayout, listChunks, text_layout e]
  | e :: e' :: rest => by
      simp [listLayout, listChunks, text_layout e, text_listLayout (e' :: rest)]
      rfl

end

/-- Without its blank the word is the token that the parser looks for. -/
@[simp] theorem solid_negation (negated : Bool) :
    solid (negationLayout negated) = negationTokens negated := by
  cases negated <;> rfl

mutual

/-- The tokens of a tree are those it is printed with. -/
theorem solid_layout : ∀ e : Expr, solid e.layout = e.tokens
  | .ident _ | .literal _ | .wildcard => by
      simp [layout, tokens]
  | .compound parts => by
      simp [layout, tokens]
  | .binary left op right => by
      simp [layout, tokens, solid_layout left, solid_layout right]
  | .unary .not operand => by
      simp [layout, tokens, solid_layout operand, UnaryOp.token]
  | .unary .plus operand | .unary .minus operand => by
      simp [layout, tokens, solid_layout operand]
  | .nested inner => by
      simp [layout, tokens, solid_layout inner]
  | .call function args => by
      simp [layout, tokens, solid_listLayout args]
  | .isNull operand | .isNotNull operand => by
      simp [layout, tokens, solid_layout operand]
  | .inList operand items negated => by
      simp [layout, tokens, solid_layout operand, solid_listLayout items]
  | .between operand negated low high => by
      simp [layout, tokens, solid_layout operand, solid_layout low, solid_layout high]

/-- So are the tokens of a list of trees. -/
theorem solid_listLayout : ∀ items : List Expr, solid (listLayout items) = listTokens items
  | [] => rfl
  | [e] => by
      simp [listLayout, listTokens, solid_layout e]
  | e :: e' :: rest => by
      simp [listLayout, listTokens, solid_layout e, solid_listLayout (e' :: rest)]

end

/-! ## What the tokens stand for -/

theorem keyword?_ofKeyword (k : Keyword) : (Token.ofKeyword k).keyword? = some k :=
  Word.keyword_of_name k

theorem bareKeyword?_ofKeyword (k : Keyword) : (Token.ofKeyword k).bareKeyword? = some k :=
  Word.keyword_of_name k

/-- Each binary operator is found by its own token. -/
theorem binaryOp?_token (op : BinaryOp) : op.token.binaryOp? = some op := by
  have hword : ∀ k, (Word.of k.name none).keyword = some k := Word.keyword_of_name
  cases op <;> simp [BinaryOp.token, Token.binaryOp?, Token.ofKeyword, hword]

/-- Each sign is found by its own token. -/
theorem unaryOp?_token (op : UnaryOp) : op.token.unaryOp? = some op := by
  cases op with
  | plus => rfl
  | minus => rfl
  | not => simp [UnaryOp.token, Token.ofKeyword, Token.unaryOp?, ← bareKeyword?_ofKeyword]

/-- A literal is read back from the token that it is printed as. -/
theorem literal?_token (value : Literal) : value.token.literal? = some value := by
  have hkeyword : ∀ k, (Token.word (Word.of k.name none)).bareKeyword? = some k :=
    bareKeyword?_ofKeyword
  cases value with
  | boolean b => cases b <;> simp [Literal.token, Token.ofKeyword, Token.literal?, hkeyword]
  | null => simp [Literal.token, Token.ofKeyword, Token.literal?, hkeyword]
  | _ => rfl

/-- The token of `NOT` says that the operator behind it is negated, and no token that it is not. -/
theorem isNegation_tokens (negated : Bool) : IsNegation negated (negationTokens negated) := by
  cases negated with
  | false => rfl
  | true => exact ⟨_, rfl, keyword?_ofKeyword _⟩

mutual

/-- The tokens of a tree stand for it. -/
theorem spelled_tokens : ∀ e : Expr, e.Spelled e.tokens
  | .ident _ | .compound _ | .wildcard => by
      rw [Spelled, tokens]
  | .literal value => ⟨_, by rw [tokens], literal?_token value⟩
  | .binary left op right =>
      ⟨_, _, _, by rw [tokens], spelled_tokens left, binaryOp?_token op, spelled_tokens right⟩
  | .unary op operand => ⟨_, _, by rw [tokens], unaryOp?_token op, spelled_tokens operand⟩
  | .nested inner => ⟨_, by rw [tokens], spelled_tokens inner⟩
  | .call _ args => ⟨_, by rw [tokens], spelled_listTokens args⟩
  | .isNull operand =>
      ⟨_, _, _, by rw [tokens], spelled_tokens operand, keyword?_ofKeyword _, keyword?_ofKeyword _⟩
  | .isNotNull operand =>
      ⟨_, _, _, _, by rw [tokens], spelled_tokens operand, keyword?_ofKeyword _,
        keyword?_ofKeyword _, keyword?_ofKeyword _⟩
  | .inList operand items negated =>
      ⟨_, _, _, _, by rw [tokens], spelled_tokens operand, isNegation_tokens negated,
        keyword?_ofKeyword _, spelled_listTokens items⟩
  | .between operand negated low high =>
      ⟨_, _, _, _, _, _, by rw [tokens], spelled_tokens operand, isNegation_tokens negated,
        keyword?_ofKeyword _, spelled_tokens low, keyword?_ofKeyword _, spelled_tokens high⟩

/-- The tokens of a list of trees stand for it. -/
theorem spelled_listTokens : ∀ items : List Expr, listSpelled items (listTokens items)
  | [] => by rw [listSpelled, listTokens]
  | [e] => by
      rw [listSpelled, listTokens]
      exact spelled_tokens e
  | e :: e' :: rest => by
      rw [listSpelled, listTokens]
      · exact ⟨_, _, rfl, spelled_tokens e, spelled_listTokens (e' :: rest)⟩
      · simp
      · simp

end

/-- A name that is printed is a word that the lexer gives. -/
theorem proper_word (name : Ident) : (Token.word name.word).Proper := by
  intro w hw
  obtain rfl := Token.word.inj hw
  rfl

theorem proper_ofKeyword (k : Keyword) : (Token.ofKeyword k).Proper :=
  proper_word { value := k.name }

/-- A token that is no word has no keyword to get wrong. -/
theorem proper_sign {t : Token} (h : ∀ w, t ≠ .word w) : t.Proper := fun w hw => absurd hw (h w)

theorem proper_binary (op : BinaryOp) : op.token.Proper := by
  cases op with
  | and => exact proper_ofKeyword .and
  | or => exact proper_ofKeyword .or
  | _ => exact proper_sign (by simp [BinaryOp.token])

theorem proper_unary (op : UnaryOp) : op.token.Proper := by
  cases op with
  | not => exact proper_ofKeyword .not
  | _ => exact proper_sign (by simp [UnaryOp.token])

theorem proper_literal (value : Literal) : value.token.Proper := by
  match value with
  | .number _ _ | .singleQuoted _ | .doubleQuoted _ => exact proper_sign (by simp [Literal.token])
  | .boolean true | .boolean false | .null => exact proper_ofKeyword _

/-- This holds of all kinds of tokens that a tree is printed with. -/
structure OfPrinted (P : Token → Prop) : Prop where
  word    : ∀ name : Ident, P (.word name.word)
  literal : ∀ value : Literal, P value.token
  binary  : ∀ op : BinaryOp, P op.token
  unary   : ∀ op : UnaryOp, P op.token
  period  : P .period
  comma   : P .comma
  lparen  : P .lparen
  rparen  : P .rparen
  mul     : P .mul

section

variable {P : Token → Prop} (h : OfPrinted P)

include h

theorem OfPrinted.keyword (k : Keyword) : P (.ofKeyword k) := h.word { value := k.name }

/-- The tokens of a path are names and periods. -/
theorem OfPrinted.path (parts : List Ident) : ∀ t ∈ pathTokens parts, P t := by
  cases parts with
  | nil => simp [pathTokens]
  | cons first rest =>
      intro t ht
      simp only [pathTokens, partTokens, List.mem_cons, List.mem_flatMap] at ht
      rcases ht with rfl | ⟨name, -, rfl | rfl | hnil⟩
      · exact h.word first
      · exact h.period
      · exact h.word name
      · simp at hnil

/-- A negation is a keyword. -/
theorem OfPrinted.negation (negated : Bool) : ∀ t ∈ negationTokens negated, P t := by
  cases negated with
  | false => simp [negationTokens]
  | true => simpa [negationTokens] using h.keyword .not

mutual

/-- It holds of all tokens of a tree. -/
theorem OfPrinted.tokens : ∀ e : Expr, ∀ t ∈ e.tokens, P t
  | .ident name => by
      simpa [Expr.tokens] using h.word name
  | .compound parts => by
      simpa [Expr.tokens] using h.path parts
  | .literal value => by
      simpa [Expr.tokens] using h.literal value
  | .wildcard => by
      simpa [Expr.tokens] using h.mul
  | .binary left op right => by
      simpa [Expr.tokens, or_imp, forall_and] using
        ⟨OfPrinted.tokens left, h.binary op, OfPrinted.tokens right⟩
  | .unary op operand => by
      simpa [Expr.tokens] using ⟨h.unary op, OfPrinted.tokens operand⟩
  | .nested inner => by
      simpa [Expr.tokens, or_imp, forall_and] using
        ⟨h.lparen, OfPrinted.tokens inner, h.rparen⟩
  | .call function args => by
      simpa [Expr.tokens, or_imp, forall_and] using
        ⟨h.path function.parts, h.lparen, OfPrinted.listTokens args, h.rparen⟩
  | .isNull operand => by
      simpa [Expr.tokens, or_imp, forall_and, h.keyword] using OfPrinted.tokens operand
  | .isNotNull operand => by
      simpa [Expr.tokens, or_imp, forall_and, h.keyword] using OfPrinted.tokens operand
  | .inList operand items negated => by
      simpa [Expr.tokens, or_imp, forall_and, h.keyword] using
        ⟨OfPrinted.tokens operand, h.negation negated, h.lparen, OfPrinted.listTokens items,
          h.rparen⟩
  | .between operand negated low high => by
      simpa [Expr.tokens, or_imp, forall_and, h.keyword] using
        ⟨OfPrinted.tokens operand, h.negation negated, OfPrinted.tokens low,
          OfPrinted.tokens high⟩

/-- It holds of all tokens of a list of trees. -/
theorem OfPrinted.listTokens : ∀ items : List Expr, ∀ t ∈ Expr.listTokens items, P t
  | [] => by simp [Expr.listTokens]
  | [e] => by
      simpa [Expr.listTokens] using OfPrinted.tokens e
  | e :: e' :: rest => by
      simpa [Expr.listTokens, or_imp, forall_and] using
        ⟨OfPrinted.tokens e, h.comma, OfPrinted.listTokens (e' :: rest)⟩

end

end

/-- The words among the tokens of a tree have the keywords that their spellings have. -/
theorem proper_tokens (e : Expr) : ∀ t ∈ e.tokens, t.Proper :=
  OfPrinted.tokens {
    word := proper_word, literal := proper_literal, binary := proper_binary,
    unary := proper_unary, period := proper_sign nofun, comma := proper_sign nofun,
    lparen := proper_sign nofun, rparen := proper_sign nofun, mul := proper_sign nofun } e

end Expr

end SchemaSql
