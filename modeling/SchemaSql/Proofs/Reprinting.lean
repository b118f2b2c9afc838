import SchemaSql.Proofs.Contents
import SchemaSql.Proofs.Reprinting.Expressions
import SchemaSql.Proofs.Spelling.Names

/-! # Reprinting — the tokens of a printed expression

    Reading an expression and printing it gives a text whose tokens are those that were read,
    up to capitals, the spelling of the equals sign and trailing commas.  There is one
    exception: the printer puts no blank behind a sign, so a minus sign in front of a text that
    starts with another one makes a comment of both.

    * `Expr.Apart` rules that out.
    * `Expr.legible_layout` goes down a tree and finds between any two tokens a character that
      ends the first of them; what stands behind an operand is always a space, a comma or a
      closing parenthesis.
    * `Expr.lex_text` is the result, and `Expr.text_minusMinus` the exception. -/

namespace SchemaSql

open Cursor SchemaSql.Parser Token

variable {d : Dialect} {u : Bool} {t : Token} {P rest : List Token}

/-! ## Where tokens end -/

/-- All tokens end in front of what may stand behind an operand. -/
theorem Token.stops_behind [d.Regular] (t : Token) {x : Char}
    (hx : x = ' ' ∨ x = ')' ∨ x = ',' ∨ x = '(') : t.Stops d x := by
  rcases hx with rfl | rfl | rfl | rfl <;> exact t.stops_of_sign (by decide) (by decide)

/-- What may stand behind an operand or a name. -/
def Ends (P : List Token) : Prop :=
  ∀ t ∈ P.head?, t = .space ∨ t = .rparen ∨ t = .comma ∨ t = .lparen

@[simp] theorem ends_nil : Ends [] := by simp [Ends]

@[simp] theorem ends_space : Ends (.space :: P) := by simp [Ends]

@[simp] theorem ends_rparen : Ends (.rparen :: P) := by simp [Ends]

@[simp] theorem ends_comma : Ends (.comma :: P) := by simp [Ends]

@[simp] theorem ends_lparen : Ends (.lparen :: P) := by simp [Ends]

/-- What stands behind an operand is read from one of four characters on. -/
theorem Ends.head (h : Ends P) {x : Char} (hx : x ∈ (textOf P).toList.head?) :
    x = ' ' ∨ x = ')' ∨ x = ',' ∨ x = '(' := by
  cases P with
  | nil => simp at hx
  | cons t P =>
      rcases h t rfl with rfl | rfl | rfl | rfl
      · exact .inl (by simpa using hx.symm)
      · exact .inr (.inl (by simpa [text] using hx.symm))
      · exact .inr (.inr (.inl (by simpa [text] using hx.symm)))
      · exact .inr (.inr (.inr (by simpa [text] using hx.symm)))

/-- Every token stops at what may stand behind an operand. -/
theorem Ends.stopsAt [d.Regular] (h : Ends P) (t : Token) : t.StopsAt d P :=
  fun _ hx => t.stops_behind (h.head hx)

/-- A spelled token can be printed in front of an end. -/
theorem Legible.ends [d.Regular] (ht : t.Spelled d u) (hends : Ends P) (h : Legible d u P) :
    Legible d u (t :: P) := ⟨ht, hends.stopsAt t, h⟩

theorem Legible.space (h : Legible d u P) : Legible d u (.space :: P) :=
  ⟨.space, fun _ _ => trivial, h⟩

/-- A keyword can be printed in front of a space. -/
theorem Legible.keyword [d.Regular] (k : Keyword) (h : Legible d u P) :
    Legible d u (.ofKeyword k :: .space :: P) :=
  .ends (spelled_keyword k).1 ends_space h.space

namespace Expr

/-! ## Printed trees -/

/-- A minus sign does not stand in front of a text that starts with one. -/
def Apart : Expr → Prop
  | .unary .minus operand => operand.text.toList.head? ≠ some '-'
  | _ => True

/-- Each of the tokens is printed as a text that is read back as it. -/
def Clear (d : Dialect) (u : Bool) (T : List Token) : Prop :=
  ∀ t ∈ T, t.Spelled d u ∧ t.printed = t.text

@[simp] theorem clear_nil : Clear d u [] := by simp [Clear]

@[simp] theorem clear_cons (t : Token) (T : List Token) :
    Clear d u (t :: T) ↔ (t.Spelled d u ∧ t.printed = t.text) ∧ Clear d u T := by
  simp [Clear]

/-- Tokens are clear where each of them is. -/
@[simp] theorem clear_append (S T : List Token) :
    Clear d u (S ++ T) ↔ Clear d u S ∧ Clear d u T := List.forall_mem_append

/-- The text of a tree is that of its tokens and blanks, if each token is printed as it is spelled.
    -/
theorem textOf_layout {e : Expr} (h : Clear d u e.tokens) : textOf e.layout = e.text := by
  have hlayout : ∀ t ∈ e.layout, t.text = t.printed := by
    intro t ht
    cases t with
    | word w =>
        refine (h (.word w) ?_).2.symm
        rw [← solid_layout e]
        exact List.mem_filter.mpr ⟨ht, rfl⟩
    | _ => rfl
  rw [text, ← text_layout, printedText, textOf, List.map_congr_left hlayout]

section

variable [d.Regular]

/-- A period ends each word of a path, and the last one is ended by what stands behind. -/
theorem legible_path {parts : List Ident} (h : Clear d u (pathTokens parts))
    (hstop : ∀ w, (Token.word w).StopsAt d rest) (hrest : Legible d u rest) :
    Legible d u (pathTokens parts ++ rest) := by
  cases parts with
  | nil => exact hrest
  | cons first parts =>
      have hdotted : partTokens parts = dotted (parts.map fun name => .word name.word) := by
        simp [partTokens, dotted, List.flatMap_map]
      rw [pathTokens, hdotted] at h ⊢
      have hword : ∀ t ∈ Token.word first.word :: parts.map fun name => .word name.word,
          ∃ w, t = .word w := by
        simp
      refine legible_dotted (fun t ht => ⟨(h t ?_).1, ?_⟩) (fun t ht => ?_) hrest
      · rcases List.mem_cons.mp ht with rfl | hmem
        · exact List.mem_cons_self
        · exact List.mem_cons_of_mem _ (mem_dotted hmem)
      · obtain ⟨w, rfl⟩ := hword t ht
        exact fun _ => (Dialect.Regular.sign '.' (by decide)).2
      · obtain ⟨w, rfl⟩ := hword t ht
        exact hstop w

/-- The word `NOT` has a space behind it. -/
theorem legible_negation {negated : Bool} (h : Legible d u P) :
    Legible d u (negationLayout negated ++ P) := by
  cases negated with
  | false => exact h
  | true => exact .keyword .not h

mutual

/-- A printed tree is legible in front of what may stand behind it. -/
theorem legible_layout : ∀ (e : Expr) {rest : List Token}, Clear d u e.tokens →
    Throughout Apart e.contents → Ends rest → Legible d u rest → Legible d u (e.layout ++ rest)
  | .ident name, rest, hclear, _, hends, hrest => by
      simp only [tokens, clear_cons] at hclear
      exact .ends hclear.1.1 hends hrest
  | .compound parts, rest, hclear, _, hends, hrest => by
      rw [tokens] at hclear
      exact legible_path hclear (fun w => hends.stopsAt _) hrest
  | .literal value, rest, hclear, _, hends, hrest => by
      simp only [tokens, clear_cons] at hclear
      exact .ends hclear.1.1 hends hrest
  | .wildcard, rest, _, _, hends, hrest => .ends (spelled_of_isSign trivial) hends hrest
  | .binary left op right, rest, hclear, hapart, hends, hrest => by
      simp only [tokens, clear_append, clear_cons] at hclear
      simp only [contents, throughout_expr, throughout_append] at hapart
      obtain ⟨hleft, ⟨hop, -⟩, hright⟩ := hclear
      rw [layout, List.append_assoc]
      exact legible_layout left hleft hapart.2.1 ends_space <| .space <| .ends hop ends_space <|
        .space <| legible_layout right hright hapart.2.2 hends hrest
  | .unary .not operand, rest, hclear, hapart, hends, hrest => by
      simp only [tokens, clear_cons] at hclear
      simp only [contents, throughout_expr] at hapart
      exact .keyword .not <| legible_layout operand hclear.2 hapart.2 hends hrest
  | .unary .plus operand, rest, hclear, hapart, hends, hrest => by
      simp only [tokens, clear_cons] at hclear
      simp only [contents, throughout_expr] at hapart
      exact ⟨spelled_of_isSign trivial, fun _ _ => trivial,
        legible_layout operand hclear.2 hapart.2 hends hrest⟩
  | .unary .minus operand, rest, hclear, hapart, hends, hrest => by
      simp only [tokens, clear_cons] at hclear
      simp only [contents, throughout_expr] at hapart
      obtain ⟨-, hclear⟩ := hclear
      obtain ⟨hminus, hapart⟩ := hapart
      refine ⟨spelled_of_isSign trivial, fun x hx => ?_,
        legible_layout operand hclear hapart hends hrest⟩
      -- the text behind the sign starts with the operand, or it is one that ends operands
      have hx : x ∈ (textOf (operand.layout ++ rest)).toList.head? := hx
      rw [textOf_append, textOf_layout hclear, String.toList_append, List.head?_append] at hx
      rcases Option.or_eq_some_iff.mp hx with hx | ⟨-, hx⟩
      · rintro rfl
        exact hminus hx
      · exact Token.stops_behind _ (hends.head hx)
  | .nested inner, rest, hclear, hapart, hends, hrest => by
      simp only [tokens, clear_append, clear_cons] at hclear
      simp only [contents, throughout_expr] at hapart
      obtain ⟨-, hinner, -⟩ := hclear
      rw [layout, List.cons_append, List.append_assoc]
      exact ⟨spelled_of_isSign trivial, fun _ _ => trivial,
        legible_layout inner hinner hapart.2 ends_rparen <|
          .ends (spelled_of_isSign trivial) hends hrest⟩
  | .call function args, rest, hclear, hapart, hends, hrest => by
      simp only [tokens, clear_append, clear_cons] at hclear
      simp only [contents, throughout_expr] at hapart
      obtain ⟨hpath, -, hargs, -⟩ := hclear
      rw [layout, List.append_assoc, List.cons_append, List.append_assoc]
      refine legible_path hpath (fun w x hx _ => ?_) ⟨spelled_of_isSign trivial, fun _ _ => trivial,
        legible_listLayout args hargs hapart.2 ends_rparen <|
          .ends (spelled_of_isSign trivial) hends hrest⟩
      obtain rfl : x = '(' := by simpa [Token.text] using hx.symm
      exact (Dialect.Regular.sign '(' (by decide)).2
  | .isNull operand, rest, hclear, hapart, hends, hrest => by
      simp only [tokens, clear_append] at hclear
      simp only [contents, throughout_expr] at hapart
      rw [layout, List.append_assoc]
      exact legible_layout operand hclear.1 hapart.2 ends_space <| .space <| .keyword .is <|
        .ends (spelled_keyword .null).1 hends hrest
  | .isNotNull operand, rest, hclear, hapart, hends, hrest => by
      simp only [tokens, clear_append] at hclear
      simp only [contents, throughout_expr] at hapart
      rw [layout, List.append_assoc]
      exact legible_layout operand hclear.1 hapart.2 ends_space <| .space <| .keyword .is <|
        .keyword .not <| .ends (spelled_keyword .null).1 hends hrest
  | .inList operand items negated, rest, hclear, hapart, hends, hrest => by
      simp only [tokens, clear_append, clear_cons] at hclear
      simp only [contents, throughout_expr, throughout_append] at hapart
      obtain ⟨hoperand, -, -, -, hitems, -⟩ := hclear
      simp only [layout, List.append_assoc, List.cons_append]
      exact legible_layout operand hoperand hapart.2.1 ends_space <| .space <|
        legible_negation <| .keyword .in ⟨spelled_of_isSign trivial, fun _ _ => trivial,
          legible_listLayout items hitems hapart.2.2 ends_rparen <|
            .ends (spelled_of_isSign trivial) hends hrest⟩
  | .between operand negated low high, rest, hclear, hapart, hends, hrest => by
      simp only [tokens, clear_append, clear_cons] at hclear
      simp only [contents, throughout_expr, throughout_append] at hapart
      obtain ⟨hoperand, -, -, hlow, -, hhigh⟩ := hclear
      simp only [layout, List.append_assoc, List.cons_append]
      exact legible_layout operand hoperand hapart.2.1.1 ends_space <| .space <|
        legible_negation <| .keyword .between <|
          legible_layout low hlow hapart.2.1.2 ends_space <| .space <| .keyword .and <|
            legible_layout high hhigh hapart.2.2 hends hrest

/-- So is a printed list of trees. -/
theorem legible_listLayout : ∀ (items : List Expr) {rest : List Token},
    Clear d u (listTokens items) → Throughout Apart (listContents items) → Ends rest →
      Legible d u rest → Legible d u (listLayout items ++ rest)
  | [], _, _, _, _, hrest => hrest
  | [e], rest, hclear, hapart, hends, hrest => by
      rw [listTokens] at hclear
      simp only [listContents, List.append_nil] at hapart
      exact legible_layout e hclear hapart hends hrest
  | e :: e' :: more, rest, hclear, hapart, hends, hrest => by
      simp only [listTokens, clear_append, clear_cons] at hclear
      rw [listContents, throughout_append] at hapart
      simp only [listLayout, List.append_assoc, List.cons_append]
      exact legible_layout e hclear.1 hapart.1 ends_comma <|
        .ends (spelled_of_isSign trivial) ends_space <| .space <|
          legible_listLayout (e' :: more) hclear.2.2 hapart.2 hends hrest

end

end

/-! ## The tokens that were read -/

/-- No token of a tree is a character that is nothing else. -/
theorem ne_char_of_mem (e : Expr) : ∀ t ∈ e.tokens, ∀ c, t ≠ .char c :=
  OfPrinted.tokens {
    word := fun _ => nofun
    literal := fun value c => by
      match value with
      | .number _ _ | .singleQuoted _ | .doubleQuoted _ | .null | .boolean true
      | .boolean false => exact nofun
    binary := fun op c => by cases op <;> exact nofun
    unary := fun op c => by cases op <;> exact nofun
    period := nofun, comma := nofun, lparen := nofun, rparen := nofun, mul := nofun } e

/-- The tokens of an expression whose text is free of backslashes and of doubled quotes come back
    when its text is read: none is lost and no two are one, for either way to read literals and
    whether trailing commas are allowed or not.  The only condition is that no minus sign
    stands in front of a text that starts with one. -/
theorem lex_text {ctx : Context} (hd : ctx.dialect ∈ Dialect.builtin) {text : String}
    {tokens : List Located} (hlex : lex ctx.dialect ctx.options.unescape text = .ok tokens)
    (hbackslash : '\\' ∉ text.toList) (hquoteless : ∀ t ∈ tokens, t.token.Quoteless)
    {e : Expr} {c' : Cursor} (hrun : parse ctx (.ofTokens tokens) = .ok e c')
    (hapart : Throughout Apart e.contents) (u : Bool) :
    ∃ S L, solidTokens tokens = S ++ solidTokens c'.unread ∧
      lex ctx.dialect u e.text = .ok L ∧
      Reprints ctx.options.trailingCommas S (solidTokens L) := by
  have := Dialect.regular_of_builtin hd
  have hscanned : ∀ l ∈ tokens, l.token.Scanned ctx.dialect ctx.options.unescape :=
    fun l hl => scanned_of_mem hlex hl
  have hholds := Cursor.holds_ofTokens hscanned
  obtain ⟨S, K, hT, hK, hprints⟩ := parse_reprints ctx _ _ _ _ hholds hrun
  have hclear : Clear ctx.dialect u e.tokens := by
    intro t ht
    -- what is printed was read from the text, or it is a keyword or a sign of the printer
    rcases hprints.mem ht with hread | ⟨k, rfl⟩ | rfl
    · have hsolid : t ∈ solid (tokens.map Located.token) := hT ▸ List.mem_append_left K hread
      obtain ⟨hmem, hblank⟩ := List.mem_filter.mp hsolid
      obtain ⟨l, hl, rfl⟩ := List.mem_map.mp hmem
      have hsolid : l.isWhitespace = false := (Bool.not_eq_true' _).mp hblank
      refine ⟨spelled_of_mem hlex hl hbackslash (hquoteless l hl) hsolid
        (ne_char_of_mem e _ ht) u, ?_⟩
      have hword := hscanned l hl
      cases hl' : l.token with
      | word w => exact ((hl' ▸ hword).word u).1
      | _ => rfl
    · exact ⟨(spelled_keyword k).1, rfl⟩
    · exact ⟨spelled_of_isSign trivial, rfl⟩
  have hlegible : Legible ctx.dialect u (e.layout ++ []) :=
    legible_layout e hclear hapart (by simp [Ends]) trivial
  rw [List.append_nil] at hlegible
  obtain ⟨L, hL, htokens⟩ := hlegible.lexes .start
  refine ⟨S, L, ?_, ?_, ?_⟩
  · rw [solidTokens_eq, hT, hK.tokens]
  · rw [← textOf_layout hclear]
    exact hL
  · rw [solidTokens_eq, htokens, solid_layout]
    exact hprints

/-- The equals sign of this text is printed in its other spelling and its last comma not at all;
    the other tokens come back as they are. -/
theorem lex_text_trailing :
    let ctx : Context := { dialect := .generic, options := { trailingCommas := true } }
    let tokens : List Located :=
      [⟨.minus, ⟨1, 1⟩⟩, ⟨.word ⟨"a", none, none⟩, ⟨1, 2⟩⟩, ⟨.whitespace .space, ⟨1, 3⟩⟩,
        ⟨.doubleEq, ⟨1, 4⟩⟩, ⟨.whitespace .space, ⟨1, 6⟩⟩, ⟨.word ⟨"f", none, none⟩, ⟨1, 7⟩⟩,
        ⟨.lparen, ⟨1, 8⟩⟩, ⟨.singleQuoted "x", ⟨1, 9⟩⟩, ⟨.comma, ⟨1, 12⟩⟩, ⟨.rparen, ⟨1, 13⟩⟩]
    let e : Expr := .binary (.unary .minus (.ident ⟨"a", none⟩)) .eq
      (.call (.simple "f") [.literal (.singleQuoted "x")])
    let c' : Cursor := { read := tokens.reverse, unread := [] }
    (ctx.dialect ∈ Dialect.builtin ∧
      lex ctx.dialect ctx.options.unescape "-a == f('x',)" = .ok tokens ∧
      '\\' ∉ "-a == f('x',)".toList ∧ (∀ t ∈ tokens, t.token.Quoteless) ∧
      parse ctx (.ofTokens tokens) = .ok e c' ∧ Throughout Apart e.contents) ∧
    e.text = "-a = f('x')" ∧
    ∃ S L, solidTokens tokens = S ++ solidTokens c'.unread ∧
      lex ctx.dialect true e.text = .ok L ∧
      Reprints ctx.options.trailingCommas S (solidTokens L) := by
  intro ctx tokens e c'
  have hd : ctx.dialect ∈ Dialect.builtin := by simp [ctx, Dialect.builtin]
  have hlex : lex ctx.dialect ctx.options.unescape "-a == f('x',)" = .ok tokens := by
    decide +kernel
  have hbackslash : '\\' ∉ "-a == f('x',)".toList := by decide
  have hquoteless : ∀ t ∈ tokens, t.token.Quoteless := by simp [tokens, Quoteless]
  have hrun : parse ctx (.ofTokens tokens) = .ok e c' := by rfl
  have hapart : Throughout Apart e.contents := by
    simp [e, contents, listContents, Apart, text, chunks, Ident.text]
  exact ⟨⟨hd, hlex, hbackslash, hquoteless, hrun, hapart⟩, rfl,
    lex_text hd hlex hbackslash hquoteless hrun hapart true⟩

/-- Two minus signs with a blank between them are printed without it, and the text that is printed
    is a comment. -/
theorem text_minusMinus :
    let ctx : Context := { dialect := .generic }
    let tokens : List Located :=
      [⟨.minus, ⟨1, 1⟩⟩, ⟨.whitespace .space, ⟨1, 2⟩⟩, ⟨.minus, ⟨1, 3⟩⟩,
        ⟨.number "5" false, ⟨1, 4⟩⟩]
    let e : Expr := .unary .minus (.unary .minus (.literal (.number "5" false)))
    let c' : Cursor := { read := tokens.reverse, unread := [] }
    (ctx.dialect ∈ Dialect.builtin ∧
      lex ctx.dialect ctx.options.unescape "- -5" = .ok tokens ∧
      '\\' ∉ "- -5".toList ∧ (∀ t ∈ tokens, t.token.Quoteless) ∧
      parse ctx (.ofTokens tokens) = .ok e c') ∧
    e.text = "--5" ∧
    ∀ u, ¬ ∃ S L, solidTokens tokens = S ++ solidTokens c'.unread ∧
      lex ctx.dialect u e.text = .ok L ∧
      Reprints ctx.options.trailingCommas S (solidTokens L) := by
  intro ctx tokens e c'
  refine ⟨⟨by simp [ctx, Dialect.builtin], by decide +kernel, by decide,
    by simp [tokens, Quoteless], by rfl⟩, rfl, ?_⟩
  rintro u ⟨S, L, hS, hL, hprints⟩
  have hcomment : lex .generic u "--5" =
      .ok [⟨.whitespace (.lineComment "5" "--"), .start⟩] :=
    lex_single rfl (by cases u <;> decide +kernel)
  obtain rfl := Except.ok.inj (hcomment.symm.trans hL)
  have hall : solidTokens tokens = S := hS.trans (List.append_nil S)
  subst hall
  cases hprints

end Expr

end SchemaSql
