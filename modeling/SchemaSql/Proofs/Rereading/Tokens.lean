import SchemaSql.Proofs.Reprinting
import SchemaSql.Proofs.Spelling.Captured

/-! # Tokens that are written again

    A statement is printed with tokens of the text that it was read from and with keywords and
    signs of the printer's own.  All of them are read back from their texts.

    * `Token.Faithful` rules out the string literals whose printed text stands for another
      string; `Token.Lucid` is what the other tokens of a text have in common.
    * `Context.Source` says that tokens stand in a text of such tokens.
    * `Prints` and `Leads` say that tokens and blanks are the layout of a text, in front of what
      may stand behind an operand and in front of everything. -/

namespace SchemaSql

open Token

variable {d : Dialect} {u : Bool} {t : Token} {P Q : List Token}

/-! ## Tokens of a text -/

/-- A literal without backslashes and, where literals are decoded, without two of its own quotes
    in a row; any other token. -/
def Token.Faithful (u : Bool) : Token → Prop
  | .singleQuoted v => '\\' ∉ v.toList ∧ (u = true → ¬ ['\'', '\''] <:+: v.toList)
  | .doubleQuoted v => '\\' ∉ v.toList ∧ (u = true → ¬ ['"', '"'] <:+: v.toList)
  | _ => True

/-- A token of a text that is read back from its own text, which is the printed one. -/
structure Token.Lucid (d : Dialect) (u : Bool) (t : Token) : Prop where
  solid     : t.isWhitespace = false
  spelled   : t.Spelled d u
  printed   : t.printed = t.text
  proper    : t.Proper
  endsApart : t.EndsApart
  ne_eof    : t ≠ .eof
  /-- A number may lose the letter behind its digits. -/
  short     : ∀ digits long, t = .number digits long → (Token.number digits false).Spelled d u

/-- A faithful literal is read back. -/
theorem Text.rereads_of_faithful [d.Regular] {q : Char} {cs : List Char} {width : Nat}
    (hq : d.OpensString q) (h : scanString d u q (literal q) cs = .ok (t, width))
    (hfaithful : t.Faithful u) : ∃ v, t = literal q v ∧ Rereads d u q v := by
  obtain ⟨units, hread, rfl, -⟩ := scanString_ok h
  obtain ⟨hlegal, -⟩ := StringUnit.opens_of_read hread
  refine ⟨_, rfl, ?_⟩
  generalize hv : stringValue u q units = v at hfaithful ⊢
  obtain ⟨hbackslash, hquotes⟩ : '\\' ∉ v.toList ∧ (u = true → ¬ [q, q] <:+: v.toList) := by
    rcases hq with rfl | ⟨rfl, -⟩ <;> exact hfaithful
  cases u with
  | true =>
      -- without backslashes in the value only a doubled quote could be misread
      have hescape : ¬ ['\\', q] <:+: v.toList := fun hpart =>
        hbackslash (hpart.subset (by simp))
      exact (rereads_decoded hq).mpr ⟨hquotes rfl, hescape, fun _ => hbackslash⟩
  | false =>
      refine (rereads_raw hq hlegal hv).mpr fun front rest hsplit => .inl ?_
      have hfront : '\\' ∉ front := fun hmem => hbackslash (by simp [hsplit, hmem])
      refine trailing_eq_zero.mpr fun hlast => hfront ?_
      cases hx : front.getLast? with
      | none => simp [hx] at hlast
      | some x =>
          obtain rfl : x = '\\' := by simpa [hx] using hlast
          exact List.mem_of_getLast? hx

/-- The solid tokens of a text are lucid, but for unfaithful literals. -/
theorem Token.Lucid.of_scan (hd : d ∈ Dialect.builtin) {c : Char} {cs : List Char} {width : Nat}
    (h : scan d u c cs = .ok (t, width)) (hblank : t.isWhitespace = false)
    (hfaithful : t.Faithful u) : t.Lucid d u := by
  have := Dialect.regular_of_builtin hd
  -- string literals need the proviso on quotes, the other tokens print as they are written
  rcases scan_cases h with ⟨hopens, hstring⟩ | ⟨hscanned, hstring⟩
  · obtain ⟨v, rfl, hrereads⟩ := Text.rereads_of_faithful hopens hstring hfaithful
    have hsign : ∀ w, literal c v ≠ .word w := by
      rcases hopens with rfl | ⟨rfl, -⟩ <;> exact nofun
    refine ⟨hblank, .literal hopens hrereads, ?_, Expr.proper_sign hsign, .literal hopens v, ?_, ?_⟩
    · rcases hopens with rfl | ⟨rfl, -⟩ <;> rfl
    · rcases hopens with rfl | ⟨rfl, -⟩ <;> exact nofun
    · rcases hopens with rfl | ⟨rfl, -⟩ <;> exact nofun
  · obtain ⟨hproper, heof⟩ := hscanned.proper_and_ne_eof
    -- what is left differs by the kind of the token
    suffices hrest : t.Spelled d u ∧ t.printed = t.text ∧ t.EndsApart ∧
        ∀ digits long, t = .number digits long → (Token.number digits false).Spelled d u from
      ⟨hblank, hrest.1, hrest.2.1, hproper, hrest.2.2.1, heof, hrest.2.2.2⟩
    cases hscanned with
    | blank => cases hblank
    | @bareWord c cs hc =>
        have hword := Scanned.word (.bareWord (u := u) cs hc) u
        have hbare : d.IsBareWord (String.ofList (c :: cs.takeWhile d.continuesIdentifier)) :=
          ⟨_, _, String.toList_ofList, hc, fun x hx => List.mem_takeWhile_imp hx⟩
        exact ⟨hword.2, hword.1, (Lexable.bareWord hbare).endsApart, nofun⟩
    | @quotedWord q cs hq =>
        have hword := Scanned.word (.quotedWord (u := u) cs hq) u
        refine ⟨hword.2, hword.1, (Lexable.quotedWord hq ?_).endsApart, nofun⟩
        rw [closingQuote_eq hq, String.toList_ofList]
        exact fun hmem => by simpa using List.mem_takeWhile_imp hmem
    | string =>
        unfold literal at hstring
        split at hstring <;> exact absurd trivial hstring
    | number hc hnumber =>
        obtain ⟨ds, rfl, hds⟩ := isDecimal_of_scanNumber hnumber
        refine ⟨.number hc hds _, rfl, (Lexable.number (d := d) hc.digit hds _).endsApart, ?_⟩
        rintro _ _ ⟨⟩
        exact .number hc hds _
    | char x =>
        obtain ⟨hsign, -⟩ := scan_char h
        obtain ⟨rfl, rfl⟩ := eq_of_scanSign_char hsign
        refine ⟨.char (lex_single (by simp) (scan_take h).2), rfl, ⟨[], x, by simp [text],
          iff_of_false ?_ nofun⟩, nofun⟩
        rintro rfl
        cases hsign
    | sign hsign =>
        refine ⟨spelled_of_isSign hsign, ?_, (Lexable.sign (d := d) hsign).endsApart, ?_⟩
        · cases t with
          | word => exact hsign.elim
          | _ => rfl
        · rintro _ _ rfl
          exact hsign.elim

/-- These tokens stand in a text of lucid tokens. -/
structure Context.Source (ctx : Context) (tokens : List Located) : Prop where
  lucid : ∀ l ∈ tokens, l.isWhitespace = false →
    l.token.Lucid ctx.dialect ctx.options.unescape
  chain : (tokens.map Located.token).IsChain (Fits ctx.dialect)

namespace Context.Source

variable {ctx : Context} {tokens part : List Located}

/-- The tokens of a text are a source if each of them keeps what it was written as. -/
theorem of_lex (hd : ctx.dialect ∈ Dialect.builtin) {text : String}
    (h : Token.lex ctx.dialect ctx.options.unescape text = .ok tokens)
    (hfaithful : ∀ l ∈ tokens, l.token.Faithful ctx.options.unescape) : ctx.Source tokens := by
  have := Dialect.regular_of_builtin hd
  refine ⟨fun l hl hblank => ?_, chain_of_lex h⟩
  obtain ⟨c, cs, width, -, hscan⟩ := scan_of_mem h l hl
  exact .of_scan hd hscan hblank (hfaithful l hl)

/-- Some of the tokens of a source are a source. -/
theorem mono (h : ctx.Source tokens) (hpart : part <:+: tokens) : ctx.Source part :=
  ⟨fun l hl => h.lucid l (hpart.mem hl), List.IsChain.infix h.chain (hpart.map _)⟩

/-- The next token of a source is read back unless it is a blank. -/
theorem head {l : Located} (h : ctx.Source (l :: tokens)) (hblank : l.isWhitespace = false) :
    l.token.Lucid ctx.dialect ctx.options.unescape := h.lucid l (by simp) hblank

/-- Nesting changes nothing about a text. -/
theorem depth (h : ctx.Source tokens) (depth : Nat) : { ctx with depth }.Source tokens :=
  ⟨h.lucid, h.chain⟩

end Context.Source

/-- Built-in dialects are regular. -/
instance [h : Fact (d ∈ Dialect.builtin)] : d.Regular := Dialect.regular_of_builtin h.out

/-! ## What is printed -/

@[simp] theorem legible_nil : Legible d u [] := trivial

/-- A space can be put anywhere. -/
@[simp] theorem legible_space : Legible d u (.space :: P) ↔ Legible d u P :=
  ⟨fun h => h.2.2, .space⟩

/-- What stands behind some tokens is legible if all of it is. -/
theorem Legible.of_append (h : Legible d u (P ++ Q)) : Legible d u Q := by
  induction P with
  | nil => exact h
  | cons t P ih => exact ih h.2.2

section

variable [d.Regular]

/-- Tokens end in front of what may stand behind an operand. -/
theorem Token.Spelled.legible_cons (ht : t.Spelled d u) (hP : Ends P) :
    Legible d u (t :: P) ↔ Legible d u P := ⟨fun h => h.2.2, .ends ht hP⟩

/-- A keyword can be printed in front of an end. -/
@[simp] theorem legible_ofKeyword {k : Keyword} (hP : Ends P) :
    Legible d u (.ofKeyword k :: P) ↔ Legible d u P := (spelled_keyword k).1.legible_cons hP

@[simp] theorem legible_eq (hP : Ends P) : Legible d u (.eq :: P) ↔ Legible d u P :=
  (spelled_of_isSign (t := .eq) trivial).legible_cons hP

@[simp] theorem legible_lparen : Legible d u (.lparen :: P) ↔ Legible d u P :=
  ⟨fun h => h.2.2, fun h => ⟨spelled_of_isSign trivial, fun _ _ => trivial, h⟩⟩

@[simp] theorem legible_rparen : Legible d u (.rparen :: P) ↔ Legible d u P :=
  ⟨fun h => h.2.2, fun h => ⟨spelled_of_isSign trivial, fun _ _ => trivial, h⟩⟩

@[simp] theorem legible_comma : Legible d u (.comma :: P) ↔ Legible d u P :=
  ⟨fun h => h.2.2, fun h => ⟨spelled_of_isSign trivial, fun _ _ => trivial, h⟩⟩

end

variable {ctx : Context} {s : String}

/-- The tokens and blanks make up the text, and they are read back in front of what may stand
    behind an operand. -/
structure Prints (ctx : Context) (s : String) (P : List Token) : Prop where
  text    : textOf P = s
  legible : ∀ Q, Ends Q →
    (Legible ctx.dialect ctx.options.unescape (P ++ Q) ↔
      Legible ctx.dialect ctx.options.unescape Q)

/-- The tokens and blanks make up the text, and they are read back in front of everything: there
    is a blank at the end, or nothing at all. -/
structure Leads (ctx : Context) (s : String) (P : List Token) : Prop where
  text    : textOf P = s
  legible : ∀ Q, Legible ctx.dialect ctx.options.unescape (P ++ Q) ↔
    Legible ctx.dialect ctx.options.unescape Q

/-- The tokens and blanks make up the text, and they are read back in front of what may stand
    behind an operand; they may stand there themselves. -/
structure Trails (ctx : Context) (s : String) (P : List Token) : Prop
    extends Prints ctx s P where
  ends : ∀ Q, Ends Q → Ends (P ++ Q)

/-- A token that is read back can be printed in front of an end. -/
theorem Token.Lucid.prints [ctx.dialect.Regular] (h : t.Lucid ctx.dialect ctx.options.unescape) :
    Prints ctx t.printed [t] :=
  ⟨by simp [h.printed], fun _ hQ => h.spelled.legible_cons hQ⟩

/-- A keyword is printed in capitals. -/
theorem Prints.keyword [ctx.dialect.Regular] (k : Keyword) : Prints ctx k.name [.ofKeyword k] :=
  ⟨by simp, fun _ hQ => (spelled_keyword k).1.legible_cons hQ⟩

/-- A sign can be printed in front of an end. -/
theorem Prints.sign [ctx.dialect.Regular] (ht : t.IsSign) : Prints ctx t.text [t] :=
  ⟨by simp, fun _ hQ => (spelled_of_isSign ht).legible_cons hQ⟩

/-- Tokens with this text that keep legible what stands behind them. -/
theorem Prints.intro (htext : textOf P = s)
    (h : ∀ Q, Ends Q → Legible ctx.dialect ctx.options.unescape Q →
      Legible ctx.dialect ctx.options.unescape (P ++ Q)) : Prints ctx s P :=
  ⟨htext, fun Q hQ => ⟨Legible.of_append, h Q hQ⟩⟩

/-- The levels of nesting do not matter to a print. -/
theorem Prints.of_depth {depth : Nat} (h : Prints { ctx with depth } s P) : Prints ctx s P :=
  ⟨h.text, h.legible⟩

/-- A printed text is read back alone. -/
theorem Prints.lexes (h : Prints ctx s P) :
    Lexes ctx.dialect ctx.options.unescape s.toList P := by
  have hlegible := (h.legible [] ends_nil).mpr trivial
  rw [List.append_nil] at hlegible
  rw [← h.text]
  exact hlegible.lexes

/-! ### Putting texts together -/

section

variable {s' : String} {P' : List Token}

theorem Prints.of_eq (h : Prints ctx s P) (hs : s = s') (hP : P = P') : Prints ctx s' P' := by
  subst hs hP
  exact h

theorem Trails.of_eq (h : Trails ctx s P) (hs : s = s') (hP : P = P') : Trails ctx s' P' := by
  subst hs hP
  exact h

theorem Trails.nil : Trails ctx "" [] := ⟨⟨rfl, fun _ _ => .rfl⟩, fun _ h => h⟩

theorem Leads.nil : Leads ctx "" [] := ⟨rfl, fun _ => .rfl⟩

/-- What can be printed in front of anything can be printed in front of an end. -/
theorem Leads.prints (h : Leads ctx s P) : Prints ctx s P := ⟨h.text, fun Q _ => h.legible Q⟩

/-- A text with a space behind it. -/
theorem Prints.leads (h : Prints ctx s P) : Leads ctx (s ++ " ") (P ++ [.space]) := by
  refine ⟨by rw [textOf_append, h.text]; rfl, fun Q => ?_⟩
  rw [List.append_assoc, h.legible _ (by simp), List.singleton_append, legible_space]

/-- A text with a space in front of it. -/
theorem Prints.trails (h : Prints ctx s P) : Trails ctx (" " ++ s) (.space :: P) := by
  refine ⟨⟨by rw [textOf_cons, h.text]; rfl, fun Q hQ => ?_⟩, fun Q _ => by simp⟩
  rw [List.cons_append, legible_space, h.legible Q hQ]

/-- Behind something printed comes what may trail it. -/
theorem Prints.append (h : Prints ctx s P) (h' : Trails ctx s' P') :
    Prints ctx (s ++ s') (P ++ P') := by
  refine ⟨by rw [textOf_append, h.text, h'.text], fun Q hQ => ?_⟩
  rw [List.append_assoc, h.legible _ (h'.ends Q hQ), h'.legible Q hQ]

theorem Trails.append (h : Trails ctx s P) (h' : Trails ctx s' P') :
    Trails ctx (s ++ s') (P ++ P') :=
  ⟨h.toPrints.append h', fun Q hQ => by
    rw [List.append_assoc]
    exact h.ends _ (h'.ends Q hQ)⟩

/-- In front of something printed comes what may lead it. -/
theorem Leads.append (h : Leads ctx s P) (h' : Prints ctx s' P') :
    Prints ctx (s ++ s') (P ++ P') := by
  refine ⟨by rw [textOf_append, h.text, h'.text], fun Q hQ => ?_⟩
  rw [List.append_assoc, h.legible, h'.legible Q hQ]

theorem Leads.append_leads (h : Leads ctx s P) (h' : Leads ctx s' P') :
    Leads ctx (s ++ s') (P ++ P') := by
  refine ⟨by rw [textOf_append, h.text, h'.text], fun Q => ?_⟩
  rw [List.append_assoc, h.legible, h'.legible]

/-- A text in parentheses. -/
theorem Prints.enclosed [ctx.dialect.Regular] (h : Prints ctx s P) :
    Trails ctx ("(" ++ s ++ ")") (.lparen :: (P ++ [.rparen])) := by
  refine ⟨⟨?_, fun Q hQ => ?_⟩, fun Q _ => by simp⟩
  · rw [textOf_cons, textOf_append, h.text, String.append_assoc]
    rfl
  · simp [h.legible]

end

end SchemaSql
