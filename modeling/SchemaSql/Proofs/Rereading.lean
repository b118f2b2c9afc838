import SchemaSql.Proofs.Rereading.Statements

/-! # Rereading — a printed statement is read as the statement that it is the print of

    Statements that were read from a text are printed and read again, each on its own.  The
    print differs from the text in spaces, in the case and the order of words, in optional
    words and in parentheses of lists, and yet every reader takes the same way through it.

    * `Echoes` (in `Rereading.Echoes`) is what is shown of every reader: it reads the print of
      its value as it read the tokens of the text, wherever what stands behind the print looks
      the same to it as what stood behind the tokens;
    * `Statement.Sentence` cuts the tokens of one statement out of a text, and
      `Statement.parseWith_cases` says by which reader they were read;
    * `Statement.Rereadable` is what a print may lose: one of two minus signs in a row is read
      as the start of a comment, settings in front of a table are not printed, a format is
      printed without its quotes, and a period behind digits is read as part of a number.

    What is asked of the text is that its string literals are printed as they were written
    (`Token.Faithful`). -/

namespace SchemaSql.Statement

open Cursor SchemaSql.Parser Token

variable {ctx : Context} {c c' : Cursor} {s : Statement} {ss : List Statement} {text : String}

/-- The query that a statement is or explains. -/
def query? : Statement → Option Query
  | .query q => some q
  | .explain e => match e.target with
    | .query q => some q
    | .table _ => none
  | .alter _ | .createSynonym _ => none

/-- Nothing that the statement stores is lost in its print. -/
structure Rereadable (ctx : Context) (s : Statement) : Prop where
  /-- No minus sign is applied to another one. -/
  single : Throughout Expr.Single s.contents
  /-- No part of a table's name but the last one ends in a hyphen and digits. -/
  tables : ∀ q ∈ s.query?, ∀ t ∈ q.body.table?, t.name.Undigited ctx
  /-- A table is described without settings. -/
  described : ∀ e, s = .explain e → ∀ name, e.target = .table name → e.options = []
  /-- Formats are named by words that need no quotes, as all words without quotes are. -/
  formats : ∀ e, s = .explain e → ∀ o ∈ e.options, o.kind = .format →
    ∀ v ∈ o.value, ctx.dialect.IsBareWord v

/-! ## The place of a statement -/

/-- The reader that a statement behind a keyword was read by. -/
theorem parseWith_cases (h : parseWith noExtension ctx c = .ok s c') :
    (∃ depth a, ctx.depth = depth + 1 ∧ s = .alter a ∧
      c.peek.token.keyword? = some .alter ∧
        Alter.parse { ctx with depth } c.next.2 = .ok a c') ∨
    (∃ depth y, ctx.depth = depth + 1 ∧ s = .createSynonym y ∧
      c.peek.token.keyword? = some .create ∧
        CreateSynonym.parse { ctx with depth } c.next.2 = .ok y c') ∨
    (∃ e, s = .explain e) ∨ ∃ q, s = .query q := by
  obtain ⟨depth, hdepth, h⟩ := descend_ok.mp h
  have hbuiltin : parseBuiltin { ctx with depth } c = .ok s c' := h
  rw [parseBuiltin, bind_run (next_run _ c)] at hbuiltin
  -- the reader by a name, so that the cases are split in its definition only
  obtain ⟨p, hp, hrun⟩ : ∃ p : Parser Statement, p = _ ∧ p { ctx with depth } c.next.2 = _ :=
    ⟨_, rfl, hbuiltin⟩
  split at hp <;> subst hp
  · next hkeyword =>
    obtain ⟨a, _, ha, ⟨⟩⟩ := bind_ok.mp hrun
    exact .inl ⟨depth, a, hdepth, rfl, hkeyword, ha⟩
  · obtain ⟨e, _, -, ⟨⟩⟩ := bind_ok.mp hrun
    exact .inr (.inr (.inl ⟨e, rfl⟩))
  · obtain ⟨e, _, -, ⟨⟩⟩ := bind_ok.mp hrun
    exact .inr (.inr (.inl ⟨e, rfl⟩))
  · obtain ⟨e, _, -, ⟨⟩⟩ := bind_ok.mp hrun
    exact .inr (.inr (.inl ⟨e, rfl⟩))
  · next hkeyword =>
    obtain ⟨y, _, hy, ⟨⟩⟩ := bind_ok.mp hrun
    exact .inr (.inl ⟨depth, y, hdepth, rfl, hkeyword, hy⟩)
  · obtain ⟨_, _, -, hrun⟩ := bind_ok.mp hrun
    obtain ⟨q, _, -, ⟨⟩⟩ := bind_ok.mp hrun
    exact .inr (.inr (.inr ⟨q, rfl⟩))
  · obtain ⟨_, _, -, hrun⟩ := bind_ok.mp hrun
    obtain ⟨q, _, -, ⟨⟩⟩ := bind_ok.mp hrun
    exact .inr (.inr (.inr ⟨q, rfl⟩))
  · exact absurd hrun expected_ne_ok

/-- A statement that is all that stands at one place is read back from its text. -/
theorem reread_of_run (hd : ctx.dialect ∈ Dialect.builtin) (hoverrun : c.overrun = 0)
    (hsource : ctx.Source c.rest) (hrun : parseWith noExtension ctx c = .ok s c')
    (hend : c'.rest = []) (hs : s.Rereadable ctx) :
    parseAll.runText ctx s.text = .ok [s] := by
  have : Fact (ctx.dialect ∈ Dialect.builtin) := ⟨hd⟩
  -- one case for each kind of statement, told apart by the keyword in front
  rcases parseWith_cases hrun with ⟨depth, a, hdepth, rfl, hkeyword, ha⟩ |
    ⟨depth, y, hdepth, rfl, hkeyword, hy⟩ | ⟨e, rfl⟩ | ⟨q, rfl⟩
  · have : Fact ({ ctx with depth }.dialect ∈ Dialect.builtin) := ⟨hd⟩
    refine reread_of_echoes (f := .alter) (F := fun a => Throughout Expr.Single a.contents)
      hdepth (fun d hd => ?_) (Alter.parse_echoes.front fun _ _ _ => trivial) hoverrun hsource
        hkeyword ha hend hs.single
    rw [parseBuiltin, bind_run (next_run _ d), hd]
    rfl
  · have : Fact ({ ctx with depth }.dialect ∈ Dialect.builtin) := ⟨hd⟩
    refine reread_of_echoes (f := .createSynonym) (F := fun _ => True) hdepth (fun d hd => ?_)
      (CreateSynonym.parse_echoes.print fun _ _ h _ => h) hoverrun hsource hkeyword hy hend trivial
    rw [parseBuiltin, bind_run (next_run _ d), hd]
    rfl
  · refine Explain.reread hoverrun hsource hrun hend (hs.described e rfl) (fun q hq => ?_)
      (hs.formats e rfl)
    have hcontents : Throughout Expr.Single e.contents := hs.single
    refine ⟨by rwa [Explain.contents, hq] at hcontents, hs.tables q ?_⟩
    rw [query?, hq]
    rfl
  · -- a query steps back in front of its keyword, where it is read as a query
    obtain ⟨depth, hdepth, hkeyword, hq⟩ := parseWith_query.mp hrun
    have hback := (at_rest hoverrun).next_back
    have hpeek : c.next.2.back.peek = c.peek := by rw [peek_eq, hback.rest, peek_eq]
    exact Query.reread hdepth hback.overrun (hback.rest ▸ hsource) (hpeek ▸ hkeyword) hq hend
      ⟨hs.single, hs.tables q rfl⟩

/-- Every statement of a text has its own tokens there. -/
theorem sentence_of_mem {w : List Located} (h : Laid ctx w ss) (hs : s ∈ ss) :
    ∃ used, used <:+: w ∧ Sentence ctx used s := by
  induction h with
  | nil => cases hs
  | @cons gap used w s' ss hgap hsentence _ _ ih =>
      rcases List.mem_cons.mp hs with rfl | hs
      · exact ⟨used, ⟨gap, w, by simp⟩, hsentence⟩
      · obtain ⟨used', hused, hsentence'⟩ := ih hs
        refine ⟨used', hused.trans ?_, hsentence'⟩
        rw [← List.append_assoc]
        exact (List.suffix_append (gap ++ used) w).isInfix

/-- **Statements survive printing.**  In the built-in dialects, whatever the options and the
    limit of nesting: of the statements that a text is read as, each one is the only statement
    that its own text is read as, under the same dialect, options and limit.  The string
    literals of the text have to be printed as they were written, and no statement may store
    what its print loses. -/
theorem parseAll_reread (hd : ctx.dialect ∈ Dialect.builtin) {tokens : List Located}
    (hlex : lex ctx.dialect ctx.options.unescape text = .ok tokens)
    (hfaithful : ∀ l ∈ tokens, l.token.Faithful ctx.options.unescape)
    (h : parseAll.runText ctx text = .ok ss) (hss : ∀ s ∈ ss, s.Rereadable ctx) :
    ∀ s ∈ ss, parseAll.runText ctx s.text = .ok [s] := by
  intro s hs
  obtain ⟨L, hL, hrun⟩ := runText_ok.mp h
  obtain rfl : tokens = L := Except.ok.inj (hlex.symm.trans hL)
  have heof : NoEof tokens := noEof_of_lex hlex
  obtain ⟨used, hused, hsentence⟩ := sentence_of_mem ((runTokens_iff heof).mp hrun) hs
  have hsource : ctx.Source used := (Context.Source.of_lex hd hlex hfaithful).mono hused
  -- the tokens of the statement, and nothing behind them
  obtain ⟨t, w, rfl, hgap⟩ := hsentence.head
  have hblank : t.isWhitespace = false := (Bool.or_eq_false_iff.mp hgap).1
  have hrest : (Cursor.ofTokens (t :: w)).rest = t :: w :=
    dropWhile_of_clean (clean_cons.mpr hblank)
  obtain ⟨c', hrun, hend⟩ := hsentence.replay [] (.inl rfl) (.ofTokens (t :: w))
    ⟨rfl, by rw [hrest, List.append_nil]⟩
  exact reread_of_run hd rfl (by rwa [hrest]) hrun hend.rest (hss s hs)

/-- An alias that was written without `AS`, behind a string literal. -/
theorem parseAll_reread_alias :
    let ctx : Context := { dialect := .generic }
    let projection : List SelectItem := [.aliased (.literal (.singleQuoted "it")) { value := "b" }]
    let s : Statement :=
      .query { body := .select { projection, source := some { name := .simple "t" } } }
    parseAll.runText ctx "select 'it' b from t;" = .ok [s] ∧
      s.text = "SELECT 'it' AS b FROM t" ∧ parseAll.runText ctx s.text = .ok [s] := by
  intro ctx projection s
  have h : parseAll.runText ctx "select 'it' b from t;" = .ok [s] := by decide +kernel
  let tokens : List Located :=
    [⟨.word ⟨"select", none, some .select⟩, ⟨1, 1⟩⟩, ⟨.space, ⟨1, 7⟩⟩,
      ⟨.singleQuoted "it", ⟨1, 8⟩⟩, ⟨.space, ⟨1, 12⟩⟩, ⟨.word ⟨"b", none, none⟩, ⟨1, 13⟩⟩,
      ⟨.space, ⟨1, 14⟩⟩, ⟨.word ⟨"from", none, some .from⟩, ⟨1, 15⟩⟩, ⟨.space, ⟨1, 19⟩⟩,
      ⟨.word ⟨"t", none, none⟩, ⟨1, 20⟩⟩, ⟨.semicolon, ⟨1, 21⟩⟩]
  have hlex : lex ctx.dialect ctx.options.unescape "select 'it' b from t;" = .ok tokens := by
    decide +kernel
  have hdialect : ctx.dialect ∈ Dialect.builtin := by simp [ctx, Dialect.builtin]
  have hfaithful : ∀ l ∈ tokens, l.token.Faithful ctx.options.unescape := by
    intro l hl
    simp only [tokens, List.mem_cons, List.not_mem_nil, or_false] at hl
    rcases hl with rfl | rfl | rfl | rfl | rfl | rfl | rfl | rfl | rfl | rfl <;> trivial
  have hreadable : s.Rereadable ctx := by
    refine ⟨fun e he => ?_, fun q hq t ht part hpart => ?_, fun e he => absurd he (by simp [s]),
      fun e he => absurd he (by simp [s])⟩
    · obtain rfl : e = .literal (.singleQuoted "it") := by
        simpa [s, projection, contents, Query.contents, QueryBody.contents, SelectItem.contents,
          TableRef.contents, Expr.contents] using he
      simp [Expr.Single]
    · obtain rfl : _ = q := Option.some.inj hq
      obtain rfl : _ = t := Option.some.inj ht
      simp [ObjectName.simple] at hpart
  refine ⟨h, by decide +kernel, parseAll_reread hdialect hlex hfaithful h ?_ s List.mem_cons_self⟩
  intro s' hs'
  obtain rfl := List.mem_singleton.mp hs'
  exact hreadable

end SchemaSql.Statement
