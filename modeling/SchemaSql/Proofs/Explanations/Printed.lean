import SchemaSql.Proofs.Explanations
import SchemaSql.Proofs.SingleStatements
import SchemaSql.Proofs.Spelling.Names

/-! # Printed explanations — what is read from the text of an explanation

    The text of an explanation is words with a space behind each, and the text of its target.
    In front of a table the words of the settings are missing, so that reading the text gives
    the explanation without them (`Explain.shown`); in front of a query nothing is lost.

    * `Explain.text_eq` splits a text into its words and its target, and
      `Explain.spelled_words` says that the words are read back: the settings of an explanation
      that was read are valid, so only the value of a format can be something else than a word;
    * `Explain.Continues` is what is needed of a target, and `Explain.parseAll_words` what it is
      needed for;
    * a name has it since its parts are printed as they are read (`Explain.continues_name`), a
      query since its own text is read as it, wherever it stands (`Explain.continues_query`);
    * `Explain.parseAll_text` puts the two together. -/

namespace SchemaSql

open Cursor SchemaSql.Parser Token

/-! ## The words in front of a target -/

namespace ExplainOption

/-- A setting is printed with the spaces between its words and one behind them. -/
theorem textOf_tokens (o : ExplainOption) : textOf (spaced o.tokens) = o.text ++ " " := by
  have hkind : textOf (spaced ((kindKeywords o.kind).map .ofKeyword)) = o.kind.text ++ " " := by
    cases o.kind <;> rfl
  rw [tokens, spaced_append, textOf_append, hkind, text]
  cases o.value with
  | none => simp
  | some v =>
      have hv : (bare v).text = v := rfl
      simp [hv, String.append_assoc]

end ExplainOption

namespace Explain

/-- The statement with the settings that its text has: in front of a table it has none. -/
def shown (e : Explain) : Explain :=
  match e.target with
  | .table _ => { e with options := [] }
  | .query _ => e

/-- The words in front of the target. -/
def words (e : Explain) : List Token :=
  .ofKeyword e.keyword.keyword :: e.options.flatMap ExplainOption.tokens

end Explain

namespace ExplainTarget

/-- The text of a target. -/
def text : ExplainTarget → String
  | .table name => name.text
  | .query q => q.text

/-- A target is read back: a query from its own text, and of a name each part that is a string
    literal. -/
def ReadsBack (ctx : Context) : ExplainTarget → Prop
  | .table name => ∀ part ∈ name.parts, part.ReadsBack ctx
  | .query q => Statement.parseAll.runText ctx q.text = .ok [.query q]

end ExplainTarget

/-- The text of a query starts with a keyword. -/
theorem Query.text_eq (q : Query) : ∃ k rest, (k = .select ∨ k = .from) ∧
    q.text = (ofKeyword k).text ++ (" " ++ rest) := by
  have hkeyword : ∀ (k : Keyword) rest, (ofKeyword k).text ++ (" " ++ rest)
      = (k.name ++ " ") ++ rest := fun k rest => (String.append_assoc ..).symm
  obtain ⟨body, pipes⟩ := q
  cases body with
  | select s =>
      obtain ⟨rest, hrest⟩ : ∃ rest, text { body := .select s, pipes } = "SELECT " ++ rest := by
        simp only [text, chunks, QueryBody.chunks, List.cons_append, Text.Chunks.text_cons,
          String.append_assoc]
        exact ⟨_, rfl⟩
      exact ⟨.select, rest, .inl rfl, by rw [hrest, hkeyword]; rfl⟩
  | «from» table =>
      obtain ⟨rest, hrest⟩ : ∃ rest, text { body := .from table, pipes } = "FROM " ++ rest := by
        simp only [text, chunks, QueryBody.chunks, List.cons_append, Text.Chunks.text_cons,
          String.append_assoc]
        exact ⟨_, rfl⟩
      exact ⟨.from, rest, .inr rfl, by rw [hrest, hkeyword]; rfl⟩

namespace Explain

/-- The text of an explanation is words with a space behind each, and then the target. -/
theorem text_eq (e : Explain) :
    e.text = textOf (spaced e.shown.words) ++ e.target.text := by
  have hkeyword : ∀ keyword, (ofKeyword (ExplainKeyword.keyword keyword)).text = keyword.text :=
    fun keyword => by cases keyword <;> rfl
  obtain ⟨keyword, options, target⟩ := e
  cases target with
  | table name =>
      simp [text, chunks, shown, words, ExplainTarget.text, hkeyword, String.append_assoc]
  | query q =>
      -- every setting is printed with a space in front of it, and so is the target
      have hshift : Text.Chunks.text (options.map fun option => " " ++ option.text) ++ " "
          = " " ++ textOf (spaced (options.flatMap ExplainOption.tokens)) := by
        induction options with
        | nil => rfl
        | cons o options ih =>
            rw [List.map_cons, Text.Chunks.text_cons, String.append_assoc, ih, List.flatMap_cons,
              spaced_append, textOf_append, ExplainOption.textOf_tokens]
            simp [String.append_assoc]
      simp [text, chunks, shown, words, ExplainTarget.text, hkeyword, String.append_assoc,
        Query.text, ← hshift]

/-- None of the words is a blank. -/
theorem isWhitespace_words (e : Explain) : ∀ t ∈ e.words, t.isWhitespace = false := by
  intro t ht
  simp only [words, ExplainOption.tokens, List.mem_cons, List.mem_flatMap, List.mem_append,
    List.mem_map] at ht
  rcases ht with rfl | ⟨_, -, ⟨_, -, rfl⟩ | ⟨_, -, rfl⟩⟩ <;> rfl

/-- The words in front of a target are read back if its formats are bare words. -/
theorem spelled_words {d : Dialect} [d.Regular] {u : Bool} {e : Explain}
    (hvalid : ∀ o ∈ e.options, o.Valid)
    (hformat : ∀ o ∈ e.options, o.kind = .format → ∀ v ∈ o.value, d.IsBareWord v) :
    ∀ t ∈ e.words, t.Spelled d u ∧ t.Stops d ' ' := by
  intro t ht
  simp only [words, ExplainOption.tokens, List.mem_cons, List.mem_flatMap, List.mem_append,
    List.mem_map, Option.mem_toList] at ht
  rcases ht with rfl | ⟨o, ho, ⟨k, -, rfl⟩ | ⟨v, hv, rfl⟩⟩
  · exact spelled_keyword _
  · exact spelled_keyword k
  · have hflag : v ∈ ExplainOption.flags → d.IsBareWord v := by
      intro hv
      -- a flag is one of a few words, all of them letters
      have hletters : ∀ v ∈ ExplainOption.flags, v.toList.head?.any Char.isAlpha = true ∧
          (v.toList.tail.all fun x => x.isAlpha || x == '_') = true := by decide
      exact .of_letters (hletters v hv).1 (hletters v hv).2
    have ho' := hvalid o ho
    unfold ExplainOption.Valid at ho'
    refine spelled_bare ?_
    split at ho'
    · exact hflag (ho' v hv)
    · exact hflag (ho' v hv)
    · exact hflag (ho' v hv)
    · exact hflag (ho' v hv)
    -- the value of `FORMAT` is any word, so that it prints as one is a hypothesis
    · exact hformat o ho (by assumption) v hv
    · exact absurd (hv.symm.trans ho') nofun
    · exact absurd (hv.symm.trans ho') nofun

/-! ## Reading the text -/

variable {ctx : Context} {depth : Nat} {e : Explain} {keyword : ExplainKeyword}
  {options : List ExplainOption} {q : Query} {name : ObjectName}

/-- The target of an explanation is printed as these tokens, which neither start with a setting
    nor go on with the last one, and is read where they stand. -/
structure Continues (ctx : Context) (depth : Nat) (e : Explain) (T : List Token) : Prop where
  lexes   : Lexes ctx.dialect ctx.options.unescape e.target.text.toList T
  clean   : ∀ t ∈ T.head?, t.isWhitespace = false
  ends    : ExplainOption.Setting (solid T) none (solid T)
  follows : e.options ≠ [] → ExplainOption.Follows (solid T)
  read    : ∀ (B : List Located) (c : Cursor), B.map Located.token = T → c.At B →
    c.Holds (solid T) → ∃ c', parseTarget { ctx with depth } c = .ok e.target c' ∧
      ∀ t ∈ c'.rest, Statement.isGap t = true

/-- Words that are read back and a target that is read where it stands are read as one
    explanation. -/
theorem parseAll_words (hdepth : ctx.depth = depth + 1) (hvalid : ∀ o ∈ e.options, o.Valid)
    (hkinds : (e.options.map ExplainOption.kind).Nodup)
    (hwords : ∀ t ∈ e.words, t.Spelled ctx.dialect ctx.options.unescape ∧ t.Stops ctx.dialect ' ')
    {T : List Token} (hT : e.Continues ctx depth T) :
    Statement.parseAll.runText ctx (textOf (spaced e.words) ++ e.target.text)
      = .ok [.explain e] := by
  obtain ⟨L, hL, htokens⟩ := hT.lexes.spaced hwords .start
  rw [← String.toList_append] at hL
  have hL : lex ctx.dialect ctx.options.unescape (textOf (spaced e.words) ++ e.target.text)
      = .ok L := hL
  have heof := Statement.noEof_of_lex hL
  have hholds := Cursor.holds_ofTokens fun _ hl => scanned_of_mem hL hl
  rw [htokens, solid_append, solid_spaced e.isWhitespace_words] at hholds
  -- the first token, the other words, and the target
  obtain ⟨A, B, rfl, hA, hB⟩ := List.map_eq_append_iff.mp htokens
  obtain ⟨l, A, rfl, hl, -⟩ := List.map_eq_cons_iff.mp hA
  have hblank : l.isWhitespace = false := by rw [Located.isWhitespace, hl]; rfl
  have hat : (Cursor.ofTokens (l :: (A ++ B))).At (l :: (A ++ B)) :=
    ⟨rfl, dropWhile_of_clean (clean_cons.mpr hblank)⟩
  have hclean : Clean B := by
    rintro t ht
    exact hT.clean t.token (by rw [← hB, List.head?_map]; exact Option.mem_map_of_mem _ ht)
  -- where nothing but the target is left, it starts right there
  have hplace : ∀ (c : Cursor) used, c.Holds (solid T) →
      (Cursor.ofTokens (l :: (A ++ B))).next.2.rest = used ++ c.rest → c.At B := by
    intro c used hc hused
    refine ⟨hc.overrun, eq_of_suffix (L := A ++ B) ?_ (List.suffix_append A B) c.clean_rest
      hclean ?_⟩
    · rw [hat.next.2.rest] at hused
      exact (hused ▸ List.suffix_append used c.rest).trans (List.dropWhile_suffix _)
    · rw [solidTokens_eq B, hB, ← hc.tokens]
      exact solidTokens_dropWhile c.unread
  obtain ⟨c', hrun, hgap⟩ := parse_tokens e.keyword hvalid hkinds
    hT.ends hT.follows hholds.next
    fun c used hc hused => hT.read B c hB (hplace c used hc hused) hc
  refine Statement.runText_ok.mpr ⟨_, hL, Statement.runTokens_of_run heof ?_ ?_ hgap⟩
  · rw [Statement.isGap, hblank, hl]
    rfl
  · refine Statement.parseWith_explain.mpr ⟨depth, e.keyword, hdepth, ?_, hrun⟩
    exact (congrArg Token.keyword? hholds.peek).trans (Expr.keyword?_ofKeyword _)

/-! ### Names -/

/-- A name that starts with neither `SELECT` nor `FROM` is read as a table. -/
theorem parseTarget_name {t : Token} {ts : List Token}
    (hparts : List.Forall₂ Token.Names (t :: ts) name.parts)
    (hselect : t.keyword? ≠ some .select) (hfrom : t.keyword? ≠ some .from) {c : Cursor}
    (hc : c.Holds (t :: dotted ts)) : ∃ c', parseTarget ctx c = .ok (.table name) c' ∧
      ∀ t ∈ c'.rest, Statement.isGap t = true := by
  have hread : ∃ t' ts', t :: dotted ts = t' :: (dotted ts' ++ []) ∧
      List.Forall₂ Token.Names (t' :: ts') name.parts ∧ ([] : List Token).head? ≠ some .period :=
    ⟨t, ts, by simp, hparts, by simp⟩
  obtain ⟨c', hname, hc'⟩ : ∃ c', ObjectName.parse ctx c = .ok name c' ∧ c'.Holds [] :=
    ObjectName.parse_denotes.complete hc hread
  refine ⟨c', ?_, ?_⟩
  · rw [parseTarget_run, if_neg]
    · exact map_ok.mpr ⟨name, hname, rfl⟩
    · rw [hc.peek]
      exact not_or.mpr ⟨hselect, hfrom⟩
  · rw [hc'.rest_nil]
    exact nofun

/-- A name that starts neither a setting nor a query is a target where its text is read as the
    tokens of its parts. -/
theorem continues_of_lexes {t : Token} {ts : List Token}
    (hlexes : Lexes ctx.dialect ctx.options.unescape name.text.toList (t :: dotted ts))
    (hparts : List.Forall₂ Token.Names (t :: ts) name.parts)
    (hstart : ∀ k ∈ .select :: .from :: ExplainOption.starts, t.keyword? ≠ some k) :
    Continues ctx depth { keyword, target := .table name } (t :: dotted ts) := by
  have hsolid := ObjectName.solid_tokens hparts
  refine ⟨hlexes, ?_, ?_, fun h => absurd rfl h, ?_⟩
  · rintro _ ⟨⟩
    exact ObjectName.isWhitespace_tokens hparts t (by simp)
  · rw [hsolid, ExplainOption.setting_none]
    refine ⟨rfl, ?_⟩
    rintro _ ⟨⟩ k hk
    exact hstart k (by simp [hk])
  · rw [hsolid]
    exact fun B c _ _ hc => parseTarget_name hparts (hstart _ (by simp)) (hstart _ (by simp)) hc

/-- A name that was read in front of no settings can be printed there. -/
theorem continues_name [ctx.dialect.Regular] {t : Token} {ts : List Token}
    (hscanned : ∀ t' ∈ t :: ts, t'.Scanned ctx.dialect ctx.options.unescape)
    (hparts : List.Forall₂ Token.Names (t :: ts) name.parts)
    (hstart : ∀ k ∈ .select :: .from :: ExplainOption.starts, t.keyword? ≠ some k)
    (hback : ∀ part ∈ name.parts, part.ReadsBack ctx) :
    Continues ctx depth { keyword, target := .table name } (t :: dotted ts) := by
  have hprinted := ObjectName.printed hscanned hparts hback
  exact continues_of_lexes (hprinted.1 ▸ hprinted.2.lexes) hparts hstart

/-! ### Queries -/

/-- Tokens that are read as a query statement are read as a target too. -/
theorem parseTarget_query (hdepth : ctx.depth = depth + 1) {b : Located} {B : List Located}
    (hb : Statement.isGap b = false) (heof : Statement.NoEof (b :: B))
    (h : Statement.parseAll.runTokens ctx (b :: B) = .ok [.query q]) {c : Cursor}
    (hc : c.At (b :: B)) : ∃ c', parseTarget { ctx with depth } c = .ok (.query q) c' ∧
      ∀ t ∈ c'.rest, Statement.isGap t = true := by
  -- the statement is read where the target stands, and so is the query in it
  obtain ⟨c1, hrun, hend, hrest⟩ := Statement.run_of_head heof hb h hc
  obtain ⟨depth', hdepth', hkeyword, hquery⟩ := Statement.parseWith_query.mp hrun
  obtain rfl : depth = depth' := Nat.succ.inj (hdepth.symm.trans hdepth')
  have hback := hc.next_back
  obtain ⟨-, used, hused, hreplay⟩ := (Query.parse_reads (R := Follow StatementEnd)).isLocal
    _ _ q c1 hback.overrun hquery
  rw [hback.rest] at hused
  obtain ⟨c2, hrun', hat'⟩ := hreplay c1.rest ⟨[], _, _, hend, hend, rfl, rfl⟩ c (hused ▸ hc)
  refine ⟨c2, ?_, hat'.rest ▸ hrest⟩
  rw [parseTarget_run, if_pos hkeyword]
  exact map_ok.mpr ⟨q, hrun', rfl⟩

/-- A query that is read back from its own text can be printed behind any settings. -/
theorem continues_query [ctx.dialect.Regular] (hdepth : ctx.depth = depth + 1)
    (hq : Statement.parseAll.runText ctx q.text = .ok [.query q]) :
    ∃ T, Continues ctx depth { keyword, options, target := .query q } T := by
  obtain ⟨L, hL, hrun⟩ := Statement.runText_ok.mp hq
  obtain ⟨k, rest, hk, htext⟩ := q.text_eq
  have hlex : Lexes ctx.dialect ctx.options.unescape q.text.toList (L.map Located.token) :=
    .of_lexFrom hL
  -- the text of a query starts with `SELECT` or `WITH`, which a blank ends
  obtain ⟨T, hT⟩ : ∃ T, L.map Located.token = ofKeyword k :: T := by
    obtain ⟨hspelled, hstop⟩ := spelled_keyword (d := ctx.dialect) (u := ctx.options.unescape) k
    rw [htext, String.toList_append] at hlex
    refine List.head?_eq_some_iff.mp (hspelled.head_eq (fun x hx => ?_) hlex)
    obtain rfl : x = ' ' := by simpa using hx.symm
    exact hstop
  have hsolid : solid (ofKeyword k :: T) = ofKeyword k :: solid T := rfl
  refine ⟨ofKeyword k :: T, hT ▸ hlex, ?_, ?_, fun _ => ?_, fun B c hB hc _ => ?_⟩
  · rintro t ⟨⟩
    rfl
  · rw [hsolid, ExplainOption.setting_none]
    refine ⟨rfl, ?_⟩
    rintro t ⟨⟩ k' hk' heq
    obtain rfl := Option.some.inj ((Expr.keyword?_ofKeyword k).symm.trans heq)
    rcases hk with rfl | rfl <;> simp [ExplainOption.starts] at hk'
  · exact ⟨k, solid T, rfl, by rcases hk with rfl | rfl <;> decide⟩
  · -- the tokens of the query, at other places than in its own text
    have hsame : B.map Located.token = L.map Located.token := hB.trans hT.symm
    obtain ⟨b, B, rfl, hb, -⟩ := List.map_eq_cons_iff.mp hB
    refine parseTarget_query hdepth ?_ ((Statement.noEof_of_lex hL).congr hsame.symm)
      (Statement.runTokens_congr hsame.symm hrun) hc
    rw [Statement.isGap, Located.isWhitespace, hb]
    rfl

/-! ### Explanations -/

/-- Where an explanation is read in a text. -/
theorem run_of_runText {text : String}
    (h : Statement.parseAll.runText ctx text = .ok [.explain e]) :
    ∃ depth c c' T, ctx.depth = depth + 1 ∧ c.Holds T ∧
      (∀ t ∈ T, t.Scanned ctx.dialect ctx.options.unescape) ∧
      parse e.keyword { ctx with depth } c = .ok e c' := by
  obtain ⟨L, hL, hrun⟩ := Statement.runText_ok.mp h
  obtain ⟨gap, used, w, rfl, -, -, -, hs⟩ :=
    Statement.run_of_runTokens (Statement.noEof_of_lex hL) hrun
  have hscanned : ∀ l ∈ used, l.token.Scanned ctx.dialect ctx.options.unescape := fun l hl =>
    scanned_of_mem hL (List.mem_append_right gap (List.mem_append_left w hl))
  obtain ⟨t, used, rfl, ht⟩ := hs.head
  have hblank : t.isWhitespace = false := (Bool.or_eq_false_iff.mp ht).1
  have hat : (Cursor.ofTokens (t :: used)).At (t :: used ++ []) := by
    rw [List.append_nil]
    exact ⟨rfl, dropWhile_of_clean (clean_cons.mpr hblank)⟩
  obtain ⟨c', hrun, -⟩ := hs.replay [] (.inl rfl) _ hat
  obtain ⟨depth, keyword, hdepth, -, hparse⟩ := Statement.parseWith_explain.mp hrun
  -- the statement keeps the keyword by which it was found
  obtain rfl := (parse_valid keyword _ _ _ _ hparse).1
  have hholds := Cursor.holds_ofTokens hscanned
  rw [List.map_cons, solid_cons, if_neg (by simpa [Located.isWhitespace] using hblank)] at hholds
  refine ⟨depth, _, c', _, hdepth, hholds.next, fun t' ht' => ?_, hparse⟩
  obtain ⟨l, hl, rfl⟩ := List.mem_map.mp (List.mem_filter.mp ht').1
  exact hscanned l (List.mem_cons_of_mem t hl)

/-- **Explanations of queries survive printing, settings in front of a table do not.**  The
    text of an explanation that was read is read as the same one, without its settings if it
    describes a table: with the same word, the same settings in the same order with the same
    values, and the same target.  The target has to be read back from its own text, and the
    value of a format that is printed has to be a bare word, since it is printed without
    quotes. -/
theorem parseAll_text (hd : ctx.dialect ∈ Dialect.builtin) {text : String}
    (h : Statement.parseAll.runText ctx text = .ok [.explain e])
    (htarget : e.target.ReadsBack ctx)
    (hformat : ∀ o ∈ e.shown.options, o.kind = .format → ∀ v ∈ o.value,
      ctx.dialect.IsBareWord v) :
    Statement.parseAll.runText ctx e.text = .ok [.explain e.shown] := by
  have := Dialect.regular_of_builtin hd
  obtain ⟨depth, c, c', T, hdepth, hc, hscanned, hparse⟩ := run_of_runText h
  have hvalid := (parse_valid _ _ _ _ _ hparse).2
  have hkinds := (parse_wellFormed _ _ _ _ _ hparse).options
  rw [text_eq]
  obtain ⟨keyword, options, target⟩ := e
  -- the print of a table has no options, that of a query has all of them
  cases target with
  | table name =>
      obtain ⟨t, ts, hmem, hparts, hstart⟩ := parse_table hc hparse rfl
      exact parseAll_words hdepth nofun List.nodup_nil (spelled_words nofun nofun)
        (continues_name (fun t' ht' => hscanned t' (hmem t' ht')) hparts hstart htarget)
  | query q =>
      obtain ⟨T, hT⟩ : ∃ T, Continues ctx depth { keyword, options, target := .query q } T :=
        continues_query hdepth htarget
      exact parseAll_words hdepth hvalid hkinds (spelled_words hvalid hformat) hT

/-- A setting with a flag and one with a format, in front of a query. -/
theorem parseAll_text_format :
    let ctx : Context := { dialect := .generic }
    let q : Query := { body := .select { projection := [.unnamed (.literal (.number "1" false))] } }
    let e : Explain :=
      { keyword := .explain, options := [⟨.analyze, some "TRUE"⟩, ⟨.format, some "json"⟩],
        target := .query q }
    Statement.parseAll.runText ctx "EXPLAIN analyze true FORMAT json select 1" = .ok [.explain e] ∧
      e.text = "EXPLAIN ANALYZE TRUE FORMAT json SELECT 1" ∧
      Statement.parseAll.runText ctx e.text = .ok [.explain e] := by
  intro ctx q e
  have h : Statement.parseAll.runText ctx "EXPLAIN analyze true FORMAT json select 1"
      = .ok [.explain e] := by decide +kernel
  have hq : Statement.parseAll.runText ctx q.text = .ok [.query q] := by decide +kernel
  have hjson : ctx.dialect.IsBareWord "json" :=
    have := Dialect.generic_regular
    .of_letters (by decide) (by decide)
  refine ⟨h, by decide +kernel, parseAll_text (by simp [ctx, Dialect.builtin]) h hq ?_⟩
  rintro o ho hkind v hv
  simp only [e, shown, List.mem_cons, List.not_mem_nil, or_false] at ho
  rcases ho with rfl | rfl
  · cases hkind
  · obtain rfl := Option.some.inj hv
    exact hjson

/-- In front of a table a setting is lost. -/
theorem parseAll_text_table :
    let ctx : Context := { dialect := .generic }
    let e : Explain :=
      { keyword := .explain, options := [⟨.analyze, none⟩], target := .table (.simple "t") }
    Statement.parseAll.runText ctx "EXPLAIN ANALYZE t" = .ok [.explain e] ∧
      e.text = "EXPLAIN t" ∧
      Statement.parseAll.runText ctx "EXPLAIN t" = .ok [.explain { e with options := [] }] ∧
      Statement.parseAll.runText ctx e.text ≠ .ok [.explain e] := by
  intro ctx e
  have hread : Statement.parseAll.runText ctx "EXPLAIN t"
      = .ok [.explain { e with options := [] }] := by decide +kernel
  refine ⟨by decide +kernel, by decide +kernel, hread, ?_⟩
  rw [show e.text = "EXPLAIN t" by decide +kernel, hread]
  decide

end Explain

end SchemaSql
