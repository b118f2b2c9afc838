import SchemaSql.Proofs.Spacing
import SchemaSql.Proofs.Spelling
import SchemaSql.Proofs.StatementLists

/-! # Single statements — texts that are one statement

    A text that is read as one statement is the tokens of that statement with gaps around
    them.  So it is enough to know what is read at one place: `runTokens_of_run` goes from the
    run of a statement to the text, `run_of_runTokens` and `run_of_head` go back, and
    `parseWith_explain` and `parseWith_query` take the run of a statement apart. -/

namespace SchemaSql

open Cursor SchemaSql.Parser Token

/-- The lexer puts no end mark among the tokens. -/
theorem Statement.noEof_of_lex {d : Dialect} {u : Bool} {text : String} {tokens : List Located}
    (h : lex d u text = .ok tokens) : Statement.NoEof tokens :=
  fun _ hl => (scanned_of_mem h hl).proper_and_ne_eof.2

theorem Statement.NoEof.congr {u u' : List Located} (h : Statement.NoEof u)
    (heq : u.map Located.token = u'.map Located.token) : Statement.NoEof u' := by
  intro l hl
  obtain ⟨l', hl', hsame⟩ := List.mem_map.mp (heq ▸ List.mem_map_of_mem hl)
  exact hsame ▸ h l' hl'

/-- Tokens at other places are read as the same statements. -/
theorem Statement.runTokens_congr {ctx : Context} {u u' : List Located} {ss : List Statement}
    (heq : u.map Located.token = u'.map Located.token)
    (h : parseAll.runTokens ctx u = .ok ss) : parseAll.runTokens ctx u' = .ok ss := by
  have hshape := parseAll_spacing ctx (shape_congr heq)
  rw [h] at hshape
  cases hread : parseAll.runTokens ctx u' with
  | error e => exact nomatch hread ▸ hshape
  | ok ss' =>
      rw [hread] at hshape
      exact congrArg Except.ok (Except.ok.inj hshape).symm

/-- The keyword of the word that an explanation starts with. -/
def ExplainKeyword.keyword : ExplainKeyword → Keyword
  | .explain => .explain
  | .describe => .describe
  | .desc => .desc

namespace Statement

variable {ctx : Context} {c c' : Cursor} {tokens : List Located}

/-- A text is read as what its tokens are read as. -/
theorem runText_ok {text : String} {ss : List Statement} :
    parseAll.runText ctx text = .ok ss ↔ ∃ tokens,
      lex ctx.dialect ctx.options.unescape text = .ok tokens ∧
        parseAll.runTokens ctx tokens = .ok ss := by
  unfold runText Context.lex
  cases lex ctx.dialect ctx.options.unescape text with
  | error e => exact ⟨nofun, fun ⟨_, h, _⟩ => nomatch h⟩
  | ok tokens =>
      constructor
      · exact fun h => ⟨tokens, rfl, h⟩
      · rintro ⟨_, ⟨⟩, h⟩
        exact h

/-- A statement that is all a text has, gaps apart. -/
theorem runTokens_of_run {t : Located} {w : List Located} {s : Statement} (h : NoEof (t :: w))
    (ht : isGap t = false) (hrun : parseWith noExtension ctx (.ofTokens (t :: w)) = .ok s c')
    (hgap : ∀ t ∈ c'.rest, isGap t = true) :
    parseAll.runTokens ctx (t :: w) = .ok [s] := by
  have hblank : t.isWhitespace = false := (Bool.or_eq_false_iff.mp ht).1
  have hat : (Cursor.ofTokens (t :: w)).At (t :: w) :=
    ⟨rfl, dropWhile_of_clean (clean_cons.mpr hblank)⟩
  -- only a gap is left behind the statement, and a statement may end there
  have hend : StatementEnd c'.rest := isGap_head c'.clean_rest hgap
  have hreads := parseWith_reads (R := Follow StatementEnd)
  obtain ⟨-, used, hused, hreplay⟩ := hreads.isLocal ctx _ s c' rfl hrun
  have hlt := hreads.takes ctx _ s c' rfl hrun trivial
  rw [hat.rest] at hused hlt
  rw [runTokens_iff h, hused]
  have hnone : ∀ t ∈ ([] : List Located), isGap t = true := nofun
  refine .cons hnone ⟨?_, fun r hr d hd => ?_⟩ hend (.nil hgap)
  · cases used with
    | nil =>
        rw [← List.nil_append c'.rest, ← hused] at hlt
        -- a statement takes a token, so what it used is not empty
        exact absurd hlt (lt_irrefl _)
    | cons t' used =>
        obtain ⟨rfl, -⟩ := List.cons.inj hused
        exact ⟨_, used, rfl, ht⟩
  · exact hreplay r ⟨[], c'.rest, r, hend, hr, rfl, rfl⟩ d hd

/-- Where a single statement stands in a text. -/
theorem run_of_runTokens {s : Statement} (h : NoEof tokens)
    (hrun : parseAll.runTokens ctx tokens = .ok [s]) : ∃ gap used w, tokens = gap ++ (used ++ w) ∧
      (∀ t ∈ gap, isGap t = true) ∧ (∀ t ∈ w, isGap t = true) ∧ StatementEnd w ∧
      Sentence ctx used s := by
  obtain ⟨gap, used, w, rfl, hgap, hs, hend, hrest⟩ := ((runTokens_iff h).mp hrun).cons_inv
  exact ⟨gap, used, w, rfl, hgap, hrest.nil_inv, hend, hs⟩

/-- A single statement is read where a text starts with it. -/
theorem run_of_head {t : Located} {w : List Located} {s : Statement} (h : NoEof (t :: w))
    (ht : isGap t = false) (hrun : parseAll.runTokens ctx (t :: w) = .ok [s])
    (hc : c.At (t :: w)) : ∃ c', parseWith noExtension ctx c = .ok s c' ∧ StatementEnd c'.rest ∧
      ∀ t ∈ c'.rest, isGap t = true := by
  obtain ⟨gap, used, w', hsplit, hgap, hrest, hend, hs⟩ := run_of_runTokens h hrun
  obtain rfl : gap = [] := by
    cases gap with
    | nil => rfl
    | cons g gap =>
        obtain ⟨rfl, -⟩ := List.cons.inj hsplit
        exact absurd (hgap _ List.mem_cons_self) (by simp [ht])
  obtain ⟨c', hrun', hat⟩ := hs.replay w' hend c (hsplit ▸ hc)
  exact ⟨c', hrun', hat.rest.symm ▸ hend, hat.rest.symm ▸ hrest⟩

/-- An explanation is read behind its first word, one level further down. -/
theorem parseWith_explain {e : Explain} : parseWith noExtension ctx c = .ok (.explain e) c' ↔
    ∃ depth keyword, ctx.depth = depth + 1 ∧
      c.peek.token.keyword? = some (ExplainKeyword.keyword keyword) ∧
      Explain.parse keyword { ctx with depth } c.next.2 = .ok e c' := by
  -- the statement is put around whatever `Explain.parse` returns
  have hexplain : ∀ {ctx : Context} {p : Parser Explain} {c : Cursor},
      (do return .explain (← p) : Parser Statement) ctx c = .ok (.explain e) c' ↔
        p ctx c = .ok e c' := by
    intro ctx p c
    rw [bind_ok]
    constructor
    · rintro ⟨_, _, h, ⟨⟩⟩
      exact h
    · exact fun h => ⟨e, c', h, rfl⟩
  rw [parseWith, descend_ok]
  refine exists_congr fun depth => ?_
  show _ ∧ parseBuiltin { ctx with depth } c = _ ↔ _
  rw [parseBuiltin, bind_run (next_run _ c), exists_and_left, and_congr_right_iff]
  intro _
  constructor
  · intro h
    obtain ⟨p, hp, h⟩ : ∃ p : Parser Statement, p = _ ∧ p { ctx with depth } c.next.2 = _ :=
      ⟨_, rfl, h⟩
    -- of the kinds of statement three start one of these, under three names
    split at hp <;> subst hp
    · obtain ⟨_, _, -, ⟨⟩⟩ := bind_ok.mp h
    · exact ⟨.explain, by assumption, hexplain.mp h⟩
    · exact ⟨.describe, by assumption, hexplain.mp h⟩
    · exact ⟨.desc, by assumption, hexplain.mp h⟩
    · obtain ⟨_, _, -, ⟨⟩⟩ := bind_ok.mp h
    · obtain ⟨_, _, -, h⟩ := bind_ok.mp h
      obtain ⟨_, _, -, ⟨⟩⟩ := bind_ok.mp h
    · obtain ⟨_, _, -, h⟩ := bind_ok.mp h
      obtain ⟨_, _, -, ⟨⟩⟩ := bind_ok.mp h
    · exact absurd h expected_ne_ok
  · rintro ⟨keyword, hkeyword, h⟩
    rw [hkeyword]
    cases keyword <;> exact hexplain.mpr h

/-- A query is read one level further down, by its own reader. -/
theorem parseWith_query {q : Query} : parseWith noExtension ctx c = .ok (.query q) c' ↔
    ∃ depth, ctx.depth = depth + 1 ∧
      (c.peek.token.keyword? = some .select ∨ c.peek.token.keyword? = some .from) ∧
      Query.parse { ctx with depth } c.next.2.back = .ok q c' := by
  rw [parseWith, descend_ok]
  refine exists_congr fun depth => and_congr_right fun _ => ?_
  show parseBuiltin { ctx with depth } c = _ ↔ _
  rw [parseBuiltin, bind_run (next_run _ c)]
  constructor
  · intro h
    obtain ⟨p, hp, h⟩ : ∃ p : Parser Statement, p = _ ∧ p { ctx with depth } c.next.2 = _ :=
      ⟨_, rfl, h⟩
    -- the two kinds that start a query put their keyword back
    split at hp <;> subst hp
    · obtain ⟨_, _, -, ⟨⟩⟩ := bind_ok.mp h
    · obtain ⟨_, _, -, ⟨⟩⟩ := bind_ok.mp h
    · obtain ⟨_, _, -, ⟨⟩⟩ := bind_ok.mp h
    · obtain ⟨_, _, -, ⟨⟩⟩ := bind_ok.mp h
    · obtain ⟨_, _, -, ⟨⟩⟩ := bind_ok.mp h
    · obtain ⟨_, _, hback, h⟩ := bind_ok.mp h
      obtain rfl := back_ok.mp hback
      obtain ⟨_, h, ⟨⟩⟩ := map_ok.mp h
      exact ⟨.inl (by assumption), h⟩
    · obtain ⟨_, _, hback, h⟩ := bind_ok.mp h
      obtain rfl := back_ok.mp hback
      obtain ⟨_, h, ⟨⟩⟩ := map_ok.mp h
      exact ⟨.inr (by assumption), h⟩
    · exact absurd h expected_ne_ok
  · rintro ⟨hkeyword, h⟩
    have hquery : (do back; return .query (← Query.parse) : Parser Statement) { ctx with depth }
        c.next.2 = .ok (.query q) c' := by
      rw [bind_run (back_ok (v := ()).mpr rfl)]
      exact map_ok.mpr ⟨q, h, rfl⟩
    rcases hkeyword with hkeyword | hkeyword <;> rw [hkeyword] <;> exact hquery

end Statement

end SchemaSql
