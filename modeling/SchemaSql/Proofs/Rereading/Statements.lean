import SchemaSql.Proofs.Explanations.Printed
import SchemaSql.Proofs.Rereading.Queries

/-! # Statements read back from their prints

    A statement is read at one place of a text, and it is printed there as tokens that are read
    as the same statement where they stand alone: `Statement.reread_of_echoes` for what follows
    one keyword, `Query.reread` for a query.  The settings of an explanation are printed in the
    order in which they are stored, which may not be the one that they were read in, so an
    explanation is put together from its words and its target (`Explain.reread`). -/

namespace SchemaSql

open Cursor SchemaSql.Parser

variable {ctx : Context} {n depth : Nat} {k : Keyword} {c c' : Cursor} {T T' P : List Token}
  {s : Statement} {text : String}

/-! ## Places in a text -/

/-- At the end there is nothing to see on either side. -/
theorem AtEnd.shadows (h : AtEnd T T') : Shadows n T T' := by
  obtain ⟨rfl, rfl⟩ := h
  exact .refl n []

/-- A place in a text has its coming tokens in front of it. -/
theorem Cursor.holds_coming (hoverrun : c.overrun = 0) (hsource : ctx.Source c.rest) :
    c.Holds c.coming := by
  refine ⟨hoverrun, ?_, fun t ht => (hsource.coming t ht).proper⟩
  rw [← solidTokens_dropWhile, solidTokens_eq]
  rfl

/-- What stands behind a keyword of a text is part of the text. -/
theorem Cursor.source_next (hoverrun : c.overrun = 0) (hsource : ctx.Source c.rest)
    (hk : c.peek.token.keyword? = some k) :
    c.next.2.overrun = 0 ∧ ctx.Source c.next.2.rest := by
  obtain ⟨l, w, hc⟩ : ∃ l w, c.rest = l :: w := by
    cases hc : c.rest with
    | nil =>
        rw [peek_eq, hc] at hk
        exact absurd hk (Option.some_ne_none _).symm
    | cons l w => exact ⟨l, w, rfl⟩
  obtain ⟨-, hoverrun', hrest, -⟩ := next_of_cons hoverrun hc
  refine ⟨hoverrun', ?_⟩
  rw [hrest]
  exact (hc ▸ hsource).mono ((List.dropWhile_suffix _).trans (List.suffix_cons l w)).isInfix

/-- Where a keyword is expected and something was read behind it, the keyword was there. -/
theorem Parser.expectKeyword_bind {α : Type} {p : Parser α} {v : α} :
    (expectKeyword k >>= fun _ => p) ctx c = .ok v c' ↔
      c.peek.token.keyword? = some k ∧ p ctx c.next.2 = .ok v c' := by
  rw [bind_ok, expectKeyword, expectWord_run, ← Denotes.hasKeyword_iff]
  split
  · next hk =>
    constructor
    · rintro ⟨l, c1, h, hrun⟩
      obtain ⟨rfl, rfl⟩ := EStateM.Result.ok.inj h
      exact ⟨hk, hrun⟩
    · exact fun h => ⟨_, _, rfl, h.2⟩
  · next hk =>
    constructor
    · rintro ⟨_, _, h, -⟩
      cases h
    · exact fun h => absurd h.1 hk

namespace Statement

/-- Every statement starts with a keyword. -/
theorem keyword?_of_parseWith (h : parseWith noExtension ctx c = .ok s c') :
    c.peek.token.keyword? ≠ none := by
  obtain ⟨depth, -, h⟩ := descend_ok.mp h
  have hbuiltin : parseBuiltin { ctx with depth } c = .ok s c' := h
  intro hnone
  rw [parseBuiltin, bind_run (next_run _ c), hnone] at hbuiltin
  exact absurd hbuiltin expected_ne_ok

/-- Blanks, and one statement that is read from all that stands behind them. -/
theorem laid_single {L : List Located} (heof : NoEof L)
    (hrun : parseWith noExtension ctx (.ofTokens (L.dropWhile Located.isWhitespace)) = .ok s c')
    (hend : c'.rest = []) : Laid ctx L [s] := by
  have hunread : L = L.takeWhile Located.isWhitespace ++ L.dropWhile Located.isWhitespace :=
    (List.takeWhile_append_dropWhile ..).symm
  rw [hunread]
  refine .gap_append (fun t ht => ?_) ?_
  · rw [isGap, List.mem_takeWhile_imp ht, Bool.true_or]
  have hclean : Clean (L.dropWhile Located.isWhitespace) := clean_dropWhile L
  have hpart : NoEof (L.dropWhile Located.isWhitespace) := fun t ht =>
    heof t ((List.dropWhile_suffix _).mem ht)
  have hkeyword := keyword?_of_parseWith hrun
  generalize L.dropWhile Located.isWhitespace = W at hclean hrun hkeyword hpart
  cases W with
  | nil => exact absurd rfl hkeyword
  | cons t w =>
      have hblank : t.isWhitespace = false := clean_cons.mp hclean
      have hpeek : (Cursor.ofTokens (t :: w)).peek = t := by
        rw [peek_eq, show (Cursor.ofTokens (t :: w)).rest = t :: w from dropWhile_of_clean hclean]
        rfl
      rw [hpeek] at hkeyword
      -- a statement starts with a keyword, which is no semicolon
      have hgap : isGap t = false := by
        rw [isGap, hblank, Bool.false_or, decide_eq_false_iff_not]
        intro hsemi
        rw [hsemi] at hkeyword
        exact hkeyword rfl
      exact (runTokens_iff hpart).mp (runTokens_of_run hpart hgap hrun (by simp [hend]))

/-- A print that is read as one statement is a text of that statement alone. -/
theorem runText_of_prints (hprints : Prints ctx text P)
    (hrun : ∀ d : Cursor, d.Faces P → ∃ d', parseWith noExtension ctx d = .ok s d' ∧
      d'.Faces []) : parseAll.runText ctx text = .ok [s] := by
  obtain ⟨L, hL, rfl⟩ := hprints.lexes .start
  have heof : NoEof L := noEof_of_lex hL
  have hfaces : (Cursor.ofTokens (L.dropWhile Located.isWhitespace)).Faces
      (L.map Located.token) := by
    refine ⟨rfl, ?_⟩
    rw [← map_dropWhile]
    exact congrArg (List.map Located.token) (dropWhile_of_clean (clean_dropWhile L))
  obtain ⟨d', hd', hend⟩ := hrun _ hfaces
  have hrest : d'.rest = [] := by simpa using hend.rest
  exact runText_ok.mpr ⟨L, hL, (runTokens_iff heof).mpr (laid_single heof hd' hrest)⟩

variable [hd : Fact (ctx.dialect ∈ Dialect.builtin)]

omit hd in
/-- What is read behind a keyword is a statement that is read back. -/
theorem reread_of_echoes {α : Type} {p : Parser α} {f : α → Statement} {v : α}
    {F : α → Prop} (hdepth : ctx.depth = depth + 1)
    (hbuiltin : ∀ d : Cursor, d.peek.token.keyword? = some k →
      parseBuiltin { ctx with depth } d = (f <$> p) { ctx with depth } d.next.2)
    (hp : Echoes { ctx with depth } p
      (fun v P => F v → Prints { ctx with depth } (f v).text (.ofKeyword k :: P))
      (fun _ => AtEnd) Anything)
    (hoverrun : c.overrun = 0) (hsource : ctx.Source c.rest)
    (hkeyword : c.peek.token.keyword? = some k)
    (hrun : p { ctx with depth } c.next.2 = .ok v c') (hend : c'.rest = []) (hv : F v) :
    parseAll.runText ctx (f v).text = .ok [f v] := by
  -- the keyword is read as part of the statement, as it is printed
  have hecho : Echoes { ctx with depth } (expectKeyword k >>= fun _ => p)
      (fun v P => F v → Prints ctx (f v).text P) (fun _ => AtEnd) (Shadows 1) :=
    .keyword_behind (n := 0) (N := [.ofKeyword k]) rfl (hp.mono
      (fun v P h hv => (h hv).of_depth) (fun _ _ _ h => h) fun _ _ _ => shadows_zero)
  obtain ⟨-, -, P, hP, hreplay⟩ := hecho c v c' hoverrun (hsource.depth depth)
    (expectKeyword_bind.mpr ⟨hkeyword, hrun⟩)
  refine runText_of_prints (hP hv) fun d hfaces => ?_
  -- both texts end behind the statement
  have hcoming : AtEnd c'.coming (solid []) := ⟨by rw [coming, hend]; rfl, rfl⟩
  obtain ⟨d', hd', hfaces'⟩ := (hreplay [] hcoming).2 d (by rwa [List.append_nil])
  obtain ⟨hk, hread⟩ := expectKeyword_bind.mp hd'
  refine ⟨d', descend_ok.mpr ⟨depth, hdepth, ?_⟩, hfaces'⟩
  exact (hbuiltin d hk).trans (map_ok.mpr ⟨v, hread, rfl⟩)

end Statement

/-! ## Queries -/

/-- A query whose run is known is read again from its text. -/
theorem Query.reread [hd : Fact (ctx.dialect ∈ Dialect.builtin)] {q : Query}
    (hdepth : ctx.depth = depth + 1) (hoverrun : c.overrun = 0) (hsource : ctx.Source c.rest)
    (hkeyword : c.peek.token.keyword? = some .select ∨ c.peek.token.keyword? = some .from)
    (hrun : Query.parse { ctx with depth } c = .ok q c') (hend : c'.rest = [])
    (hq : q.Readable ctx) : Statement.parseAll.runText ctx q.text = .ok [.query q] := by
  have : Fact ({ ctx with depth }.dialect ∈ Dialect.builtin) := hd
  obtain ⟨-, -, P, hP, hreplay⟩ := Query.parse_echoes c q c' hoverrun (hsource.depth depth) hrun
  refine Statement.runText_of_prints (hP hq).of_depth fun d hfaces => ?_
  have hcoming : AtEnd c'.coming (solid []) := ⟨by rw [coming, hend]; rfl, rfl⟩
  obtain ⟨hahead, hread⟩ := hreplay [] hcoming
  rw [List.append_nil] at hahead hread
  have hsame : c.peek.token.keyword? = d.peek.token.keyword? := by
    rw [← frontOf_coming, ← frontOf_coming, hfaces.coming]
    exact Token.keyword?_of_role hahead.front
  have hback := (at_rest hfaces.overrun).next_back
  obtain ⟨d', hd', hfaces'⟩ := hread d.next.2.back ⟨hback.overrun, hback.rest ▸ hfaces.rest⟩
  exact ⟨d', Statement.parseWith_query.mpr ⟨depth, hdepth, hsame ▸ hkeyword, hd'⟩, hfaces'⟩

/-! ## Synonyms -/

/-- A synonym is printed from its words and the two names. -/
theorem CreateSynonym.parse_echoes [Fact (ctx.dialect ∈ Dialect.builtin)] : Echoes ctx parse
    (fun s P => Prints ctx s.text (.ofKeyword .create :: P)) (fun _ => AtEnd) Anything := by
  have hsynonym : Echoes ctx (do
      let orReplace ← acceptKeywords [.or, .replace]
      let isPublic ← acceptKeyword .public
      let _ ← expectKeyword .synonym
      let synonym ← ObjectName.parse
      let _ ← expectKeyword .for
      return { orReplace, isPublic, synonym, object := ← ObjectName.parse }
        : Parser CreateSynonym)
      (fun s P => Prints ctx s.text (.ofKeyword .create :: P)) (fun _ => AtEnd) Anything := by
    refine ((AlterClause.acceptKeywords_echoes (n := 0) [.or, .replace]).front
      fun _ _ _ => trivial).bind fun orReplace P₁ hor =>
        (AlterClause.acceptKeyword_echoes (n := 1) .public).bind fun isPublic P₂ hpublic =>
          .keyword_behind (n := 1) (N := [.space, .ofKeyword .synonym]) rfl <|
            ((ObjectName.parse_echoes (n := 0)).trailing.front fun _ _ h =>
              h.mono (by decide)).bind fun synonym P₃ hsynonym =>
                .keyword_behind (n := 0) (N := [.space, .ofKeyword .for]) rfl <|
                  ((ObjectName.parse_echoes (n := 0)).trailing.mono (fun _ _ h => h)
                    (fun _ _ _ h => h.shadows) fun _ _ _ => shadows_zero).bind
                      fun object P₄ hobject => .pure ?_ fun _ _ h => h
    have htail := (Prints.keyword .synonym).trails.append (hsynonym.append
      ((Prints.keyword .for).trails.append hobject))
    refine ((Prints.keyword .create).append (hor.append (hpublic.append htail))).of_eq ?_
      (by simp)
    cases orReplace <;> cases isPublic <;> simp [text, chunks, String.append_assoc] <;> rfl
  -- a dialect without synonyms refuses the statement in both texts
  exact .read <| .ite (fun _ => .of_fails (Fails.bind_right fun _ =>
    Fails.bind (Fails.expected _ _) _)) fun _ => hsynonym

/-! ## Explanations -/

namespace Explain

/-- Where the query of an explanation is read. -/
theorem parse_query {keyword : ExplainKeyword} {e : Explain} {q : Query}
    (hoverrun : c.overrun = 0) (h : parse keyword ctx c = .ok e c')
    (htarget : e.target = .query q) : ∃ c1 : Cursor, c1.overrun = 0 ∧ c1.rest <:+ c.rest ∧
      (c1.peek.token.keyword? = some .select ∨ c1.peek.token.keyword? = some .from) ∧
        Query.parse ctx c1 = .ok q c' := by
  obtain ⟨options, c1, hoptions, h⟩ := bind_ok.mp h
  obtain ⟨target, c2, hrun, h⟩ := bind_ok.mp h
  obtain ⟨rfl, rfl⟩ := pure_ok.mp h
  obtain rfl : target = .query q := (target_foldl options _).symm.trans htarget
  obtain ⟨hoverrun1, used, hused, -⟩ := Local.many (R := Follow StatementEnd)
    ExplainOption.parse_offers ctx c options c1 hoverrun hoptions
  refine ⟨c1, hoverrun1, ⟨used, hused.symm⟩, ?_⟩
  rw [parseTarget_run] at hrun
  split at hrun
  · next hkeyword =>
    obtain ⟨q', hq, heq⟩ := map_ok.mp hrun
    obtain rfl := ExplainTarget.query.inj heq
    exact ⟨hkeyword, hq⟩
  · obtain ⟨_, -, hcontra⟩ := map_ok.mp hrun
    exact absurd hcontra (by simp)

/-- An explanation whose run is known is read again from its text, if what it prints of its options
    is what it stores. -/
theorem reread [hd : Fact (ctx.dialect ∈ Dialect.builtin)] {e : Explain}
    (hoverrun : c.overrun = 0) (hsource : ctx.Source c.rest)
    (hrun : Statement.parseWith Statement.noExtension ctx c = .ok (.explain e) c')
    (hend : c'.rest = [])
    (htable : ∀ name, e.target = .table name → e.options = [])
    (hquery : ∀ q, e.target = .query q → q.Readable ctx)
    (hformat : ∀ o ∈ e.options, o.kind = .format → ∀ v ∈ o.value, ctx.dialect.IsBareWord v) :
    Statement.parseAll.runText ctx e.text = .ok [.explain e] := by
  obtain ⟨depth, keyword, hdepth, hkeyword, hparse⟩ := Statement.parseWith_explain.mp hrun
  obtain rfl := (parse_valid keyword _ _ _ _ hparse).1
  have hvalid := (parse_valid _ _ _ _ _ hparse).2
  have hkinds := (parse_wellFormed _ _ _ _ _ hparse).options
  obtain ⟨hoverrun1, hsource1⟩ := source_next hoverrun hsource hkeyword
  have hholds := holds_coming hoverrun1 hsource1
  rw [text_eq]
  obtain ⟨keyword, options, target⟩ := e
  cases target with
  | table name =>
      -- a name is printed without the spaces around its periods
      obtain rfl : options = [] := htable name rfl
      obtain ⟨t, ts, hmem, hparts, hstart⟩ := parse_table hholds hparse rfl
      have hprints : Prints ctx name.text (t :: dotted ts) :=
        ObjectName.prints (fun t' ht' => hsource1.coming t' (hmem t' ht')) hparts
      exact parseAll_words hdepth nofun List.nodup_nil (spelled_words nofun nofun)
        (continues_of_lexes hprints.lexes hparts hstart)
  | query q =>
      obtain ⟨c1, hoverrun2, hsuffix, hstart, hq⟩ := parse_query hoverrun1 hparse rfl
      have hreread := Query.reread hdepth hoverrun2 (hsource1.mono hsuffix.isInfix) hstart hq hend
        (hquery q rfl)
      obtain ⟨T, hT⟩ : ∃ T, Continues ctx depth { keyword, options, target := .query q } T :=
        continues_query hdepth hreread
      exact parseAll_words hdepth hvalid hkinds (spelled_words hvalid hformat) hT

end Explain

end SchemaSql
