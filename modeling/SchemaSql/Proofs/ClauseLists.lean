import SchemaSql.Proofs.StatementLists

/-! # Lists of clauses — where one clause of ALTER TABLE ends and the next begins

    The clauses of an `ALTER TABLE` are separated by commas, and so are columns, partitions
    and values inside them.  A comma ends a clause when a word that starts a clause stands
    behind it, and for the text behind `MOVE` when no group is open.

    * `Piece` says what makes a list of tokens one clause, whatever clause stands behind;
    * `Series` is a list of pieces with commas between them, and a list of clauses is read
      from exactly these (`series_of_run`, `Series.run`);
    * `alters_iff` says the same of the whole statement, so that putting two lists of clauses
      together and taking one apart are inductions over series. -/

namespace SchemaSql

open Cursor SchemaSql.Parser

variable {ctx : Context}

namespace AlterClause

/-! ## One clause -/

/-- These tokens start with `MOVE` and leave a group open. -/
def Open (used : List Located) : Prop :=
  (headOf used).token.bareKeyword? = some .move ∧ ∃ n, parenDepth 0 used = some (n + 1)

/-- These tokens are read as this clause wherever a statement may end behind them, and
    wherever a clause may end, unless a value in them is still open. -/
structure Piece (ctx : Context) (used : List Located) (clause : AlterClause) : Prop where
  head   : ∃ t u, used = t :: u ∧ startsClause t.token = true
  replay : ∀ r, StatementEnd r ∨ (ClauseEnd r ∧ ¬ Open used) → ∀ d : Cursor,
    d.At (used ++ r) → ∃ d', parse ctx d = .ok clause d' ∧ d'.At r

/-- A clause behind `MOVE` is read as a value from that word on. -/
theorem parse_move {c c' : Cursor} {clause : AlterClause} {t : Located} {w : List Located}
    (hc : c.At (t :: w)) (ht : t.token.bareKeyword? = some .move) :
    parse ctx c = .ok clause c' ↔
      ∃ text, valueText ctx c.next.2.back = .ok text c' ∧ clause = .unspecific text := by
  have hpeek : c.peek = t := hc.peek
  -- the word is put back, so the text that is kept has it too
  have hbehind : parseAfter t t.token.bareKeyword? = (do
      back
      return .unspecific (← valueText)) := by
    rw [ht]
    rfl
  rw [parse, bind_ok]
  constructor
  · rintro ⟨found, c1, hn, h⟩
    rw [next_run] at hn
    obtain ⟨rfl, rfl⟩ := EStateM.Result.ok.inj hn
    rw [hpeek, hbehind] at h
    obtain ⟨_, c2, hback, h⟩ := bind_ok.mp h
    obtain rfl := back_ok.mp hback
    obtain ⟨text, c3, htext, h⟩ := bind_ok.mp h
    obtain ⟨rfl, rfl⟩ := pure_ok.mp h
    exact ⟨text, htext, rfl⟩
  · rintro ⟨text, htext, rfl⟩
    refine ⟨t, c.next.2, next_ok.mpr hc.next.1, ?_⟩
    rw [hbehind]
    exact bind_ok.mpr ⟨(), _, back_ok.mpr rfl, bind_ok.mpr ⟨text, c', htext,
      pure_ok.mpr ⟨rfl, rfl⟩⟩⟩

/-- What was read as a clause is a piece; where it ended at a comma, no group is open. -/
theorem piece_of_run {c c' : Cursor} {clause : AlterClause} (h0 : c.overrun = 0)
    (h : parse ctx c = .ok clause c') (hend : ClauseEnd c'.rest) :
    c'.overrun = 0 ∧ ∃ used, c.rest = used ++ c'.rest ∧ Piece ctx used clause ∧
      (StatementEnd c'.rest ∨ ¬ Open used) := by
  have hreads := parse_reads (R := Follow StatementEnd)
  have hlt := hreads.takes ctx c clause c' h0 h trivial
  have heof : Fails (parseAfter .eof Located.eof.token.bareKeyword?) := Fails.expected _ _
  obtain ⟨t, w, hat, hafter⟩ :=
    Local.next_bind_run (k := fun t => parseAfter t t.token.bareKeyword?) heof h0 h
  have hstart : startsClause t.token = true := by
    have := startsClause_of_parse h
    rwa [hat.peek] at this
  -- the first token of what was taken is the word that was read
  have hhead : ∀ used, c.rest = used ++ c'.rest → ∃ u, used = t :: u := by
    intro used hused
    cases used with
    | nil =>
        rw [List.nil_append] at hused
        rw [hused] at hlt
        exact absurd hlt (lt_irrefl _)
    | cons t' u =>
        rw [hat.rest] at hused
        exact ⟨u, by rw [(List.cons.inj hused).1]⟩
  by_cases hmove : t.token.bareKeyword? = some .move
  · obtain ⟨text, htext, rfl⟩ := (parse_move hat hmove).mp h
    have hback := Local.next_back hat
    obtain ⟨h1, used, m, hused, hdepth, hends, hreplay⟩ := valueText_replay hback.overrun htext
    rw [hback.rest, ← hat.rest] at hused
    obtain ⟨u, rfl⟩ := hhead used hused
    refine ⟨h1, t :: u, hused, ⟨⟨t, u, rfl, hstart⟩, fun r hr d hd => ?_⟩, ?_⟩
    · have hends' : EndsValue m r := by
        rcases hr with hr | ⟨hr, hopen⟩
        · exact .inl hr.mark
        · have hm : m = 0 := by
            cases m with
            | zero => rfl
            | succ n => exact absurd ⟨hmove, n, hdepth⟩ hopen
          rcases hr.mark with h | h | h
          · exact .inl (.inl h)
          · exact .inl (.inr h)
          · exact .inr ⟨hm, .inl h⟩
      obtain ⟨d', hd', hat'⟩ := hreplay r hends' d.next.2.back (Local.next_back hd)
      exact ⟨d', (parse_move hd hmove).mpr ⟨text, hd', rfl⟩, hat'⟩
    · rcases hends with hmark | ⟨rfl, -⟩
      · left
        rcases hend with hend | ⟨t', r, heq, ht', -⟩
        · exact hend
        · rw [heq] at hmark
          rcases hmark with hmark | hmark <;> simp [headOf, ht'] at hmark
      · right
        rintro ⟨-, n, hn⟩
        simp [hdepth] at hn
  · obtain ⟨h1, used, hused, hreplay⟩ := Local.replay_behind
      (k := fun t => parseAfter t t.token.bareKeyword?)
      (parseAfter_local (R := Follow ClauseEnd) t hmove) hat hafter
    obtain ⟨u, rfl⟩ := hhead used hused
    refine ⟨h1, t :: u, hused, ⟨⟨t, u, rfl, hstart⟩, fun r hr d hd => ?_⟩,
      .inr fun hopen => hmove hopen.1⟩
    have hr' : ClauseEnd r := hr.elim StatementEnd.clauseEnd And.left
    exact hreplay r ⟨[], c'.rest, r, hend, hr', rfl, rfl⟩ d hd

/-! ## Pieces with commas between them -/

/-- Pieces with commas between them, in front of an end. -/
inductive Series (ctx : Context) : List Located → List AlterClause → List Located → Prop where
  | last {used clause w} (hp : Piece ctx used clause) (hend : StatementEnd w) :
      Series ctx (used ++ w) [clause] w
  | more {used clause comma gap w clauses w'} (hp : Piece ctx used clause)
      (hopen : ¬ Open used) (hcomma : comma.token = .comma)
      (hgap : ∀ t ∈ gap, t.isWhitespace = true) (rest : Series ctx w clauses w') :
      Series ctx (used ++ comma :: (gap ++ w)) (clause :: clauses) w'

/-- What starts a clause is no blank. -/
theorem startsClause_solid {t : Located} (h : startsClause t.token = true) :
    t.isWhitespace = false := by
  cases htok : t.token with
  | word w => simp [Located.isWhitespace, htok, Token.isWhitespace]
  | _ => simp [startsClause, Token.bareKeyword?, htok] at h

/-- A series starts with a word that starts a clause. -/
theorem Series.head {w w' : List Located} {clauses : List AlterClause}
    (h : Series ctx w clauses w') : ∃ t u, w = t :: u ∧ startsClause t.token = true := by
  cases h with
  | last hp hend =>
      obtain ⟨t, u, rfl, ht⟩ := hp.head
      exact ⟨t, _, rfl, ht⟩
  | more hp hopen hcomma hgap rest =>
      obtain ⟨t, u, rfl, ht⟩ := hp.head
      exact ⟨t, _, rfl, ht⟩

/-- What may stand behind a piece: an end, or a comma and a series. -/
inductive Behind (ctx : Context) : List Located → List AlterClause → List Located → Prop where
  | stop {w} (hend : StatementEnd w) : Behind ctx w [] w
  | comma {comma gap w clauses w'} (hcomma : comma.token = .comma)
      (hgap : ∀ t ∈ gap, t.isWhitespace = true) (series : Series ctx w clauses w') :
      Behind ctx (comma :: (gap ++ w)) clauses w'

/-- Blanks in front of a series are passed, and nothing of it. -/
theorem Series.dropGap {gap w w' : List Located} {clauses : List AlterClause}
    (h : Series ctx w clauses w') (hgap : ∀ t ∈ gap, t.isWhitespace = true) :
    (gap ++ w).dropWhile Located.isWhitespace = w := by
  obtain ⟨t, u, rfl, ht⟩ := h.head
  exact dropWhile_append_clean hgap (by simpa using startsClause_solid ht)

/-- Behind a piece a clause may end. -/
theorem Behind.clauseEnd {w w' : List Located} {clauses : List AlterClause}
    (h : Behind ctx w clauses w') : ClauseEnd w := by
  cases h with
  | stop hend => exact hend.clauseEnd
  | @comma comma gap w _ _ hcomma hgap series =>
      obtain ⟨t, u, hw, ht⟩ := series.head
      refine .inr ⟨comma, gap ++ w, rfl, hcomma, ?_⟩
      rw [← nthSolid_dropWhile, series.dropGap hgap, hw,
        nthSolid_zero_of_clean (by simpa using startsClause_solid ht)]
      exact ht

/-- A piece and what stands behind it. -/
theorem Behind.series {used w w' : List Located} {clause : AlterClause}
    {clauses : List AlterClause} (h : Behind ctx w clauses w') (hp : Piece ctx used clause)
    (hopen : StatementEnd w ∨ ¬ Open used) : Series ctx (used ++ w) (clause :: clauses) w' := by
  cases h with
  | stop hend => exact .last hp hend
  | @comma comma gap w _ _ hcomma hgap series =>
      refine .more hp (hopen.resolve_left ?_) hcomma hgap series
      rintro (h | ⟨t, r, heq, ht⟩)
      · simp at h
      · obtain rfl : comma = t := (List.cons.inj heq).1
        simp [hcomma] at ht

/-- The step of the loop that reads clauses behind commas. -/
def another : Parser (Option AlterClause) := do
  if ← acceptSeparator false then some <$> parse else return none

theorem another_offers : Offers (Follow StatementEnd) (· ≠ none) another :=
  .item (.acceptSeparator false) parse_reads.isLocal

/-- Every further clause takes its comma. -/
theorem another_shortens :
    Shortens fun clauses : List AlterClause => (·.map (· :: clauses)) <$> another :=
  shortens_of fun clauses => another_offers.collect clauses

/-- A further clause is read behind a comma, which may not end the list. -/
theorem another_run (ctx : Context) (c : Cursor) :
    another ctx c =
      if c.peek.token = .comma then (some <$> parse) ctx c.next.2 else .ok none c := by
  simp only [another, Parser.bind_apply]
  rw [acceptSeparator_run]
  by_cases h : c.peek.token = .comma
  · simp only [if_pos h]
    rfl
  · simp only [if_neg h]
    rfl

/-- What was read behind a clause is nothing, or a series behind a comma. -/
theorem behind_of_iterates {c c' : Cursor} {acc acc' : List AlterClause}
    (h : Iterates (fun clauses : List AlterClause => (·.map (· :: clauses)) <$> another) ctx acc c
      acc' c') (h0 : c.overrun = 0) (hend : StatementEnd c'.rest) :
    ∃ clauses, acc' = clauses.reverse ++ acc ∧ Behind ctx c.rest clauses c'.rest := by
  induction h with
  | @done acc c c' h =>
      obtain ⟨o, ho, heq⟩ := map_ok.mp h
      rw [another_run] at ho
      split at ho
      · obtain ⟨a, -, rfl⟩ := map_ok.mp ho
        exact absurd heq (by simp)
      · obtain ⟨rfl, rfl⟩ := EStateM.Result.ok.inj ho
        exact ⟨[], rfl, .stop hend⟩
  | @more acc acc1 acc' c c1 c' h _ ih =>
      obtain ⟨o, ho, heq⟩ := map_ok.mp h
      rw [another_run] at ho
      split at ho
      · rename_i hcomma
        obtain ⟨clause, hclause, rfl⟩ := map_ok.mp ho
        obtain rfl : clause :: acc = acc1 := by simpa using heq
        -- the comma is a token of the text, since the end of it is none
        obtain ⟨comma, w, hw⟩ : ∃ comma w, c.rest = comma :: w := by
          cases hw : c.rest with
          | nil => rw [peek_eq, hw] at hcomma; simp [headOf, Located.eof] at hcomma
          | cons comma w => exact ⟨comma, w, rfl⟩
        have hat : c.At (comma :: w) := ⟨h0, hw⟩
        have hreads := parse_reads (R := Follow StatementEnd)
        have h1 := (hreads.isLocal ctx _ clause c1 hat.next.2.overrun hclause).1
        obtain ⟨clauses, rfl, hbehind⟩ := ih h1 hend
        -- the clause behind the comma is a piece: what stands behind it ends one
        obtain ⟨-, used, hused, hp, hopen⟩ :=
          piece_of_run hat.next.2.overrun hclause hbehind.clauseEnd
        refine ⟨clause :: clauses, by simp, ?_⟩
        rw [hw, ← List.takeWhile_append_dropWhile (p := Located.isWhitespace) (l := w),
          ← hat.next.2.rest, hused]
        refine .comma ?_ (fun t ht => List.mem_takeWhile_imp ht) (hbehind.series hp hopen)
        rwa [hat.peek] at hcomma
      · obtain ⟨rfl, rfl⟩ := EStateM.Result.ok.inj ho
        exact absurd heq (by simp)

/-- A list of clauses is read from a series. -/
theorem series_of_run {c c' : Cursor} {clauses : List AlterClause} (h0 : c.overrun = 0)
    (h : commaSeparatedWith false parse ctx c = .ok clauses c') (hend : StatementEnd c'.rest) :
    Series ctx c.rest clauses c'.rest := by
  obtain ⟨clause, c1, hclause, h⟩ := bind_ok.mp h
  obtain ⟨rest, c2, hloop, h⟩ := bind_ok.mp h
  obtain ⟨rfl, rfl⟩ := pure_ok.mp h
  obtain ⟨acc, hiter, rfl⟩ := map_ok.mp hloop
  have h1 := ((parse_reads (R := Follow StatementEnd)).isLocal ctx _ clause c1 h0 hclause).1
  obtain ⟨clauses, rfl, hbehind⟩ :=
    behind_of_iterates ((iterate_ok another_shortens h1).mp hiter) h1 hend
  obtain ⟨-, used, hused, hp, hopen⟩ := piece_of_run h0 hclause hbehind.clauseEnd
  rw [hused]
  simpa using hbehind.series hp hopen

/-- A series is read as its clauses: each piece is replayed in front of the rest. -/
theorem Series.replay {w w' : List Located} {clauses : List AlterClause}
    (h : Series ctx w clauses w') {c : Cursor} (hc : c.At w) :
    ∃ clause rest c1, clauses = clause :: rest ∧ parse ctx c = .ok clause c1 ∧
      c1.overrun = 0 ∧ ∀ acc, ∃ c', Iterates (fun clauses : List AlterClause =>
        (·.map (· :: clauses)) <$> another) ctx acc c1 (rest.reverse ++ acc) c' ∧ c'.At w' := by
  induction h generalizing c with
  | @last used clause w hp hend =>
      obtain ⟨c1, hrun, hat⟩ := hp.replay w (.inl hend) c hc
      refine ⟨clause, [], c1, rfl, hrun, hat.overrun, fun acc => ⟨c1, .done ?_, hat⟩⟩
      refine map_ok.mpr ⟨none, ?_, rfl⟩
      -- the mark that ends the clauses is no comma
      rw [another_run, hat.peek, if_neg]
      rcases hend.mark with h | h <;> simp [h]
  | @more used clause comma gap w clauses w' hp hopen hcomma hgap series ih =>
      have hbehind : Behind ctx (comma :: (gap ++ w)) clauses w' := .comma hcomma hgap series
      obtain ⟨c1, hrun, hat⟩ := hp.replay _ (.inr ⟨hbehind.clauseEnd, hopen⟩) c hc
      have hat2 := hat.next.2
      rw [series.dropGap hgap] at hat2
      obtain ⟨clause', rest, c2, rfl, hrun2, -, hiter⟩ := ih hat2
      refine ⟨clause, clause' :: rest, c1, rfl, hrun, hat.overrun, fun acc => ?_⟩
      obtain ⟨c', hiter, hat'⟩ := hiter (clause' :: acc)
      refine ⟨c', ?_, hat'⟩
      rw [List.reverse_cons, List.append_assoc]
      refine .more (map_ok.mpr ⟨some clause', ?_, rfl⟩) hiter
      rw [another_run, hat.peek]
      exact (if_pos hcomma).trans (map_ok.mpr ⟨clause', hrun2, rfl⟩)

/-- A series is read clause by clause, each of them up to its comma. -/
theorem Series.run {w w' : List Located} {clauses : List AlterClause}
    (h : Series ctx w clauses w') {c : Cursor} (hc : c.At w) :
    ∃ c', commaSeparatedWith false parse ctx c = .ok clauses c' ∧ c'.At w' := by
  obtain ⟨clause, rest, c1, rfl, hrun, h1, hiter⟩ := h.replay hc
  obtain ⟨c', hiter, hat⟩ := hiter []
  refine ⟨c', bind_ok.mpr ⟨clause, c1, hrun, bind_ok.mpr ⟨rest, c', ?_,
    pure_ok.mpr ⟨rfl, rfl⟩⟩⟩, hat⟩
  exact map_ok.mpr ⟨_, (iterate_ok another_shortens h1).mpr hiter, by simp⟩

/-- A series goes on alike in front of every end. -/
theorem Series.split {w w' : List Located} {clauses : List AlterClause}
    (h : Series ctx w clauses w') : ∃ x, w = x ++ w' ∧ ∀ r, StatementEnd r →
      Series ctx (x ++ r) clauses r := by
  induction h with
  | @last used clause w hp _ => exact ⟨used, rfl, fun r hr => .last hp hr⟩
  | @more used clause comma gap w clauses w' hp hopen hcomma hgap _ ih =>
      obtain ⟨x, rfl, hreplay⟩ := ih
      refine ⟨used ++ comma :: (gap ++ x), by simp, fun r hr => ?_⟩
      simpa using Series.more hp hopen hcomma hgap (hreplay r hr)

/-! ### Groups in a series -/

/-- Where groups can be counted through a text they can be counted from any place in it. -/
theorem parenDepth_suffix {n m : Nat} {u v : List Located}
    (h : parenDepth n (u ++ v) = some m) : ∃ k, parenDepth k v = some m := by
  rw [parenDepth_append] at h
  cases hu : parenDepth n u with
  | none => simp [hu] at h
  | some k => exact ⟨k, by simpa [hu] using h⟩

/-- Two series with a comma between them are one, if no group is open at the end of the
    first. -/
theorem Series.append {w w' wB wB' : List Located} {as bs : List AlterClause}
    (h : Series ctx w as w') (hnil : w' = []) {n : Nat} (hclosed : parenDepth n w = some 0)
    {comma : Located} {gap : List Located} (hcomma : comma.token = .comma)
    (hgap : ∀ t ∈ gap, t.isWhitespace = true) (hB : Series ctx wB bs wB') :
    Series ctx (w ++ comma :: (gap ++ wB)) (as ++ bs) wB' := by
  induction h generalizing n with
  | @last used clause w hp _ =>
      subst hnil
      rw [List.append_nil] at hclosed ⊢
      refine .more hp ?_ hcomma hgap hB
      rintro ⟨-, k, hk⟩
      have := parenDepth_add hk n
      rw [Nat.zero_add, hclosed, Option.some.injEq] at this
      omega
  | @more used clause comma' gap' w clauses w' hp hopen hcomma' hgap' _ ih =>
      obtain ⟨k, hk⟩ := parenDepth_suffix (u := used ++ comma' :: gap') (v := w) (by
        simpa using hclosed)
      have := Series.more hp hopen hcomma' hgap' (ih hnil hk)
      simpa using this

end AlterClause

/-! ## The statement around the clauses -/

namespace Alter

/-- Apart from blanks, these tokens are `ALTER TABLE` and a word without quotes that is no
    keyword. -/
def Head (name : String) (P : List Located) : Prop :=
  ∃ a b c, P.filter (fun t => !t.isWhitespace) = [a, b, c] ∧
    a.token.keyword? = some .alter ∧ b.token.keyword? = some .table ∧
    c.token = .word ⟨name, none, none⟩

/-- Behind this head, the tokens are read as one `ALTER TABLE` of the table with these
    clauses. -/
def Reads (ctx : Context) (name : String) (P A : List Located) (clauses : List AlterClause) :
    Prop :=
  ∃ alter : Alter, Statement.parseAll.runTokens ctx (P ++ A) = .ok [.alter alter] ∧
    alter.table = ⟨[⟨name, none⟩]⟩ ∧ alter.clauses = clauses

/-- The first solid token of a list, and what stands behind it. -/
theorem dropWhile_of_filter {P xs : List Located} {x : Located}
    (h : P.filter (fun t => !t.isWhitespace) = x :: xs) :
    ∃ P', P'.filter (fun t => !t.isWhitespace) = xs ∧
      ∀ A, (P ++ A).dropWhile Located.isWhitespace = x :: (P' ++ A) := by
  induction P with
  | nil => simp at h
  | cons t P ih =>
      by_cases ht : t.isWhitespace
      · rw [List.filter_cons_of_neg (by simp [ht])] at h
        obtain ⟨P', hP', hdrop⟩ := ih h
        refine ⟨P', hP', fun A => ?_⟩
        rw [List.cons_append, List.dropWhile_cons_of_pos ht, hdrop A]
      · rw [List.filter_cons_of_pos (by simp [ht])] at h
        obtain ⟨rfl, hxs⟩ := List.cons.inj h
        refine ⟨P, hxs, fun A => ?_⟩
        rw [List.cons_append, List.dropWhile_cons_of_neg ht]

/-- Tokens that are all blanks are passed. -/
theorem dropWhile_of_filter_nil {P A : List Located}
    (h : P.filter (fun t => !t.isWhitespace) = []) :
    (P ++ A).dropWhile Located.isWhitespace = A.dropWhile Located.isWhitespace :=
  List.dropWhile_append_of_pos fun t ht => by
    simpa using (List.filter_eq_nil_iff.mp h) t ht

theorem hasKeyword_of {t : Located} {keyword : Keyword}
    (h : t.token.keyword? = some keyword) (other : Option Keyword) :
    hasKeyword other t = (some keyword == other) := by
  unfold hasKeyword
  cases htok : t.token with
  | word w =>
      rw [htok] at h
      have hw : w.keyword = some keyword := h
      simp only [hw]
  | _ => simp [Token.keyword?, htok] at h

/-- Reading the head of the statement. -/
theorem Head.run {name : String} {P : List Located} (hP : Head name P) (ctx : Context)
    {A : List Located} {c : Cursor} (hc : c.At ((P ++ A).dropWhile Located.isWhitespace)) :
    ∃ c1, c1.At (A.dropWhile Located.isWhitespace) ∧ ∀ s c',
      Statement.parseWith Statement.noExtension ctx c = .ok s c' ↔
        ∃ depth parts clauses c2, ctx.depth = depth + 1 ∧
          many (do if ← accept .period then some <$> Ident.parse false else return none)
            { ctx with depth } c1 = .ok parts c2 ∧
          commaSeparatedWith false AlterClause.parse { ctx with depth } c2 = .ok clauses c' ∧
          s = .alter { table := ⟨⟨name, none⟩ :: parts⟩, clauses } := by
  obtain ⟨a, b, n, hfilter, ha, hb, hn⟩ := hP
  obtain ⟨P1, hP1, hdrop⟩ := dropWhile_of_filter hfilter
  obtain ⟨P2, hP2, hdrop1⟩ := dropWhile_of_filter hP1
  obtain ⟨P3, hP3, hdrop2⟩ := dropWhile_of_filter hP2
  rw [hdrop A] at hc
  -- the places behind each of the three words
  have hc1 := hc.next.2
  rw [hdrop1 A] at hc1
  have hc2 := hc1.next.2
  rw [hdrop2 A] at hc2
  have hc3 := hc2.next.2
  rw [dropWhile_of_filter_nil hP3] at hc3
  have hno : ∀ keyword, hasKeyword (some keyword) n = false := by simp [hasKeyword, hn]
  -- none of the optional words stands behind `TABLE`
  have halter : ∀ ctx, parse ctx c.next.2 = (do
      let table ← ObjectName.parse
      return { ifExists := false, only := false, table,
               clauses := ← commaSeparatedWith false AlterClause.parse } : Parser Alter) ctx
        c.next.2.next.2 := by
    intro ctx
    have htable : expectKeyword .table ctx c.next.2 = .ok b c.next.2.next.2 := by
      rw [expectKeyword, expectWord_run, hc1.peek]
      exact if_pos (hasKeyword_of hb _)
    have hif : acceptKeywords [.if, .exists] ctx c.next.2.next.2 = .ok false c.next.2.next.2 := by
      have := acceptKeywords_words [.if, .exists] ctx _ _ hc2
      simpa [takeWords, hno] using this
    have honly : acceptKeyword .only ctx c.next.2.next.2 = .ok false c.next.2.next.2 := by
      rw [acceptKeyword, acceptWord_run, hc2.peek]
      exact if_neg (by simp [headOf, hno])
    rw [parse, bind_run htable, bind_run hif, bind_run honly]
  have hname : ∀ ctx, Ident.parse false ctx c.next.2.next.2
      = .ok ⟨name, none⟩ c.next.2.next.2.next.2 := by
    intro ctx
    rw [Ident.parse_eq, bind_run (next_ok.mpr hc2.next.1)]
    refine bind_ok.mpr ⟨ctx.toSettings, _, read_ok.mpr ⟨rfl, rfl⟩, ?_⟩
    simp only [Ident.hyphenStart, Ident.ofToken, hn]
    exact pure_ok.mpr ⟨rfl, rfl⟩
  have hbuiltin : ∀ ctx, Statement.parseBuiltin ctx c = (do
      return .alter (← parse) : Parser Statement) ctx c.next.2 := by
    intro ctx
    rw [Statement.parseBuiltin, bind_run (next_ok.mpr hc.next.1)]
    simp only [ha]
  -- what is left to read are further parts of the name and the clauses
  refine ⟨c.next.2.next.2.next.2, hc3, fun s c' => ⟨fun h => ?_, ?_⟩⟩
  · obtain ⟨depth, hdepth, h⟩ := descend_ok.mp h
    have h : Statement.parseBuiltin { ctx with depth } c = .ok s c' := h
    rw [hbuiltin] at h
    obtain ⟨alter, c1, hrun, h⟩ := bind_ok.mp h
    obtain ⟨rfl, rfl⟩ := pure_ok.mp h
    rw [halter] at hrun
    obtain ⟨table, c2, htable, h⟩ := bind_ok.mp hrun
    obtain ⟨clauses, c3, hclauses, h⟩ := bind_ok.mp h
    obtain ⟨rfl, rfl⟩ := pure_ok.mp h
    obtain ⟨first, c4, hfirst, h⟩ := bind_ok.mp htable
    obtain ⟨rfl, rfl⟩ := EStateM.Result.ok.inj ((hname _).symm.trans hfirst)
    obtain ⟨parts, c5, hparts, h⟩ := bind_ok.mp h
    obtain ⟨rfl, rfl⟩ := pure_ok.mp h
    exact ⟨depth, parts, clauses, _, hdepth, hparts, hclauses, rfl⟩
  · rintro ⟨depth, parts, clauses, c2, hdepth, hparts, hclauses, rfl⟩
    refine descend_ok.mpr ⟨depth, hdepth, ?_⟩
    show Statement.parseBuiltin { ctx with depth } c = _
    rw [hbuiltin]
    refine bind_ok.mpr ⟨_, c', ?_, pure_ok.mpr ⟨rfl, rfl⟩⟩
    rw [halter]
    refine bind_ok.mpr ⟨⟨⟨name, none⟩ :: parts⟩, c2, ?_, bind_ok.mpr ⟨clauses, c', hclauses,
      pure_ok.mpr ⟨rfl, rfl⟩⟩⟩
    exact bind_ok.mpr ⟨_, _, hname _, bind_ok.mpr ⟨parts, c2, hparts, pure_ok.mpr ⟨rfl, rfl⟩⟩⟩

/-- Whether a further part of a table's name follows. -/
theorem parts_iff {c c' : Cursor} (h0 : c.overrun = 0) :
    many (do if ← accept .period then some <$> Ident.parse false else return none) ctx c
      = .ok [] c' ↔ c.peek.token ≠ .period ∧ c' = c := by
  have hitem : Offers (Follow ClauseEnd) (· ≠ none)
      (do if ← accept .period then some <$> Ident.parse false else return none) :=
    .item (.accept (by simp [EndMark])) (Ident.parse_local false)
  rw [many_nil_ok hitem h0, bind_ok]
  constructor
  · rintro ⟨b, c1, hb, h⟩
    rw [accept_run] at hb
    split at hb
    · obtain ⟨rfl, rfl⟩ := EStateM.Result.ok.inj hb
      obtain ⟨_, -, h⟩ := map_ok.mp h
      -- a part behind the period would be an item of the list
      exact absurd h (by simp)
    · obtain ⟨rfl, rfl⟩ := EStateM.Result.ok.inj hb
      obtain ⟨-, rfl⟩ := pure_ok.mp h
      exact ⟨‹_›, rfl⟩
  · rintro ⟨hne, rfl⟩
    exact ⟨false, c', by rw [accept_run, if_neg hne], pure_ok.mpr ⟨rfl, rfl⟩⟩

/-- An `ALTER TABLE` with these clauses is read from a series, and gaps behind it. -/
theorem reads_iff {name : String} {P A : List Located} {clauses : List AlterClause}
    (hP : Head name P) (hw : Statement.NoEof (P ++ A)) :
    Reads ctx name P A clauses ↔ ∃ depth w, ctx.depth = depth + 1 ∧ StatementEnd w ∧
      (∀ t ∈ w, Statement.isGap t = true) ∧
      AlterClause.Series { ctx with depth } (A.dropWhile Located.isWhitespace) clauses w := by
  obtain ⟨a, P', hsolid, ha⟩ : ∃ a P', (∀ A, (P ++ A).dropWhile Located.isWhitespace
      = a :: (P' ++ A)) ∧ Statement.isGap a = false := by
    obtain ⟨a, b, n, hfilter, ha, -⟩ := hP
    obtain ⟨P', -, hdrop⟩ := dropWhile_of_filter hfilter
    refine ⟨a, P', hdrop, ?_⟩
    cases htok : a.token with
    | word w => simp [Statement.isGap, Located.isWhitespace, htok, Token.isWhitespace]
    | _ => simp [Token.keyword?, htok] at ha
  constructor
  · rintro ⟨alter, hrun, htable, rfl⟩
    -- a text that is read as one statement is laid out as one
    obtain ⟨gap, used, w, hsplit, hgap, hs, hend, hlaid⟩ :=
      ((Statement.runTokens_iff hw).mp hrun).cons_inv
    have hdrop : used ++ w = (P ++ A).dropWhile Located.isWhitespace := by
      obtain ⟨t, u, rfl, ht⟩ := hs.head
      have hgaps : (P ++ A).dropWhile Statement.isGap = t :: u ++ w := by
        rw [hsplit, Statement.dropGap_append hgap, List.cons_append,
          List.dropWhile_cons_of_neg (by simp [ht])]
      rw [← hgaps, ← Statement.dropGap_blanks, hsolid, List.dropWhile_cons_of_neg (by simp [ha])]
    obtain ⟨d, hd⟩ : ∃ d : Cursor, d.At (used ++ w) :=
      ⟨⟨[], used ++ w, 0⟩, rfl, dropWhile_of_clean (hdrop ▸ clean_dropWhile _)⟩
    obtain ⟨d', hd', hat⟩ := hs.replay w hend d hd
    rw [hdrop] at hd
    obtain ⟨c1, hat1, hok⟩ := hP.run ctx hd
    obtain ⟨depth, parts, clauses, c2, hdepth, hparts, hclauses, heq⟩ := (hok _ d').mp hd'
    obtain rfl := Statement.alter.inj heq
    obtain rfl : parts = [] := by simpa using htable
    obtain ⟨-, rfl⟩ := (parts_iff hat1.overrun).mp hparts
    refine ⟨depth, w, hdepth, hend, hlaid.nil_inv, ?_⟩
    have := AlterClause.series_of_run hat1.overrun hclauses (by rw [hat.rest]; exact hend)
    rwa [hat1.rest, hat.rest] at this
  · rintro ⟨depth, w, hdepth, hend, hgap, hseries⟩
    refine ⟨{ table := ⟨[⟨name, none⟩]⟩, clauses }, ?_, rfl, rfl⟩
    obtain ⟨x, hx, hreplay⟩ := hseries.split
    have hA : A = A.takeWhile Located.isWhitespace ++ (x ++ w) := by
      rw [← hx, List.takeWhile_append_dropWhile]
    have hgaps : ∀ t ∈ A.takeWhile Located.isWhitespace, t.isWhitespace = true :=
      fun t ht => List.mem_takeWhile_imp ht
    generalize A.takeWhile Located.isWhitespace = blanks at hA hgaps
    -- the head and the series are one statement, wherever a statement may end behind them
    have hsentence : Statement.Sentence ctx (a :: (P' ++ (blanks ++ x)))
        (.alter { table := ⟨[⟨name, none⟩]⟩, clauses }) := by
      refine ⟨⟨a, _, rfl, ha⟩, fun r hr d hd => ?_⟩
      have hseries' := hreplay r hr
      obtain ⟨c1, hat1, hok⟩ := hP.run ctx (A := blanks ++ (x ++ r)) (c := d) (by
        rw [hsolid]
        simpa using hd)
      rw [hseries'.dropGap hgaps] at hat1
      obtain ⟨c', hrun, hat⟩ := hseries'.run hat1
      obtain ⟨t, u, hhead, ht⟩ := hseries'.head
      -- a clause starts behind the name, so the name has no further part
      have hperiod : c1.peek.token ≠ .period := by
        rw [hat1.peek, hhead]
        rintro heq
        have heq : t.token = .period := heq
        simp [AlterClause.startsClause, Token.bareKeyword?, heq] at ht
      exact ⟨c', (hok _ c').mpr ⟨depth, [], clauses, c1, hdepth,
        (parts_iff hat1.overrun).mpr ⟨hperiod, rfl⟩, hrun, rfl⟩, hat⟩
    refine (Statement.runTokens_iff hw).mpr ?_
    have hblanks : ∀ t ∈ (P ++ A).takeWhile Located.isWhitespace, Statement.isGap t = true :=
      fun t ht => by simp [Statement.isGap, List.mem_takeWhile_imp ht]
    have hlaid := Statement.Laid.cons hblanks hsentence hend (.nil hgap)
    have hall : a :: (P' ++ (blanks ++ x)) ++ w = (P ++ A).dropWhile Located.isWhitespace := by
      rw [hsolid, hA]
      simp
    rwa [hall, List.takeWhile_append_dropWhile] at hlaid

/-! ## Putting lists together and taking them apart -/

/-- Every group in these tokens is closed. -/
def Balanced (A : List Located) : Prop := parenDepth 0 A = some 0

/-- Semicolons stand in groups only. -/
def NoSemicolonOutside (A : List Located) : Prop :=
  ∀ u t v, A = u ++ t :: v → t.token = .semicolon → parenDepth 0 u ≠ some 0

/-- Blanks and semicolons open and close no group. -/
theorem parenDepth_gap {w : List Located} (h : ∀ t ∈ w, Statement.isGap t = true) (n : Nat) :
    parenDepth n w = some n := by
  induction w with
  | nil => rfl
  | cons t w ih =>
      have ht := h t (by simp)
      have hrec := ih fun t ht => h t (by simp [ht])
      cases htok : t.token <;>
        simp [Statement.isGap, Located.isWhitespace, htok, Token.isWhitespace] at ht <;>
        simp [parenDepth, htok, hrec]

/-- Where groups are closed and semicolons stand in groups only, a series goes to the end. -/
theorem end_nil {A w : List Located} {clauses : List AlterClause} (hA : Balanced A)
    (hsemi : NoSemicolonOutside A) (hend : StatementEnd w)
    (hgap : ∀ t ∈ w, Statement.isGap t = true)
    (h : AlterClause.Series ctx (A.dropWhile Located.isWhitespace) clauses w) : w = [] := by
  obtain ⟨x, hx, -⟩ := h.split
  rcases hend with h | ⟨t, r, rfl, ht⟩
  · exact h
  · have hsplit : A = (A.takeWhile Located.isWhitespace ++ x) ++ t :: r := by
      rw [List.append_assoc, ← hx, List.takeWhile_append_dropWhile]
    have hdepth := hA
    rw [Balanced, hsplit, parenDepth_append] at hdepth
    -- the series is balanced, so the semicolon behind it would stand outside of all groups
    cases hu : parenDepth 0 (A.takeWhile Located.isWhitespace ++ x) with
    | none => simp [hu] at hdepth
    | some n =>
        rw [hu, Option.bind_some, parenDepth_gap hgap] at hdepth
        rw [hdepth] at hu
        exact absurd hu (hsemi _ t r hsplit ht)

/-- The head of a statement is words and blanks. -/
theorem Head.noEof {name : String} {P : List Located} (hP : Head name P) :
    Statement.NoEof P := by
  obtain ⟨a, b, n, hfilter, ha, hb, hn⟩ := hP
  intro t ht heof
  have hmem : t ∈ P.filter (fun t => !t.isWhitespace) :=
    List.mem_filter.mpr ⟨ht, by simp [Located.isWhitespace, heof, Token.isWhitespace]⟩
  rw [hfilter] at hmem
  simp only [List.mem_cons, List.not_mem_nil, or_false] at hmem
  rcases hmem with rfl | rfl | rfl
  · simp [heof, Token.keyword?] at ha
  · simp [heof, Token.keyword?] at hb
  · simp [heof] at hn

theorem Head.noEof_append {name : String} {P A : List Located} (hP : Head name P)
    (hA : Statement.NoEof A) : Statement.NoEof (P ++ A) := fun t ht =>
  (List.mem_append.mp ht).elim (hP.noEof t) (hA t)

/-- The pieces of a list of clauses: the first, and behind it commas and further pieces. -/
structure Pieces (ctx : Context) (name : String) (P C : List Located)
    (clauses : List AlterClause) (first : List Located) (rest : List (Located × List Located)) :
    Prop where
  tokens : C = first ++ rest.flatMap fun p => p.1 :: p.2
  commas : ∀ p ∈ rest, p.1.token = .comma
  alone  : List.Forall₂ (fun piece clause => Reads ctx name P piece [clause])
    (first :: rest.map Prod.snd) clauses

/-- Each piece of a series, with the blanks in front of it, is read as its clause. -/
theorem pieces_of_series {name : String} {P : List Located} (hP : Head name P) {depth : Nat}
    (hdepth : ctx.depth = depth + 1) {w w' : List Located} {clauses : List AlterClause}
    (h : AlterClause.Series { ctx with depth } w clauses w') (hend : StatementEnd w')
    (hgaps : ∀ t ∈ w', Statement.isGap t = true) {lead : List Located}
    (hlead : ∀ t ∈ lead, t.isWhitespace = true) (hw : Statement.NoEof (lead ++ w)) :
    ∃ first rest, Pieces ctx name P (lead ++ w) clauses first rest := by
  induction h generalizing lead with
  | @last used clause w hp _ =>
      have hseries : AlterClause.Series { ctx with depth } (used ++ w) [clause] w :=
        .last hp hend
      refine ⟨lead ++ (used ++ w), [], by simp, by simp, .cons ?_ .nil⟩
      refine (reads_iff hP (hP.noEof_append hw)).mpr ⟨depth, w, hdepth, hend, hgaps, ?_⟩
      rwa [hseries.dropGap hlead]
  | @more used clause comma gap w clauses w' hp _ hcomma hgap _ ih =>
      obtain ⟨first, rest, hpieces⟩ := ih hend hgaps hgap fun t ht => hw t (by
        rcases List.mem_append.mp ht with ht | ht <;> simp [ht])
      have hseries : AlterClause.Series { ctx with depth } (used ++ []) [clause] [] :=
        .last hp (.inl rfl)
      -- each piece alone is a series of one clause in front of the end of the text
      refine ⟨lead ++ used, (comma, first) :: rest, ?_, ?_, .cons ?_ hpieces.alone⟩
      · rw [hpieces.tokens]
        simp
      · rintro p hp
        rcases List.mem_cons.mp hp with rfl | hp
        · exact hcomma
        · exact hpieces.commas p hp
      · have hused : Statement.NoEof (lead ++ used) := fun t ht => hw t (by
          rcases List.mem_append.mp ht with ht | ht <;> simp [ht])
        refine (reads_iff hP (hP.noEof_append hused)).mpr
          ⟨depth, [], hdepth, .inl rfl, by simp, ?_⟩
        have := hseries.dropGap hlead
        rw [List.append_nil] at this hseries
        rwa [this]

/-- **Clause lists are compositional.**  Behind `ALTER TABLE` and a table, the clauses that
    two lists of tokens are read as, they are read as with a comma between them, if every
    group in the first is closed and has its semicolons inside.  Conversely, the tokens that
    are read as clauses split at commas into pieces that are read as one clause each. -/
theorem clauses_compositional (ctx : Context) {name : String} {P : List Located}
    (hP : Head name P) :
    (∀ A B comma as bs, Statement.NoEof A → Statement.NoEof B → Balanced A →
      NoSemicolonOutside A → comma.token = .comma → Reads ctx name P A as →
      Reads ctx name P B bs → Reads ctx name P (A ++ comma :: B) (as ++ bs)) ∧
    (∀ C clauses, Statement.NoEof C → Reads ctx name P C clauses →
      ∃ first rest, Pieces ctx name P C clauses first rest) := by
  constructor
  · intro A B comma as bs hA hB hbalanced hsemi hcomma ha hb
    obtain ⟨depth, w, hdepth, hend, hgaps, hseries⟩ := (reads_iff hP (hP.noEof_append hA)).mp ha
    obtain ⟨depth', w', hdepth', hend', hgaps', hseries'⟩ :=
      (reads_iff hP (hP.noEof_append hB)).mp hb
    obtain rfl : depth = depth' := by omega
    -- nothing is behind the first series: a semicolon there would stand outside of all groups
    obtain rfl := end_nil hbalanced hsemi hend hgaps hseries
    obtain ⟨k, hk⟩ := AlterClause.parenDepth_suffix (u := A.takeWhile Located.isWhitespace)
      (v := A.dropWhile Located.isWhitespace) (by rwa [List.takeWhile_append_dropWhile])
    have hblanks : ∀ t ∈ B.takeWhile Located.isWhitespace, t.isWhitespace = true :=
      fun t ht => List.mem_takeWhile_imp ht
    have happend := hseries.append rfl hk hcomma hblanks hseries'
    rw [List.takeWhile_append_dropWhile] at happend
    have hAB : Statement.NoEof (A ++ comma :: B) := by
      intro t ht
      rcases List.mem_append.mp ht with ht | ht
      · exact hA t ht
      · rcases List.mem_cons.mp ht with rfl | ht
        · simp [hcomma]
        · exact hB t ht
    refine (reads_iff hP (hP.noEof_append hAB)).mpr ⟨depth, w', hdepth, hend', hgaps', ?_⟩
    obtain ⟨t, u, hhead, -⟩ := hseries.head
    rw [List.dropWhile_append, if_neg (by simp [hhead])]
    exact happend
  · intro C clauses hC h
    -- blanks in front of the series belong to its first piece
    obtain ⟨depth, w, hdepth, hend, hgaps, hseries⟩ := (reads_iff hP (hP.noEof_append hC)).mp h
    have hsplit := List.takeWhile_append_dropWhile (p := Located.isWhitespace) (l := C)
    have hblanks : ∀ t ∈ C.takeWhile Located.isWhitespace, t.isWhitespace = true :=
      fun t ht => List.mem_takeWhile_imp ht
    obtain ⟨first, rest, hpieces⟩ :=
      pieces_of_series hP hdepth hseries hend hgaps hblanks (by rwa [hsplit])
    rw [hsplit] at hpieces
    exact ⟨first, rest, hpieces⟩

/-- A bare word and a space behind it. -/
def spaced (spelling : String) (keyword : Option Keyword) : List Located :=
  [⟨.word ⟨spelling, none, keyword⟩, .start⟩, ⟨.whitespace .space, .start⟩]

/-- A list of partitions has a comma of its own, and `FORCE` behind a comma starts a clause. -/
theorem drop_partitions_force : let ctx : Context := { dialect := .mysql }
    let P := spaced "ALTER" (some .alter) ++ spaced "TABLE" (some .table) ++ spaced "t" none
    let comma : Located := ⟨.comma, .start⟩
    let A := spaced "DROP" (some .drop) ++ spaced "PARTITION" (some .partition) ++
      spaced "p" none ++ comma :: spaced "q" none
    let B := spaced "FORCE" (some .force)
    let clauses := [.onPartitions .drop [⟨"p", none⟩, ⟨"q", none⟩], .force]
    Reads ctx "t" P (A ++ comma :: B) clauses ∧
      ∃ first rest, Pieces ctx "t" P (A ++ comma :: B) clauses first rest := by
  intro ctx P comma A B clauses
  have hP : Head "t" P := ⟨_, _, _, rfl, rfl, rfl, rfl⟩
  have hsemi : NoSemicolonOutside A := by
    intro u t v h ht
    have hall : ∀ t ∈ A, t.token ≠ .semicolon := by decide
    exact absurd ht (hall t (by simp [h]))
  have h : Reads ctx "t" P (A ++ comma :: B) clauses :=
    (clauses_compositional ctx hP).1 A B comma
      [.onPartitions .drop [⟨"p", none⟩, ⟨"q", none⟩]] [.force] (by decide) (by decide) rfl
      hsemi rfl
      ⟨{ table := ⟨[⟨"t", none⟩]⟩, clauses := [.onPartitions .drop [⟨"p", none⟩, ⟨"q", none⟩]] },
        by rfl, rfl, rfl⟩
      ⟨{ table := ⟨[⟨"t", none⟩]⟩, clauses := [.force] }, by rfl, rfl, rfl⟩
  exact ⟨h, (clauses_compositional ctx hP).2 _ _ (by decide) h⟩

end Alter

end SchemaSql
