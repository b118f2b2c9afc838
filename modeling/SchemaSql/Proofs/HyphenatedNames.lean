import SchemaSql.Proofs.HyphenatedNames.Tokens
import SchemaSql.Proofs.SingleStatements

/-! # Hyphenated names — which tables of BigQuery are read in full

    The reader of a table name puts together what the lexer has taken apart: it reads a word,
    and as long as a hyphen follows without a blank, the word or the digits behind that too.  A
    number that has taken a period is neither, and is an error.

    * `ObjectName.parseIn_more` and `ObjectName.parseIn_last` — a path is a part, or a part and a
      period and a path;
    * `Hyphenated.parseIn_tokens` and `Hyphenated.Broken.parseIn_ne_ok` are what the reader makes
      of the two kinds of tokens that a name can have;
    * `Query.parse_from` and `Query.parse_from_inv` lead from the name to the query and back, and
      `Statement.parseAll_hyphenated` from the text to both. -/

namespace SchemaSql

open Cursor SchemaSql.Parser Token

/-! ## Paths -/

namespace ObjectName

variable {ctx : Context} {inFrom : Bool} {name : ObjectName} {part : Ident} {c c1 c' : Cursor}

/-- Reads one more part of a path, if a period stands in front of it. -/
def parsePart? (inFrom : Bool) : Parser (Option Ident) := do
  if ← accept .period then some <$> Ident.parse inFrom else return none

theorem parsePart?_offers : Offers (Follow StatementEnd) (· ≠ none) (parsePart? inFrom) :=
  .item (.accept (by simp [EndMark])) (Ident.parse_local inFrom)

/-- A further part is read behind a period, with the same reader as the first. -/
theorem parsePart?_ok {o : Option Ident} : parsePart? inFrom ctx c = .ok o c' ↔
    (c.peek.token = .period ∧ ∃ part, Ident.parse inFrom ctx c.next.2 = .ok part c' ∧
      o = some part) ∨ (c.peek.token ≠ .period ∧ o = none ∧ c' = c) := by
  by_cases hperiod : c.peek.token = .period
  · have haccept : accept .period ctx c = .ok true c.next.2 := by rw [accept_run, if_pos hperiod]
    rw [parsePart?, bind_run haccept, if_pos rfl, map_ok]
    simp [hperiod, eq_comm]
  · have haccept : accept .period ctx c = .ok false c := by rw [accept_run, if_neg hperiod]
    rw [parsePart?, bind_run haccept, if_neg Bool.false_ne_true, pure_ok]
    simp [hperiod, eq_comm]

/-- A name is its first part and those that are gathered behind periods. -/
theorem parseIn_ok (h0 : c.overrun = 0) : parseIn inFrom ctx c = .ok name c' ↔
    ∃ first c1 rest, Ident.parse inFrom ctx c = .ok first c1 ∧
      Gathers (parsePart? inFrom) ctx c1 rest c' ∧ name = ⟨first :: rest⟩ := by
  have hlocal := Ident.parse_local (R := Follow StatementEnd) inFrom
  rw [parseIn, bind_ok]
  refine exists_congr fun first => exists_congr fun c1 => ?_
  constructor
  · rintro ⟨hfirst, h⟩
    obtain ⟨rest, c2, hrest, h⟩ := bind_ok.mp h
    obtain ⟨rfl, rfl⟩ := pure_ok.mp h
    have h1 := (hlocal ctx c _ _ h0 hfirst).1
    exact ⟨rest, hfirst, (many_ok parsePart?_offers h1).mp hrest, rfl⟩
  · rintro ⟨rest, hfirst, hrest, rfl⟩
    have h1 := (hlocal ctx c _ _ h0 hfirst).1
    exact ⟨hfirst, bind_ok.mpr ⟨rest, c', (many_ok parsePart?_offers h1).mpr hrest,
      pure_ok.mpr ⟨rfl, rfl⟩⟩⟩

/-- Without a period behind it, a part is a path by itself. -/
theorem parseIn_last (h0 : c.overrun = 0) (hpart : Ident.parse inFrom ctx c = .ok part c1)
    (hperiod : c1.peek.token ≠ .period) : parseIn inFrom ctx c = .ok ⟨[part]⟩ c1 := by
  have hnone : parsePart? inFrom ctx c1 = .ok none c1 :=
    parsePart?_ok.mpr (.inr ⟨hperiod, rfl, rfl⟩)
  exact (parseIn_ok h0).mpr ⟨part, c1, [], hpart, .nil hnone, rfl⟩

/-- Behind a part and a period, a path goes on as another one. -/
theorem parseIn_more (h0 : c.overrun = 0) (hpart : Ident.parse inFrom ctx c = .ok part c1)
    (hperiod : c1.peek.token = .period) : parseIn inFrom ctx c = .ok name c' ↔
      ∃ others, parseIn inFrom ctx c1.next.2 = .ok others c' ∧ name = ⟨part :: others.parts⟩ := by
  have h1 := (Ident.parse_local (R := Follow StatementEnd) inFrom ctx c _ _ h0 hpart).1
  -- a period is in front, so the text has not ended
  obtain ⟨t, w, hat⟩ : ∃ t w, c1.At (t :: w) := by
    have hne : c1.rest ≠ [] := by
      intro hnil
      rw [peek_eq, hnil] at hperiod
      exact nomatch hperiod
    obtain ⟨t, w, hw⟩ := List.exists_cons_of_ne_nil hne
    exact ⟨t, w, h1, hw⟩
  rw [parseIn_ok h0]
  constructor
  · rintro ⟨first, c2, rest, hfirst, hrest, rfl⟩
    obtain ⟨rfl, rfl⟩ := EStateM.Result.ok.inj (hpart.symm.trans hfirst)
    cases hrest with
    | nil hnone =>
        rcases parsePart?_ok.mp hnone with ⟨-, _, -, h⟩ | ⟨hno, -, -⟩
        · exact nomatch h
        · exact absurd hperiod hno
    -- the parts behind the period are themselves a name
    | @cons second rest _ c3 _ hsome hrest =>
        rcases parsePart?_ok.mp hsome with ⟨-, _, hsecond, ⟨⟩⟩ | ⟨hno, -, -⟩
        · exact ⟨⟨second :: rest⟩, (parseIn_ok hat.next.2.overrun).mpr
            ⟨second, c3, rest, hsecond, hrest, rfl⟩, rfl⟩
        · exact absurd hperiod hno
  · rintro ⟨_, hothers, rfl⟩
    obtain ⟨second, c3, rest, hsecond, hrest, rfl⟩ := (parseIn_ok hat.next.2.overrun).mp hothers
    have hsome : parsePart? inFrom ctx c1 = .ok (some second) c3 :=
      parsePart?_ok.mpr (.inl ⟨hperiod, second, hsecond, rfl⟩)
    exact ⟨part, c1, second :: rest, hpart, .cons hsome hrest, rfl⟩

end ObjectName

namespace Hyphenated

variable {ctx : Context} {T : List Token}

/-! ## Reading a name -/

/-- The reader of a part takes its segments, and then goes on where they end. -/
theorem iterates_hyphened (ctx : Context) {segments : List Segment} {c : Cursor}
    (h : c.unread.map Located.token = hyphened segments ++ T) :
    ∃ c1 : Cursor, c1.overrun = c.overrun ∧ c1.unread.map Located.token = T ∧
      ∀ name name' c', Iterates Ident.parseHyphenated ctx name c name' c' ↔
        Iterates Ident.parseHyphenated ctx (name ++ joined segments) c1 name' c' := by
  induction segments generalizing c with
  | nil => exact ⟨c, rfl, h, by simp⟩
  | cons s segments ih =>
      obtain ⟨m, _, hunread, hm, h⟩ := List.map_eq_cons_iff.mp h
      obtain ⟨l, w, rfl, hl, hw⟩ := List.map_eq_cons_iff.mp h
      -- a hyphen and a segment directly behind it are one step of the loop
      have hstep : ∀ name, Ident.parseHyphenated name ctx c =
          .ok (some (name ++ "-" ++ s.text)) ⟨l :: m :: c.read, w, c.overrun⟩ := by
        intro name
        refine Ident.parseHyphenated_ok.mpr (.inr ?_)
        exact ⟨m, l, w, s.text, hunread, hm, s.hyphenPart hl, rfl, rfl⟩
      obtain ⟨c1, h1, hc1, hrest⟩ := ih (c := ⟨l :: m :: c.read, w, c.overrun⟩) hw
      refine ⟨c1, h1, hc1, ?_⟩
      intro name name' c'
      rw [iterates_more_iff (hstep name), hrest]
      simp [String.append_assoc]

namespace Part

variable {p : Part} {c : Cursor}

/-- Where the tokens of a part stand, its first word is read, and then the loop over its hyphens
    decides. -/
theorem parse_run (hdialect : ctx.dialect = .bigquery) (h0 : c.overrun = 0)
    (h : c.rest.map Located.token = p.tokens ++ T) :
    ∃ c1 : Cursor, c1.overrun = 0 ∧ c1.unread.map Located.token = T ∧ ∀ part c',
      Ident.parse true ctx c = .ok part c' ↔
        ∃ name, Iterates Ident.parseHyphenated ctx p.text c1 name c' ∧
          part = { value := name } := by
  obtain ⟨l, w, hrest, hl, hw⟩ := List.map_eq_cons_iff.mp h
  have hat : c.At (l :: w) := ⟨h0, hrest⟩
  have hunread : c.next.2.unread.map Located.token = hyphened p.segments ++ T := by
    rw [next_of_rest_cons hrest]
    exact hw
  obtain ⟨c1, h1, hc1, hiter⟩ := iterates_hyphened ctx hunread
  refine ⟨c1, h1.trans hat.next.2.overrun, hc1, ?_⟩
  intro part c'
  -- the first segment is a word without quotes, so hyphens may follow it
  have hstart : Ident.hyphenStart true ctx.toSettings c.peek = some p.first := by
    rw [hat.peek]
    simp [Ident.hyphenStart, headOf, hl, hdialect, Word.of, Dialect.isVendor, Dialect.bigquery]
  rw [Ident.parse_eq, bind_run (next_run ctx c), bind_run (read_ok.mpr ⟨rfl, rfl⟩)]
  simp only [hstart]
  rw [bind_ok]
  simp only [iterate_ok Ident.parseHyphenated_shortens hat.next.2.overrun, hiter, pure_ok]
  constructor
  · rintro ⟨name, _, hname, rfl, rfl⟩
    exact ⟨name, hname, rfl⟩
  · rintro ⟨name, hname, rfl⟩
    exact ⟨name, c', hname, rfl, rfl⟩

/-- A part with no hyphen behind it is read. -/
theorem parse_ok (hdialect : ctx.dialect = .bigquery) (h0 : c.overrun = 0)
    (h : c.rest.map Located.token = p.tokens ++ T) (hT : T.head? ≠ some .minus) :
    ∃ c1 : Cursor, c1.overrun = 0 ∧ c1.unread.map Located.token = T ∧
      Ident.parse true ctx c = .ok p.ident c1 := by
  obtain ⟨c1, h1, rfl, hrun⟩ := parse_run hdialect h0 h
  have hno : Ident.NoHyphen c1.unread := by
    cases hunread : c1.unread with
    | nil => exact nofun
    | cons l w =>
        rw [hunread] at hT
        intro hminus
        exact hT (congrArg some hminus)
  have hdone : Ident.parseHyphenated p.text ctx c1 = .ok none c1 :=
    Ident.parseHyphenated_ok.mpr (.inl ⟨hno, rfl, rfl⟩)
  exact ⟨c1, h1, rfl, (hrun _ _).mpr ⟨p.text, .done hdone, rfl⟩⟩

/-- A hyphen with a number behind it that has taken a period is an error. -/
theorem parse_ne_ok (hdialect : ctx.dialect = .bigquery) (h0 : c.overrun = 0) {digits : String}
    {long : Bool} (h : c.rest.map Located.token = p.tokens ++ .minus :: .number digits long :: T)
    (hperiod : '.' ∈ digits.toList) (part : Ident) (c' : Cursor) :
    Ident.parse true ctx c ≠ .ok part c' := by
  obtain ⟨c1, -, hc1, hrun⟩ := parse_run hdialect h0 h
  obtain ⟨m, _, hunread, hm, h⟩ := List.map_eq_cons_iff.mp hc1
  obtain ⟨l, w, rfl, hl, -⟩ := List.map_eq_cons_iff.mp h
  -- such a number is no segment, and what follows a hyphen must be one
  have hnone : Ident.hyphenPart l = none := by
    cases long with
    | true => simp [Ident.hyphenPart, hl]
    | false =>
        simp only [Ident.hyphenPart, hl, ite_eq_right_iff, reduceCtorEq, imp_false]
        intro hall
        exact absurd (List.all_eq_true.mp hall '.' hperiod) (by decide)
  have hfails : ∀ o c', Ident.parseHyphenated p.text ctx c1 ≠ .ok o c' := by
    intro o c' hok
    rcases Ident.parseHyphenated_ok.mp hok with ⟨hno, -⟩ | ⟨_, l', _, part, hu, -, hpart, -⟩
    · rw [hunread] at hno
      exact hno hm
    · obtain ⟨rfl, -⟩ := List.cons.inj (List.cons.inj (hunread.symm.trans hu)).2
      rw [hnone] at hpart
      cases hpart
  rw [Ne, hrun]
  rintro ⟨name, hiter, -⟩
  cases hiter with
  | done hdone => exact hfails _ _ hdone
  | more hmore => exact hfails _ _ hmore

/-- A part starts with its first word, so no blank comes first. -/
theorem head_tokens (p : Part) : ∀ t ∈ (p.tokens ++ T).head?, t.isWhitespace = false := by
  rintro _ ⟨⟩
  rfl

end Part

theorem head_nameTokens (p : Part) (parts : List Part) :
    ∀ t ∈ (nameTokens (p :: parts)).head?, t.isWhitespace = false := by
  cases parts with
  | nil => simp [nameTokens, Part.tokens, Token.isWhitespace]
  | cons q parts =>
      rw [nameTokens_cons]
      exact p.head_tokens

/-- What a name is broken off at is no blank. -/
theorem Broken.head (hT : Broken T) : ∀ t ∈ T.head?, t.isWhitespace = false := by
  cases hT with
  | here p | later p => exact p.head_tokens

variable {c c' : Cursor}

theorem clean_of_head {w : List Located}
    (h : ∀ t ∈ (w.map Located.token).head?, t.isWhitespace = false) : Clean w := by
  intro t ht
  refine h t.token ?_
  rw [List.head?_map]
  exact Option.mem_map_of_mem _ ht

/-- Behind the period that follows a part, the next part is left. -/
theorem next_period (h0 : c.overrun = 0) (h : c.unread.map Located.token = .period :: T)
    (hT : ∀ t ∈ T.head?, t.isWhitespace = false) :
    c.peek.token = .period ∧ c.next.2.overrun = 0 ∧ c.next.2.rest.map Located.token = T := by
  obtain ⟨l, w, hunread, hl, rfl⟩ := List.map_eq_cons_iff.mp h
  have hblank : l.isWhitespace = false := by
    rw [Located.isWhitespace, hl]
    rfl
  have hat : c.At (l :: w) :=
    ⟨h0, by rw [rest, hunread, dropWhile_of_clean (clean_cons.mpr hblank)]⟩
  refine ⟨?_, hat.next.2.overrun, ?_⟩
  · rw [hat.peek]
    exact hl
  · rw [hat.next.2.rest, dropWhile_of_clean (clean_of_head hT)]

/-- A name whose tokens are those of its parts is read in full. -/
theorem parseIn_tokens (hdialect : ctx.dialect = .bigquery) {p : Part} {parts : List Part}
    (h0 : c.overrun = 0) (h : c.rest.map Located.token = nameTokens (p :: parts)) :
    ∃ c', ObjectName.parseIn true ctx c = .ok ⟨(p :: parts).map Part.ident⟩ c' ∧ c'.At [] := by
  induction parts generalizing p c with
  | nil =>
      have hlast : c.rest.map Located.token = p.tokens ++ [] := by simpa [nameTokens] using h
      obtain ⟨c1, h1, hc1, hpart⟩ := p.parse_ok hdialect h0 hlast (by simp)
      have hat : c1.At [] := by
        refine ⟨h1, ?_⟩
        rw [rest, List.map_eq_nil_iff.mp hc1]
        rfl
      refine ⟨c1, ObjectName.parseIn_last h0 hpart ?_, hat⟩
      rw [hat.peek]
      simp [headOf, Located.eof]
  | cons q parts ih =>
      rw [nameTokens_cons] at h
      obtain ⟨c1, h1, hc1, hpart⟩ := p.parse_ok hdialect h0 h (by simp)
      obtain ⟨hperiod, hnext, hrest⟩ := next_period h1 hc1 (head_nameTokens q parts)
      obtain ⟨c', hname, hat⟩ := ih hnext hrest
      exact ⟨c', (ObjectName.parseIn_more h0 hpart hperiod).mpr ⟨_, hname, rfl⟩, hat⟩

/-- A name in which a number has taken a period is not read. -/
theorem Broken.parseIn_ne_ok (hdialect : ctx.dialect = .bigquery) (hT : Broken T)
    (h0 : c.overrun = 0) (h : c.rest.map Located.token = T) (name : ObjectName) (c' : Cursor) :
    ObjectName.parseIn true ctx c ≠ .ok name c' := by
  induction hT generalizing c name with
  | here p hperiod =>
      intro hname
      obtain ⟨first, c1, rest, hfirst, -⟩ := (ObjectName.parseIn_ok h0).mp hname
      exact p.parse_ne_ok hdialect h0 h hperiod first c1 hfirst
  | later p hT ih =>
      intro hname
      obtain ⟨c1, h1, hc1, hfirst⟩ := p.parse_ok hdialect h0 h (by simp)
      obtain ⟨hperiod, hnext, hrest⟩ := next_period h1 hc1 hT.head
      obtain ⟨others, hothers, -⟩ := (ObjectName.parseIn_more h0 hfirst hperiod).mp hname
      exact ih hnext hrest others hothers

end Hyphenated

/-! ## Queries that start with a table -/

section Queries

variable {ctx : Context} {c c' : Cursor} {l : Located} {w : List Located}

/-- Nothing is an alias at the end of a text. -/
theorem Ident.parseAlias_nil (reserved : List Keyword) (hc : c.At []) :
    ∃ c', parseAlias reserved ctx c = .ok none c' ∧ c'.At [] := by
  have hpeek : c.peek = .eof := hc.peek
  have has : acceptKeyword .as ctx c = .ok false c := by
    rw [acceptKeyword, acceptWord_run, hpeek]
    rfl
  refine ⟨c.next.2.back, ?_, hc.next_back⟩
  rw [parseAlias_eq, bind_run has, bind_run (next_run ctx c), hpeek]
  rfl

namespace Query

/-- At the end of the text there are no pipes. -/
theorem parsePipes_nil (hc : c.At []) : parsePipes ctx c = .ok [] c := by
  rw [parsePipes, bind_run (read_ok.mpr ⟨rfl, rfl⟩)]
  split
  · rfl
  · have hoffers : Offers (Follow StatementEnd) (· ≠ none) (do
        if ← accept .pipeArrow then some <$> PipeOperator.parse else return none) :=
      .item (.accept (by simp [EndMark])) PipeOperator.parse_local
    have haccept : accept .pipeArrow ctx c = .ok false c := by
      rw [accept_run, hc.peek, if_neg (by simp [headOf, Located.eof])]
    refine (many_nil_ok hoffers hc.overrun).mpr ?_
    rw [bind_run haccept]
    rfl

/-- A query that starts with `FROM` is the table behind it. -/
theorem parseBody_from (hc : c.At (l :: w)) (hl : l.token = .ofKeyword .from) :
    parseBody ctx c = (QueryBody.from <$> TableRef.parse) ctx c.next.2 := by
  have hkeyword : c.peek.token.keyword? = some .from := by
    rw [hc.peek]
    show l.token.keyword? = _
    rw [hl]
    exact Expr.keyword?_ofKeyword _
  have hselect : acceptKeyword .select ctx c = .ok false c := by
    rw [acceptKeyword, acceptWord_run, if_neg]
    rw [Denotes.hasKeyword_iff, hkeyword]
    simp
  have hfrom : expectKeyword .from ctx c = .ok c.peek c.next.2 := by
    rw [expectKeyword, expectWord_run, if_pos (Denotes.hasKeyword_iff.mpr hkeyword)]
  rw [parseBody, bind_run hselect, if_neg Bool.false_ne_true, bind_run hfrom]
  rfl

/-- A name up to the end of the text is all of a query. -/
theorem parse_from {name : ObjectName} {depth : Nat} (hdepth : ctx.depth = depth + 1)
    (hc : c.At (l :: w)) (hl : l.token = .ofKeyword .from)
    (hname : ObjectName.parseIn true { ctx with depth } c.next.2 = .ok name c')
    (hc' : c'.At []) : ∃ c1, parse ctx c = .ok { body := .from { name } } c1 ∧ c1.At [] := by
  obtain ⟨c1, halias, hc1⟩ : ∃ c1,
      Ident.parseAlias Keyword.reservedForTableAlias { ctx with depth } c' = .ok none c1 ∧
        c1.At [] := Ident.parseAlias_nil _ hc'
  have hbody : parseBody { ctx with depth } c = .ok (.from { name }) c1 := by
    rw [parseBody_from hc hl, map_ok]
    exact ⟨{ name }, bind_ok.mpr ⟨name, c', hname, bind_ok.mpr ⟨none, c1, halias, rfl⟩⟩, rfl⟩
  refine ⟨c1, descend_ok.mpr ⟨depth, hdepth, ?_⟩, hc1⟩
  exact bind_ok.mpr ⟨_, c1, hbody, bind_ok.mpr ⟨[], c1, parsePipes_nil hc1, rfl⟩⟩

/-- No query starts with a table whose name is not read. -/
theorem parse_from_inv {q : Query} (hc : c.At (l :: w)) (hl : l.token = .ofKeyword .from)
    (h : parse ctx c = .ok q c') :
    ∃ depth name c1, ObjectName.parseIn true { ctx with depth } c.next.2 = .ok name c1 := by
  obtain ⟨depth, -, h⟩ := descend_ok.mp h
  obtain ⟨body, c1, hbody, -⟩ := bind_ok.mp h
  rw [parseBody_from hc hl, map_ok] at hbody
  obtain ⟨table, htable, -⟩ := hbody
  obtain ⟨name, c2, hname, -⟩ := bind_ok.mp htable
  exact ⟨depth, name, c2, hname⟩

end Query

end Queries

namespace Hyphenated

variable {u : Bool} {cs : List Char} {T : List Token}

/-- The first word of such a query, and the blank behind it. -/
theorem lexes_from : Lexes .bigquery u ("FROM ".toList ++ cs) T ↔
    ∃ T', T = .ofKeyword .from :: .space :: T' ∧ Lexes .bigquery u cs T' := by
  have := Dialect.bigquery_regular
  obtain ⟨hspelled, hstop⟩ := spelled_keyword (d := .bigquery) (u := u) .from
  have htext : "FROM ".toList ++ cs =
      (Token.ofKeyword .from).text.toList ++ (Token.space.text.toList ++ cs) := rfl
  rw [htext, hspelled.lexes_iff]
  · simp only [Spelled.space.lexes_iff fun _ _ => trivial]
    constructor
    · rintro ⟨_, rfl, T', rfl, hT'⟩
      exact ⟨T', rfl, hT'⟩
    · rintro ⟨T', rfl, hT'⟩
      exact ⟨_, rfl, T', rfl, hT'⟩
  · intro x hx
    obtain rfl : x = ' ' := by simpa using hx.symm
    exact hstop

/-- Located tokens that start with that word and that blank. -/
theorem exists_from {L : List Located}
    (hL : L.map Located.token = .ofKeyword .from :: .space :: T)
    (hT : ∀ t ∈ T.head?, t.isWhitespace = false) :
    ∃ l w, L = l :: w ∧ l.token = .ofKeyword .from ∧ Statement.isGap l = false ∧
      (Cursor.ofTokens (l :: w)).At (l :: w) ∧
      ∀ c : Cursor, c.At (l :: w) → c.next.2.rest.map Located.token = T := by
  obtain ⟨l, _, rfl, hl, h⟩ := List.map_eq_cons_iff.mp hL
  obtain ⟨b, w, rfl, hb, rfl⟩ := List.map_eq_cons_iff.mp h
  have hgap : Statement.isGap l = false := by
    rw [Statement.isGap, Located.isWhitespace, hl]
    rfl
  have hblank : b.isWhitespace = true := by
    rw [Located.isWhitespace, hb]
    rfl
  have hsolid : l.isWhitespace = false := (Bool.or_eq_false_iff.mp hgap).1
  have hat : (Cursor.ofTokens (l :: b :: w)).At (l :: b :: w) :=
    ⟨rfl, dropWhile_of_clean (clean_cons.mpr hsolid)⟩
  refine ⟨l, b :: w, rfl, hl, hgap, hat, ?_⟩
  intro c hc
  rw [hc.next.2.rest, List.dropWhile_cons_of_pos hblank, dropWhile_of_clean (clean_of_head hT)]

end Hyphenated

namespace Statement

open Hyphenated

/-- **Hyphenated names are read in full unless digits end a part that is not the last.**  In
    BigQuery, a name behind `FROM` whose parts are bare words with hyphens and further words or
    digits behind them is the table of the query, part by part and without an alias, exactly if
    no number of the text takes a period that stands between two parts. -/
theorem parseAll_hyphenated {ctx : Context} (hdialect : ctx.dialect = .bigquery)
    (hdepth : 2 ≤ ctx.depth) {parts : List Part} (hparts : parts ≠ []) :
    parseAll.runText ctx ("FROM " ++ nameText parts) =
        .ok [.query { body := .from { name := ⟨parts.map Part.ident⟩ } }] ↔
      ∀ p ∈ parts.dropLast, p.endsInDigits = false := by
  obtain ⟨p, parts, rfl⟩ := List.exists_cons_of_ne_nil hparts
  constructor
  · intro hrun
    by_contra hdigits
    obtain ⟨L, hL, hrun⟩ := runText_ok.mp hrun
    have hlexes : Lexes .bigquery ctx.options.unescape
        ("FROM ".toList ++ (nameText (p :: parts)).toList) (L.map Located.token) := by
      rw [← String.toList_append]
      exact .of_lexFrom (hdialect ▸ hL)
    obtain ⟨T, hT, hname⟩ := lexes_from.mp hlexes
    have hbroken : Broken T := broken_of_lexes (by simpa using hdigits) hname
    -- with such tokens the statement would be a query whose table has no name
    obtain ⟨l, w, rfl, hl, hgap, hat, hrest⟩ := exists_from hT hbroken.head
    obtain ⟨c', hstatement, -⟩ := run_of_head (noEof_of_lex hL) hgap hrun hat
    obtain ⟨depth, -, -, hquery⟩ := parseWith_query.mp hstatement
    -- the query is read at its first word, which was looked at and put back
    have hback : (Cursor.ofTokens (l :: w)).next.2.back.At (l :: w) := hat.next_back
    obtain ⟨depth', name, c1, hname⟩ := Query.parse_from_inv hback hl hquery
    have hdialect' : ({ ctx with depth := depth' } : Context).dialect = .bigquery := hdialect
    exact hbroken.parseIn_ne_ok hdialect' hback.next.2.overrun (hrest _ hback) name c1 hname
  · intro hwords
    have hlexes : Lexes .bigquery ctx.options.unescape ("FROM " ++ nameText (p :: parts)).toList
        (.ofKeyword .from :: .space :: nameTokens (p :: parts)) := by
      rw [String.toList_append]
      exact lexes_from.mpr ⟨_, rfl, lexes_nameTokens hwords⟩
    obtain ⟨L, hL, htokens⟩ := hlexes .start
    rw [← hdialect] at hL
    obtain ⟨l, w, rfl, hl, hgap, hat, hrest⟩ := exists_from htokens (head_nameTokens p parts)
    obtain ⟨depth, hdepth⟩ : ∃ depth, ctx.depth = depth + 1 + 1 := ⟨ctx.depth - 2, by omega⟩
    have hback : (Cursor.ofTokens (l :: w)).next.2.back.At (l :: w) := hat.next_back
    have hdialect' : ({ ctx with depth } : Context).dialect = .bigquery := hdialect
    obtain ⟨c', hname, hc'⟩ := parseIn_tokens hdialect' hback.next.2.overrun (hrest _ hback)
    obtain ⟨c1, hquery, hc1⟩ : ∃ c1, Query.parse { ctx with depth := depth + 1 } _ = .ok _ c1 ∧
      c1.At [] := Query.parse_from rfl hback hl hname hc'
    have hkeyword : (Cursor.ofTokens (l :: w)).peek.token.keyword? = some .from := by
      rw [hat.peek]
      show l.token.keyword? = _
      rw [hl]
      exact Expr.keyword?_ofKeyword _
    have hstatement := parseWith_query.mpr ⟨depth + 1, hdepth, .inr hkeyword, hquery⟩
    refine runText_ok.mpr ⟨_, hL, runTokens_of_run (noEof_of_lex hL) hgap hstatement ?_⟩
    rw [hc1.rest]
    exact nofun

/-- A project with digits in its name, and digits at the end of the last part. -/
theorem parseAll_hyphenated_dataset :
    ∃ parts : List Part, nameText parts = "my-project-1-a.dataset.sales-2024" ∧
      (∀ p ∈ parts.dropLast, p.endsInDigits = false) ∧
      parseAll.runText { dialect := .bigquery } "FROM my-project-1-a.dataset.sales-2024" =
        .ok [.query { body := .from { name := ⟨[{ value := "my-project-1-a" },
          { value := "dataset" }, { value := "sales-2024" }]⟩ } }] := by
  have := Dialect.bigquery_regular
  have hbare : ∀ v ∈ ["my", "project", "a", "dataset", "sales"], Dialect.bigquery.IsBareWord v := by
    have hletters : ∀ v ∈ ["my", "project", "a", "dataset", "sales"],
        v.toList.head?.any Char.isAlpha = true ∧
          (v.toList.tail.all fun x => x.isAlpha || x == '_') = true := by decide
    intro v hv
    exact .of_letters (hletters v hv).1 (hletters v hv).2
  let one : Segment := .digits '1' [] (List.all_eq_true.mp (by decide))
  let year : Segment := .digits '2' ['0', '2', '4'] (List.all_eq_true.mp (by decide))
  let parts : List Part :=
    [⟨"my", [.word "project" (hbare _ (by simp)), one, .word "a" (hbare _ (by simp))],
        hbare _ (by simp)⟩,
      ⟨"dataset", [], hbare _ (by simp)⟩, ⟨"sales", [year], hbare _ (by simp)⟩]
  have hdigits : ∀ p ∈ parts.dropLast, p.endsInDigits = false := by
    simp [parts, Part.endsInDigits, Segment.isDigits]
  have hread : parseAll.runText { dialect := .bigquery } ("FROM " ++ nameText parts) = _ :=
    (parseAll_hyphenated rfl (by decide) (by simp [parts])).mpr hdigits
  exact ⟨parts, rfl, hdigits, hread⟩

/-- Digits in front of a period take it, and are no part of a name then. -/
theorem parseAll_hyphenated_period :
    (∃ parts : List Part, nameText parts = "a-1.b") ∧
      parseAll.runText { dialect := .bigquery } "FROM a-1.b" =
        .error (.expected "continuation of hyphenated identifier"
          ⟨.number "1." false, ⟨1, 8⟩⟩) := by
  have := Dialect.bigquery_regular
  have ha : Dialect.bigquery.IsBareWord "a" := .of_letters (by decide) (by decide)
  have hb : Dialect.bigquery.IsBareWord "b" := .of_letters (by decide) (by decide)
  have hdigits : ∀ x ∈ ['1'], x.isDigit = true := List.all_eq_true.mp (by decide)
  exact ⟨⟨[⟨"a", [.digits '1' [] hdigits], ha⟩, ⟨"b", [], hb⟩], rfl⟩, by decide +kernel⟩

end Statement

end SchemaSql
