import SchemaSql.Proofs.Denotation
import SchemaSql.Proofs.Lookahead

/-! # Stretches — what readers do with the tokens that are ahead

    A reader sees the tokens that are ahead and nothing else of the place where it stands, so a
    run can be told by the tokens that are ahead at its start and at its end.  Unlike the facts
    about successful runs, this tells of errors as well, and it keeps where each token stood.

    * `Yields ctx p w v w'` — with `w` ahead the reader gives `v`, and then `w'` is ahead;
      `Breaks ctx p w e` — with `w` ahead it fails with `e`;
    * `Chain` are steps of a loop that all take tokens, and `Yields.iterate` and
      `Breaks.iterate` are the two ways in which the loop ends behind them;
    * `Total` readers give a value wherever they are used. -/

namespace SchemaSql

open Cursor

namespace Cursor

variable {c : Cursor} {t : Located} {w : List Located}

/-- The first of the tokens ahead is looked at, or the end. -/
theorem peek_of_ahead (h : c.ahead = w) : c.peek = w.headD .eof := by
  rw [← next_fst, next_fst_eq, h]

/-- Behind the first token those behind it are ahead. -/
theorem next_of_ahead (h : c.ahead = t :: w) : c.next.2.ahead = w := by
  rw [ahead_next, h, List.tail_cons]

/-- As many tokens as there are in a stretch are read, and then what stands behind it is ahead. -/
theorem reads_of_ahead {found : List Located} (h : c.ahead = found ++ w) :
    c.reads found.length = (found, (c.reads found.length).2) ∧
      (c.reads found.length).2.ahead = w := by
  induction found generalizing c with
  | nil => exact ⟨rfl, h⟩
  | cons t found ih =>
      have hfst : c.next.1 = t := by rw [next_fst, peek_of_ahead h]; rfl
      obtain ⟨hreads, hplace⟩ := ih (next_of_ahead h)
      refine ⟨Prod.ext ?_ rfl, hplace⟩
      show c.next.1 :: (c.next.2.reads found.length).1 = t :: found
      rw [hfst, hreads]

/-- There are no more tokens ahead than tokens that were not read. -/
theorem ahead_length_le (c : Cursor) : c.ahead.length ≤ c.unread.length :=
  List.length_filter_le ..

end Cursor

namespace Parser

variable {α β : Type} {ctx : Context} {w w1 w' : List Located}

/-! ## Single runs -/

/-- With `w` ahead the reader gives `v`, and then `w'` is ahead. -/
def Yields (ctx : Context) (p : Parser α) (w : List Located) (v : α) (w' : List Located) : Prop :=
  ∀ c : Cursor, c.ahead = w → ∃ d, p ctx c = .ok v d ∧ d.ahead = w'

/-- With `w` ahead the reader fails with this error. -/
def Breaks (ctx : Context) (p : Parser α) (w : List Located) (e : ParseError) : Prop :=
  ∀ c : Cursor, c.ahead = w → ∃ d, p ctx c = .error e d

/-- The tokens are words with these keywords. -/
def Spell (ks : List Keyword) (found : List Located) : Prop :=
  List.Forall₂ (fun k t => t.token.keyword? = some k) ks found

theorem spell_one {k : Keyword} {found : List Located} :
    Spell [k] found ↔ ∃ t, found = [t] ∧ t.token.keyword? = some k := by
  constructor
  · rintro (_ | ⟨hkey, _ | _⟩)
    exact ⟨_, rfl, hkey⟩
  · rintro ⟨t, rfl, hkey⟩
    exact .cons hkey .nil

/-- Two keywords are spelled by two words. -/
theorem spell_two {k k' : Keyword} {found : List Located} : Spell [k, k'] found ↔
    ∃ t t', found = [t, t'] ∧ t.token.keyword? = some k ∧ t'.token.keyword? = some k' := by
  constructor
  · rintro (_ | ⟨hkey, _ | ⟨hkey', _ | _⟩⟩)
    exact ⟨_, _, rfl, hkey, hkey'⟩
  · rintro ⟨t, t', rfl, hkey, hkey'⟩
    exact .cons hkey (.cons hkey' .nil)

namespace Yields

theorem pure (v : α) : Yields ctx (Pure.pure v) w v w := fun c hc => ⟨c, rfl, hc⟩

/-- The second reader starts with the tokens ahead that the first has left. -/
theorem bind {p : Parser α} {f : α → Parser β} {a : α} {v : β} (hp : Yields ctx p w a w1)
    (hf : Yields ctx (f a) w1 v w') : Yields ctx (p >>= f) w v w' := by
  intro c hc
  obtain ⟨c1, hrun, hc1⟩ := hp c hc
  obtain ⟨d, hd, hahead⟩ := hf c1 hc1
  exact ⟨d, (bind_run hrun f).trans hd, hahead⟩

theorem map {p : Parser α} {a : α} (g : α → β) (h : Yields ctx p w a w') :
    Yields ctx (g <$> p) w (g a) w' := by
  intro c hc
  obtain ⟨d, hrun, hd⟩ := h c hc
  exact ⟨d, map_ok.mpr ⟨a, hrun, rfl⟩, hd⟩

/-- A test that is passed, and what is read then. -/
theorem taken {t : Parser Bool} {p q : Parser α} {v : α} (ht : Yields ctx t w true w1)
    (hp : Yields ctx p w1 v w') : Yields ctx (t >>= fun b => if b then p else q) w v w' :=
  ht.bind hp

/-- A test that is not passed, and what is read instead. -/
theorem passed {t : Parser Bool} {p q : Parser α} {v : α} (ht : Yields ctx t w false w1)
    (hq : Yields ctx q w1 v w') : Yields ctx (t >>= fun b => if b then p else q) w v w' :=
  ht.bind hq

/-! ### Words -/

/-- What a test for a word finds is decided by the first token. -/
theorem acceptWord? (keyword : Option Keyword) (t : Located) (w : List Located)
    (h : hasKeyword keyword t = true) :
    Yields ctx (Parser.acceptWord? keyword) (t :: w) (some t) w := by
  intro c hc
  have hpeek : c.peek = t := peek_of_ahead hc
  refine ⟨c.next.2, ?_, next_of_ahead hc⟩
  rw [acceptWord?_run, hpeek, if_pos h]

/-- Another word than the one asked for stays ahead. -/
theorem acceptWord?_none (keyword : Option Keyword)
    (h : ¬ hasKeyword keyword (w.headD .eof) = true) :
    Yields ctx (Parser.acceptWord? keyword) w none w := by
  intro c hc
  refine ⟨c, ?_, hc⟩
  rw [acceptWord?_run, peek_of_ahead hc, if_neg h]

theorem acceptKeyword {k : Keyword} {t : Located} (h : t.token.keyword? = some k) :
    Yields ctx (Parser.acceptKeyword k) (t :: w) true w :=
  (acceptWord? (some k) t w (Denotes.hasKeyword_iff.mpr h)).map Option.isSome

theorem acceptKeyword_none {k : Keyword} (h : (w.headD .eof).token.keyword? ≠ some k) :
    Yields ctx (Parser.acceptKeyword k) w false w :=
  (acceptWord?_none (some k) (mt Denotes.hasKeyword_iff.mp h)).map Option.isSome

theorem expectKeyword {k : Keyword} {t : Located} (h : t.token.keyword? = some k) :
    Yields ctx (Parser.expectKeyword k) (t :: w) t w :=
  (acceptWord? (some k) t w (Denotes.hasKeyword_iff.mpr h)).bind (pure t)

/-- A keyword is accepted if it is one of those asked for, wherever it stands among them. -/
theorem acceptOneOf {ks : List Keyword} {k : Keyword} {t : Located} (hk : k ∈ ks)
    (h : t.token.keyword? = some k) :
    Yields ctx (Parser.acceptOneOf ks) (t :: w) (some k) w := by
  intro c hc
  have hpeek : c.peek = t := peek_of_ahead hc
  refine ⟨c.next.2, ?_, next_of_ahead hc⟩
  rw [acceptOneOf_run, hpeek, Denotes.keywordOf_join.mpr ⟨h, hk⟩]

/-- None of the keywords is ahead, and the token that is stays there. -/
theorem acceptOneOf_none {ks : List Keyword}
    (h : ∀ k ∈ ks, (w.headD .eof).token.keyword? ≠ some k) :
    Yields ctx (Parser.acceptOneOf ks) w none w := by
  intro c hc
  refine ⟨c, ?_, hc⟩
  rw [acceptOneOf_run, peek_of_ahead hc]
  cases hjoin : (keywordOf (ks.map some) (w.headD .eof)).join with
  | none => rfl
  | some k =>
      obtain ⟨hkey, hk⟩ := Denotes.keywordOf_join.mp hjoin
      exact absurd hkey (h k hk)

theorem expectOneOf {ks : List Keyword} {k : Keyword} {t : Located} (hk : k ∈ ks)
    (h : t.token.keyword? = some k) : Yields ctx (Parser.expectOneOf ks) (t :: w) k w :=
  (acceptOneOf hk h).bind (pure k)

/-- A word is accepted by its spelling, whether or not it is a keyword. -/
theorem acceptSpelling {spelling : String} {t : Located} (h : spelled spelling t = true) :
    Yields ctx (Parser.acceptSpelling spelling) (t :: w) true w := by
  intro c hc
  have hpeek : c.peek = t := peek_of_ahead hc
  refine ⟨c.next.2, ?_, next_of_ahead hc⟩
  rw [acceptSpelling_run, hpeek, if_pos h]

theorem acceptSpelling_none {spelling : String} (h : ¬ spelled spelling (w.headD .eof) = true) :
    Yields ctx (Parser.acceptSpelling spelling) w false w := by
  intro c hc
  refine ⟨c, ?_, hc⟩
  rw [acceptSpelling_run, peek_of_ahead hc, if_neg h]

theorem next {t : Located} : Yields ctx Parser.next (t :: w) t w := by
  intro c hc
  have hpeek : c.peek = t := peek_of_ahead hc
  exact ⟨c.next.2, (next_run ctx c).trans (by rw [hpeek]), next_of_ahead hc⟩

/-! ### Signs -/

/-- Looking ahead takes nothing. -/
theorem peek : Yields ctx Parser.peek w (w.headD .eof) w :=
  fun c hc => ⟨c, peek_ok.mpr ⟨peek_of_ahead hc, rfl⟩, hc⟩

theorem accept {token : Token} {t : Located} (h : t.token = token) :
    Yields ctx (Parser.accept token) (t :: w) true w := by
  intro c hc
  have hpeek : c.peek = t := peek_of_ahead hc
  refine ⟨c.next.2, ?_, next_of_ahead hc⟩
  rw [accept_run, hpeek, if_pos h]

theorem accept_none {token : Token} (h : (w.headD .eof).token ≠ token) :
    Yields ctx (Parser.accept token) w false w := by
  intro c hc
  refine ⟨c, ?_, hc⟩
  rw [accept_run, peek_of_ahead hc, if_neg h]

theorem expect {token : Token} {t : Located} (h : t.token = token) :
    Yields ctx (Parser.expect token) (t :: w) t w := by
  intro c hc
  have hpeek : c.peek = t := peek_of_ahead hc
  refine ⟨c.next.2, ?_, next_of_ahead hc⟩
  rw [expect_run, hpeek, if_pos h]

/-! ### Several words -/

/-- Keywords are spelled by words that have them and nothing else. -/
theorem words_iff {ks : List Keyword} {found : List Located} :
    Words (ks.map some) found ↔ Spell ks found := by
  rw [passed_words, Passed, List.forall₂_map_left_iff]
  simp only [Denotes.hasKeyword_iff]
  rfl

/-- All the words are read where all of them are spelled. -/
theorem acceptKeywords {ks : List Keyword} {found : List Located} (h : Spell ks found) :
    Yields ctx (Parser.acceptKeywords ks) (found ++ w) true w := by
  intro c hc
  obtain ⟨hreads, hplace⟩ := reads_of_ahead hc
  have hlength : (ks.map some).length = found.length := by rw [List.length_map, h.length_eq]
  refine ⟨(c.reads found.length).2, ?_, hplace⟩
  rw [← hlength]
  refine (acceptWords_allOrNothing (ks.map some)).all ctx c ?_
  rw [hlength, hreads]
  exact words_iff.mpr h

/-- One word that is not there is enough. -/
theorem acceptKeywords_none {ks : List Keyword} (i : Fin ks.length)
    (h : (w.getD i .eof).token.keyword? ≠ some ks[i]) :
    Yields ctx (Parser.acceptKeywords ks) w false w := by
  intro c hc
  refine ⟨c, (acceptWords_allOrNothing (ks.map some)).nothing ctx c fun hwords => h ?_, hc⟩
  have hspell := words_iff.mp hwords
  rw [List.length_map, (reads_eq _ c).1, hc] at hspell
  have hget := (List.forall₂_iff_get.mp hspell).2 i i.isLt (by simp)
  simpa using hget

end Yields

namespace Breaks

/-- Nothing is read behind an error. -/
theorem bind {p : Parser α} {e : ParseError} (f : α → Parser β) (h : Breaks ctx p w e) :
    Breaks ctx (p >>= f) w e := by
  intro c hc
  obtain ⟨d, hrun⟩ := h c hc
  refine ⟨d, ?_⟩
  simp only [Parser.bind_apply, hrun]

/-- The error of the second reader is that of both. -/
theorem behind {p : Parser α} {f : α → Parser β} {a : α} {e : ParseError}
    (hp : Yields ctx p w a w1) (hf : Breaks ctx (f a) w1 e) : Breaks ctx (p >>= f) w e := by
  intro c hc
  obtain ⟨c1, hrun, hc1⟩ := hp c hc
  obtain ⟨d, hd⟩ := hf c1 hc1
  exact ⟨d, (bind_run hrun f).trans hd⟩

end Breaks

/-! ## Loops -/

/-- Steps of a loop, from one state and the tokens ahead to another; each of them takes a
    token. -/
inductive Chain (ctx : Context) (step : β → Parser (Option β)) :
    β → List Located → β → List Located → Prop where
  | nil {s w} : Chain ctx step s w s w
  | cons {s s1 s' w w1 w'} (first : Yields ctx (step s) w (some s1) w1)
      (shorter : w1.length < w.length) (rest : Chain ctx step s1 w1 s' w') :
      Chain ctx step s w s' w'

variable {step : β → Parser (Option β)} {s s' : β}

/-- A step that takes some tokens, in front of a chain. -/
theorem Chain.append {s1 : β} {found : List Located} (hne : found ≠ [])
    (first : Yields ctx (step s) (found ++ w1) (some s1) w1) (rest : Chain ctx step s1 w1 s' w') :
    Chain ctx step s (found ++ w1) s' w' := by
  refine .cons first ?_ rest
  have hpos := List.length_pos_iff.mpr hne
  rw [List.length_append]
  omega

/-- Behind the steps of a chain the loop goes on, and there is enough left of its bound. -/
theorem Chain.iterateUpTo (h : Chain ctx step s w s' w') (n : Nat) {c : Cursor}
    (hc : c.ahead = w) (hn : w.length < n) : ∃ m d, w'.length < m ∧ d.ahead = w' ∧
      Parser.iterateUpTo step n s ctx c = Parser.iterateUpTo step m s' ctx d := by
  induction h generalizing n c with
  | nil => exact ⟨n, c, hn, hc, rfl⟩
  | cons first shorter _ ih =>
      cases n with
      | zero => exact absurd hn (Nat.not_lt_zero _)
      | succ n =>
          -- one is taken off the bound and at least one off the tokens
          obtain ⟨c1, hrun, hc1⟩ := first c hc
          obtain ⟨m, d, hm, hd, hrest⟩ := ih n hc1 (by omega)
          refine ⟨m, d, hm, hd, ?_⟩
          rw [Parser.iterateUpTo, bind_run hrun]
          exact hrest

/-- The loop follows a chain of steps, and its bound still leaves a round behind them. -/
theorem Chain.iterate (h : Chain ctx step s w s' w') {c : Cursor} (hc : c.ahead = w) :
    ∃ m d, d.ahead = w' ∧
      Parser.iterate step s ctx c = Parser.iterateUpTo step (m + 1) s' ctx d := by
  have hbound : w.length < c.unread.length + 1 := by
    rw [← hc]
    exact Nat.lt_succ_of_le c.ahead_length_le
  obtain ⟨m, d, hm, hd, hrun⟩ := h.iterateUpTo _ hc hbound
  obtain ⟨m, rfl⟩ := Nat.exists_eq_succ_of_ne_zero (Nat.ne_zero_of_lt hm)
  exact ⟨m, d, hd, hrun⟩

/-- The loop ends where its step gives nothing. -/
theorem Yields.iterate {w2 : List Located} (h : Chain ctx step s w s' w1)
    (hend : Yields ctx (step s') w1 none w2) : Yields ctx (iterate step s) w s' w2 := by
  intro c hc
  obtain ⟨m, c1, hc1, hrun⟩ := h.iterate hc
  obtain ⟨d, hd, hahead⟩ := hend c1 hc1
  refine ⟨d, ?_, hahead⟩
  rw [hrun, iterateUpTo, bind_run hd]
  rfl

/-- The items that the steps of a chain gathered, the last first. -/
theorem Yields.many {item : Parser (Option α)} {items : List α} {w2 : List Located}
    (h : Chain ctx (gather item) [] w items.reverse w1) (hend : Yields ctx item w1 none w2) :
    Yields ctx (many item) w items w2 := by
  rw [many_eq, ← items.reverse_reverse]
  exact (iterate h (hend.map _)).map List.reverse

/-- The loop fails where its step fails. -/
theorem Breaks.iterate {e : ParseError} (h : Chain ctx step s w s' w1)
    (hend : Breaks ctx (step s') w1 e) : Breaks ctx (iterate step s) w e := by
  intro c hc
  obtain ⟨m, c1, hc1, hrun⟩ := h.iterate hc
  obtain ⟨d, hd⟩ := Breaks.bind _ hend c1 hc1
  refine ⟨d, ?_⟩
  rw [hrun, iterateUpTo]
  exact hd

/-! ## Readers that never fail -/

/-- The reader gives a value wherever it is used. -/
def Total (p : Parser α) : Prop := ∀ ctx c, ∃ v d, p ctx c = .ok v d

namespace Total

theorem pure (v : α) : Total (Pure.pure v : Parser α) := fun _ c => ⟨v, c, rfl⟩

/-- One reader behind the other gives a value if each of them does. -/
theorem bind {p : Parser α} {f : α → Parser β} (hp : Total p) (hf : ∀ a, Total (f a)) :
    Total (p >>= f) := by
  intro ctx c
  obtain ⟨a, c1, hrun⟩ := hp ctx c
  obtain ⟨v, d, hd⟩ := hf a ctx c1
  exact ⟨v, d, (bind_run hrun f).trans hd⟩

theorem map {p : Parser α} (g : α → β) (h : Total p) : Total (g <$> p) := by
  intro ctx c
  obtain ⟨a, d, hrun⟩ := h ctx c
  exact ⟨g a, d, map_ok.mpr ⟨a, hrun, rfl⟩⟩

/-- Whatever the test says, a value is given. -/
theorem test {t : Parser Bool} {p q : Parser α} (ht : Total t) (hp : Total p) (hq : Total q) :
    Total (t >>= fun b => if b then p else q) :=
  ht.bind fun b => by
    cases b with
    | true => exact hp
    | false => exact hq

theorem acceptKeyword (k : Keyword) : Total (acceptKeyword k) := by
  intro ctx c
  rw [Parser.acceptKeyword, acceptWord_run]
  split
  · exact ⟨_, _, rfl⟩
  · exact ⟨_, _, rfl⟩

/-- Words that are not all there are no error. -/
theorem acceptKeywords (ks : List Keyword) : Total (acceptKeywords ks) := by
  intro ctx c
  have hwords := acceptWords_allOrNothing (ks.map some)
  by_cases h : Words (ks.map some) (c.reads (ks.map some).length).1
  · exact ⟨_, _, hwords.all ctx c h⟩
  · exact ⟨_, _, hwords.nothing ctx c h⟩

/-- A loop never fails whose steps never do, and its bound is not met as an error. -/
theorem iterate (h : ∀ s, Total (step s)) (s : β) : Total (iterate step s) := by
  have hloop : ∀ n s, Total (iterateUpTo step n s) := by
    intro n
    induction n with
    | zero => exact fun s => pure s
    | succ n ih =>
        intro s
        refine (h s).bind fun o => ?_
        cases o with
        | none => exact pure s
        | some s => exact ih s
  intro ctx c
  rw [iterate_apply]
  exact hloop _ s ctx c

theorem many {item : Parser (Option α)} (h : Total item) : Total (many item) :=
  (iterate (fun _ => h.map _) []).map List.reverse

end Total

end Parser

end SchemaSql
