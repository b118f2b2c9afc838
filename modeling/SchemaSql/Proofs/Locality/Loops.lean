import SchemaSql.Proofs.Locality.Joins

/-! # Locality of repetition, of lists and of captured text

    A loop is local when its step is.  A list with commas is local where a comma is never the
    end, so in parentheses it always is; the same goes for text that is kept as it is
    written. -/

namespace SchemaSql

open Cursor

variable {α β : Type} {R : Rel}

/-! ## Repetition -/

/-- A step that takes a token whenever it goes on leaves fewer of them. -/
theorem Parser.shortens_of {step : β → Parser (Option β)}
    (h : ∀ s, Offers R (· ≠ none) (step s)) : Parser.Shortens step :=
  fun ctx s c _ c' h0 hrun =>
    ⟨((h s).isLocal ctx c _ c' h0 hrun).1, (h s).takes ctx c _ c' h0 hrun (by simp)⟩

/-- A loop replays step by step. -/
theorem Local.iterate [Lookahead R] {step : β → Parser (Option β)}
    (h : ∀ s, Offers R (· ≠ none) (step s)) (s : β) : Local R (Parser.iterate step s) := by
  have hl : ∀ s, Local R (step s) := fun s => (h s).isLocal
  have hstep := Parser.shortens_of h
  intro ctx c s' c' h0 h
  -- inside the text the loop is the sequence of its steps, on which the induction is
  suffices hloop : c'.overrun = 0 ∧ ∃ used, c.rest = used ++ c'.rest ∧
      ∀ r, R c'.rest r → ∀ d : Cursor, d.At (used ++ r) →
        ∃ d', Parser.Iterates step ctx s d s' d' ∧ d'.At r by
    obtain ⟨h1, used, hused, hreplay⟩ := hloop
    refine ⟨h1, used, hused, fun r hr d hd => ?_⟩
    obtain ⟨d', hd', hat⟩ := hreplay r hr d hd
    exact ⟨d', (Parser.iterate_ok hstep hd.overrun).mpr hd', hat⟩
  rw [Parser.iterate_ok hstep h0] at h
  induction h with
  | @done s c c' h =>
      obtain ⟨h1, used, hused, hreplay⟩ := hl s ctx c _ c' h0 h
      refine ⟨h1, used, hused, fun r hr d hd => ?_⟩
      obtain ⟨d', hd', hat⟩ := hreplay r hr d hd
      exact ⟨d', .done hd', hat⟩
  | @more s s1 s' c c1 c' h _ ih =>
      obtain ⟨h1, used, hused, hreplay⟩ := hl s ctx c _ c1 h0 h
      obtain ⟨h2, used', hused', hreplay'⟩ := ih h1
      refine ⟨h2, used ++ used', by rw [hused, hused', List.append_assoc],
        fun r hr d hd => ?_⟩
      -- the first step is replayed in front of what the others used
      obtain ⟨d1, hd1, hat1⟩ := hreplay (used' ++ r) (hused' ▸ Lookahead.append hr) d
        (by rwa [← List.append_assoc])
      obtain ⟨d', hd', hat⟩ := hreplay' r hr d1 hat1
      exact ⟨d', .more hd1 hd', hat⟩

/-- A step that gathers a value takes the tokens of the value. -/
theorem Offers.collect {item : Parser (Option α)} (h : Offers R (· ≠ none) item)
    (items : List α) : Offers R (· ≠ none) ((·.map (· :: items)) <$> item) :=
  .map ⟨h.isLocal, fun ctx c v c' h0 hrun hv =>
    h.takes ctx c v c' h0 hrun fun heq => hv (by rw [heq]; rfl)⟩

/-- The values that a loop gathers are those of its steps, in their order. -/
theorem Parser.many_ok {item : Parser (Option α)} (h : Offers R (· ≠ none) item)
    {ctx : Context} {items : List α} {c c' : Cursor} (h0 : c.overrun = 0) :
    Parser.many item ctx c = .ok items c' ↔ Parser.Gathers item ctx c items c' := by
  have hstep := Parser.shortens_of fun items => h.collect items
  rw [Parser.many, Parser.map_ok]
  simp only [Parser.iterate_ok hstep h0, Parser.iterates_collect, List.append_nil]
  constructor
  · rintro ⟨_, ⟨more, hmore, rfl⟩, rfl⟩
    rwa [List.reverse_reverse]
  · exact fun hitems => ⟨_, ⟨items, hitems, rfl⟩, List.reverse_reverse items⟩

/-- A loop that gathers nothing is one step that gives nothing. -/
theorem Parser.many_nil_ok {item : Parser (Option α)} (h : Offers R (· ≠ none) item)
    {ctx : Context} {c c' : Cursor} (h0 : c.overrun = 0) :
    Parser.many item ctx c = .ok [] c' ↔ item ctx c = .ok none c' := by
  rw [Parser.many_ok h h0]
  constructor
  · rintro ⟨hnone⟩
    exact hnone
  · exact .nil

theorem Local.many [Lookahead R] {item : Parser (Option α)} (h : Offers R (· ≠ none) item) :
    Local R (Parser.many item) :=
  Local.map _ <| Local.iterate (fun items => h.collect items) []

/-! ## Lists with commas -/

/-- One more item of a list, if `p` says so. -/
theorem Offers.item [Lookahead R] {p : Parser Bool} {item : Parser α}
    (hp : Offers R (· = true) p) (hi : Local R item) :
    Offers R (· ≠ none) (p >>= fun b => if b then some <$> item else return none) :=
  .test hp (hi.map _) (.pure (by simp))

theorem Local.many_item [Lookahead R] {p : Parser Bool} {item : Parser α}
    (hp : Offers R (· = true) p) (hi : Local R item) :
    Local R (Parser.many do if ← p then some <$> item else return none) :=
  Local.many (.item hp hi)

/-- The end of the text and a semicolon both end a list. -/
theorem endsList_eq {t t' : Token} (h : t = .eof ∨ t = .semicolon)
    (h' : t' = .eof ∨ t' = .semicolon) : Parser.endsList t = Parser.endsList t' := by
  rcases h with rfl | rfl <;> rcases h' with rfl | rfl <;> rfl

/-- Behind a comma, the end of the text and a semicolon end a list alike. -/
theorem Local.peek_endsList [CommaAware R] (trailing : Bool) :
    Local R (do return !(trailing && Parser.endsList (← Parser.peek).token)) := by
  intro ctx c v c' h0 h
  obtain ⟨t, c1, ht, h⟩ := Parser.bind_ok.mp h
  obtain ⟨rfl, rfl⟩ := Parser.peek_ok.mp ht
  obtain ⟨rfl, rfl⟩ := Parser.pure_ok.mp h
  refine ⟨h0, [], rfl, fun r hr d hd => ⟨d, ?_, hd⟩⟩
  refine Parser.bind_ok.mpr ⟨d.peek, d, Parser.peek_ok.mpr ⟨rfl, rfl⟩, ?_⟩
  refine Parser.pure_ok.mpr ⟨?_, rfl⟩
  have hends : Parser.endsList d.peek.token = Parser.endsList c.peek.token := by
    rw [hd.peek, peek_eq, List.nil_append]
    rcases CommaAware.mark hr with heq | ⟨hm, hm'⟩
    · rw [heq]
    · exact endsList_eq hm' hm
  rw [hends]

/-- A comma tells that the list goes on, unless it may stand at the end and does. -/
theorem Offers.acceptSeparator [CommaAware R] (trailing : Bool) :
    Offers R (· = true) (Parser.acceptSeparator trailing) :=
  .test ⟨Local.accept_comma, .accept (by simp)⟩ (Local.peek_endsList trailing)
    (.pure (by simp))

/-- A list ends in front of a token that is no comma, which is so in both rests. -/
theorem Local.commaSeparatedWith [CommaAware R] (trailing : Bool) {item : Parser α}
    (hi : Local R item) : Local R (Parser.commaSeparatedWith trailing item) :=
  hi.bind fun _ => (Local.many_item (.acceptSeparator trailing) hi).bind fun _ => Local.pure _

theorem Local.commaSeparated [CommaAware R] {item : Parser α} (hi : Local R item) :
    Local R (Parser.commaSeparated item) :=
  Local.read.bind fun ctx => Local.commaSeparatedWith ctx.options.trailingCommas hi

/-- What stands in parentheses has something behind it. -/
theorem Offers.parenthesized [Lookahead R] {P : α → Prop} {inner : Parser α}
    (hi : Local (Within R) inner) : Offers R P (Parser.parenthesized inner) :=
  .bind (.expect (by simp)) fun _ =>
    hi.bind_reads fun _ => .bind (.expect (by simp)) fun _ => Local.pure _

/-- What stands in parentheses is read up to the closing one, so its reader sees no rest. -/
theorem Local.parenthesized [Lookahead R] {inner : Parser α} (hi : Local (Within R) inner) :
    Local R (Parser.parenthesized inner) := (Offers.parenthesized (P := fun _ => True) hi).isLocal

theorem Local.parenthesizedList [Lookahead R] {item : Parser α} (hi : Local R item) :
    Local R (Parser.parenthesizedList item) :=
  Local.parenthesized (Local.commaSeparatedWith false hi.within)

/-! ## The arguments of a call -/

/-- Where something follows, the next token is the same, and behind it the one after that is,
    or something ends in both rests. -/
theorem Within.two [Lookahead R] {w r : List Located} (hw : Clean w) (h : Within R w r) :
    headOf w = headOf r ∧ nthSolid 0 w = nthSolid 0 r ∧ (nthSolid 1 w = nthSolid 1 r ∨
      (EndMark (nthSolid 1 w).token ∧ EndMark (nthSolid 1 r).token)) := by
  obtain ⟨u, w', r', hu, hR, rfl, rfl⟩ := h
  obtain ⟨t, u, rfl⟩ := List.exists_cons_of_ne_nil hu
  have ht : t.isWhitespace = false := by simpa using hw
  have htail : Follow ClauseEnd (u ++ w') (u ++ r') := (Lookahead.follow hR).append
  refine ⟨rfl, ?_, ?_⟩
  · simp [nthSolid, ht]
  · simpa [nthSolid, ht] using htail.nthSolid_zero

namespace Parser

/-- Reading the token that was just seen is the same as asking for it. -/
theorem next_eq_expect {ctx : Context} {c : Cursor} {token : Token}
    (h : c.peek.token = token) : next ctx c = expect token ctx c := by
  rw [next_run, expect_run, if_pos h]

/-- Reading the next token is expecting the one that is ahead. -/
theorem next_bind_eq_expect (k : Located → Parser α) (ctx : Context) (c : Cursor) :
    (next >>= k) ctx c = (expect c.peek.token >>= k) ctx c := by
  simp only [Parser.bind_apply]
  rw [next_eq_expect rfl]

/-- A list up to a closing sign is local where something follows. -/
theorem commaSeparatedUntil_local [Lookahead R] {close : Token} (hclose : ¬ EndMark close)
    {item : Parser α} (hi : Local (Within R) item) :
    Local (Within R) (commaSeparatedUntil close item) := by
  refine Local.peek_with (fun t => decide (t.token = close))
    (fun b => if b then return [] else do
      if (← read).options.trailingCommas
          && (← get).peekTokens 2 = [.comma, close] then
        let _ ← next
        return []
      commaSeparated item)
    (fun ctx c => by simp only [decide_eq_true_eq]) (fun _ => (Local.pure _).ite ?_)
    fun w r h => ?_
  · refine Local.read.bind fun ctx => ?_
    -- a comma in front of the closing token is a trailing one
    refine Local.peek_two (fun t t' => decide ([t.token, t'.token] = [.comma, close]))
      (fun b => if ctx.options.trailingCommas && b then do
          let _ ← expect .comma
          return []
        else commaSeparated item) (fun ctx' c => ?_) (fun _ => ?_) fun w r hw h => ?_
    · show (if ctx.options.trailingCommas && decide (c.peekTokens 2 = [.comma, close]) then do
          let _ ← next
          return []
        else commaSeparated item : Parser (List α)) ctx' c = _
      rw [peekTokens_two]
      split
      · rename_i hcond
        simp only [Bool.and_eq_true, decide_eq_true_eq, List.cons.injEq] at hcond
        simp only [Parser.bind_apply]
        rw [next_eq_expect hcond.2.1]
      · rfl
    · exact Local.ite ((Local.expect (by simp)).bind fun _ => Local.pure _)
        (Local.commaSeparated hi)
    · obtain ⟨-, heq, heq' | ⟨hm, hm'⟩⟩ := Within.two hw h
      · rw [heq, heq']
      · have hne : ∀ t : Located, EndMark t.token → t.token ≠ close := by
          rintro t ht rfl
          exact hclose ht
        simp [hne _ hm, hne _ hm']
  · obtain ⟨u, w', r', hu, -, rfl, rfl⟩ := h
    obtain ⟨t, u, rfl⟩ := List.exists_cons_of_ne_nil hu
    rfl

end Parser

end SchemaSql
