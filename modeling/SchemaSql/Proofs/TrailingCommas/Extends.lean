import SchemaSql.Proofs.Comparison.Statements
import SchemaSql.Proofs.Comparison.Texts
import SchemaSql.Proofs.Denotation
import SchemaSql.Proofs.Ensures

/-! # Reading with trailing commas what is read without

    Where lists may end in a comma, a comma in front of certain words ends a list that would go
    on otherwise.  `Extends P p q` says that `q` reads with trailing commas whatever `p` reads
    without, if the value satisfies `P`.

    * Most readers have no lists in them that may end in a comma; that they extend themselves is
      a comparison of two runs in one text (`Free`, `Extends.of_free`).
    * The rules for the others follow the way readers are written.  A rule for two readers
      behind each other asks that the value of both tells what was needed of the first one, and
      a loop that each state tells what was needed of the one in front.
    * `Extends.commaSeparated` is where the two runs differ: it asks that no item but the first
      starts with a reserved word. -/

namespace SchemaSql

open Cursor SchemaSql.Parser Comparison

/-- The same context, in which lists may end in a comma. -/
def Context.lenient (ctx : Context) : Context :=
  { ctx with options := { ctx.options with trailingCommas := true } }

/-- A place in a text all of whose words have their keywords. -/
structure Cursor.Good (c : Cursor) : Prop where
  overrun : c.overrun = 0
  proper  : ∀ t ∈ c.tokens, t.token.Proper

/-- The next token is one of the text, or the end, which is no word. -/
theorem Cursor.Good.peek {c : Cursor} (h : c.Good) : c.peek.token.Proper := by
  rcases peekNth_mem c 0 with hmem | heq
  · exact h.proper _ hmem
  · rw [Cursor.peek, heq]
    exact fun w hw => by cases hw

/-- Behind a token of the text the text is the same. -/
theorem Cursor.Good.next {c : Cursor} (h : c.Good) (hne : c.rest ≠ []) : c.next.2.Good :=
  ⟨(Same.next ⟨rfl, h.overrun⟩ hne).overrun, by rw [tokens_next]; exact h.proper⟩

variable {α β : Type}

/-- What `p` reads without trailing commas, `q` reads with them, if the value satisfies `P`. -/
def Extends (P : α → Prop) (p q : Parser α) : Prop :=
  ∀ ctx c v c', ctx.options.trailingCommas = false → c.Good → p ctx c = .ok v c' →
    c'.Good ∧ (P v → q ctx.lenient c = .ok v c')

/-! ## Readers without such lists -/

/-- Two runs in a text, with whatever options. -/
abbrev optional (u : List Located) : Comparison := inText u (fun _ => True) Eq fun _ _ => True

instance (u : List Located) : (optional u).Nesting :=
  have : (optional u).Lawful := inText.lawful trivial fun _ _ => trivial
  inText.nesting {
    ident := Ident.parse_steady_of_hyphens (fun _ _ h => h) fun name =>
      inText.plain (parseHyphenated_plain name) parseHyphenated_tokens
    pipes := fun h => .inl (congrArg Dialect.pipeOperators h)
    synonyms := fun h => .inl (congrArg Dialect.synonyms h) }

/-- A reader that the options do not matter to. -/
abbrev Free (p : Parser α) : Prop := ∀ u, (optional u).Steady p

theorem Free.expect {token : Token} (h : token ≠ .eof) : Free (Parser.expect token) :=
  fun _ => (Alike.expect h).mono fun _ _ ht => ht.1

theorem Free.expectKeyword (keyword : Keyword) : Free (Parser.expectKeyword keyword) :=
  fun _ => (Alike.expectKeyword keyword).mono fun _ _ ht => ht.1

namespace Extends

variable {P Q : α → Prop} {R : β → Prop}

/-- A reader that the options do not matter to extends itself, whatever its values are. -/
theorem of_free {p : Parser α} (h : Free p) : Extends P p p := by
  intro ctx c v c' _ hgood hrun
  -- the text is compared with itself, once under each of the two contexts
  have hruns := h c.tokens ctx ctx.lenient c c ⟨rfl, trivial, rfl⟩ ⟨⟨rfl, hgood.overrun⟩, rfl⟩
  rw [hrun] at hruns
  generalize p ctx.lenient c = s at hruns ⊢
  rcases hruns with ⟨rfl, hc⟩
  obtain rfl := hc.1.eq
  exact ⟨⟨hc.1.overrun, hc.2 ▸ hgood.proper⟩, fun _ => rfl⟩

theorem pure (a : α) : Extends P (Pure.pure a) (Pure.pure a) := of_free fun _ => .pure rfl

/-- A reader that fails without trailing commas. -/
theorem of_fails {p q : Parser α} (h : Fails p) : Extends P p q :=
  fun ctx c v c' _ _ hrun => absurd hrun (h ctx c v c')

/-- An error gives no value that would have to be read again. -/
theorem throw {e : ParseError} {q : Parser α} : Extends P (MonadExcept.throw e) q :=
  of_fails fun _ _ _ _ => throw_ne_ok

theorem expected {what : String} {t : Located} {q : Parser α} :
    Extends P (Parser.expected what t) q := throw

/-! ## Steps -/

/-- One reader after the other; what the second gives tells what was needed of the first. -/
theorem bind {p q : Parser α} {f g : α → Parser β} (hp : Extends P p q)
    (hf : ∀ a, Extends R (f a) (g a)) (hkeep : ∀ a, Ensures (f a) fun v => R v → P a) :
    Extends R (p >>= f) (q >>= g) := by
  intro ctx c v c' hstrict hgood hrun
  obtain ⟨a, c1, ha, hv⟩ := bind_ok.mp hrun
  obtain ⟨hgood1, hext⟩ := hp ctx c a c1 hstrict hgood ha
  obtain ⟨hgood', hext'⟩ := hf a ctx c1 v c' hstrict hgood1 hv
  refine ⟨hgood', fun hR => bind_ok.mpr ⟨a, c1, hext ?_, hext' hR⟩⟩
  exact hkeep a ctx c1 v c' hv hR

/-- A reader behind one that the options do not matter to. -/
theorem after {p : Parser α} {f g : α → Parser β} (hp : Free p)
    (hf : ∀ a, Extends R (f a) (g a)) : Extends R (p >>= f) (p >>= g) :=
  bind (of_free hp (P := fun _ => True)) hf fun _ => .of_forall fun _ _ => trivial

/-- What is needed of the value that is made must be needed of the one it is made of. -/
theorem map {p q : Parser α} {g : α → β} (hp : Extends P p q) (hg : ∀ a, R (g a) → P a) :
    Extends R (g <$> p) (g <$> q) := by
  intro ctx c v c' hstrict hgood hrun
  obtain ⟨a, ha, rfl⟩ := map_ok.mp hrun
  obtain ⟨hgood', hext⟩ := hp ctx c a c' hstrict hgood ha
  exact ⟨hgood', fun hR => map_ok.mpr ⟨a, hext (hg a hR), rfl⟩⟩

theorem ite {b : Prop} [Decidable b] {p p' q q' : Parser α} (hp : Extends P p q)
    (hp' : Extends P p' q') : Extends P (if b then p else p') (if b then q else q') := by
  split
  · exact hp
  · exact hp'

/-- A test that the options do not matter to chooses the same side again. -/
theorem test {t : Parser Bool} {p p' q q' : Parser α} (ht : Free t) (hp : Extends P p q)
    (hp' : Extends P p' q') :
    Extends P (t >>= fun b => if b then p else p') (t >>= fun b => if b then q else q') :=
  after ht fun _ => ite hp hp'

/-- What a reader gives where a test succeeds, and nothing elsewhere. -/
theorem bind_option {t : Parser Bool} {p q : Parser α} {f g : Option α → Parser β} (ht : Free t)
    (hp : Extends P p q) (hf : ∀ o, Extends R (f o) (g o))
    (hkeep : ∀ o, Ensures (f o) fun v => R v → ∀ a ∈ o, P a) :
    Extends R (t >>= fun b => if b then some <$> p >>= f else Pure.pure none >>= f)
      (t >>= fun b => if b then some <$> q >>= g else Pure.pure none >>= g) :=
  after ht fun _ => ite (bind (map hp (by simp)) hf hkeep) (bind (pure none) hf hkeep)

/-- The next token is the same, whatever the options are. -/
theorem peek {k k' : Located → Parser α} (hk : ∀ t, Extends P (k t) (k' t)) :
    Extends P (Parser.peek >>= k) (Parser.peek >>= k') :=
  fun ctx c v c' hstrict hgood hrun => hk c.peek ctx c v c' hstrict hgood hrun

/-- A reader that takes a token, and fails at the end of the text. -/
theorem next {k k' : Located → Parser α} (hk : ∀ t, Extends P (k t) (k' t))
    (heof : Fails (k .eof)) :
    Extends P (Parser.next >>= k) (Parser.next >>= k') := by
  intro ctx c v c' hstrict hgood hrun
  rw [bind_run (next_run ctx c)] at hrun
  rw [bind_run (next_run ctx.lenient c)]
  have hne : c.rest ≠ [] := fun hnil => by
    rw [peek_eq, hnil] at hrun
    exact heof _ _ _ _ hrun
  exact hk c.peek ctx c.next.2 v c' hstrict (hgood.next hne) hrun

/-- The levels that are left are the same, whatever the options are. -/
theorem descend {p q : Parser α} (h : Extends P p q) :
    Extends P (Parser.descend p) (Parser.descend q) := by
  intro ctx c v c' hstrict hgood hrun
  obtain ⟨depth, hdepth, hrun⟩ := descend_ok.mp hrun
  obtain ⟨hgood', hext⟩ := h { ctx with depth } c v c' hstrict hgood hrun
  exact ⟨hgood', fun hP => descend_ok.mpr ⟨depth, hdepth, hext hP⟩⟩

/-- A closing parenthesis is no comma. -/
theorem parenthesized {p q : Parser α} (h : Extends P p q) :
    Extends P (Parser.parenthesized p) (Parser.parenthesized q) :=
  after (Free.expect (by simp)) fun _ => bind h
    (fun _ => after (Free.expect (by simp)) fun _ => pure _)
    fun _ => .after fun _ => .pure id

/-! ## Loops -/

/-- Every state of a loop tells what was needed of the state in front of it. -/
theorem iterate {step step' : β → Parser (Option β)}
    (h : ∀ s, Extends (fun o => ∀ s' ∈ o, R s') (step s) (step' s))
    (hkeep : ∀ s, Ensures (step s) fun o => ∀ s' ∈ o, R s' → R s) (s : β) :
    Extends R (Parser.iterate step s) (Parser.iterate step' s) := by
  have hupTo : ∀ n s ctx c v c', ctx.options.trailingCommas = false → c.Good →
      iterateUpTo step n s ctx c = .ok v c' →
        c'.Good ∧ (R v → R s ∧ iterateUpTo step' n s ctx.lenient c = .ok v c') := by
    -- by induction on the steps that are left, and what holds of the last state comes back to
    -- the one that the loop started in
    intro n
    induction n with
    | zero =>
        intro s ctx c v c' _ hgood hrun
        obtain ⟨rfl, rfl⟩ := pure_ok.mp hrun
        exact ⟨hgood, fun hR => ⟨hR, rfl⟩⟩
    | succ n ih =>
        intro s ctx c v c' hstrict hgood hrun
        rw [iterateUpTo] at hrun ⊢
        obtain ⟨o, c1, ho, hrun⟩ := bind_ok.mp hrun
        obtain ⟨hgood1, hext⟩ := h s ctx c o c1 hstrict hgood ho
        cases o with
        | none =>
            obtain ⟨rfl, rfl⟩ := pure_ok.mp hrun
            exact ⟨hgood1, fun hR => ⟨hR, bind_ok.mpr ⟨none, _, hext (by simp), rfl⟩⟩⟩
        | some s1 =>
            obtain ⟨hgood', hrest⟩ := ih s1 ctx c1 v c' hstrict hgood1 hrun
            refine ⟨hgood', fun hR => ?_⟩
            obtain ⟨hR1, hrun'⟩ := hrest hR
            exact ⟨hkeep s ctx c _ c1 ho s1 rfl hR1,
              bind_ok.mpr ⟨some s1, c1, hext (by simpa using hR1), hrun'⟩⟩
  intro ctx c v c' hstrict hgood hrun
  rw [iterate_apply] at hrun ⊢
  obtain ⟨hgood', hext⟩ := hupTo _ s ctx c v c' hstrict hgood hrun
  exact ⟨hgood', fun hR => (hext hR).2⟩

/-- Values are gathered alike if each of them is read alike. -/
theorem many {item item' : Parser (Option α)}
    (h : Extends (fun o => ∀ a ∈ o, P a) item item') :
    Extends (fun items => ∀ a ∈ items, P a) (Parser.many item) (Parser.many item') := by
  refine map (P := fun items => ∀ a ∈ items, P a) (iterate (fun items => ?_) (fun items => ?_) [])
    (by simp)
  · refine map h fun o ho a ha => ?_
    obtain rfl : o = some a := ha
    exact ho _ rfl a (by simp)
  · refine .map (P := fun _ => True) (.of_forall fun _ => trivial) fun o _ items' hitems' hall => ?_
    obtain ⟨a, -, rfl⟩ := Option.map_eq_some_iff.mp hitems'
    exact fun b hb => hall b (by simp [hb])

/-- A loop that reads an item wherever a test succeeds. -/
theorem many_test {t : Parser Bool} {item item' : Parser α} (ht : Free t)
    (h : Extends P item item') :
    Extends (fun items => ∀ a ∈ items, P a)
      (Parser.many do if ← t then some <$> item else return none)
      (Parser.many do if ← t then some <$> item' else return none) :=
  many (test ht (map h (by simp)) (pure none))

end Extends

/-! ## Lists that may end in a comma -/

/-- A word that ends a list behind a comma, if lists may end in one. -/
def Token.IsReserved (t : Token) : Prop := ∃ k ∈ Keyword.reservedForColumnAlias, t.keyword? = some k

instance : DecidablePred Token.IsReserved := fun t =>
  inferInstanceAs (Decidable (∃ k ∈ Keyword.reservedForColumnAlias, t.keyword? = some k))

/-- What ends a list behind a comma is a reserved word, or a token that starts no item. -/
theorem endsList_cases {t : Token} (h : endsList t = true) :
    t.IsReserved ∨ t = .rparen ∨ t = .semicolon ∨ t = .eof ∨ t = .pipeArrow := by
  cases t with
  | word w =>
      cases hk : w.keyword with
      | none => simp [endsList, hk] at h
      | some k => exact .inl ⟨k, by simpa [endsList, hk] using h, hk⟩
  | rparen | semicolon | eof | pipeArrow => simp
  | _ => simp [endsList] at h

/-- Wherever a token stands that may end a list, `item` gives nothing, or a value whose first
    token is a reserved word. -/
def Opens (first : α → Token) (item : Parser α) : Prop :=
  ∀ ctx c v c', c.Good → endsList c.peek.token = true → item ctx c = .ok v c' →
    (first v).IsReserved

/-- What is read first decides what a value starts with. -/
theorem Opens.bind {first : α → Token} {first' : β → Token} {p : Parser α} {f : α → Parser β}
    (hp : Opens first p) (hf : ∀ a, Ensures (f a) fun v => first' v = first a) :
    Opens first' (p >>= f) := by
  intro ctx c v c' hgood hends hrun
  obtain ⟨a, c1, ha, hrun⟩ := bind_ok.mp hrun
  rw [hf a ctx c1 v c' hrun]
  exact hp ctx c a c1 hgood hends ha

/-- A reader that takes a token: a value starts with the word that was taken, and no value
    starts with another token that ends a list. -/
theorem Opens.next {first : α → Token} {k : Located → Parser α}
    (hword : ∀ ctx c l w v c', l.token = .word w → w = Word.of w.value w.quote →
      l.token.IsReserved → k l ctx c = .ok v c' → (first v).IsReserved)
    (hend : ∀ l, l.token = .rparen ∨ l.token = .semicolon ∨ l.token = .eof ∨
      l.token = .pipeArrow → Fails (k l)) : Opens first (Parser.next >>= k) := by
  intro ctx c v c' hgood hends hrun
  rw [bind_run (next_run ctx c)] at hrun
  rcases endsList_cases hends with hreserved | hother
  · cases htoken : c.peek.token with
    | word w => exact hword _ _ _ w _ _ htoken (hgood.peek w htoken) hreserved hrun
    | _ =>
        obtain ⟨keyword, -, hkeyword⟩ := hreserved
        simp [htoken, Token.keyword?] at hkeyword
  · exact absurd hrun (hend _ hother _ _ _ _)

/-- The values satisfy `P`, and none but the first starts with a reserved word. -/
def Listed (P : α → Prop) (first : α → Token) (items : List α) : Prop :=
  (∀ a ∈ items, P a) ∧ ∀ t ∈ (items.map first).tail, ¬ t.IsReserved

namespace Extends

variable {P : α → Prop} {first : α → Token} {item : Parser α}

/-- A further item behind a comma: the one place where the options matter. -/
theorem separated (h : Extends P item item) (hopens : Opens first item) :
    Extends (fun o => ∀ a ∈ o, P a ∧ ¬ (first a).IsReserved)
      (do if ← acceptSeparator false then some <$> item else return none)
      (do if ← acceptSeparator true then some <$> item else return none) := by
  intro ctx c o c' hstrict hgood hrun
  by_cases hcomma : c.peek.token = .comma
  · have hne : c.rest ≠ [] := fun hnil => by
      rw [peek_eq, hnil] at hcomma
      exact absurd hcomma (by simp [headOf, Located.eof])
    rw [bind_run ((acceptSeparator_run _ ctx c).trans (if_pos hcomma))] at hrun
    obtain ⟨a, ha, rfl⟩ := map_ok.mp hrun
    obtain ⟨hgood', hext⟩ := h ctx c.next.2 a c' hstrict (hgood.next hne) ha
    refine ⟨hgood', fun hall => ?_⟩
    obtain ⟨hP, hfirst⟩ := hall a rfl
    -- had the list ended here, the item would start with a reserved word
    have hends : endsList c.next.2.peek.token = false := by
      by_contra hends
      exact hfirst (hopens ctx c.next.2 a c' (hgood.next hne) (by simpa using hends) ha)
    rw [bind_run ((acceptSeparator_run _ ctx.lenient c).trans (if_pos hcomma)), hends]
    exact map_ok.mpr ⟨a, hext hP, rfl⟩
  · rw [bind_run ((acceptSeparator_run _ ctx c).trans (if_neg hcomma))] at hrun
    obtain ⟨rfl, rfl⟩ := pure_ok.mp hrun
    refine ⟨hgood, fun _ => ?_⟩
    rw [bind_run ((acceptSeparator_run _ ctx.lenient c).trans (if_neg hcomma))]
    rfl

/-- A list whose later items start with no reserved word goes on behind each comma in both runs. -/
theorem commaSeparated (h : Extends P item item) (hopens : Opens first item) :
    Extends (Listed P first) (Parser.commaSeparated item) (Parser.commaSeparated item) := by
  have hwith : Extends (Listed P first) (commaSeparatedWith false item)
      (commaSeparatedWith true item) := by
    refine bind h (fun a => bind (many (separated h hopens)) (fun _ => pure _) fun rest => ?_)
      fun a => .after fun rest => .pure fun hlisted => hlisted.1 a (by simp)
    exact .pure fun hlisted b hb => ⟨hlisted.1 b (by simp [hb]), hlisted.2 _ (by
      rw [List.map_cons, List.tail_cons]
      exact List.mem_map_of_mem hb)⟩
  intro ctx c v c' hstrict hgood hrun
  rw [Parser.commaSeparated, bind_run (read_ok.mpr ⟨rfl, rfl⟩)] at hrun ⊢
  rw [hstrict] at hrun
  exact hwith ctx c v c' hstrict hgood hrun

/-- A list that may be empty: no item starts with a comma. -/
theorem commaSeparatedUntil {close : Token} (h : Extends P item item)
    (hopens : Opens first item)
    (hcomma : ∀ ctx c v c', c.peek.token = .comma → item ctx c ≠ .ok v c') :
    Extends (Listed P first) (Parser.commaSeparatedUntil close item)
      (Parser.commaSeparatedUntil close item) := by
  refine peek fun t => ite (pure _) fun ctx c v c' hstrict hgood hrun => ?_
  rw [bind_run (read_ok.mpr ⟨rfl, rfl⟩), bind_run (get_ok.mpr ⟨rfl, rfl⟩)] at hrun ⊢
  rw [if_neg (by simp [hstrict])] at hrun
  -- a list that allows it may be a comma alone, but the reader without found an item
  have hfirst : c.peek.token ≠ .comma := by
    intro hpeek
    obtain ⟨ctx', c1, hread, hrun⟩ := bind_ok.mp hrun
    obtain ⟨rfl, rfl⟩ := read_ok.mp hread
    obtain ⟨a, c2, ha, -⟩ := bind_ok.mp hrun
    exact hcomma _ _ _ _ hpeek ha
  have hpair : c.peekTokens 2 ≠ [.comma, close] := by
    rw [peekTokens_two]
    exact fun heq => hfirst (List.cons.inj heq).1
  obtain ⟨hgood', hext⟩ := commaSeparated h hopens ctx c v c' hstrict hgood hrun
  refine ⟨hgood', fun hlisted => ?_⟩
  rw [if_neg (by simp [hpair])]
  exact hext hlisted

end Extends

end SchemaSql
