import SchemaSql.Proofs.Run

/-! # Locality — a reader sees nothing behind the end of what it reads

    A reader that gave a value took some tokens.  Locality says that the same tokens give the
    same value in front of another rest, as long as the reader cannot tell the two rests
    apart: `Local R p` replays a run of `p` in front of every rest that `R` relates to the
    one it had.

    The relations of interest come from the places where a statement or a clause ends:

    * `StatementEnd` is the end of the text or a semicolon;
    * `ClauseEnd` is that, or a comma in front of a further clause;
    * `Follow E` relates rests that go on alike up to such a place, `Within R` those that go
      on alike for at least one token.

    The rules below follow the way readers are written: one for each way of joining readers,
    and one for each way of looking at a token. -/

namespace SchemaSql

open Cursor

/-- What two rests may have in common. -/
abbrev Rel := List Located → List Located → Prop

/-- A statement may end here. -/
def StatementEnd (w : List Located) : Prop :=
  w = [] ∨ ∃ t r, w = t :: r ∧ t.token = .semicolon

/-- A clause of `ALTER TABLE` may end here. -/
def ClauseEnd (w : List Located) : Prop :=
  StatementEnd w ∨ ∃ t r, w = t :: r ∧ t.token = .comma ∧
    AlterClause.startsClause (nthSolid 0 r).token = true

/-- The tokens that may stand where a clause ends. -/
def EndMark (token : Token) : Prop := token = .eof ∨ token = .semicolon ∨ token = .comma

/-- The two rests go on alike up to a place where something ends in both. -/
def Follow (E : List Located → Prop) : Rel := fun w r =>
  ∃ u e e', E e ∧ E e' ∧ w = u ++ e ∧ r = u ++ e'

/-- The two rests go on alike for one token at least. -/
def Within (R : Rel) : Rel := fun w r =>
  ∃ u w' r', u ≠ [] ∧ R w' r' ∧ w = u ++ w' ∧ r = u ++ r'

/-- A relation under which readers of clauses cannot tell two rests apart. -/
class Lookahead (R : Rel) : Prop where
  append : ∀ {u w r}, R w r → R (u ++ w) (u ++ r)
  follow : ∀ {w r}, R w r → Follow ClauseEnd w r

/-- A relation under which a comma is never the end. -/
class CommaAware (R : Rel) : Prop extends Lookahead R where
  sharp : ∀ {w r}, R w r → (StatementEnd w ∧ StatementEnd r) ∨
    ∃ t w' r', w = t :: w' ∧ r = t :: r'

/-! ## The relations of interest -/

theorem StatementEnd.clauseEnd {w : List Located} (h : StatementEnd w) : ClauseEnd w := .inl h

/-- A statement ends at the end of the text or at a semicolon. -/
theorem StatementEnd.mark {w : List Located} (h : StatementEnd w) :
    (headOf w).token = .eof ∨ (headOf w).token = .semicolon := by
  rcases h with rfl | ⟨t, r, rfl, ht⟩
  · exact .inl rfl
  · exact .inr ht

/-- A clause ends at one of the three marks. -/
theorem ClauseEnd.mark {w : List Located} (h : ClauseEnd w) : EndMark (headOf w).token := by
  rcases h with h | ⟨t, r, rfl, ht, -⟩
  · rcases h.mark with h | h
    · exact .inl h
    · exact .inr (.inl h)
  · exact .inr (.inr ht)

/-- Where a clause ends there is no blank. -/
theorem ClauseEnd.clean {w : List Located} (h : ClauseEnd w) : Clean w := by
  rcases h with (rfl | ⟨t, r, rfl, ht⟩) | ⟨t, r, rfl, ht, -⟩
  · exact clean_nil
  · simp [Located.isWhitespace, ht, Token.isWhitespace]
  · simp [Located.isWhitespace, ht, Token.isWhitespace]

/-- Tokens that both rests start with make them go on alike for longer. -/
theorem Follow.append {E : List Located → Prop} {u w r : List Located} (h : Follow E w r) :
    Follow E (u ++ w) (u ++ r) := by
  obtain ⟨x, e, e', he, he', rfl, rfl⟩ := h
  exact ⟨u ++ x, e, e', he, he', by simp, by simp⟩

/-- Places at which more may end. -/
theorem Follow.mono {E E' : List Located → Prop} (hE : ∀ w, E w → E' w) {w r : List Located}
    (h : Follow E w r) : Follow E' w r := by
  obtain ⟨x, e, e', he, he', rfl, rfl⟩ := h
  exact ⟨x, e, e', hE _ he, hE _ he', rfl, rfl⟩

/-- Either both rests end here, or they go on with the same token. -/
theorem Follow.cases {E : List Located → Prop} {w r : List Located} (h : Follow E w r) :
    (E w ∧ E r) ∨ ∃ t w' r', w = t :: w' ∧ r = t :: r' ∧ Follow E w' r' := by
  obtain ⟨u, e, e', he, he', rfl, rfl⟩ := h
  cases u with
  | nil => exact .inl ⟨he, he'⟩
  | cons t u => exact .inr ⟨t, u ++ e, u ++ e', rfl, rfl, u, e, e', he, he', rfl, rfl⟩

/-- Blanks that come first are dropped on both sides, since nothing ends at a blank. -/
theorem Follow.dropWhile {w r : List Located} (h : Follow ClauseEnd w r) :
    Follow ClauseEnd (w.dropWhile Located.isWhitespace) (r.dropWhile Located.isWhitespace) := by
  obtain ⟨u, e, e', he, he', rfl, rfl⟩ := h
  induction u with
  | nil =>
      rw [List.nil_append, List.nil_append, dropWhile_of_clean he.clean,
        dropWhile_of_clean he'.clean]
      exact ⟨[], e, e', he, he', rfl, rfl⟩
  | cons t u ih =>
      by_cases ht : t.isWhitespace
      · simpa [ht] using ih
      · exact ⟨t :: u, e, e', he, he', by simp [ht], by simp [ht]⟩

/-- Rests that follow one another start with a blank together. -/
theorem Follow.clean {w r : List Located} (h : Follow ClauseEnd w r) (hw : Clean w) :
    Clean r := by
  rcases h.cases with ⟨-, hr⟩ | ⟨t, w', r', rfl, rfl, -⟩
  · exact hr.clean
  · simpa using hw

/-- The next solid token of two rests is the same, or something ends in both. -/
theorem Follow.nthSolid_zero {w r : List Located} (h : Follow ClauseEnd w r) :
    nthSolid 0 w = nthSolid 0 r ∨
      (EndMark (nthSolid 0 w).token ∧ EndMark (nthSolid 0 r).token) := by
  rw [← nthSolid_dropWhile 0 w, ← nthSolid_dropWhile 0 r,
    nthSolid_zero_of_clean (clean_dropWhile w), nthSolid_zero_of_clean (clean_dropWhile r)]
  rcases h.dropWhile.cases with ⟨hw, hr⟩ | ⟨t, w', r', hw, hr, -⟩
  · exact .inr ⟨hw.mark, hr.mark⟩
  · left
    rw [hw, hr]
    rfl

instance : Lookahead (Follow ClauseEnd) where
  append := Follow.append
  follow := id

instance : CommaAware (Follow StatementEnd) where
  append := Follow.append
  follow := Follow.mono fun _ h => h.clauseEnd
  sharp h := by
    rcases h.cases with h | ⟨t, w', r', hw, hr, -⟩
    · exact .inl h
    · exact .inr ⟨t, w', r', hw, hr⟩

/-- Rests that go on alike for a token at least are related. -/
theorem Lookahead.within {R : Rel} [Lookahead R] {w r : List Located} (h : Within R w r) :
    R w r := by
  obtain ⟨u, w', r', -, hR, rfl, rfl⟩ := h
  exact Lookahead.append hR

instance {R : Rel} [Lookahead R] : CommaAware (Within R) where
  append := by
    rintro u w r ⟨x, w', r', hx, hR, rfl, rfl⟩
    exact ⟨u ++ x, w', r', by simp [hx], hR, by simp, by simp⟩
  follow h := Lookahead.follow (Lookahead.within h)
  sharp := by
    rintro w r ⟨x, w', r', hx, hR, rfl, rfl⟩
    obtain ⟨t, x, rfl⟩ := List.exists_cons_of_ne_nil hx
    exact .inr ⟨t, x ++ w', x ++ r', rfl, rfl⟩

theorem Lookahead.clean {R : Rel} [Lookahead R] {w r : List Located} (h : R w r)
    (hw : Clean w) : Clean r := (Lookahead.follow h).clean hw

/-- The first token of two rests is the same, or something ends in both. -/
theorem Lookahead.mark {R : Rel} [Lookahead R] {w r : List Located} (h : R w r) :
    headOf w = headOf r ∨ (EndMark (headOf w).token ∧ EndMark (headOf r).token) := by
  rcases (Lookahead.follow h).cases with ⟨hw, hr⟩ | ⟨t, w', r', rfl, rfl, -⟩
  · exact .inr ⟨hw.mark, hr.mark⟩
  · exact .inl rfl

/-- The rests start with the same token, unless a statement ends in both. -/
theorem CommaAware.mark {R : Rel} [CommaAware R] {w r : List Located} (h : R w r) :
    headOf w = headOf r ∨ (((headOf w).token = .eof ∨ (headOf w).token = .semicolon) ∧
      ((headOf r).token = .eof ∨ (headOf r).token = .semicolon)) := by
  rcases CommaAware.sharp h with ⟨hw, hr⟩ | ⟨t, w', r', rfl, rfl⟩
  · exact .inr ⟨hw.mark, hr.mark⟩
  · exact .inl rfl

/-! ## Local readers -/

variable {α β γ : Type} {R : Rel}

/-- A successful run of the reader takes tokens and can be replayed on them in front of every
    rest that `R` relates to the one it left. -/
def Local (R : Rel) (p : Parser α) : Prop :=
  ∀ ctx c v c', c.overrun = 0 → p ctx c = .ok v c' → c'.overrun = 0 ∧
    ∃ used, c.rest = used ++ c'.rest ∧
      ∀ r, R c'.rest r → ∀ d : Cursor, d.At (used ++ r) → ∃ d', p ctx d = .ok v d' ∧ d'.At r

/-- The reader takes at least one token when it gives a value with this property. -/
def Takes (P : α → Prop) (p : Parser α) : Prop :=
  ∀ ctx c v c', c.overrun = 0 → p ctx c = .ok v c' → P v → c'.rest.length < c.rest.length

/-- The reader takes at least one token when it gives a value. -/
abbrev Consumes (p : Parser α) : Prop := Takes (fun _ => True) p

/-- The reader never gives a value. -/
def Fails (p : Parser α) : Prop := ∀ ctx c v c', p ctx c ≠ .ok v c'

theorem Fails.expected (what : String) (found : Located) :
    Fails (Parser.expected what found : Parser α) := fun _ _ _ _ => Parser.expected_ne_ok

/-- What fails gives no value to go on with. -/
theorem Fails.bind {p : Parser α} (hp : Fails p) (f : α → Parser β) : Fails (p >>= f) :=
  fun ctx c _ _ h => by
    obtain ⟨a, c1, ha, -⟩ := Parser.bind_ok.mp h
    exact hp ctx c a c1 ha

/-- Whatever comes first, a reader that fails behind it gives no value. -/
theorem Fails.bind_right {p : Parser α} {f : α → Parser β} (hf : ∀ a, Fails (f a)) :
    Fails (p >>= f) := fun ctx _ v c' h => by
  obtain ⟨a, c1, -, h⟩ := Parser.bind_ok.mp h
  exact hf a ctx c1 v c' h

theorem Fails.expected_peek (what : String) :
    Fails (do Parser.expected what (← Parser.peek) : Parser α) :=
  .bind_right fun _ => .expected _ _

namespace Local

/-- Nothing is put back behind the place where the run started. -/
theorem length_le {p : Parser α} (hp : Local R p) {ctx : Context} {c c' : Cursor} {v : α}
    (h0 : c.overrun = 0) (h : p ctx c = .ok v c') : c'.rest.length ≤ c.rest.length := by
  obtain ⟨-, used, hused, -⟩ := hp ctx c v c' h0 h
  rw [hused, List.length_append]
  omega

/-- A reader that replays in front of more rests replays in front of fewer. -/
theorem mono {R' : Rel} {p : Parser α} (hR : ∀ {w r}, R' w r → R w r) (hp : Local R p) :
    Local R' p := by
  intro ctx c v c' h0 h
  obtain ⟨h1, used, hused, hreplay⟩ := hp ctx c v c' h0 h
  exact ⟨h1, used, hused, fun r hr => hreplay r (hR hr)⟩

/-- What is local for all related rests is local for those that go on alike for a token. -/
theorem within [Lookahead R] {p : Parser α} (hp : Local R p) : Local (Within R) p :=
  hp.mono Lookahead.within

/-- A reader that leaves the cursor where it is, with a value that the context decides. -/
theorem of_still {p : Parser α}
    (hp : ∀ ctx c v c', p ctx c = .ok v c' → c = c' ∧ ∀ d, p ctx d = .ok v d) : Local R p := by
  intro ctx c v c' h0 h
  obtain ⟨rfl, hd⟩ := hp ctx c v c' h
  exact ⟨h0, [], rfl, fun r _ d hat => ⟨d, hd d, hat⟩⟩

/-- A value takes no tokens, so every rest will do. -/
theorem pure (a : α) : Local R (pure a : Parser α) := by
  refine of_still fun ctx c v c' h => ?_
  obtain ⟨rfl, rfl⟩ := Parser.pure_ok.mp h
  exact ⟨rfl, fun d => Parser.pure_ok.mpr ⟨rfl, rfl⟩⟩

theorem read : Local R (read : Parser Settings) := by
  refine of_still fun ctx c v c' h => ?_
  obtain ⟨rfl, rfl⟩ := Parser.read_ok.mp h
  exact ⟨rfl, fun d => Parser.read_ok.mpr ⟨rfl, rfl⟩⟩

theorem remaining : Local R Parser.remaining := by
  refine of_still fun ctx c v c' h => ?_
  obtain ⟨rfl, rfl⟩ := Parser.remaining_ok.mp h
  exact ⟨rfl, fun d => Parser.remaining_ok.mpr ⟨rfl, rfl⟩⟩

/-- A reader that never gives a value has no run to replay. -/
theorem of_fails {p : Parser α} (hp : Fails p) : Local R p :=
  fun ctx c v c' _ h => absurd h (hp ctx c v c')

theorem throw (e : ParseError) : Local R (throw e : Parser α) :=
  of_fails fun _ _ _ _ => Parser.throw_ne_ok

theorem expected (what : String) (found : Located) :
    Local R (Parser.expected what found : Parser α) := throw _

theorem expected_peek (what : String) :
    Local R (do Parser.expected what (← Parser.peek) : Parser α) :=
  of_fails (Fails.expected_peek what)

/-- One reader after the other. -/
theorem bind [Lookahead R] {p : Parser α} {f : α → Parser β} (hp : Local R p)
    (hf : ∀ a, Local R (f a)) : Local R (p >>= f) := by
  intro ctx c v c' h0 h
  obtain ⟨a, c1, ha, h⟩ := Parser.bind_ok.mp h
  obtain ⟨h1, used, hused, hreplay⟩ := hp ctx c a c1 h0 ha
  obtain ⟨h2, used', hused', hreplay'⟩ := hf a ctx c1 v c' h1 h
  refine ⟨h2, used ++ used', by rw [hused, hused', List.append_assoc], fun r hr d hd => ?_⟩
  obtain ⟨d1, hd1, hat1⟩ := hreplay (used' ++ r) (hused' ▸ Lookahead.append hr) d
    (by rwa [← List.append_assoc])
  obtain ⟨d2, hd2, hat2⟩ := hreplay' r hr d1 hat1
  exact ⟨d2, Parser.bind_ok.mpr ⟨a, d1, hd1, hd2⟩, hat2⟩

/-- A reader that something has to follow. -/
theorem bind_within [Lookahead R] {p : Parser α} {f : α → Parser β} (hp : Local (Within R) p)
    (hf : ∀ a, Local R (f a)) (hc : ∀ a, Consumes (f a)) : Local R (p >>= f) := by
  intro ctx c v c' h0 h
  obtain ⟨a, c1, ha, h⟩ := Parser.bind_ok.mp h
  obtain ⟨h1, used, hused, hreplay⟩ := hp ctx c a c1 h0 ha
  obtain ⟨h2, used', hused', hreplay'⟩ := hf a ctx c1 v c' h1 h
  have hne : used' ≠ [] := by
    rintro rfl
    have := hc a ctx c1 v c' h1 h trivial
    rw [hused'] at this
    simp at this
  refine ⟨h2, used ++ used', by rw [hused, hused', List.append_assoc], fun r hr d hd => ?_⟩
  obtain ⟨d1, hd1, hat1⟩ := hreplay (used' ++ r)
    ⟨used', c'.rest, r, hne, hr, hused', rfl⟩ d (by rwa [← List.append_assoc])
  obtain ⟨d2, hd2, hat2⟩ := hreplay' r hr d1 hat1
  exact ⟨d2, Parser.bind_ok.mpr ⟨a, d1, hd1, hd2⟩, hat2⟩

/-- What is done with a value does not look at the rest. -/
theorem map {p : Parser α} (g : α → β) (hp : Local R p) : Local R (g <$> p) := by
  intro ctx c v c' h0 h
  obtain ⟨a, ha, rfl⟩ := Parser.map_ok.mp h
  obtain ⟨h1, used, hused, hreplay⟩ := hp ctx c a c' h0 ha
  refine ⟨h1, used, hused, fun r hr d hd => ?_⟩
  obtain ⟨d1, hd1, hat1⟩ := hreplay r hr d hd
  exact ⟨d1, Parser.map_ok.mpr ⟨a, hd1, rfl⟩, hat1⟩

/-- A choice that was made before the reader starts. -/
theorem ite {b : Prop} [Decidable b] {p q : Parser α} (hp : Local R p) (hq : Local R q) :
    Local R (if b then p else q) := by
  split
  · exact hp
  · exact hq

/-- A reader that starts with a test. -/
theorem test [Lookahead R] {p : Parser Bool} {q q' : Parser α} (hp : Local R p)
    (hq : Local R q) (hq' : Local R q') : Local R (p >>= fun b => if b then q else q') :=
  hp.bind fun _ => hq.ite hq'

/-- Two ways of reading something that the reader goes on with. -/
theorem ite_bind [Lookahead R] {b : Prop} [Decidable b] {p q : Parser α} {f : α → Parser β}
    (hp : Local R p) (hq : Local R q) (hf : ∀ a, Local R (f a)) :
    Local R (if b then p >>= f else q >>= f) := (hp.bind hf).ite (hq.bind hf)

/-- A test decides between two ways of reading something that the reader goes on with. -/
theorem test_bind [Lookahead R] {t : Parser Bool} {p q : Parser α} {f : α → Parser β}
    (ht : Local R t) (hp : Local R p) (hq : Local R q) (hf : ∀ a, Local R (f a)) :
    Local R (t >>= fun b => if b then p >>= f else q >>= f) :=
  ht.bind fun _ => hp.ite_bind hq hf

/-- The levels that are left are the same when a run is replayed. -/
theorem descend {p : Parser α} (hp : Local R p) : Local R (Parser.descend p) := by
  intro ctx c v c' h0 h
  obtain ⟨depth, hdepth, h⟩ := Parser.descend_ok.mp h
  obtain ⟨h1, used, hused, hreplay⟩ := hp _ c v c' h0 h
  refine ⟨h1, used, hused, fun r hr d hd => ?_⟩
  obtain ⟨d1, hd1, hat1⟩ := hreplay r hr d hd
  exact ⟨d1, Parser.descend_ok.mpr ⟨depth, hdepth, hd1⟩, hat1⟩

end Local

/-! ## Readers that take tokens -/

namespace Takes

variable {P : α → Prop} {Q : β → Prop}

/-- Without values there are none that took nothing. -/
theorem of_fails {p : Parser α} (hp : Fails p) : Takes P p :=
  fun ctx c v c' _ h => absurd h (hp ctx c v c')

/-- A value by itself takes nothing, so it must not say that it has. -/
theorem pure {a : α} (h : ¬ P a) : Takes P (pure a : Parser α) := by
  intro ctx c v c' _ hrun hv
  obtain ⟨rfl, -⟩ := Parser.pure_ok.mp hrun
  exact absurd hv h

/-- The first of two readers takes a token, or gives a value for which the second does. -/
theorem bind {p : Parser α} {f : α → Parser β} (hp : Takes P p) (hl : Local R p)
    (hf : ∀ a, Local R (f a)) (hn : ∀ a, ¬ P a → Takes Q (f a)) : Takes Q (p >>= f) := by
  intro ctx c v c' h0 h hv
  obtain ⟨a, c1, ha, h⟩ := Parser.bind_ok.mp h
  have h1 := (hl ctx c a c1 h0 ha).1
  by_cases hP : P a
  · exact Nat.lt_of_le_of_lt ((hf a).length_le h1 h) (hp ctx c a c1 h0 ha hP)
  · exact Nat.lt_of_lt_of_le (hn a hP ctx c1 v c' h1 h hv) (hl.length_le h0 ha)

/-- The first reader has taken a token, and the second puts none back. -/
theorem bind_left {p : Parser α} {f : α → Parser β} (hp : Consumes p) (hl : Local R p)
    (hf : ∀ a, Local R (f a)) : Takes Q (p >>= f) :=
  bind hp hl hf fun _ h => absurd trivial h

/-- The second reader takes the token. -/
theorem bind_right {p : Parser α} {f : α → Parser β} (hl : Local R p)
    (hf : ∀ a, Takes Q (f a)) : Takes Q (p >>= f) := by
  intro ctx c v c' h0 h hv
  obtain ⟨a, c1, ha, h⟩ := Parser.bind_ok.mp h
  have h1 := (hl ctx c a c1 h0 ha).1
  exact Nat.lt_of_lt_of_le (hf a ctx c1 v c' h1 h hv) (hl.length_le h0 ha)

theorem map {p : Parser α} {g : α → β} (hp : Takes (fun a => Q (g a)) p) :
    Takes Q (g <$> p) := by
  intro ctx c v c' h0 h hv
  obtain ⟨a, ha, rfl⟩ := Parser.map_ok.mp h
  exact hp ctx c a c' h0 ha hv

theorem ite {b : Prop} [Decidable b] {p q : Parser α} (hp : Takes P p) (hq : Takes P q) :
    Takes P (if b then p else q) := by
  split
  · exact hp
  · exact hq

theorem descend {p : Parser α} (hp : Takes P p) : Takes P (Parser.descend p) := by
  intro ctx c v c' h0 h hv
  obtain ⟨depth, hdepth, h⟩ := Parser.descend_ok.mp h
  exact hp _ c v c' h0 h hv

/-- A reader that starts with a test: it takes a token if the test does, or if what it does
    otherwise does. -/
theorem test {p : Parser Bool} {q q' : Parser α} (hp : Takes (· = true) p) (hl : Local R p)
    (hq : Local R q) (hq' : Local R q') (ht : Takes P q') :
    Takes P (p >>= fun b => if b then q else q') :=
  bind hp hl (fun _ => hq.ite hq') fun b hb => by
    rw [if_neg hb]
    exact ht

end Takes

/-- The reader is local, and takes at least one token when it gives a value with this
    property. -/
structure Offers (R : Rel) (P : α → Prop) (p : Parser α) : Prop where
  isLocal : Local R p
  takes   : Takes P p

/-- The reader is local, and takes at least one token when it gives a value. -/
abbrev Reads (R : Rel) (p : Parser α) : Prop := Offers R (fun _ => True) p

namespace Offers

variable {P : α → Prop} {Q : β → Prop}

theorem pure {a : α} (h : ¬ P a) : Offers R P (pure a : Parser α) := ⟨.pure a, .pure h⟩

theorem of_fails {p : Parser α} (hp : Fails p) : Offers R P p := ⟨.of_fails hp, .of_fails hp⟩

/-- What always takes a token takes one for the values asked about. -/
theorem any {p : Parser α} (hp : Reads R p) : Offers R P p :=
  ⟨hp.isLocal, fun ctx c v c' h0 h _ => hp.takes ctx c v c' h0 h trivial⟩

theorem map {p : Parser α} {g : α → β} (hp : Offers R (fun a => Q (g a)) p) :
    Offers R Q (g <$> p) := ⟨hp.isLocal.map g, hp.takes.map⟩

theorem ite {b : Prop} [Decidable b] {p q : Parser α} (hp : Offers R P p)
    (hq : Offers R P q) : Offers R P (if b then p else q) :=
  ⟨hp.isLocal.ite hq.isLocal, hp.takes.ite hq.takes⟩

theorem descend {p : Parser α} (hp : Offers R P p) : Offers R P (Parser.descend p) :=
  ⟨hp.isLocal.descend, hp.takes.descend⟩

variable [Lookahead R]

/-- The first of two readers takes a token. -/
theorem bind {p : Parser α} {f : α → Parser β} (hp : Reads R p) (hf : ∀ a, Local R (f a)) :
    Offers R Q (p >>= f) := ⟨hp.isLocal.bind hf, hp.takes.bind_left hp.isLocal hf⟩

/-- The second of two readers takes a token. -/
theorem bind_right {p : Parser α} {f : α → Parser β} (hp : Local R p)
    (hf : ∀ a, Offers R Q (f a)) : Offers R Q (p >>= f) :=
  ⟨hp.bind fun a => (hf a).isLocal, .bind_right hp fun a => (hf a).takes⟩

/-- The first of two readers gives something, or what the reader does otherwise takes a
    token. -/
theorem bind_option {p : Parser (Option α)} {f : Option α → Parser β}
    (hp : Offers R (· ≠ none) p) (hf : ∀ a, Local R (f a)) (hnone : Offers R Q (f none)) :
    Offers R Q (p >>= f) := by
  refine ⟨hp.isLocal.bind hf, hp.takes.bind hp.isLocal hf fun a ha => ?_⟩
  obtain rfl : a = none := by simpa using ha
  exact hnone.takes

/-- Either a test takes a token, or what the reader does otherwise. -/
theorem test {p : Parser Bool} {q q' : Parser α} (hp : Offers R (· = true) p)
    (hq : Local R q) (hq' : Offers R P q') :
    Offers R P (p >>= fun b => if b then q else q') :=
  ⟨hp.isLocal.test hq hq'.isLocal, hp.takes.test hp.isLocal hq hq'.isLocal hq'.takes⟩

end Offers

/-- A reader with something behind it that takes a token. -/
theorem Local.bind_reads [Lookahead R] {p : Parser α} {f : α → Parser β}
    (hp : Local (Within R) p) (hf : ∀ a, Reads R (f a)) : Local R (p >>= f) :=
  hp.bind_within (fun a => (hf a).isLocal) fun a => (hf a).takes

end SchemaSql
