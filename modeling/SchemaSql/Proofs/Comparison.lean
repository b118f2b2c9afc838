import SchemaSql.Proofs.Locality.Statements

/-! # Comparison — two runs of a reader, side by side

    A `Comparison` says when two cursors, two tokens and two endings of a run count as alike.
    `K.Alike V p q` says that `p` and `q`, started at like cursors, end alike: with values that
    `V` relates and at like cursors, or with like errors.  Unlike a fact about the values of a
    reader, this is a fact about its errors too.

    * `Comparison.Lawful` is what the primitive readers ask of a comparison; `Dialectal`,
      `Listing` and `Nesting` are what the readers ask that look at the dialect, that read lists
      and that go one level down.
    * The rules below follow the way readers are written: one for each way of joining them, one
      for each way of looking at a token, and one for loops, whose bounds may differ in the two
      runs because neither is ever reached.

    Every reader of the library is shown once to be alike to itself under any such comparison;
    what a particular comparison means for whole runs is then an instance. -/

namespace SchemaSql

open Cursor SchemaSql.Parser

/-- What counts as alike in two runs. -/
structure Comparison where
  cursors : Cursor → Cursor → Prop
  tokens  : Located → Located → Prop
  /-- How many more levels of nesting the two runs may take. -/
  levels  : Nat → Nat → Prop
  /-- An error of the first run, and the error of the second; `none` if that gave a value. -/
  errors  : ParseError → Option ParseError → Prop
  dialects : Dialect → Dialect → Prop := Eq
  options  : Options → Options → Prop := Eq

namespace Comparison

variable {α β γ δ : Type}

/-- The contexts of two runs are alike part by part. -/
structure Contexts (K : Comparison) (ctx ctx' : Context) : Prop where
  dialect : K.dialects ctx.dialect ctx'.dialect
  options : K.options ctx.options ctx'.options
  levels  : K.levels ctx.depth ctx'.depth

/-- How two runs end. -/
inductive Results (K : Comparison) (V : α → β → Prop) :
    EStateM.Result ParseError Cursor α → EStateM.Result ParseError Cursor β → Prop where
  | ok {v w c d} (hv : V v w) (hc : K.cursors c d) : Results K V (.ok v c) (.ok w d)
  | error {e f c d} (h : K.errors e (some f)) : Results K V (.error e c) (.error f d)
  | cut {e c w d} (h : K.errors e none) : Results K V (.error e c) (.ok w d)

/-- Two readers that end alike wherever they start alike. -/
def Alike (K : Comparison) (V : α → β → Prop) (p : Parser α) (q : Parser β) : Prop :=
  ∀ ctx ctx' c d, K.Contexts ctx ctx' → K.cursors c d → K.Results V (p ctx c) (q ctx' d)

/-- A reader that ends with the same value wherever it starts alike. -/
abbrev Steady (K : Comparison) (p : Parser α) : Prop := K.Alike Eq p p

/-- Two readers that fail alike, wherever they start. -/
def Throws (K : Comparison) (p : Parser α) (q : Parser β) : Prop :=
  ∀ ctx ctx' c d, ∃ e f c' d', p ctx c = .error e c' ∧ q ctx' d = .error f d' ∧
    K.errors e (some f)

/-- What the primitive readers ask of a comparison. -/
class Lawful (K : Comparison) : Prop where
  overrun : ∀ {c d}, K.cursors c d → c.overrun = 0 ∧ d.overrun = 0
  peekNth : ∀ {c d}, K.cursors c d → ∀ n, K.tokens (c.peekNth n) (d.peekNth n)
  ends    : ∀ {c d}, K.cursors c d → (c.rest = [] ↔ d.rest = [])
  next    : ∀ {c d}, K.cursors c d → c.rest ≠ [] → K.cursors c.next.2 d.next.2
  /-- Reading at the end of the text can be undone. -/
  undo    : ∀ {c d}, K.cursors c d → c.rest = [] → K.cursors c.next.2.back d.next.2.back
  back    : ∀ {c d}, K.cursors c d → K.cursors c.back d.back
  token   : ∀ {t u}, K.tokens t u → t.token = u.token
  /-- An error about a token, whichever it is, is like the same error about a like token. -/
  refuses : ∀ {t u} (f : Located → ParseError), (∀ t, (f t).kind = .syntactic) → K.tokens t u →
    K.errors (f t) (some (f u))
  cut     : ∀ {e}, K.errors e none → ∀ o, K.errors e o
  /-- The readers that see blanks. -/
  group   : K.Steady groupText
  value   : K.Steady valueText

/-- What the readers ask that look at the dialect: names are read alike, and the optional parts
    of the language exist in both runs or in neither, unless the token they start with cannot
    stand there. -/
class Dialectal (K : Comparison) : Prop extends Lawful K where
  ident    : ∀ inFrom, K.Steady (Ident.parse inFrom)
  pipes    : ∀ {d d'}, K.dialects d d' → d.pipeOperators = d'.pipeOperators ∨
    ∀ t u, K.tokens t u → t.token ≠ .pipeArrow
  synonyms : ∀ {d d'}, K.dialects d d' → d.synonyms = d'.synonyms ∨
    ∀ t u, K.tokens t u → t.token.keyword? ≠ some .create

/-- What the readers of lists ask: both runs, or neither, may end a list in a comma. -/
class Listing (K : Comparison) : Prop where
  trailing : ∀ {o o'}, K.options o o' → o.trailingCommas = o'.trailingCommas

/-- What the readers ask that go one level down: both runs can, or neither, or the first ends
    with an error that is like every ending. -/
class Nesting (K : Comparison) : Prop extends Dialectal K where
  levels : ∀ {n m}, K.levels n m →
    (n = 0 ∧ (m = 0 ∨ K.errors .recursionLimitExceeded none)) ∨
      ∃ n' m', n = n' + 1 ∧ m = m' + 1 ∧ K.levels n' m'
  limit  : K.errors .recursionLimitExceeded (some .recursionLimitExceeded)

/-! ## Endings -/

variable {K : Comparison} {V : α → β → Prop} {W : γ → δ → Prop}

/-- An error that cuts the first run short is like every ending. -/
theorem Results.of_cut [Lawful K] {e : ParseError} (h : K.errors e none) (c : Cursor)
    (s : EStateM.Result ParseError Cursor β) : K.Results V (.error e c) s := by
  cases s with
  | ok => exact .cut h
  | error f => exact .error (Lawful.cut h _)

/-- Like errors are thrown from everywhere. -/
theorem Throws.throw {e f : ParseError} (h : K.errors e (some f)) :
    K.Throws (MonadExcept.throw e : Parser α) (MonadExcept.throw f : Parser β) :=
  fun _ _ c d => ⟨e, f, c, d, rfl, rfl, h⟩

/-- What stands behind an error does not matter, so the readers there may be any. -/
theorem Throws.bind {p : Parser α} {q : Parser β} (h : K.Throws p q) (f : α → Parser γ)
    (g : β → Parser δ) : K.Throws (p >>= f) (q >>= g) := by
  intro ctx ctx' c d
  obtain ⟨e, e', c', d', hp, hq, he⟩ := h ctx ctx' c d
  refine ⟨e, e', c', d', ?_, ?_, he⟩
  · simp only [Parser.bind_apply, hp]
  · simp only [Parser.bind_apply, hq]

theorem Throws.read {f g : Settings → Parser α} (h : ∀ s s', K.Throws (f s) (g s')) :
    K.Throws (MonadReader.read >>= f : Parser α) (MonadReader.read >>= g) :=
  fun ctx ctx' c d => h ctx.toSettings ctx'.toSettings ctx ctx' c d

/-- Readers that fail alike are alike whatever is said of their values. -/
theorem Throws.alike {p : Parser α} {q : Parser β} (h : K.Throws p q) : K.Alike V p q := by
  intro ctx ctx' c d _ _
  obtain ⟨e, f, c', d', hp, hq, he⟩ := h ctx ctx' c d
  rw [hp, hq]
  exact .error he

namespace Alike

/-- Values may be related more weakly. -/
theorem mono {V' : α → β → Prop} {p : Parser α} {q : Parser β} (h : K.Alike V p q)
    (hV : ∀ a b, V a b → V' a b) : K.Alike V' p q := by
  intro ctx ctx' c d hctx hc
  have hrs := h ctx ctx' c d hctx hc
  generalize p ctx c = r at hrs ⊢
  generalize q ctx' d = s at hrs ⊢
  rcases hrs with ⟨hv, hc'⟩ | he | he
  · exact .ok (hV _ _ hv) hc'
  · exact .error he
  · exact .cut he

theorem pure {a : α} {b : β} (h : V a b) :
    K.Alike V (Pure.pure a : Parser α) (Pure.pure b : Parser β) :=
  fun _ _ _ _ _ hc => .ok h hc

theorem throw {e f : ParseError} (h : K.errors e (some f)) :
    K.Alike V (MonadExcept.throw e : Parser α) (MonadExcept.throw f : Parser β) :=
  (Throws.throw h).alike

/-- A choice that both runs make in the same way. -/
theorem ite {b : Prop} [Decidable b] {p p' : Parser α} {q q' : Parser β} (hp : K.Alike V p q)
    (hp' : K.Alike V p' q') : K.Alike V (if b then p else p') (if b then q else q') := by
  split
  · exact hp
  · exact hp'

/-- What is done with the values has to respect how they are related. -/
theorem map {p : Parser α} {q : Parser β} {f : α → γ} {g : β → δ} (h : K.Alike V p q)
    (hf : ∀ a b, V a b → W (f a) (g b)) : K.Alike W (f <$> p) (g <$> q) := by
  intro ctx ctx' c d hctx hc
  simp only [Parser.map_apply]
  have hrs := h ctx ctx' c d hctx hc
  generalize p ctx c = r at hrs ⊢
  generalize q ctx' d = s at hrs ⊢
  rcases hrs with ⟨hv, hc'⟩ | he | he
  · exact .ok (hf _ _ hv) hc'
  · exact .error he
  · exact .cut he

/-- A reader that asks for the settings. -/
theorem read {f : Settings → Parser α} {g : Settings → Parser β}
    (h : ∀ ctx ctx', K.Contexts ctx ctx' → K.Alike V (f ctx.toSettings) (g ctx'.toSettings)) :
    K.Alike V (MonadReader.read >>= f : Parser α) (MonadReader.read >>= g) :=
  fun ctx ctx' c d hctx hc => h ctx ctx' hctx ctx ctx' c d hctx hc

/-- A reader that asks how many levels are left. -/
theorem remaining {f : Nat → Parser α} {g : Nat → Parser β}
    (h : ∀ n m, K.levels n m → K.Alike V (f n) (g m)) :
    K.Alike V (Parser.remaining >>= f) (Parser.remaining >>= g) :=
  fun ctx ctx' c d hctx hc => h ctx.depth ctx'.depth hctx.levels ctx ctx' c d hctx hc

/-- A reader that asks where it is. -/
theorem get {f : Cursor → Parser α} {g : Cursor → Parser β}
    (h : ∀ c d, K.cursors c d → K.Alike V (f c) (g d)) :
    K.Alike V (MonadState.get >>= f : Parser α) (MonadState.get >>= g) :=
  fun ctx ctx' c d hctx hc => h c d hc ctx ctx' c d hctx hc

/-- Going back to a place that was kept. -/
theorem set {c d : Cursor} (h : K.cursors c d) :
    K.Alike Eq (MonadStateOf.set c : Parser PUnit) (MonadStateOf.set d : Parser PUnit) :=
  fun _ _ _ _ _ _ => .ok rfl h

variable [Lawful K]

/-- One reader after the other. -/
theorem bind {p : Parser α} {q : Parser β} {f : α → Parser γ} {g : β → Parser δ}
    (h : K.Alike V p q) (hf : ∀ a b, V a b → K.Alike W (f a) (g b)) :
    K.Alike W (p >>= f) (q >>= g) := by
  intro ctx ctx' c d hctx hc
  simp only [Parser.bind_apply]
  have hrs := h ctx ctx' c d hctx hc
  generalize p ctx c = r at hrs ⊢
  generalize q ctx' d = s at hrs ⊢
  rcases hrs with ⟨hv, hc'⟩ | he | he
  · exact hf _ _ hv _ _ _ _ hctx hc'
  · exact .error he
  · -- the first run was cut short, so the second may go on as it likes
    exact .of_cut he _ _

/-- One reader after the other, where the first gives the same value in both runs. -/
theorem next {p q : Parser α} {f : α → Parser γ} {g : α → Parser δ} (h : K.Alike Eq p q)
    (hf : ∀ a, K.Alike W (f a) (g a)) : K.Alike W (p >>= f) (q >>= g) :=
  h.bind fun _ _ hab => hab ▸ hf _

/-- A reader that starts with a test. -/
theorem test {t t' : Parser Bool} {p p' : Parser α} {q q' : Parser β} (ht : K.Alike Eq t t')
    (hp : K.Alike V p q) (hp' : K.Alike V p' q') :
    K.Alike V (t >>= fun b => if b then p else p') (t' >>= fun b => if b then q else q') :=
  ht.next fun _ => hp.ite hp'

/-- Two ways of reading something that the reader goes on with. -/
theorem ite_next {b : Prop} [Decidable b] {p p' q q' : Parser α} {f : α → Parser γ}
    {g : α → Parser δ} (hp : K.Alike Eq p q) (hp' : K.Alike Eq p' q')
    (hf : ∀ a, K.Alike W (f a) (g a)) :
    K.Alike W (if b then p >>= f else p' >>= f) (if b then q >>= g else q' >>= g) :=
  (hp.next hf).ite (hp'.next hf)

/-- A test decides between two ways of reading something that the reader goes on with. -/
theorem test_next {t t' : Parser Bool} {p p' q q' : Parser α} {f : α → Parser γ}
    {g : α → Parser δ} (ht : K.Alike Eq t t') (hp : K.Alike Eq p q) (hp' : K.Alike Eq p' q')
    (hf : ∀ a, K.Alike W (f a) (g a)) :
    K.Alike W (t >>= fun b => if b then p >>= f else p' >>= f)
      (t' >>= fun b => if b then q >>= g else q' >>= g) :=
  ht.next fun _ => hp.ite_next hp' hf

/-- Putting a token back leads like places to like places. -/
theorem back : K.Steady back := fun _ _ _ _ _ hc => .ok rfl (Lawful.back hc)

/-! ## Refusals -/

/-- Errors about like tokens are alike. -/
theorem expected {t u : Located} (what : String) (h : K.tokens t u) :
    K.Alike V (Parser.expected what t : Parser α) (Parser.expected what u : Parser β) :=
  .throw (Lawful.refuses (.expected what) (fun _ => rfl) h)

end Alike

theorem Throws.expected [Lawful K] {t u : Located} (what : String) (h : K.tokens t u) :
    K.Throws (Parser.expected what t : Parser α) (Parser.expected what u : Parser β) :=
  .throw (Lawful.refuses (.expected what) (fun _ => rfl) h)

/-! ## Tokens -/

section

variable [Lawful K] {c d : Cursor}

theorem Lawful.peek (h : K.cursors c d) : K.tokens c.peek d.peek := Lawful.peekNth h 0

/-- Places that are alike look at the same token, though it may stand elsewhere. -/
theorem Lawful.peek_token (h : K.cursors c d) : c.peek.token = d.peek.token :=
  Lawful.token (Lawful.peek h)

/-- Reading a token that is there. -/
theorem Lawful.next_of_token (h : K.cursors c d) (ht : c.peek.token ≠ .eof) :
    K.cursors c.next.2 d.next.2 := by
  refine Lawful.next h fun hnil => ht ?_
  rw [peek_eq, hnil]
  rfl

/-- A test that the tokens of two like cursors pass alike. -/
theorem Lawful.peek_congr {γ : Type} (h : K.cursors c d) (f : Token → γ) :
    f c.peek.token = f d.peek.token := congrArg f (Lawful.peek_token h)

end

namespace Alike

variable [Lawful K]

/-- A reader that looks at the next token: what matters is the token, not where it stands. -/
theorem peek {k : Located → Parser α} {k' : Located → Parser β}
    (hk : ∀ token l l', K.tokens ⟨token, l⟩ ⟨token, l'⟩ →
      K.Alike V (k ⟨token, l⟩) (k' ⟨token, l'⟩)) :
    K.Alike V (Parser.peek >>= k) (Parser.peek >>= k') := by
  intro ctx ctx' c d hctx hc
  rw [bind_run (peek_ok.mpr ⟨rfl, rfl⟩), bind_run (peek_ok.mpr ⟨rfl, rfl⟩)]
  have ht := Lawful.peek hc
  revert ht
  obtain ⟨token, l⟩ := c.peek
  obtain ⟨token', l'⟩ := d.peek
  intro ht
  obtain rfl : token = token' := Lawful.token ht
  exact hk token l l' ht ctx ctx' c d hctx hc

/-- A reader that takes the next token, where `heof` says what it does at the end. -/
theorem next_or {k : Located → Parser α} {k' : Located → Parser β}
    (hk : ∀ token l l', K.tokens ⟨token, l⟩ ⟨token, l'⟩ →
      K.Alike V (k ⟨token, l⟩) (k' ⟨token, l'⟩))
    (heof : K.tokens .eof .eof → ∀ ctx ctx' c d, K.Contexts ctx ctx' → K.cursors c.back d.back →
      K.Results V (k .eof ctx c) (k' .eof ctx' d)) :
    K.Alike V (Parser.next >>= k) (Parser.next >>= k') := by
  intro ctx ctx' c d hctx hc
  rw [bind_run (next_run ctx c), bind_run (next_run ctx' d)]
  have ht := Lawful.peek hc
  -- both cursors are at the end, or both have a next token
  by_cases hnil : c.rest = []
  · have hnil' := (Lawful.ends hc).mp hnil
    have heq : c.peek = .eof := by rw [peek_eq, hnil]; rfl
    have heq' : d.peek = .eof := by rw [peek_eq, hnil']; rfl
    rw [heq, heq'] at ht ⊢
    exact heof ht ctx ctx' _ _ hctx (Lawful.undo hc hnil)
  · have hnext := Lawful.next hc hnil
    revert ht
    obtain ⟨token, l⟩ := c.peek
    obtain ⟨token', l'⟩ := d.peek
    intro ht
    obtain rfl : token = token' := Lawful.token ht
    exact hk token l l' ht ctx ctx' _ _ hctx hnext

/-- A reader that takes the next token, and fails at the end. -/
theorem next_token {k : Located → Parser α} {k' : Located → Parser β}
    (hk : ∀ token l l', K.tokens ⟨token, l⟩ ⟨token, l'⟩ →
      K.Alike V (k ⟨token, l⟩) (k' ⟨token, l'⟩))
    (heof : K.tokens .eof .eof → K.Throws (k .eof) (k' .eof)) :
    K.Alike V (Parser.next >>= k) (Parser.next >>= k') := by
  refine next_or hk fun ht ctx ctx' c d _ _ => ?_
  obtain ⟨e, f, c', d', hp, hq, he⟩ := heof ht ctx ctx' c d
  rw [hp, hq]
  exact .error he

theorem expected_peek (what : String) :
    K.Alike V (do Parser.expected what (← Parser.peek) : Parser α)
      (do Parser.expected what (← Parser.peek) : Parser β) :=
  peek fun _ _ _ h => .expected what h

/-- A reader that asks which token is next. -/
theorem peek_if {token : Token} {p p' : Parser α} {q q' : Parser β} (hp : K.Alike V p q)
    (hp' : K.Alike V p' q') :
    K.Alike V (do if (← Parser.peek).token = token then p else p')
      (do if (← Parser.peek).token = token then q else q') :=
  peek fun _ _ _ _ => hp.ite hp'

/-- Both runs see the same token ahead and make the same choice. -/
theorem peek_if_next {token : Token} {p p' q q' : Parser α} {f : α → Parser γ}
    {g : α → Parser δ} (hp : K.Alike Eq p q) (hp' : K.Alike Eq p' q')
    (hf : ∀ a, K.Alike W (f a) (g a)) :
    K.Alike W (do if (← Parser.peek).token = token then p >>= f else p' >>= f)
      (do if (← Parser.peek).token = token then q >>= g else q' >>= g) :=
  peek_if (hp.next hf) (hp'.next hf)

end Alike

/-! ## Taking one particular token -/

namespace Steady

variable [Lawful K]

/-- A token that is accepted in one run is accepted in the other. -/
theorem accept {token : Token} (h : token ≠ .eof) : K.Steady (accept token) := by
  intro ctx ctx' c d _ hc
  simp only [accept_run, ← Lawful.peek_token hc]
  split
  · rename_i ht
    exact .ok rfl (Lawful.next_of_token hc (ht ▸ h))
  · exact .ok rfl hc

theorem acceptEquals : K.Steady acceptEquals := accept (by simp)

/-- A spelling is looked for in the token, and the token is the same. -/
theorem acceptSpelling (spelling : String) : K.Steady (acceptSpelling spelling) := by
  intro ctx ctx' c d _ hc
  have heq : spelled spelling c.peek = spelled spelling d.peek :=
    Lawful.peek_congr hc fun token => spelled spelling { token }
  rw [acceptSpelling_run, acceptSpelling_run, ← heq]
  split
  · rename_i ht
    refine .ok rfl (Lawful.next_of_token hc fun heof => ?_)
    simp [spelled, heof] at ht
  · exact .ok rfl hc

/-- Whether a keyword is ahead does not depend on where its token stands. -/
theorem hasKeyword_congr {keyword : Option Keyword} {c d : Cursor} (hc : K.cursors c d) :
    hasKeyword keyword c.peek = hasKeyword keyword d.peek :=
  Lawful.peek_congr hc fun token => hasKeyword keyword { token }

/-- A word is not the end, so places behind it are alike. -/
theorem next_of_hasKeyword {keyword : Option Keyword} {c d : Cursor} (hc : K.cursors c d)
    (h : hasKeyword keyword c.peek = true) : K.cursors c.next.2 d.next.2 :=
  Lawful.next_of_token hc fun heof => by simp [hasKeyword, heof] at h

/-- A word that was found keeps its place. -/
theorem acceptWord? (keyword : Option Keyword) :
    K.Alike (Option.Rel K.tokens) (Parser.acceptWord? keyword) (Parser.acceptWord? keyword) := by
  intro ctx ctx' c d _ hc
  rw [acceptWord?_run, acceptWord?_run, ← hasKeyword_congr hc]
  split
  · rename_i ht
    exact .ok (.some (Lawful.peek hc)) (next_of_hasKeyword hc ht)
  · exact .ok .none hc

theorem acceptKeyword (keyword : Keyword) : K.Steady (acceptKeyword keyword) :=
  (acceptWord? _).map fun _ _ h => by cases h <;> rfl

/-- The same keyword is found in both runs, whichever of them it is. -/
theorem acceptWordOf (keywords : List (Option Keyword)) : K.Steady (acceptWordOf keywords) := by
  intro ctx ctx' c d _ hc
  have heq : keywordOf keywords c.peek = keywordOf keywords d.peek :=
    Lawful.peek_congr hc fun token => keywordOf keywords { token }
  rw [acceptWordOf_run, acceptWordOf_run, ← heq]
  split
  · rename_i ht
    refine .ok rfl (Lawful.next_of_token hc fun heof => ?_)
    simp [keywordOf, heof] at ht
  · exact .ok rfl hc

theorem acceptOneOf (keywords : List Keyword) : K.Steady (acceptOneOf keywords) :=
  (acceptWordOf _).map fun _ _ h => by rw [h]

/-- If none of the keywords is there, both runs end in an error about the token ahead. -/
theorem expectOneOf (keywords : List Keyword) : K.Steady (expectOneOf keywords) :=
  (acceptOneOf keywords).next fun keyword => by
    cases keyword with
    | some keyword => exact .pure rfl
    | none => exact .expected_peek _

theorem peekKeyword (keyword : Keyword) : K.Steady (peekKeyword keyword) :=
  .peek fun token _ _ _ => by
    cases token with
    | word w => exact .pure rfl
    | _ => exact .pure rfl

end Steady

namespace Alike

variable [Lawful K]

/-- The tokens that are given stand in like places, without being the same. -/
theorem expect {token : Token} (h : token ≠ .eof) :
    K.Alike K.tokens (expect token) (expect token) := by
  intro ctx ctx' c d _ hc
  simp only [expect_run, ← Lawful.peek_token hc]
  split
  · rename_i ht
    exact .ok (Lawful.peek hc) (Lawful.next_of_token hc (ht ▸ h))
  · exact .error (Lawful.refuses (.expected token.text) (fun _ => rfl) (Lawful.peek hc))

theorem expectKeyword (keyword : Keyword) :
    K.Alike K.tokens (expectKeyword keyword) (expectKeyword keyword) :=
  (Steady.acceptWord? _).bind fun _ _ h => by
    cases h with
    | some h => exact .pure h
    | none => exact .expected_peek _

/-- A reader that goes on behind a sign, whichever place that has. -/
theorem behind {token : Token} (h : token ≠ .eof) {p : Parser α} {q : Parser β}
    (hp : K.Alike V p q) :
    K.Alike V (do let _ ← Parser.expect token; p) (do let _ ← Parser.expect token; q) :=
  (expect h).bind fun _ _ _ => hp

/-- Behind a keyword that both runs expect. -/
theorem behind_keyword (keyword : Keyword) {p : Parser α} {q : Parser β} (hp : K.Alike V p q) :
    K.Alike V (do let _ ← Parser.expectKeyword keyword; p)
      (do let _ ← Parser.expectKeyword keyword; q) :=
  (expectKeyword keyword).bind fun _ _ _ => hp

/-- A reader that takes the token it has just seen. -/
theorem next_seen {token : Token} (h : token ≠ .eof) {k : Located → Parser α}
    {k' : Located → Parser β} (hk : ∀ t u, K.tokens t u → K.Alike V (k t) (k' u))
    {ctx ctx' : Context} {c d : Cursor} (hctx : K.Contexts ctx ctx') (hc : K.cursors c d)
    (ht : c.peek.token = token) :
    K.Results V ((Parser.next >>= k) ctx c) ((Parser.next >>= k') ctx' d) := by
  rw [next_bind_eq_expect, next_bind_eq_expect, ← Lawful.peek_token hc, ht]
  exact (expect h).bind hk ctx ctx' c d hctx hc

end Alike

/-! ## Several tokens -/

namespace Steady

variable [Lawful K]

/-- Readers one behind the other stop at the same refusal. -/
theorem allM {readers : List (Parser Bool)} (h : ∀ p ∈ readers, K.Steady p) :
    K.Steady (readers.allM id) := by
  induction readers with
  | nil => exact .pure rfl
  | cons p readers ih =>
      refine (h p (by simp)).next fun b => ?_
      cases b with
      | true => exact ih fun q hq => h q (by simp [hq])
      | false => exact .pure rfl

/-- The place that a failed attempt returns to is alike in both runs. -/
theorem acceptAll {readers : List (Parser Bool)} (h : ∀ p ∈ readers, K.Steady p) :
    K.Steady (acceptAll readers) :=
  .get fun _ _ hc => (allM h).test (.pure rfl) ((Alike.set hc).next fun _ => .pure rfl)

theorem acceptKeywords (keywords : List Keyword) : K.Steady (acceptKeywords keywords) :=
  acceptAll fun p hp => by
    simp only [List.map_map, List.mem_map, Function.comp] at hp
    obtain ⟨keyword, -, rfl⟩ := hp
    exact acceptKeyword keyword

theorem expectKeywords (keywords : List Keyword) : K.Steady (expectKeywords keywords) := by
  show K.Steady ((keywords.map some).forM fun keyword => discard (expectWord keyword))
  induction keywords with
  | nil => exact .pure rfl
  | cons keyword keywords ih =>
      exact ((Alike.expectKeyword keyword).map (W := Eq) fun _ _ _ => rfl).next fun _ => ih

/-- The words that were found are spelled alike. -/
theorem acceptWordsAsWritten_go (keywords : List (Option Keyword)) :
    K.Steady (acceptWordsAsWritten.go keywords) := by
  induction keywords with
  | nil => exact .pure rfl
  | cons keyword keywords ih =>
      refine (acceptWord? keyword).bind fun _ _ h => ?_
      cases h with
      | none => exact .pure rfl
      | some h => exact ih.next fun _ => .pure (by rw [Lawful.token h])

/-- What was kept to return to, and what was read, are alike. -/
theorem acceptWordsAsWritten (keywords : List (Option Keyword)) :
    K.Steady (acceptWordsAsWritten keywords) :=
  .get fun _ _ hc => (acceptWordsAsWritten_go keywords).next fun words => by
    cases words with
    | some words => exact .pure rfl
    | none => exact (Alike.set hc).next fun _ => .pure rfl

theorem acceptKeywordsAsWritten (keywords : List Keyword) :
    K.Steady (acceptKeywordsAsWritten keywords) := acceptWordsAsWritten _

end Steady

/-- Taking a comma, unless the list ends behind it. -/
theorem Steady.acceptSeparator [Lawful K] (trailing : Bool) :
    K.Steady (acceptSeparator trailing) :=
  (Steady.accept (by simp)).test (.peek fun _ _ _ _ => .pure rfl) (.pure rfl)

/-! ## Loops -/

namespace Alike

variable [Lawful K]

/-- Loops end alike when their steps do, although their bounds may differ. -/
theorem iterateUpTo {S : α → β → Prop} {step : α → Parser (Option α)}
    {step' : β → Parser (Option β)} (hs : Shortens step) (hs' : Shortens step')
    (h : ∀ a b, S a b → K.Alike (Option.Rel S) (step a) (step' b)) {ctx ctx' : Context}
    (hctx : K.Contexts ctx ctx') :
    ∀ n m a b c d, S a b → K.cursors c d → c.rest.length < n → d.rest.length < m →
      K.Results S (Parser.iterateUpTo step n a ctx c) (Parser.iterateUpTo step' m b ctx' d) := by
  intro n
  induction n with
  | zero => intro m a b c d _ _ hn; omega
  | succ n ih =>
      intro m a b c d hab hc hn hm
      obtain ⟨m, rfl⟩ : ∃ m', m = m' + 1 := ⟨m - 1, by omega⟩
      obtain ⟨h0, h0'⟩ := Lawful.overrun hc
      simp only [Parser.iterateUpTo, Parser.bind_apply]
      have hrs := h a b hab ctx ctx' c d hctx hc
      generalize hp : step a ctx c = r at hrs ⊢
      generalize hq : step' b ctx' d = s at hrs ⊢
      rcases hrs with ⟨hv, hc'⟩ | he | he
      · cases hv with
        | none => exact .ok hab hc'
        | some hab' =>
            have hlt := (hs ctx a c _ _ h0 hp).2
            have hlt' := (hs' ctx' b d _ _ h0' hq).2
            exact ih m _ _ _ _ hab' hc' (by omega) (by omega)
      · exact .error he
      -- one of the two has run out of levels, which ends the comparison
      · exact .of_cut he _ _

/-- Loops whose steps are alike go round equally often, since neither bound is ever met. -/
theorem iterate {S : α → β → Prop} {step : α → Parser (Option α)}
    {step' : β → Parser (Option β)} (hs : Shortens step) (hs' : Shortens step')
    (h : ∀ a b, S a b → K.Alike (Option.Rel S) (step a) (step' b)) {a : α} {b : β}
    (hab : S a b) : K.Alike S (Parser.iterate step a) (Parser.iterate step' b) := by
  intro ctx ctx' c d hctx hc
  exact iterateUpTo hs hs' h hctx _ _ _ _ c d hab hc (Nat.lt_succ_of_le c.rest_length_le)
    (Nat.lt_succ_of_le d.rest_length_le)

/-- The readers of the library, whose locality says that every step of a loop takes a token. -/
abbrev OffersItem (item : Parser (Option α)) : Prop :=
  Offers (Follow StatementEnd) (· ≠ none) item

/-- The readers of the library, whose locality says that nothing is put back. -/
abbrev LocalItem (item : Parser α) : Prop := Local (Follow StatementEnd) item

/-- A loop that starts in one state, with steps that give the same in both runs. -/
theorem iterate_eq {step step' : α → Parser (Option α)} (hs : Shortens step)
    (hs' : Shortens step') (h : ∀ a, K.Alike Eq (step a) (step' a)) (a : α) :
    K.Alike Eq (Parser.iterate step a) (Parser.iterate step' a) := by
  refine iterate hs hs' (fun a b hab => ?_) rfl
  subst hab
  refine (h a).mono fun o o' heq => ?_
  subst heq
  cases o with
  | none => exact .none
  | some a => exact .some rfl

/-- Loops over the same states, whose readers' locality says that each step takes a token. -/
theorem iterate_same {step step' : α → Parser (Option α)} (hs : ∀ a, OffersItem (step a))
    (hs' : ∀ a, OffersItem (step' a)) (h : ∀ a, K.Alike Eq (step a) (step' a)) (a : α) :
    K.Alike Eq (Parser.iterate step a) (Parser.iterate step' a) :=
  iterate_eq (shortens_of hs) (shortens_of hs') h a

/-- Equally many values are gathered in both runs. -/
theorem many {item item' : Parser (Option α)} (hl : OffersItem item) (hl' : OffersItem item')
    (h : K.Alike Eq item item') : K.Alike Eq (Parser.many item) (Parser.many item') :=
  (iterate_same (fun items => hl.collect items) (fun items => hl'.collect items)
    (fun _ => h.map fun _ _ heq => by rw [heq]) []).map fun _ _ heq => by rw [heq]

/-! ## Lists -/

/-- A loop that reads an item wherever a test succeeds. -/
theorem many_test {t : Parser Bool} {item item' : Parser α}
    (ht : Offers (Follow StatementEnd) (· = true) t) (hl : LocalItem item) (hl' : LocalItem item')
    (hs : K.Steady t) (h : K.Alike Eq item item') :
    K.Alike Eq (Parser.many do if ← t then some <$> item else return none)
      (Parser.many do if ← t then some <$> item' else return none) :=
  many (.item ht hl) (.item ht hl') <|
    hs.test (h.map fun _ _ heq => by rw [heq]) (.pure rfl)

/-- Where the lists end is decided by tokens, so they are equally long. -/
theorem commaSeparatedWith (trailing : Bool) {item item' : Parser α} (hl : LocalItem item)
    (hl' : LocalItem item') (h : K.Alike Eq item item') :
    K.Alike Eq (Parser.commaSeparatedWith trailing item)
      (Parser.commaSeparatedWith trailing item') :=
  h.next fun _ => (many_test (.acceptSeparator trailing) hl hl' (.acceptSeparator trailing) h).next
    fun _ => .pure rfl

theorem commaSeparated [Listing K] {item item' : Parser α} (hl : LocalItem item)
    (hl' : LocalItem item') (h : K.Alike Eq item item') :
    K.Alike Eq (Parser.commaSeparated item) (Parser.commaSeparated item') :=
  .read fun ctx ctx' hctx => by
    rw [Listing.trailing hctx.options]
    exact commaSeparatedWith _ hl hl' h

/-- An empty list is empty in both runs. -/
theorem commaSeparatedUntil [Listing K] {close : Token} {item item' : Parser α}
    (hl : LocalItem item) (hl' : LocalItem item') (h : K.Alike Eq item item') :
    K.Alike Eq (Parser.commaSeparatedUntil close item)
      (Parser.commaSeparatedUntil close item') := by
  refine peek_if (.pure rfl) (.read fun ctx ctx' hctx => ?_)
  intro ctx₁ ctx₁' c d hctx₁ hc
  have hpair : c.peekTokens 2 = d.peekTokens 2 := by
    rw [peekTokens_two, peekTokens_two, Lawful.token (Lawful.peekNth hc 0),
      Lawful.token (Lawful.peekNth hc 1)]
  rw [bind_run (get_ok.mpr ⟨rfl, rfl⟩), bind_run (get_ok.mpr ⟨rfl, rfl⟩),
    Listing.trailing hctx.options, hpair]
  split
  · rename_i hcomma
    simp only [Bool.and_eq_true, decide_eq_true_eq, ← hpair, peekTokens_two] at hcomma
    have hfirst : c.peek.token = .comma := (List.cons.inj hcomma.2).1
    exact next_seen (by simp) (fun _ _ _ => .pure rfl) hctx₁ hc hfirst
  · exact commaSeparated hl hl' h ctx₁ ctx₁' c d hctx₁ hc

/-- The parentheses are tokens of both runs. -/
theorem parenthesized {inner inner' : Parser α} (h : K.Alike Eq inner inner') :
    K.Alike Eq (Parser.parenthesized inner) (Parser.parenthesized inner') :=
  .behind (by simp) <| h.next fun _ => .behind (by simp) (.pure rfl)

theorem parenthesizedList {item item' : Parser α} (hl : LocalItem item) (hl' : LocalItem item')
    (h : K.Alike Eq item item') :
    K.Alike Eq (Parser.parenthesizedList item) (Parser.parenthesizedList item') :=
  parenthesized (commaSeparatedWith false hl hl' h)

end Alike

/-! ## Nesting -/

/-- Going one level down. -/
theorem Alike.descend [Nesting K] {p : Parser α} {q : Parser β} (h : K.Alike V p q) :
    K.Alike V (Parser.descend p) (Parser.descend q) := by
  intro ctx ctx' c d hctx hc
  rw [descend_apply, descend_apply]
  rcases Nesting.levels hctx.levels with ⟨hn, hm⟩ | ⟨n, m, hn, hm, hlevels⟩
  · rw [hn]
    rcases hm with hm | hcut
    · rw [hm]
      exact .error Nesting.limit
    · exact .of_cut hcut c _
  · rw [hn, hm]
    exact h _ _ c d ⟨hctx.dialect, hctx.options, hlevels⟩ hc

/-- Readers that are given the levels that are left, one below the other: what they read at one
    level is alike if what they read below it is. -/
theorem Alike.by_levels [Nesting K] {ι : Type} {p : Nat → ι → Parser α} {q : Nat → ι → Parser β}
    (hp : ∀ i, p 0 i = MonadExcept.throw .recursionLimitExceeded)
    (hq : ∀ i, q 0 i = MonadExcept.throw .recursionLimitExceeded)
    (h : ∀ n m, (∀ i, K.Alike V (p n i) (q m i)) → ∀ i, K.Alike V (p (n + 1) i) (q (m + 1) i))
    {n m : Nat} (hlevels : K.levels n m) (i : ι) : K.Alike V (p n i) (q m i) := by
  induction n generalizing m i with
  | zero =>
      rcases Nesting.levels hlevels with ⟨-, hm⟩ | ⟨n, m, hn, -⟩
      · rw [hp]
        rcases hm with rfl | hcut
        · rw [hq]
          exact .throw Nesting.limit
        · exact fun _ _ c _ _ _ => .of_cut hcut c _
      · exact absurd hn (by simp)
  | succ n ih =>
      rcases Nesting.levels hlevels with ⟨hn, -⟩ | ⟨n, m, hn, rfl, hlevels⟩
      · exact absurd hn (by simp)
      · obtain rfl := Nat.succ.inj hn
        exact h _ _ (ih hlevels) i

end Comparison

end SchemaSql
