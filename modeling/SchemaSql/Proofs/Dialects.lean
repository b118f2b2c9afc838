import SchemaSql.Proofs.Comparison.Texts

/-! # Dialects — tokens that every dialect reads alike

    Reading asks for the dialect in three places only: names behind `FROM` may have hyphens in
    BigQuery, queries may go on with pipe operators, and synonyms may be created.  Tokens that
    lead to none of them (`Common`) are read alike under all dialects, errors included.

    * A name is one token wherever no hyphen stands directly behind a word (`parse_common`).
    * `agreeing` compares two runs in a text of such tokens, whatever their dialects.
    * `Statement.parseAll_dialects` is what that means for whole texts. -/

namespace SchemaSql

open Cursor SchemaSql.Parser Comparison

/-! ## Tokens that no dialect treats in a way of its own -/

/-- Tokens without a pipe arrow, without `CREATE`, and without a minus sign directly behind a
    word. -/
structure Common (u : List Located) : Prop where
  arrows  : ∀ t ∈ u, t.token ≠ .pipeArrow
  creates : ∀ t ∈ u, t.token.keyword? ≠ some .create
  hyphens : u.IsChain fun t t' => ∀ w, t.token = .word w → t'.token ≠ .minus

/-- Behind a word there is no hyphen. -/
theorem Common.noHyphen {c : Cursor} (h : Common c.tokens) {w : Word}
    (hw : c.peek.token = .word w) : Ident.NoHyphen c.next.2.unread := by
  have hne : c.rest ≠ [] := fun hnil => by
    rw [peek_eq, hnil] at hw
    exact absurd hw (by simp [headOf, Located.eof])
  obtain ⟨before, htokens⟩ := tokens_read hne
  have hchain := (List.isChain_append.mp (htokens ▸ h.hyphens)).2.1
  cases hunread : c.next.2.unread with
  | nil => simp [Ident.NoHyphen, headOf, Located.eof]
  | cons t rest =>
      rw [hunread, List.isChain_cons_cons] at hchain
      exact hchain.1 w hw

/-- A name is its token, whatever the dialect. -/
theorem Ident.parse_common {c : Cursor} (h : Common c.tokens) (inFrom : Bool) (ctx : Context) :
    parse inFrom ctx c = match ofToken c.peek with
      | some name => .ok name c.next.2
      | none => .error (.expected "identifier" c.peek) c.next.2 := by
  rw [parse_eq, bind_run (next_run ctx c), bind_run (read_ok.mpr ⟨rfl, rfl⟩)]
  cases hstart : hyphenStart inFrom ctx.toSettings c.peek with
  | none => cases ofToken c.peek <;> rfl
  | some value =>
      -- BigQuery looks for hyphens behind this word, and finds none
      cases htoken : c.peek.token with
      | word w =>
          have hbare : w.quote = none ∧ w.value = value := by
            simp only [hyphenStart, htoken, Option.ite_none_right_eq_some, Bool.and_eq_true,
              Option.isNone_iff_eq_none, Option.some.injEq] at hstart
            exact ⟨hstart.1.1.2, hstart.2⟩
          have hname : ofToken c.peek = some { value } := by
            simp only [ofToken, htoken, ofWord, hbare.1, hbare.2]
          have hiterate : iterate parseHyphenated value ctx c.next.2 = .ok value c.next.2 := by
            rw [iterate, bind_run (get_ok.mpr ⟨rfl, rfl⟩), iterateUpTo,
              bind_run (parseHyphenated_none (h.noHyphen htoken))]
            rfl
          rw [hname]
          dsimp only
          rw [bind_run hiterate]
          rfl
      | _ => simp [hyphenStart, htoken] at hstart

/-! ## Two dialects -/

/-- Two runs in a text, under whatever dialects, that meet no token which only some dialects
    know. -/
abbrev agreeing (u : List Located) : Comparison :=
  inText u (fun t => t.token ≠ .pipeArrow ∧ t.token.keyword? ≠ some .create) (fun _ _ => True) Eq

namespace agreeing

variable {u : List Located}

/-- Without hyphens a name is one token in every dialect. -/
theorem ident (h : Common u) (inFrom : Bool) : (agreeing u).Steady (Ident.parse inFrom) := by
  rintro ctx ctx' c _ - ⟨⟨rfl, h0⟩, rfl⟩
  rw [Ident.parse_common h inFrom ctx, Ident.parse_common h inFrom ctx']
  cases hname : Ident.ofToken c.peek with
  | none => exact .error rfl
  | some name =>
      have hne : c.rest ≠ [] := fun hnil => by
        rw [peek_eq, hnil] at hname
        exact absurd hname (by simp [Ident.ofToken, headOf, Located.eof])
      exact .ok rfl ⟨Same.next ⟨rfl, h0⟩ hne, tokens_next c⟩

/-- The dialects are only asked for what the tokens of the text leave open. -/
theorem dialectal (h : Common u) : (agreeing u).Dialectal where
  toLawful := inText.lawful (by simp [Located.eof, Token.keyword?])
    fun t ht => ⟨h.arrows t ht, h.creates t ht⟩
  ident := ident h
  pipes _ := .inr fun _ _ ht => ht.2.1
  synonyms _ := .inr fun _ _ ht => ht.2.2

instance : (agreeing u).Listing where
  trailing ho := congrArg Options.trailingCommas ho

end agreeing

namespace Statement

/-- Tokens without a pipe arrow, without `CREATE` and without a minus sign directly behind a
    word are read alike under any two dialects, the built-in ones among them: as the same
    statements, or refused with the same error. -/
theorem parseAll_dialects (ctx : Context) (d d' : Dialect) {u : List Located} (h : Common u) :
    parseAll.runTokens { ctx with dialect := d } u
      = parseAll.runTokens { ctx with dialect := d' } u := by
  have := inText.nesting (agreeing.dialectal h)
  have hruns := parseAll_steady (K := agreeing u) { ctx with dialect := d }
    { ctx with dialect := d' } (.ofTokens u) (.ofTokens u) ⟨trivial, rfl, rfl⟩ ⟨⟨rfl, rfl⟩, rfl⟩
  rw [runTokens, runTokens]
  generalize parseAll { ctx with dialect := d } (.ofTokens u) = r at hruns ⊢
  generalize parseAll { ctx with dialect := d' } (.ofTokens u) = s at hruns ⊢
  rcases hruns with ⟨rfl, -⟩ | he | he
  · rfl
  · obtain rfl := Option.some.inj he
    rfl
  · exact absurd he (by simp [inText])

/-- A blank stands between this table's name and the minus sign behind it, so the sign is no
    hyphen in any dialect, and the text is refused with one error. -/
theorem parseAll_dialects_minus : let u : List Located :=
      [⟨.word ⟨"FROM", none, some .from⟩, ⟨1, 1⟩⟩, ⟨.whitespace .space, ⟨1, 5⟩⟩,
        ⟨.word ⟨"my", none, none⟩, ⟨1, 6⟩⟩, ⟨.whitespace .space, ⟨1, 8⟩⟩, ⟨.minus, ⟨1, 9⟩⟩,
        ⟨.word ⟨"t", none, none⟩, ⟨1, 10⟩⟩]
    Common u ∧
      parseAll.runTokens { dialect := .bigquery } u
        = parseAll.runTokens { dialect := .oracle } u ∧
      parseAll.runTokens { dialect := .bigquery } u
        = .error (.expected "end of statement" ⟨.minus, ⟨1, 9⟩⟩) := by
  intro u
  have h : Common u := ⟨by decide +kernel, by decide +kernel, by simp [u]⟩
  exact ⟨h, parseAll_dialects { dialect := .generic } .bigquery .oracle h, by rfl⟩

end Statement

end SchemaSql
