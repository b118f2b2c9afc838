import SchemaSql.Proofs.Spelling.Scanned

/-! # Spaced tokens — texts of single tokens, read back together

    Tokens are printed without regard to what stands next to them.  A space between two of them
    is enough to read them back, since a token is spelled as the lexer spells it and none goes
    on with a space.

    * `Token.Lexable` lists the tokens that a dialect reads, with the texts they can have;
    * `Token.Lexable.spelled` takes the kinds one by one: words, literals, numbers and signs have
      their lemmas already, and single characters get theirs here;
    * `Token.lex_intercalate` follows by the induction over the tokens. -/

namespace SchemaSql

namespace Token

variable {d : Dialect} {u : Bool} {t : Token}

/-! ## Single characters -/

/-- A character that is read by itself is what no other line of the lexer takes. -/
theorem scan_char {c x : Char} {cs : List Char} {width : Nat}
    (h : scan d u c cs = .ok (.char x, width)) :
    scanSign c cs = (.char x, width) ∧ ∀ cs, scan d u c cs = .ok (scanSign c cs) := by
  -- the lines in front of the last one give another token, or none
  unfold scan at h
  split at h
  · cases h
  split at h
  · cases h
  split at h
  · cases h
  split at h
  · cases h
  split at h
  · cases h
  split at h
  · obtain ⟨_, -, htoken, -⟩ := scanString_ok h
    cases htoken
  split at h
  · exact nomatch scanQuotedIdentifier_ok h
  split at h
  · obtain ⟨_, -, htoken, -⟩ := scanString_ok h
    cases htoken
  split at h
  · obtain ⟨digits, long, hnumber⟩ := scanNumber_token c cs
    simp [Except.ok.inj h] at hnumber
  split at h
  · cases h
  · unfold scanBlockComment at h
    split at h <;> cases h
  · have hsign := Except.ok.inj h
    -- the two signs that a comment can start with are signs by themselves
    have hminus : c ≠ '-' := by
      rintro rfl
      cases hsign
    have hdiv : c ≠ '/' := by
      rintro rfl
      cases hsign
    exact ⟨hsign, fun cs => by simp [scan, *]⟩

/-- It is the only character that is read. -/
theorem eq_of_scanSign_char {c x : Char} {cs : List Char} {width : Nat}
    (h : scanSign c cs = (.char x, width)) : x = c ∧ width = 0 := by
  unfold scanSign at h
  split at h <;> cases h
  exact ⟨rfl, rfl⟩

/-- Only an exclamation mark is the start of a sign without being one. -/
theorem scanSign_char {c : Char} (h : (scanSign c []).1 = .char c) {cs : List Char}
    (hstop : ∀ x ∈ cs.head?, (Token.char c).Stops d x) : scanSign c cs = (.char c, 0) := by
  unfold scanSign
  split
  case h_14 => exact absurd rfl (hstop '=' rfl rfl)
  all_goals first
    | rfl
    | cases h

/-- A character that is a token of its own is read back as one. -/
theorem Spelled.char {c : Char} (h : lex d u c.toString = .ok [⟨.char c, .start⟩]) :
    (Token.char c).Spelled d u := by
  rw [lex, Char.toString, String.toList_singleton] at h
  rcases lexFrom_ok.mp h with ⟨hnil, -⟩ | ⟨_, _, t, width, tail, hcs, hscan, -, htoken⟩
  · cases hnil
  obtain ⟨rfl, rfl⟩ := List.cons.inj hcs
  obtain rfl : .char c = t := congrArg Located.token (List.cons.inj htoken).1
  obtain ⟨hsign, hall⟩ := scan_char hscan
  refine ⟨c, [], by simp [text], fun cs hstop => ?_⟩
  rw [hall, List.nil_append, scanSign_char (congrArg Prod.fst hsign) hstop]
  rfl

/-! ## Tokens with a space between two of them -/

/-- The tokens that a dialect reads, but for blanks and comments. -/
inductive Lexable (d : Dialect) : Token → Prop where
  | bareWord {v : String} (h : d.IsBareWord v) : Lexable d (.word (Word.of v none))
  /-- An identifier between quotes that do not occur in it. -/
  | quotedWord {q : Char} {v : String} (hq : d.opensQuotedIdentifier q = true)
      (hv : q ∉ v.toList) : Lexable d (.word (Word.of v (some q)))
  | number {c : Char} {ds : List Char} (hc : c.isDigit = true) (hds : IsDecimal ds)
      (long : Bool) : Lexable d (.number (String.ofList (c :: ds)) long)
  /-- A literal without backslashes and without two of its own quotes in a row. -/
  | string {q : Char} {v : String} (hq : d.OpensString q) (hbackslash : '\\' ∉ v.toList)
      (hquotes : ¬ [q, q] <:+: v.toList) : Lexable d (literal q v)
  | sign {t : Token} (h : t.IsSign) : Lexable d t
  /-- A character that is nothing else where it stands alone. -/
  | char {c : Char} (h : lex d true c.toString = .ok [⟨.char c, .start⟩]) : Lexable d (.char c)

/-- The lexer reads them in front of a space. -/
theorem Lexable.spelled (hd : d ∈ Dialect.builtin) (h : t.Lexable d) :
    t.Spelled d true ∧ t.Stops d ' ' := by
  have := Dialect.regular_of_builtin hd
  refine ⟨?_, t.stops_of_sign (by decide) (by decide)⟩
  cases h with
  | bareWord h => exact .bareWord h
  | quotedWord hq hv => exact .quotedWord hq hv
  | number hc hds long => exact .number (Dialect.startsNumber hd hc) hds long
  | @string q v hq hbackslash hquotes =>
      have hescape : ¬ ['\\', q] <:+: v.toList := by
        intro hpart
        exact hbackslash (hpart.subset (by simp))
      have hplain : Text.Plain d.backslashEscape q v := ⟨hquotes, hescape, fun _ => hbackslash⟩
      exact .literal hq ((rereads_decoded hq).mpr hplain)
  | sign h => exact spelled_of_isSign h
  | char h => exact .char h

/-- Spaces between tokens are spaces between their texts. -/
theorem textOf_intersperse (ts : List Token) :
    textOf (ts.intersperse .space) = " ".intercalate (ts.map text) := by
  induction ts with
  | nil => rfl
  | cons t ts ih =>
      cases ts with
      | nil => simp
      | cons t' ts =>
          simp only [List.intersperse_cons_cons, textOf_cons, ih, List.map_cons,
            String.intercalate_cons_cons, text_space, String.append_assoc]

/-- A space stops every token that can be written alone. -/
theorem legible_intersperse (hd : d ∈ Dialect.builtin) {ts : List Token}
    (h : ∀ t ∈ ts, t.Lexable d) : Legible d true (ts.intersperse .space) := by
  induction ts with
  | nil => trivial
  | cons t ts ih =>
      obtain ⟨ht, hts⟩ := List.forall_mem_cons.mp h
      obtain ⟨hspelled, hstop⟩ := ht.spelled hd
      cases ts with
      | nil => exact ⟨hspelled, nofun, trivial⟩
      | cons t' ts =>
          refine ⟨hspelled, ?_, .space, fun _ _ => trivial, ih hts⟩
          intro x hx
          obtain rfl : x = ' ' := by simpa using hx.symm
          exact hstop

/-- Tokens that a built-in dialect reads are read back from their texts with a space between
    two of them. -/
theorem lex_intercalate (hd : d ∈ Dialect.builtin) {ts : List Token}
    (h : ∀ t ∈ ts, t.Lexable d) :
    ∃ tokens, lex d true (" ".intercalate (ts.map text)) = .ok tokens ∧
      tokens.map Located.token = ts.intersperse (.whitespace .space) := by
  have hlexes := (legible_intersperse hd h).lexes .start
  rwa [textOf_intersperse] at hlexes

/-- Tokens of all kinds in MySQL, where double quotes enclose a literal. -/
theorem lex_intercalate_kinds :
    let ts : List Token := [.word (Word.of "select" none), .word (Word.of "a b" (some '\x60')),
      .number "1.5" true, .number "7" false, .singleQuoted "it's", .doubleQuoted "it's",
      .spaceship, .char '!', .eq]
    (∀ t ∈ ts, t.Lexable .mysql) ∧
      " ".intercalate (ts.map text) = "select \x60a b\x60 1.5L 7 'it''s' \"it's\" <=> ! =" ∧
      ∃ tokens, lex .mysql true (" ".intercalate (ts.map text)) = .ok tokens ∧
        tokens.map Located.token = ts.intersperse (.whitespace .space) := by
  intro ts
  have hd : Dialect.mysql ∈ Dialect.builtin := by simp [Dialect.builtin]
  have h : ∀ t ∈ ts, t.Lexable .mysql := by
    simp only [ts, List.forall_mem_cons]
    have := Dialect.mysql_regular
    refine ⟨.bareWord (.of_letters (by decide) (by decide)), .quotedWord rfl (by decide),
      ?_, ?_, ?_, ?_, .sign trivial, ?_, .sign trivial, List.forall_mem_nil _⟩
    · have hfraction : ∀ x ∈ ['5'], x.isDigit = true := List.all_eq_true.mp (by decide)
      have hdecimal : IsDecimal ['.', '5'] :=
        ⟨[], List.forall_mem_nil _, .inr ⟨['5'], hfraction, rfl⟩⟩
      exact .number (c := '1') rfl hdecimal true
    · have hdecimal : IsDecimal [] := ⟨[], List.forall_mem_nil _, .inl rfl⟩
      exact .number (c := '7') rfl hdecimal false
    · exact .string (q := '\'') (.inl rfl) (by decide) (by decide)
    · exact .string (q := '"') (.inr ⟨rfl, rfl⟩) (by decide) (by decide)
    · exact .char (by decide +kernel)
  exact ⟨h, by decide +kernel, lex_intercalate hd h⟩

end Token

end SchemaSql
