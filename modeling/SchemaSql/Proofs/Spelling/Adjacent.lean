import SchemaSql.Proofs.Scanning.Chunks
import SchemaSql.Proofs.Spelling.Spaced

/-! # Tokens side by side — texts that were next to each other

    Two tokens with no blank between them were read as two, so the first of them does not go on
    with the second.  That holds of their own texts as well, although a sign may be written in
    another way than it was read.

    * `Token.scan_front` is what the place where a token was read tells about its text;
    * `Token.lexable_of_scan` says that it is one of the tokens that are read back;
    * `Token.chain_of_lexFrom` puts a text together by the induction over its tokens. -/

namespace SchemaSql

namespace Token

variable {d : Dialect} {u : Bool} {c : Char} {cs : List Char} {t : Token} {width : Nat}

/-- A literal without backslashes and without two of its own quotes in a row; any other
    token. -/
def Unambiguous : Token → Prop
  | .singleQuoted v => '\\' ∉ v.toList ∧ ¬ ['\'', '\''] <:+: v.toList
  | .doubleQuoted v => '\\' ∉ v.toList ∧ ¬ ['"', '"'] <:+: v.toList
  | _ => True

/-! ## Where a token was read -/

/-- What the characters `c :: cs` that a token was read from, and those behind them, tell about
    its text: it starts with `c`, unless it is the sign with two spellings. -/
structure Front (d : Dialect) (c : Char) (rest : List Char) (t : Token) : Prop where
  stops : ∀ x ∈ rest.head?, t.Stops d x
  start : t.isWhitespace = false → t.text.toList.head? = some c ∨ t = .neq ∧ c = '!'

/-- Anything may stand behind a blank. -/
theorem Front.blank (rest : List Char) (ws : Whitespace) : Front d c rest (.whitespace ws) :=
  ⟨fun _ _ => trivial, nofun⟩

theorem ne_of_mem_head? {x y : Char} (hx : x ∈ cs.head?) (h : ∀ tail, cs = y :: tail → False) :
    x ≠ y := by
  rintro rfl
  obtain ⟨tail, htail⟩ := List.head?_eq_some_iff.mp hx
  exact h tail htail

/-- A sign that is no comment is the longest one that fits, so what is behind it does not make
    a longer one of it. -/
theorem Front.sign (hline : c = '-' → ∀ tail, cs = '-' :: tail → False)
    (hblock : c = '/' → ∀ tail, cs = '*' :: tail → False) :
    Front d c (cs.drop (scanSign c cs).2) (scanSign c cs).1 := by
  fun_cases scanSign c cs with
  | case4 => exact ⟨fun _ hx => ne_of_mem_head? hx (hline rfl), fun _ => .inl rfl⟩
  | case5 => exact ⟨fun _ hx => ne_of_mem_head? hx (hblock rfl), fun _ => .inl rfl⟩
  | case11 _ hpipe hgt =>
      exact ⟨fun _ hx => ⟨ne_of_mem_head? hx hpipe, ne_of_mem_head? hx hgt⟩, fun _ => .inl rfl⟩
  | case18 _ _ heq hgt =>
      exact ⟨fun _ hx => ⟨ne_of_mem_head? hx heq, ne_of_mem_head? hx hgt⟩, fun _ => .inl rfl⟩
  | case13 _ h | case16 _ h | case20 _ h | case22 _ h =>
      exact ⟨fun _ hx => ne_of_mem_head? hx h, fun _ => .inl rfl⟩
  | case29 =>
      refine ⟨fun x hx => ?_, fun _ => .inl (by simp [text])⟩
      rintro rfl
      exact ne_of_mem_head? hx fun tail htail => by simp_all
  | _ => exact ⟨fun _ _ => trivial, fun _ => by first | exact .inl rfl | exact .inr ⟨rfl, rfl⟩⟩

/-- A number takes all that it can, so what stands behind it does not go on with it. -/
theorem Front.number (c : Char) (cs : List Char) :
    Front d c (cs.drop (scanNumber c cs).2) (scanNumber c cs).1 := by
  obtain ⟨digits, rest, rfl, hdigits, hrest⟩ := exists_decimal cs
  rw [scanNumber_front hdigits hrest]
  split
  · exact ⟨fun _ _ => nofun, fun _ => .inl (by simp [text])⟩
  · next hlong =>
      refine ⟨fun x hx _ => ?_, fun _ => .inl (by simp [text])⟩
      have hx' : x ∈ rest.head? := by simpa using hx
      refine ⟨(hrest x hx').1, ?_, fun hpoint => ?_⟩
      · rintro rfl
        exact hlong hx'
      · simp [(hrest x hx').2 hpoint]

/-- A literal ends at its quote, and no quote of its own stands behind it. -/
theorem Front.string (hq : d.OpensString c)
    (h : scanString d u c (literal c) cs = .ok (t, width)) : Front d c (cs.drop width) t := by
  obtain ⟨units, hread, rfl, rfl⟩ := scanString_ok h
  obtain ⟨rest, rfl, hrest⟩ := (StringUnit.opens_of_read hread).split
  refine ⟨fun x hx => hq.stops_literal.mpr ?_, fun _ => .inl ?_⟩
  · rintro rfl
    refine hrest ?_
    simpa [List.drop_append] using hx
  · rw [hq.text_literal, toList_enclose]
    rfl

/-- Every token that is read takes all that it can. -/
theorem scan_front [d.Regular] (h : scan d u c cs = .ok (t, width)) :
    Front d c (cs.drop width) t := by
  unfold scan at h
  split at h
  · cases h; exact .blank _ _
  split at h
  · cases h; exact .blank _ _
  split at h
  · cases h; exact .blank _ _
  split at h
  · cases h; exact .blank _ _
  split at h
  · cases h
    refine ⟨fun x hx _ => ?_, fun _ => .inl (by simp [text, Word.text, Word.of])⟩
    -- a word goes on as long as it can, so the next character does not continue it
    have hdrop : (cs.takeWhile d.continuesIdentifier ++ cs.dropWhile d.continuesIdentifier).drop
        (cs.takeWhile d.continuesIdentifier).length = cs.dropWhile d.continuesIdentifier :=
      List.drop_left
    have hhead := List.head?_dropWhile_not d.continuesIdentifier cs
    rw [List.takeWhile_append_dropWhile] at hdrop
    rw [hdrop] at hx
    rwa [hx] at hhead
  split at h
  · next hc =>
      subst hc
      exact .string (.inl rfl) h
  split at h
  · next hopen =>
      rw [scanQuotedIdentifier_ok h]
      exact ⟨fun _ _ h => (by cases h), fun _ => .inl (by simp [text, Word.text, Word.of])⟩
  split at h
  · next hopen hc =>
      subst hc
      exact .string (.inr ⟨rfl, by simpa using hopen⟩) h
  split at h
  · have hnumber := Front.number (d := d) c cs
    rwa [Except.ok.inj h] at hnumber
  split at h
  · cases h; exact .blank _ _
  · unfold scanBlockComment at h
    split at h
    · cases h
    · cases h; exact .blank _ _
  · next hline hblock =>
      have hsign : Front d c (cs.drop (scanSign c cs).2) (scanSign c cs).1 :=
        .sign (fun hc tail => hline tail hc) fun hc tail => hblock tail hc
      rwa [Except.ok.inj h] at hsign

/-! ## Tokens of a text -/

/-- What was read is read back, if it is no ambiguous literal. -/
theorem lexable_of_scan (hd : d ∈ Dialect.builtin) (h : scan d true c cs = .ok (t, width))
    (hblank : t.isWhitespace = false) (hplain : t.Unambiguous) : t.Lexable d := by
  have := Dialect.regular_of_builtin hd
  rcases scan_cases h with ⟨hopens, hstring⟩ | ⟨hscanned, hstring⟩
  · obtain ⟨units, -, rfl, -⟩ := scanString_ok hstring
    have hunits : '\\' ∉ (stringValue true c units).toList ∧
        ¬ [c, c] <:+: (stringValue true c units).toList := by
      rcases hopens with rfl | ⟨rfl, -⟩ <;> exact hplain
    exact .string hopens hunits.1 hunits.2
  · cases hscanned with
    | blank => cases hblank
    | bareWord cs hc =>
        exact .bareWord ⟨_, _, String.toList_ofList, hc, fun x hx => List.mem_takeWhile_imp hx⟩
    | @quotedWord q cs hq =>
        refine .quotedWord hq ?_
        rw [closingQuote_eq hq, String.toList_ofList]
        exact fun hmem => by simpa using List.mem_takeWhile_imp hmem
    | string =>
        unfold literal at hstring
        split at hstring <;> exact absurd trivial hstring
    | number hc hnumber =>
        obtain ⟨ds, rfl, hds⟩ := isDecimal_of_scanNumber hnumber
        exact .number hc.digit hds _
    | char x =>
        obtain ⟨rfl, rfl⟩ := eq_of_scanSign_char (scan_char h).1
        exact .char (lex_single (by simp) (scan_take h).2)
    | sign hsign => exact .sign hsign

/-- The tokens of a text can be written alone, apart from blanks and those that have two readings.
    -/
theorem lexable_of_mem (hd : d ∈ Dialect.builtin) {text : String} {tokens : List Located}
    (h : lex d true text = .ok tokens) {l : Located} (hl : l ∈ tokens)
    (hblank : l.token.isWhitespace = false) (hplain : l.token.Unambiguous) :
    l.token.Lexable d := by
  obtain ⟨c, cs, width, -, hscan⟩ := scan_of_mem h l hl
  exact lexable_of_scan hd hscan hblank hplain

/-- The first of two tokens does not go on with the text of the second, which is no blank. -/
def Fits (d : Dialect) (t t' : Token) : Prop :=
  t'.isWhitespace = false → ∀ x ∈ t'.text.toList.head?, t.Stops d x

/-- Tokens that stand next to each other in a text fit. -/
theorem chain_of_lex [d.Regular] {text : String} {tokens : List Located}
    (h : lex d u text = .ok tokens) : (tokens.map Located.token).IsChain (Fits d) := by
  have hbehind : ∀ left : Token, (∀ x ∈ text.toList.head?, left.Stops d x) →
      (left :: tokens.map Located.token).IsChain (Fits d) := by
    refine lexFrom_induction (P := fun _ cs L => ∀ left : Token,
      (∀ x ∈ cs.head?, left.Stops d x) → (left :: L.map Located.token).IsChain (Fits d))
      (fun _ left _ => .singleton left) (fun {_ c cs t width _} hscan ih left hleft => ?_) h
    have hfront := scan_front hscan
    refine .cons_cons (fun hblank x hx => ?_) (ih t hfront.stops)
    rcases hfront.start hblank with hstart | ⟨rfl, -⟩
    · exact hleft x (hstart.symm.trans hx)
    · -- written with another character than it was read from, but no token goes on with that
      obtain rfl : '<' = x := by simpa [Token.text] using hx
      exact left.stops_of_sign (by decide) (by decide)
  exact (hbehind .space fun _ _ => trivial).tail

end Token

end SchemaSql
