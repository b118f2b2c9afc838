import SchemaSql.Proofs.Spelling.Scanned

/-! # Chunks — the text that a token was read from

    The lexer looks at characters behind a token to know where it ends, but what it reads does
    not depend on them: the characters that belong to a token are the same token when nothing
    stands behind them.

    * `scan_take` says so for one token, case by case as `Token.scan` decides what it is; the
      lemmas in front of it say it for each kind of token;
    * `lex_chunks` puts the chunks of a text together by the induction over its tokens: they make
      up the text, none is empty, and each token is located where its chunk starts. -/

namespace SchemaSql

namespace Token

variable {d : Dialect} {u : Bool} {c q : Char} {cs : List Char} {t : Token} {width : Nat}

/-! ## Comments -/

/-- A comment up to the end of its line is the same when nothing stands behind it. -/
theorem lineCommentContent_take (cs : List Char) :
    (lineCommentContent cs).length ≤ cs.length ∧
      cs.take (lineCommentContent cs).length = lineCommentContent cs ∧
      lineCommentContent (lineCommentContent cs) = lineCommentContent cs := by
  induction cs with
  | nil => simp [lineCommentContent]
  | cons c cs ih =>
      by_cases hc : c = '\n'
      · simp [lineCommentContent, hc]
      · simpa [lineCommentContent, hc] using ih

/-- The lexer closes this content with a slash, and does not look at what stands behind that. -/
def ClosedBySlash (inner : Nat) (last : Char) (cs content : List Char) : Prop :=
  ∃ rest, cs = content ++ '/' :: rest ∧
    blockCommentContent inner last (content ++ ['/']) = some content

/-- One more character in front of a comment that is closed. -/
theorem ClosedBySlash.cons {inner inner' : Nat} {last : Char} {content : List Char}
    (hstep : ∀ cs, blockCommentContent inner last (c :: cs) =
      (c :: ·) <$> blockCommentContent inner' c cs)
    (ih : ∀ {content}, blockCommentContent inner' c cs = some content →
      ClosedBySlash inner' c cs content)
    (h : blockCommentContent inner last (c :: cs) = some content) :
    ClosedBySlash inner last (c :: cs) content := by
  rw [hstep] at h
  obtain ⟨content, hcontent, rfl⟩ := Option.map_eq_some_iff.mp h
  obtain ⟨rest, rfl, halone⟩ := ih hcontent
  exact ⟨rest, rfl, by rw [List.cons_append, hstep, halone]; rfl⟩

/-- What was read of a nested comment ends in a slash, and is read again when nothing stands behind
    it. -/
theorem closedBySlash {inner : Nat} {last : Char} {content : List Char}
    (h : blockCommentContent inner last cs = some content) :
    ClosedBySlash inner last cs content := by
  induction inner, last, cs using blockCommentContent.induct generalizing content with
  | case1 => exact nomatch h
  | case2 inner last c cs hopen ih =>
      exact .cons (fun cs => by simp only [blockCommentContent, hopen, if_true]) ih h
  | case3 last c cs hopen hclose =>
      obtain ⟨rfl, rfl⟩ : last = '*' ∧ c = '/' := by simpa using hclose
      obtain rfl := Option.some.inj h
      exact ⟨cs, rfl, rfl⟩
  | case4 last c cs hopen hclose inner ih =>
      refine .cons (fun cs => ?_) ih h
      simp only [blockCommentContent, hopen, hclose, if_true, if_false, Bool.false_eq_true]
  | case5 inner last c cs hopen hclose ih =>
      refine .cons (fun cs => ?_) ih h
      simp only [blockCommentContent, hopen, hclose, if_false, Bool.false_eq_true]

/-- A comment between delimiters is read from the text up to the last of them. -/
theorem scanBlockComment_take (h : scanBlockComment cs = .ok (t, width)) :
    ∃ n, width = n + 1 ∧ n ≤ cs.length ∧ scanBlockComment (cs.take n) = .ok (t, width) := by
  unfold scanBlockComment at h
  split at h
  · exact nomatch h
  · next content hcontent =>
      obtain ⟨rest, rfl, halone⟩ := closedBySlash hcontent
      obtain ⟨rfl, rfl⟩ := Prod.mk.inj (Except.ok.inj h)
      have htake : (content ++ '/' :: rest).take (content.length + 1) = content ++ ['/'] := by
        simp [List.take_append]
      refine ⟨content.length + 1, rfl, by simp, ?_⟩
      rw [htake, scanBlockComment, halone]

/-! ## Numbers and signs -/

/-- Where the digits of a number end. -/
theorem exists_decimal (cs : List Char) : ∃ digits rest, cs = digits ++ rest ∧
    IsDecimal digits ∧ ∀ x ∈ rest.head?, x.isDigit = false ∧ (x = '.' → '.' ∈ digits) := by
  have hdigits : ∀ l : List Char, ∀ x ∈ l.takeWhile Char.isDigit, x.isDigit :=
    fun _ _ => List.mem_takeWhile_imp
  have hrest : ∀ l : List Char, ∀ x ∈ (l.dropWhile Char.isDigit).head?, x.isDigit = false := by
    intro l x hx
    have hhead := List.head?_dropWhile_not Char.isDigit l
    rwa [hx] at hhead
  by_cases hpoint : (cs.dropWhile Char.isDigit).head? = some '.'
  · obtain ⟨tail, htail⟩ := List.head?_eq_some_iff.mp hpoint
    refine ⟨cs.takeWhile Char.isDigit ++ '.' :: tail.takeWhile Char.isDigit,
      tail.dropWhile Char.isDigit, ?_, ⟨_, hdigits cs, .inr ⟨_, hdigits tail, rfl⟩⟩, ?_⟩
    · simp [← htail]
    · exact fun x hx => ⟨hrest tail x hx, fun _ => by simp⟩
  · refine ⟨_, _, List.takeWhile_append_dropWhile.symm, ⟨_, hdigits cs, .inl rfl⟩, ?_⟩
    intro x hx
    refine ⟨hrest cs x hx, ?_⟩
    rintro rfl
    exact absurd hx hpoint

/-- A number is read from its digits, its period and its letter alone. -/
theorem scanNumber_take (c : Char) (cs : List Char) : (scanNumber c cs).2 ≤ cs.length ∧
    scanNumber c (cs.take (scanNumber c cs).2) = scanNumber c cs := by
  -- the chunk is the digits, and the `L` behind them if there is one
  obtain ⟨digits, rest, rfl, hdigits, hrest⟩ := exists_decimal cs
  have hfront := scanNumber_front (c := c) hdigits hrest
  rw [hfront]
  split
  · next hlong =>
      obtain ⟨tail, rfl⟩ := List.head?_eq_some_iff.mp hlong
      have htake : (digits ++ 'L' :: tail).take (digits.length + 1) = digits ++ ['L'] := by
        simp [List.take_append]
      have halone : scanNumber c (digits ++ ['L']) = _ := scanNumber_front hdigits (by simp)
      simp [htake, halone]
  · have halone : scanNumber c (digits ++ []) = _ := scanNumber_front hdigits (by simp)
    simpa using halone

/-- A sign of one or two characters is read from them alone. -/
theorem scanSign_take (c : Char) (cs : List Char) : (scanSign c cs).2 ≤ cs.length ∧
    scanSign c (cs.take (scanSign c cs).2) = scanSign c cs := by
  fun_cases scanSign c cs with
  | case29 =>
      -- the last line is for what no other line takes, with or without the text behind it
      refine ⟨by simp, ?_⟩
      show scanSign c [] = _
      rw [scanSign] <;> first | assumption | simp
  | _ => exact ⟨by simp, rfl⟩

/-! ## Quotes -/

/-- A literal is read from the text up to its closing quote; a quote behind it would have been read
    too. -/
theorem scanString_take {make : String → Token} (hq : q ≠ '\\')
    (h : scanString d u q make cs = .ok (t, width)) :
    width ≤ cs.length ∧ scanString d u q make (cs.take width) = .ok (t, width) := by
  obtain ⟨units, hread, rfl, rfl⟩ := scanString_ok h
  obtain ⟨hlegal, rest, rfl, -⟩ := StringUnit.opens_of_read hread
  have htake : (units.flatMap (StringUnit.written q) ++ q :: rest).take
      ((units.flatMap (StringUnit.written q)).length + 1) =
      units.flatMap (StringUnit.written q) ++ [q] := by simp [List.take_append]
  refine ⟨by simp, ?_⟩
  rw [htake, scanString_eq, StringUnit.read_written hq hlegal (by simp)]

/-- A quoted name is read from the text up to its closing quote. -/
theorem scanQuotedIdentifier_take (h : scanQuotedIdentifier q cs = .ok (t, width)) :
    width ≤ cs.length ∧ scanQuotedIdentifier q (cs.take width) = .ok (t, width) := by
  unfold scanQuotedIdentifier at h ⊢
  dsimp only at h ⊢
  split at h
  · next hlt =>
      obtain ⟨rfl, rfl⟩ := Prod.mk.inj (Except.ok.inj h)
      generalize hvalue : cs.takeWhile (· != closingQuote q) = value at hlt
      have hinside : ∀ x ∈ value, (x != closingQuote q) = true := by
        rw [← hvalue]
        exact fun x hx => List.mem_takeWhile_imp (p := (· != closingQuote q)) hx
      -- the closing quote is the first character that is not part of the name
      have hsplit : cs = value ++ cs.dropWhile (· != closingQuote q) := by
        rw [← hvalue, List.takeWhile_append_dropWhile]
      have hhead := List.head?_dropWhile_not (· != closingQuote q) cs
      cases hrest : cs.dropWhile (· != closingQuote q) with
      | nil =>
          rw [hrest, List.append_nil] at hsplit
          exact absurd hlt (by simp [hsplit])
      | cons x rest =>
          rw [hrest] at hsplit hhead
          have htake : cs.take (value.length + 1) = value ++ [x] := by
            rw [hsplit]
            simp [List.take_append]
          have halone : (value ++ [x]).takeWhile (· != closingQuote q) = value :=
            takeWhile_front hinside (by simpa using hhead)
          rw [htake, halone]
          simpa using hlt
  · exact nomatch h

/-! ## All tokens -/

/-- The characters that go on are the same with nothing behind them. -/
theorem takeWhile_take (p : Char → Bool) (cs : List Char) :
    (cs.take (cs.takeWhile p).length).takeWhile p = cs.takeWhile p := by
  rw [← List.prefix_iff_eq_take.mp (List.takeWhile_prefix p)]
  exact List.takeWhile_eq_self_iff.mpr fun _ => List.mem_takeWhile_imp

/-- The characters of a token are that token without what stands behind them. -/
theorem scan_take (h : scan d u c cs = .ok (t, width)) :
    width ≤ cs.length ∧ scan d u c (cs.take width) = .ok (t, width) := by
  -- all conditions but those for comments are on the first character, so that the text and
  -- its front come to the same line of `scan`
  unfold scan at h ⊢
  split at h
  · next hc => cases h; simp [hc]
  next hspace =>
  split at h
  · next hc => cases h; simp [hc]
  next htab =>
  split at h
  · next hc => cases h; simp [hc]
  next hnewline =>
  rw [if_neg hspace, if_neg htab, if_neg hnewline]
  split at h
  · next hc =>
      -- a line feed behind a carriage return belongs to it
      rw [if_pos hc]
      cases h
      cases cs with
      | nil => simp
      | cons x cs => by_cases hx : x = '\n' <;> simp [hx]
  next hreturn =>
  rw [if_neg hreturn]
  split at h
  · next hstart =>
      rw [if_pos hstart]
      cases h
      refine ⟨(List.takeWhile_sublist _).length_le, ?_⟩
      dsimp only
      rw [takeWhile_take]
  next hstart =>
  rw [if_neg hstart]
  split at h
  · next hc =>
      rw [if_pos hc]
      exact scanString_take (by rw [hc]; decide) h
  next hquote =>
  rw [if_neg hquote]
  split at h
  · next hopen =>
      rw [if_pos hopen]
      exact scanQuotedIdentifier_take h
  next hopen =>
  rw [if_neg hopen]
  split at h
  · next hc =>
      rw [if_pos hc]
      exact scanString_take (by rw [hc]; decide) h
  next hdouble =>
  rw [if_neg hdouble]
  split at h
  · next hdigit =>
      rw [if_pos hdigit]
      obtain ⟨hle, halone⟩ := scanNumber_take c cs
      rw [Except.ok.inj h] at hle halone
      exact ⟨hle, congrArg _ halone⟩
  next hdigit =>
  rw [if_neg hdigit]
  split at h
  · next rest =>
      obtain ⟨hle, htake, halone⟩ := lineCommentContent_take rest
      cases h
      refine ⟨Nat.succ_le_succ hle, ?_⟩
      rw [List.take_succ_cons, htake]
      simp only [halone]
  · next rest =>
      obtain ⟨n, rfl, hle, halone⟩ := scanBlockComment_take h
      exact ⟨Nat.succ_le_succ hle, halone⟩
  · next hline hblock =>
      obtain ⟨hle, halone⟩ := scanSign_take c cs
      rw [Except.ok.inj h] at hle halone
      -- a comment that starts here starts with characters of the text
      have hfront : ∀ {x rest}, cs.take width = x :: rest → ∃ rest', cs = x :: rest' := by
        intro x rest htake
        obtain ⟨rest', hrest'⟩ := htake ▸ List.take_prefix width cs
        exact ⟨_, hrest'.symm⟩
      refine ⟨hle, ?_⟩
      split
      · next htake =>
          obtain ⟨rest, hrest⟩ := hfront htake
          exact absurd hrest (hline rest rfl)
      · next htake =>
          obtain ⟨rest, hrest⟩ := hfront htake
          exact absurd hrest (hblock rest rfl)
      · exact congrArg _ halone

/-- A text is cut into chunks for its tokens, the first of which stands at `loc`. -/
structure Cut (d : Dialect) (u : Bool) (loc : Location) (cs : List Char) (tokens : List Located)
    (chunks : List (List Char)) : Prop where
  covers   : chunks.flatten = cs
  nonempty : [] ∉ chunks
  alone    : List.Forall₂ (fun chunk t =>
    lex d u (String.ofList chunk) = .ok [⟨t.token, .start⟩]) chunks tokens
  located  : ∀ i (_ : i < tokens.length),
    tokens[i].location = loc.advance (chunks.take i).flatten

/-- One more token in front. -/
theorem Cut.cons {loc : Location} {tail : List Located} {chunks : List (List Char)}
    (hscan : scan d u c cs = .ok (t, width))
    (h : Cut d u (loc.advance (c :: cs.take width)) (cs.drop width) tail chunks) :
    Cut d u loc (c :: cs) (⟨t, loc⟩ :: tail) ((c :: cs.take width) :: chunks) := by
  obtain ⟨hle, halone⟩ := scan_take hscan
  have hlength : (cs.take width).length = width := by simpa using hle
  refine ⟨?_, by simpa using h.nonempty, .cons ?_ h.alone, fun i hi => ?_⟩
  · rw [List.flatten_cons, h.covers, List.cons_append, List.take_append_drop]
  · exact lex_single String.toList_ofList (by rw [hlength]; exact halone)
  · cases i with
    | zero => rfl
    | succ i =>
        rw [List.getElem_cons_succ, h.located, List.take_succ_cons, List.flatten_cons,
          Location.advance, Location.advance, Location.advance, ← List.foldl_append]

/-- **Tokens partition the text.**  A text that has tokens is cut into as many chunks, none of
    them empty: each token is all that its chunk has, and stands where the chunks in front of
    it end. -/
theorem lex_chunks {text : String} {tokens : List Located} (h : lex d u text = .ok tokens) :
    ∃ chunks : List (List Char), chunks.flatten = text.toList ∧ [] ∉ chunks ∧
      List.Forall₂ (fun chunk t => lex d u (String.ofList chunk) = .ok [⟨t.token, .start⟩])
        chunks tokens ∧
      ∀ i (_ : i < tokens.length),
        tokens[i].location = Location.start.advance (chunks.take i).flatten := by
  obtain ⟨chunks, hcut⟩ := lexFrom_induction
    (P := fun loc cs tokens => ∃ chunks, Cut d u loc cs tokens chunks)
    (fun _ => ⟨[], rfl, by simp, .nil, nofun⟩)
    (fun hscan ⟨chunks, hcut⟩ => ⟨_, hcut.cons hscan⟩) h
  exact ⟨chunks, hcut.covers, hcut.nonempty, hcut.alone, hcut.located⟩

/-- A text of three lines, one of which ends in a carriage return and one in a comment. -/
theorem lex_chunks_lines :
    let text := "a\r\n/*\n*/<=>'it''s'"
    let tokens : List Located :=
      [⟨.word (.of "a" none), ⟨1, 1⟩⟩, ⟨.whitespace .newline, ⟨1, 2⟩⟩,
        ⟨.whitespace (.blockComment "\n"), ⟨2, 1⟩⟩, ⟨.spaceship, ⟨3, 3⟩⟩,
        ⟨.singleQuoted "it's", ⟨3, 6⟩⟩]
    lex .mysql true text = .ok tokens ∧
      ∃ chunks : List (List Char), chunks.flatten = text.toList ∧ [] ∉ chunks ∧
        List.Forall₂ (fun chunk t =>
          lex .mysql true (String.ofList chunk) = .ok [⟨t.token, .start⟩]) chunks tokens ∧
        ∀ i (_ : i < tokens.length),
          tokens[i].location = Location.start.advance (chunks.take i).flatten := by
  intro text tokens
  have h : lex .mysql true text = .ok tokens := by decide +kernel
  exact ⟨h, lex_chunks h⟩

end Token

end SchemaSql
