import SchemaSql.Proofs.Spelling

/-! # Block comments — where they end

    Comments nest, so a comment ends at the sign that closes as many as were opened.  Which
    signs there are depends on whether a character may belong to two of them, as the star of
    `/*/` would:

    * `nestedComment` is the scan that takes every sign as a whole;
    * the lexer compares each character with the one before it, so within a comment a character
      may end one sign and start another, although the star that opens the comment itself is
      not counted again;
    * `blockCommentContent_eq` says that the two agree on a text whose signs stay apart
      (`Apart`), by induction over the scan: what it keeps is that the character in front and
      the next one are not taken for a sign (`Fresh`). -/

namespace SchemaSql

namespace Token

/-! ## The scan that takes signs as a whole -/

/-- What a block comment holds and what stands behind it, from the character behind the sign
    that opens it; `none` if the text ends first.  `inner` more comments are open inside this
    one, which makes a depth of `inner + 1`. -/
def nestedComment : (inner : Nat) → List Char → Option (List Char × List Char)
  | _, [] => none
  | inner, '/' :: '*' :: rest =>
    (nestedComment (inner + 1) rest).map (Prod.map (['/', '*'] ++ ·) id)
  | 0, '*' :: '/' :: rest => some ([], rest)
  | inner + 1, '*' :: '/' :: rest => (nestedComment inner rest).map (Prod.map (['*', '/'] ++ ·) id)
  | inner, c :: rest => (nestedComment inner rest).map (Prod.map ([c] ++ ·) id)

/-- The characters that this scan looks at: up to the sign that closes the comment, or all. -/
def commentExtent (inner : Nat) (cs : List Char) : List Char :=
  match nestedComment inner cs with
  | some (content, _) => content ++ ['*', '/']
  | none => cs

/-- What a comment takes in adds up, if the scan takes the front as it is. -/
theorem commentExtent_append {inner inner' : Nat} {rest : List Char} (front : List Char)
    (h : nestedComment inner (front ++ rest) =
      (nestedComment inner' rest).map (Prod.map (front ++ ·) id)) :
    commentExtent inner (front ++ rest) = front ++ commentExtent inner' rest := by
  rw [commentExtent, commentExtent, h]
  cases nestedComment inner' rest <;> simp

/-- A comment takes in the first character of a text, if there is one. -/
theorem head?_commentExtent (inner : Nat) (cs : List Char) :
    (commentExtent inner cs).head? = cs.head? := by
  rw [commentExtent]
  fun_cases nestedComment inner cs with
  | case1 => rfl
  | case2 inner rest => cases nestedComment (inner + 1) rest <;> rfl
  | case3 rest => rfl
  | case4 inner rest => cases nestedComment inner rest <;> rfl
  | case5 inner c rest => cases nestedComment inner rest <;> rfl

/-- The two characters, together, are a comment sign. -/
def IsCommentSign (c d : Char) : Prop := (c = '/' ∧ d = '*') ∨ (c = '*' ∧ d = '/')

/-- No character of the text belongs to two comment signs. -/
def Apart (cs : List Char) : Prop := ¬ ['/', '*', '/'] <:+: cs ∧ ¬ ['*', '/', '*'] <:+: cs

instance (cs : List Char) : Decidable (Apart cs) := inferInstanceAs (Decidable (_ ∧ _))

/-- Delimiters that stand apart do so in every rest of the text. -/
theorem Apart.drop {front cs : List Char} (h : Apart (front ++ cs)) : Apart cs := by
  have hsuffix : cs <:+: front ++ cs := (List.suffix_append front cs).isInfix
  constructor
  · intro hpart
    exact h.1 (hpart.trans hsuffix)
  · intro hpart
    exact h.2 (hpart.trans hsuffix)

/-- Behind a sign no character makes another one with its second. -/
theorem Apart.fresh {c d : Char} {cs : List Char} (hsign : IsCommentSign c d)
    (h : Apart ([c, d] ++ cs)) : ∀ x ∈ cs.head?, ¬ IsCommentSign d x := by
  intro x hx hnext
  obtain ⟨rest, rfl⟩ := List.head?_eq_some_iff.mp hx
  rcases hsign with ⟨rfl, rfl⟩ | ⟨rfl, rfl⟩ <;> rcases hnext with ⟨hd, rfl⟩ | ⟨hd, rfl⟩
  · exact absurd hd (by decide)
  · exact h.1 ⟨[], rest, rfl⟩
  · exact h.2 ⟨[], rest, rfl⟩
  · exact absurd hd (by decide)

/-- The text of a comment is what the scan went through. -/
theorem nestedComment_split {inner : Nat} {cs content behind : List Char}
    (h : nestedComment inner cs = some (content, behind)) :
    cs = content ++ '*' :: '/' :: behind := by
  fun_induction nestedComment inner cs generalizing content with
  | case1 => exact nomatch h
  | case3 rest =>
      obtain ⟨rfl, rfl⟩ := Prod.mk.inj (Option.some.inj h)
      rfl
  | case2 inner rest ih | case4 inner rest ih | case5 inner c rest _ _ _ ih =>
      obtain ⟨⟨content, behind⟩, hrest, heq⟩ := Option.map_eq_some_iff.mp h
      obtain ⟨rfl, rfl⟩ := Prod.mk.inj heq
      simp [ih hrest]

/-! ## The scan of the lexer -/

section
variable {inner inner' : Nat} {last c d : Char} {cs rest : List Char}

/-- A character that makes no sign with the one before it belongs to the comment. -/
theorem blockCommentContent_cons (h : ¬ IsCommentSign last c) :
    blockCommentContent inner last (c :: cs) = (c :: ·) <$> blockCommentContent inner c cs := by
  obtain ⟨hopen, hclose⟩ := not_or.mp h
  conv_lhs => unfold blockCommentContent
  rw [if_neg (by simpa using hopen), if_neg (by simpa using hclose)]

/-- Behind a sign that both scans take, they agree if they agree on what follows. -/
theorem blockCommentContent_sign (hsign : IsCommentSign c d)
    (hscan : nestedComment inner ([c, d] ++ rest) =
      (nestedComment inner' rest).map (Prod.map ([c, d] ++ ·) id))
    (hlex : blockCommentContent inner c (d :: rest) =
      (d :: ·) <$> blockCommentContent inner' d rest)
    (hrest : Apart (commentExtent inner' rest) → (∀ x ∈ rest.head?, ¬ IsCommentSign d x) →
      blockCommentContent inner' d rest = (nestedComment inner' rest).map (·.1 ++ ['*']))
    (hapart : Apart (commentExtent inner ([c, d] ++ rest))) (hfresh : ¬ IsCommentSign last c) :
    blockCommentContent inner last ([c, d] ++ rest) =
      (nestedComment inner ([c, d] ++ rest)).map (·.1 ++ ['*']) := by
  rw [commentExtent_append _ hscan] at hapart
  have hnext := hapart.fresh hsign
  rw [head?_commentExtent] at hnext
  rw [List.cons_append, blockCommentContent_cons hfresh, List.cons_append, List.nil_append, hlex,
    hrest hapart.drop hnext]
  show _ = (nestedComment inner ([c, d] ++ rest)).map _
  rw [hscan]
  cases nestedComment inner' rest <;> simp

/-- The lexer agrees with the scan that takes signs as a whole, if no character belongs to two
    of them.  Its content ends with the star of the sign that closes the comment. -/
theorem blockCommentContent_eq (hapart : Apart (commentExtent inner cs))
    (hfresh : ∀ x ∈ cs.head?, ¬ IsCommentSign last x) :
    blockCommentContent inner last cs = (nestedComment inner cs).map (·.1 ++ ['*']) := by
  -- the induction is on the scan that takes signs as a whole: at a sign the lexer takes two
  -- steps, and `last` is any character since the second starts from the first of the sign
  induction inner, cs using nestedComment.induct generalizing last with
  | case1 => rfl
  | case2 inner rest ih =>
      exact blockCommentContent_sign (.inl ⟨rfl, rfl⟩) rfl rfl ih hapart (hfresh _ rfl)
  | case3 rest =>
      rw [blockCommentContent_cons (hfresh _ rfl)]
      rfl
  | case4 inner rest ih =>
      exact blockCommentContent_sign (.inr ⟨rfl, rfl⟩) rfl rfl ih hapart (hfresh _ rfl)
  | case5 inner c rest hopen hzero hclose ih =>
      have hscan : nestedComment inner (c :: rest) =
          (nestedComment inner rest).map (Prod.map ([c] ++ ·) id) := by
        rw [nestedComment] <;> assumption
      have hextent : commentExtent inner (c :: rest) = [c] ++ commentExtent inner rest :=
        commentExtent_append [c] hscan
      -- the scan would have taken a sign that starts here
      have hnext : ∀ x ∈ rest.head?, ¬ IsCommentSign c x := by
        intro x hx hsign
        obtain ⟨rest, rfl⟩ := List.head?_eq_some_iff.mp hx
        rcases hsign with ⟨rfl, rfl⟩ | ⟨rfl, rfl⟩
        · exact hopen _ rfl rfl
        · cases inner with
          | zero => exact hzero _ rfl rfl rfl
          | succ inner => exact hclose _ _ rfl rfl rfl
      rw [hextent] at hapart
      rw [blockCommentContent_cons (hfresh _ rfl), ih hapart.drop hnext, hscan]
      cases nestedComment inner rest <;> simp

end

/-! ## Comments in a text -/

variable {d : Dialect} {u : Bool}

/-- A slash and a star start a comment between delimiters in every dialect. -/
theorem scan_blockComment [d.Regular] (cs : List Char) :
    scan d u '/' ('*' :: cs) = scanBlockComment cs := by
  have hstart : d.startsIdentifier '/' = false := (Dialect.Regular.sign '/' (by decide)).1
  have hopen : d.opensQuotedIdentifier '/' = false := by
    by_contra h
    exact absurd (Dialect.Regular.opens (d := d) '/' (by simpa using h)) (by decide)
  have hdigit : Char.isDigit '/' = false := by decide
  simp [scan, hstart, hopen, hdigit]

/-- **Block comments nest.**  A text that starts with a comment is that comment and the tokens
    behind the sign that closes it, for a scan that counts the comments that are open and takes
    every sign as a whole; if that scan finds no such sign, the text is refused at its end.  No
    character that the scan looks at may belong to two signs. -/
theorem lex_blockComment (hd : d ∈ Dialect.builtin) {text : String} {rest : List Char}
    (htext : text.toList = '/' :: '*' :: rest) (hapart : Apart (commentExtent 0 rest)) :
    lex d u text = match nestedComment 0 rest with
      | some (content, behind) =>
        (⟨.whitespace (.blockComment (String.ofList content)), .start⟩ :: ·) <$>
          lexFrom d u (Location.start.advance (['/', '*'] ++ content ++ ['*', '/'])) behind
      | none => .error ⟨.unclosedComment, Location.start.advance text.toList⟩ := by
  have := Dialect.regular_of_builtin hd
  -- the lexer starts as if a blank stood in front: the star that opens the comment is used up
  have hfresh : ∀ x ∈ rest.head?, ¬ IsCommentSign ' ' x := by
    intro x _
    simp [IsCommentSign]
  rw [lex, htext, lexFrom, scan_blockComment, scanBlockComment,
    blockCommentContent_eq hapart hfresh]
  cases hscan : nestedComment 0 rest with
  | none => rfl
  | some found =>
      obtain ⟨content, behind⟩ := found
      obtain rfl := nestedComment_split hscan
      have htake : (content ++ '*' :: '/' :: behind).take (content.length + 2) =
          content ++ ['*', '/'] := by simp [List.take_append]
      simp [htake]

/-- A comment in a comment.  The star behind the first slash is taken once, and so is the slash
    that closes the inner comment behind two stars. -/
theorem lex_blockComment_inner :
    Apart (commentExtent 0 "/ a /* b **/ c */ x".toList) ∧
      lex .mysql true "/*/ a /* b **/ c */ x" = .ok
        [⟨.whitespace (.blockComment "/ a /* b **/ c "), ⟨1, 1⟩⟩, ⟨.whitespace .space, ⟨1, 20⟩⟩,
          ⟨.word (.of "x" none), ⟨1, 21⟩⟩] := by
  have hapart : Apart (commentExtent 0 "/ a /* b **/ c */ x".toList) := by decide +kernel
  have hlex := lex_blockComment (u := true) (d := .mysql) (by simp [Dialect.builtin])
    (show "/*/ a /* b **/ c */ x".toList = _ from rfl) hapart
  exact ⟨hapart, hlex.trans (by decide +kernel)⟩

/-- A slash that closes an inner comment, and the star behind it, are taken for the start of
    another one: this comment is never closed. -/
theorem lex_blockComment_shared :
    nestedComment 0 " /* */* */".toList = some (" /* */* ".toList, []) ∧
      lex .generic true "/* /* */* */" = .error ⟨.unclosedComment, ⟨1, 13⟩⟩ := by
  decide +kernel

/-- The star that opens an inner comment also closes it: this comment ends one sign early. -/
example : nestedComment 0 " /*/ */".toList = none ∧
    lex .generic true "/* /*/ */" = .ok [⟨.whitespace (.blockComment " /*/ "), .start⟩] := by
  decide +kernel

end Token

end SchemaSql
