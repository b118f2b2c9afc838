import SchemaSql.Proofs.Spelling.Literals

/-! # Decoding — literals as they are written, and what they stand for

    The lexer either keeps a string literal as it is written or decodes it while it scans.
    Decoding afterwards comes to the same:

    * `Text.decode` reads a literal that was kept as written from left to right;
    * `Text.decode_written` says that it finds the units again that the literal was scanned as,
      although their ends are not marked;
    * `Token.lex_decoded` follows by the recursion of the lexer: the two modes end at the same
      places, and differ in nothing but the texts of their literals. -/

namespace SchemaSql

/-! ## Texts of literals -/

namespace Text

/-- What a character behind a backslash stands for. -/
def unescaped : Char → Char
  | 'n' => '\n'
  | 't' => '\t'
  | 'r' => '\r'
  | '0' => '\x00'
  | c => c

/-- What the text between two `quote`s stands for: two quotes in a row are one quote, and where
    a `backslash` escapes, it and the character behind it are one character. -/
def decode (backslash : Bool) (quote : Char) : List Char → List Char
  | [] => []
  | [c] => [c]
  | c :: d :: rest =>
    if c = quote ∧ d = quote then quote :: decode backslash quote rest
    else if c = '\\' ∧ backslash then unescaped d :: decode backslash quote rest
    else c :: decode backslash quote (d :: rest)

variable {backslash : Bool} {quote : Char}

/-- A backslash in front of two quotes escapes the first of them. -/
example : decode true '\'' ['\\', '\'', '\'', '\'', '\\', 'n'] = ['\'', '\'', '\n'] := by decide

/-- A character that neither is a quote nor escapes stands for itself, whatever follows. -/
theorem decode_plain {c : Char} (hc : c ≠ quote) (hb : backslash = true → c ≠ '\\')
    (cs : List Char) : decode backslash quote (c :: cs) = c :: decode backslash quote cs := by
  cases cs with
  | nil => rfl
  | cons d cs =>
      have hquotes : ¬ (c = quote ∧ d = quote) := fun h => hc h.1
      have hescape : ¬ (c = '\\' ∧ backslash) := fun h => hb h.2 h.1
      rw [decode, if_neg hquotes, if_neg hescape]

/-- Two quotes in a row stand for one. -/
theorem decode_quotes (cs : List Char) :
    decode backslash quote (quote :: quote :: cs) = quote :: decode backslash quote cs := by
  rw [decode, if_pos ⟨rfl, rfl⟩]

/-- A backslash and a character stand for one, where the dialect has escapes. -/
theorem decode_escaped (hq : quote ≠ '\\') (c : Char) (cs : List Char) :
    decode true quote ('\\' :: c :: cs) = unescaped c :: decode true quote cs := by
  have hquotes : ¬ ('\\' = quote ∧ c = quote) := fun h => hq h.1.symm
  rw [decode, if_neg hquotes, if_pos ⟨rfl, rfl⟩]

/-- The table of the scanner and that of the decoder are one table. -/
theorem value_escaped (quote c : Char) :
    StringUnit.value quote (.escaped c) = unescaped c := by
  show escapeValue c = unescaped c
  unfold escapeValue unescaped
  rfl

/-- Decoding what units are written with gives the characters that they stand for. -/
theorem decode_written (hq : quote ≠ '\\') {units : List StringUnit}
    (h : ∀ x ∈ units, x.Legal backslash quote) :
    decode backslash quote (units.flatMap (StringUnit.written quote))
      = units.map (StringUnit.value quote) := by
  induction units with
  | nil => rfl
  | cons x units ih =>
      obtain ⟨hx, hunits⟩ := List.forall_mem_cons.mp h
      rw [List.flatMap_cons, List.map_cons, ← ih hunits]
      cases x with
      | plain c => exact decode_plain hx.1 hx.2 _
      | doubledQuote => exact decode_quotes _
      | escaped c =>
          obtain rfl : backslash = true := hx
          rw [value_escaped]
          exact decode_escaped hq c _

end Text

/-! ## Tokens -/

namespace Token

variable {d : Dialect}

/-- The token with the text of a string literal decoded. -/
def decoded (d : Dialect) : Token → Token
  | .singleQuoted v => .singleQuoted (.ofList (Text.decode d.backslashEscape '\'' v.toList))
  | .doubleQuoted v => .doubleQuoted (.ofList (Text.decode d.backslashEscape '"' v.toList))
  | t => t

/-- Only strings are decoded. -/
theorem decoded_of_not_isString {t : Token} (h : ¬ t.IsString) : t.decoded d = t := by
  cases t with
  | singleQuoted v => exact absurd trivial h
  | doubleQuoted v => exact absurd trivial h
  | _ => rfl

/-- Reading a literal decoded is reading it as it is written and decoding it then: the same width
    and the same end. -/
theorem scanString_decoded {quote : Char} (hq : quote ≠ '\\') {make : String → Token}
    (hmake : ∀ v, (make v).decoded d
      = make (.ofList (Text.decode d.backslashEscape quote v.toList))) (cs : List Char) :
    scanString d true quote make cs
      = (scanString d false quote make cs).map fun found => (found.1.decoded d, found.2) := by
  rw [scanString_eq, scanString_eq]
  cases hread : StringUnit.read d.backslashEscape quote cs with
  | none => rfl
  | some units =>
      have hlegal := (StringUnit.opens_of_read hread).legal
      simp [Except.map, hmake, stringValue, Text.decode_written hq hlegal]

/-- Both modes read one token from the same characters, or refuse them for the same reason. -/
theorem scan_decoded (c : Char) (cs : List Char) :
    scan d true c cs = (scan d false c cs).map fun found => (found.1.decoded d, found.2) := by
  unfold scan
  split
  · rfl
  split
  · rfl
  split
  · rfl
  split
  · rfl
  split
  · rfl
  split
  · next hc => exact scanString_decoded (by simp [hc]) (fun _ => by rw [hc]; rfl) cs
  split
  · unfold scanQuotedIdentifier
    dsimp only
    split <;> rfl
  split
  · next hc => exact scanString_decoded (by simp [hc]) (fun _ => by rw [hc]; rfl) cs
  split
  · obtain ⟨digits, long, hnumber⟩ := scanNumber_token c cs
    have hplain : ¬ (scanNumber c cs).1.IsString := by rw [hnumber]; exact id
    simp [Except.map, decoded_of_not_isString hplain]
  split
  · rfl
  · unfold scanBlockComment
    split <;> rfl
  -- only string literals have a value that the mode changes
  · have hplain : ¬ (scanSign c cs).1.IsString := by
      rcases scanSign_token c cs with h | h
      · rw [h]; exact id
      · cases hsign : (scanSign c cs).1 <;> rw [hsign] at h <;> first | exact id | exact h.elim
    simp [Except.map, decoded_of_not_isString hplain]

/-- **The two modes differ by decoding.**  Where literals are decoded a text has the tokens it
    has where they are kept as written, at the same places and with the literals decoded one by
    one; or it is refused in both modes, with the same fault at the same place. -/
theorem lex_decoded (d : Dialect) (text : String) :
    lex d true text = (lex d false text).map fun tokens =>
      tokens.map fun t => ⟨t.token.decoded d, t.location⟩ := by
  -- by the recursion of the lexer: both modes cut the text at the same places
  have hfrom : ∀ loc cs, lexFrom d true loc cs = (lexFrom d false loc cs).map fun tokens =>
      tokens.map fun t => ⟨t.token.decoded d, t.location⟩ := by
    intro loc cs
    induction loc, cs using lexFrom.induct d false with
    | case1 loc => simp [lexFrom, Except.map]
    | case2 loc c rest fault hscan =>
        have hscan' : scan d true c rest = .error fault := by rw [scan_decoded, hscan]; rfl
        rw [lexFrom, lexFrom, hscan, hscan']
        rfl
    | case3 loc c rest token width hscan ih =>
        have hscan' : scan d true c rest = .ok (token.decoded d, width) := by
          rw [scan_decoded, hscan]; rfl
        rw [lexFrom, lexFrom, hscan, hscan']
        dsimp only
        rw [ih]
        cases lexFrom d false (loc.advance (c :: rest.take width)) (rest.drop width) <;> rfl
  exact hfrom .start text.toList

end Token

end SchemaSql
