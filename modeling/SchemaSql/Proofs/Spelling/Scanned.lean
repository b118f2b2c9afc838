import SchemaSql.Proofs.Spelling.Literals

/-! # Tokens that were read — which of them are read back from their text

    A word, a number or a sign of a text is read back from the text it has itself, since that
    is what it was read from.  A string literal is, if it has no quote of its own kind and no
    backslash in it; then decoding it or not makes no difference. -/

namespace SchemaSql

open Text

/-- Digits are no letters and no quotes, so that nothing but a number starts with one. -/
theorem Dialect.startsNumber {d : Dialect} (hd : d ∈ builtin) {c : Char} (hc : c.isDigit = true) :
    d.StartsNumber c where
  digit := hc
  noWord := by
    have hascii : ∀ d ∈ builtin, ∀ n < 128, (Char.ofNat n).isDigit = true →
        d.startsIdentifier (Char.ofNat n) = false := by decide +kernel
    have hlow : c.toNat < 128 := by
      simp only [Char.isDigit, Bool.and_eq_true, decide_eq_true_eq] at hc
      have hle : c.val ≤ 57 := hc.2
      exact Nat.lt_of_le_of_lt (UInt32.le_iff_toNat_le.mp hle) (by decide)
    simpa [hc] using hascii d hd c.toNat hlow
  noName := by
    have := regular_of_builtin hd
    by_contra hopens
    rcases Regular.opens (d := d) c (by simpa using hopens) with rfl | rfl <;> simp at hc

namespace Token

variable {d : Dialect} {u : Bool}

/-! ## Words -/

/-- A word is printed as it was read, since a quoted one has none of its quotes in it. -/
theorem Scanned.word [d.Regular] {w : Word} (h : (Token.word w).Scanned d u) (u' : Bool) :
    (Token.word w).printed = (Token.word w).text ∧ (Token.word w).Spelled d u' := by
  generalize ht : Token.word w = t at h
  cases h with
  | bareWord cs hc =>
      exact ⟨rfl, .bareWord ⟨_, _, String.toList_ofList, hc, fun x hx =>
        List.mem_takeWhile_imp hx⟩⟩
  | @quotedWord q cs hq =>
      -- the name ends at the first quote, so that printing it doubles none
      have hclose := closingQuote_eq hq
      rw [hclose]
      generalize hv : cs.takeWhile (· != q) = v
      have hnot : q ∉ v := by
        subst hv
        exact fun hmem => by simpa using List.mem_takeWhile_imp hmem
      refine ⟨?_, .quotedWord hq (by simpa using hnot)⟩
      rcases Dialect.Regular.opens q hq with rfl | rfl <;>
        simp [printed, text, Word.text, Word.of, Ident.text, Ident.ofWord, enclose, escape,
          escapeFrom_of_notMem hnot, hclose]
  | string =>
      unfold literal at ht
      split at ht <;> cases ht
  | blank | number | char => cases ht
  | sign hsign =>
      subst ht
      exact hsign.elim

/-! ## Numbers -/

/-- Digits, or digits with one period among them. -/
def IsDecimal (digits : List Char) : Prop :=
  ∃ whole : List Char, (∀ x ∈ whole, x.isDigit) ∧ (digits = whole ∨
    ∃ fraction : List Char, (∀ x ∈ fraction, x.isDigit) ∧ digits = whole ++ '.' :: fraction)

/-- What starts a number is read as one. -/
theorem scan_number {c : Char} (hc : d.StartsNumber c) (cs : List Char) :
    scan d u c cs = .ok (scanNumber c cs) := by
  have hplain : ∀ x ∈ [' ', '\t', '\n', '\r', '\'', '"'], c ≠ x := by
    have hdigit : ∀ x ∈ [' ', '\t', '\n', '\r', '\'', '"'], x.isDigit = false :=
      List.all_iff_forall_prop.mp (by decide)
    rintro x hx rfl
    simpa [hdigit c hx] using hc.digit
  simp only [List.forall_mem_cons] at hplain
  simp [scan, hplain, hc.noWord, hc.noName, hc.digit]

/-- The digits of a number that was read. -/
theorem isDecimal_of_scanNumber {c : Char} {cs : List Char} {digits : String} {long : Bool}
    (h : (scanNumber c cs).1 = .number digits long) :
    ∃ ds, digits = String.ofList (c :: ds) ∧ IsDecimal ds := by
  have hdigits : ∀ l : List Char, ∀ x ∈ l.takeWhile Char.isDigit, x.isDigit :=
    fun _ _ => List.mem_takeWhile_imp
  simp only [scanNumber] at h
  split at h <;> split at h <;> obtain ⟨rfl, -⟩ := Token.number.inj h
  · exact ⟨_, rfl, _, hdigits _, .inr ⟨_, hdigits _, rfl⟩⟩
  · exact ⟨_, rfl, _, hdigits _, .inr ⟨_, hdigits _, rfl⟩⟩
  · exact ⟨_, rfl, _, hdigits _, .inl rfl⟩
  · exact ⟨_, rfl, _, hdigits _, .inl rfl⟩

/-- A number ends in front of what it does not go on with. -/
theorem scanNumber_front {c : Char} {digits rest : List Char} (h : IsDecimal digits)
    (hrest : ∀ x ∈ rest.head?, x.isDigit = false ∧ (x = '.' → '.' ∈ digits)) :
    scanNumber c (digits ++ rest) =
      if rest.head? = some 'L' then (.number (String.ofList (c :: digits)) true, digits.length + 1)
      else (.number (String.ofList (c :: digits)) false, digits.length) := by
  obtain ⟨whole, hwhole, rfl | ⟨fraction, hfraction, rfl⟩⟩ := h
  -- a period behind whole digits would be read with them
  · have hpoint : rest.head? ≠ some '.' := fun hhead =>
      absurd (hwhole _ ((hrest _ hhead).2 rfl)) (by decide)
    have htake : (digits ++ rest).takeWhile Char.isDigit = digits :=
      takeWhile_front hwhole fun x hx => (hrest x hx).1
    simp [scanNumber, htake, hpoint]
  · have htake : (whole ++ '.' :: (fraction ++ rest)).takeWhile Char.isDigit = whole :=
      takeWhile_front hwhole (by simp)
    have hfront : (fraction ++ rest).takeWhile Char.isDigit = fraction :=
      takeWhile_front hfraction fun x hx => (hrest x hx).1
    have hdrop : ∀ Y : List Char, (whole ++ '.' :: Y).drop (whole.length + 1) = Y := fun Y => by
      rw [List.drop_append]
      simp
    simp [scanNumber, htake, hfront, hdrop]

/-- A number is read back in front of what adds neither a digit nor a period nor the letter to it.
    -/
theorem Spelled.number {c : Char} (hc : d.StartsNumber c) {ds : List Char} (h : IsDecimal ds)
    (long : Bool) : (Token.number (String.ofList (c :: ds)) long).Spelled d u := by
  cases long with
  | true =>
      refine ⟨c, ds ++ ['L'], by simp [text], fun rest _ => ?_⟩
      rw [scan_number hc, List.append_assoc, scanNumber_front h (by simp)]
      simp
  | false =>
      refine ⟨c, ds, by simp [text], fun rest hrest => ?_⟩
      have hstop : ∀ x ∈ rest.head?, x.isDigit = false ∧ x ≠ 'L' ∧ (x = '.' → '.' ∈ ds) := by
        intro x hx
        obtain ⟨hdigit, hlong, hpoint⟩ := hrest x hx rfl
        refine ⟨hdigit, hlong, fun heq => ?_⟩
        have hc' : '.' ≠ c := fun heq => absurd hc.digit (heq ▸ by decide)
        simpa [hc'] using hpoint heq
      have hlong : rest.head? ≠ some 'L' := fun hhead => (hstop _ hhead).2.1 rfl
      rw [scan_number hc, scanNumber_front h fun x hx => ⟨(hstop x hx).1, (hstop x hx).2.2⟩,
        if_neg hlong]

/-! ## String literals -/

/-- No string literal with a quote of its own kind in it. -/
def Quoteless : Token → Prop
  | .singleQuoted v => '\'' ∉ v.toList
  | .doubleQuoted v => '"' ∉ v.toList
  | _ => True

theorem quoteless_literal {q : Char} (hq : d.OpensString q) {v : String} :
    (literal q v).Quoteless ↔ q ∉ v.toList := by
  rcases hq with rfl | ⟨rfl, -⟩ <;> rfl

/-- A value without quotes and backslashes is read back in every mode. -/
theorem rereads_of_notMem {q : Char} {v : String} (hv : q ∉ v.toList) (hb : '\\' ∉ v.toList) :
    Rereads d u q v := by
  have hdoubled : doubled q v.toList = v.toList := by
    rw [doubled]
    refine (List.flatMap_congr fun c hc => if_neg ?_).trans (List.flatMap_singleton' _)
    rintro rfl
    exact hv hc
  refine ⟨StringUnit.ofValue q v.toList, StringUnit.legal_ofValue fun _ => hb, ?_, ?_⟩
  · rw [escapeFrom_of_notMem hv, StringUnit.written_ofValue, hdoubled]
  · unfold stringValue
    split
    · rw [StringUnit.map_value_ofValue, String.ofList_toList]
    · rw [StringUnit.written_ofValue, hdoubled, String.ofList_toList]

/-- What is written without backslashes has none in its value. -/
theorem notMem_stringValue {q : Char} (hq : q ≠ '\\') {units : List StringUnit}
    (h : '\\' ∉ units.flatMap (StringUnit.written q)) : '\\' ∉ (stringValue u q units).toList := by
  unfold stringValue
  rw [String.toList_ofList]
  split
  · intro hmem
    obtain ⟨x, hx, hvalue⟩ := List.mem_map.mp hmem
    refine h (List.mem_flatMap.mpr ⟨x, hx, ?_⟩)
    cases x with
    | plain c => simpa [StringUnit.written, StringUnit.value] using hvalue.symm
    | doubledQuote => exact absurd hvalue hq
    | escaped c => simp [StringUnit.written]
  · exact h

/-! ## Tokens of a text -/

/-- Tokens of a text without backslashes are read back from their own texts, whether literals
    are decoded or not. -/
theorem spelled_of_mem [d.Regular] {text : String} {tokens : List Located} {t : Located}
    (h : lex d u text = .ok tokens) (ht : t ∈ tokens) (hbackslash : '\\' ∉ text.toList)
    (hquoteless : t.token.Quoteless) (hblank : t.isWhitespace = false)
    (hchar : ∀ c, t.token ≠ .char c) (u' : Bool) : t.token.Spelled d u' := by
  obtain ⟨c, cs, width, hsuffix, hscan⟩ := scan_of_mem h t ht
  have hblank' : t.token.isWhitespace = false := hblank
  rcases scan_cases hscan with ⟨hopens, hstring⟩ | ⟨hscanned, hstring⟩
  · obtain ⟨units, hread, htoken, -⟩ := scanString_ok hstring
    obtain ⟨-, rest, hcs, -⟩ := StringUnit.opens_of_read hread
    rw [htoken] at hquoteless ⊢
    refine .literal hopens (rereads_of_notMem ((quoteless_literal hopens).mp hquoteless) ?_)
    refine notMem_stringValue hopens.ne_backslash fun hmem => hbackslash (hsuffix.mem ?_)
    simp [hcs, hmem]
  · generalize t.token = token at hblank' hchar hscanned hstring ⊢
    cases hscanned with
    | blank => cases hblank'
    | bareWord cs hc => exact (Scanned.word (.bareWord (u := u) cs hc) u').2
    | quotedWord cs hq => exact (Scanned.word (.quotedWord (u := u) cs hq) u').2
    | string =>
        unfold literal at hstring
        split at hstring <;> exact absurd trivial hstring
    | number hc hnumber =>
        obtain ⟨ds, rfl, hds⟩ := isDecimal_of_scanNumber hnumber
        exact .number hc hds _
    | char c => exact absurd rfl (hchar c)
    | sign hsign => exact spelled_of_isSign hsign

end Token

end SchemaSql
