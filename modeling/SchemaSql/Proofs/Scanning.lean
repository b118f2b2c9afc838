import SchemaSql.Token.Lexer
import Mathlib.Tactic

/-! # Scanning — what a token was read as

    The lexer goes through a text token by token, and the character at the start of a token
    decides what it is.  This file takes a run of the lexer apart:

    * `Token.lexFrom_ok` is one token and those behind it, and `Token.lexFrom_induction` the
      induction over all of them, so that `Token.scan_of_mem` finds the characters that a token
      was read from;
    * `Token.Scanned` lists the ways to read a token, and `Token.scanned_of_mem` says that every
      token of a text was read in one of them. -/

namespace SchemaSql

/-! ## Units of string literals

    The lexer reads a literal in one loop and keeps only its text.  Proofs about literals take
    the loop apart into units, which are the same whether what they stand for is kept or how
    they are written. -/

/-- One character of a string literal, as it is written. -/
inductive StringUnit where
  | plain (c : Char)
  /-- The quote of the literal, written twice. -/
  | doubledQuote
  /-- A character behind a backslash. -/
  | escaped (c : Char)
  deriving DecidableEq, Repr, Inhabited

namespace StringUnit

/-- The spelling of a unit between two `quote`s. -/
def written (quote : Char) : StringUnit → List Char
  | .plain c => [c]
  | .doubledQuote => [quote, quote]
  | .escaped c => ['\\', c]

/-- The character a unit stands for. -/
def value (quote : Char) : StringUnit → Char
  | .plain c => c
  | .doubledQuote => quote
  | .escaped c => escapeValue c

/-- The units up to the closing quote, or `none` if the text ends first. -/
def read (backslash : Bool) (quote : Char) : List Char → Option (List StringUnit)
  | [] => none
  | [c] => if c = quote then some [] else none
  | c :: d :: rest =>
    if c = quote then
      if d = quote then (.doubledQuote :: ·) <$> read backslash quote rest else some []
    else if c = '\\' && backslash then (.escaped d :: ·) <$> read backslash quote rest
    else (.plain c :: ·) <$> read backslash quote (d :: rest)

/-- What the lexer keeps of units, and how many characters it reads up to the quote that closes
    them, which counts. -/
def kept (unescape : Bool) (quote : Char) (units : List StringUnit) : List Char × Nat :=
  (if unescape then units.map (value quote) else units.flatMap (written quote),
    (units.flatMap (written quote)).length + 1)

end StringUnit

/-- The text of a literal: the characters its units stand for, or their spelling. -/
def stringValue (unescape : Bool) (quote : Char) (units : List StringUnit) : String :=
  String.ofList <|
    if unescape then units.map (StringUnit.value quote)
    else units.flatMap (StringUnit.written quote)

section

variable {backslash : Bool} {quote : Char}

/-- What the loop of the lexer adds for a unit is the unit's own. -/
theorem push_unit (u : Bool) (x : StringUnit) (found : Option (List StringUnit)) :
    readString.push (if u then [x.value quote] else x.written quote) (x.written quote).length <$>
        found.map (StringUnit.kept u quote) =
      ((x :: ·) <$> found).map (StringUnit.kept u quote) := by
  cases found with
  | none => rfl
  | some units =>
      have hwidth : ∀ n m : Nat, n + 1 + m = m + n + 1 := by omega
      cases u <;> simp [readString.push, StringUnit.kept, hwidth]

/-- The loop of the lexer goes from unit to unit. -/
theorem readString_eq (u : Bool) (cs : List Char) :
    readString u backslash quote cs =
      (StringUnit.read backslash quote cs).map (StringUnit.kept u quote) := by
  induction cs using StringUnit.read.induct backslash quote with
  | case1 => rfl
  | case2 => simp [readString, StringUnit.read, StringUnit.kept]
  | case3 c hc => simp [readString, StringUnit.read, hc]
  -- a doubled quote is one unit, of which the mode keeps one or both quotes
  | case4 rest ih =>
      rw [readString, StringUnit.read, if_pos rfl, if_pos rfl, if_pos rfl, if_pos rfl, ih]
      exact push_unit u .doubledQuote _
  | case5 d rest hd => simp [readString, StringUnit.read, StringUnit.kept, hd]
  | case6 c d rest hc hb ih =>
      obtain ⟨rfl, rfl⟩ : c = '\\' ∧ backslash = true := by simpa using hb
      rw [readString, StringUnit.read, if_neg hc, if_neg hc, if_pos hb, if_pos hb, ih]
      exact push_unit u (.escaped d) _
  | case7 c d rest hc hb ih =>
      rw [readString, StringUnit.read, if_neg hc, if_neg hc, if_neg hb, if_neg hb, ih]
      rw [← push_unit u (.plain c)]
      simp [StringUnit.value, StringUnit.written]

/-- Whether a literal is decoded makes no difference to where it ends. -/
theorem readString_width (cs : List Char) :
    Prod.snd <$> readString true backslash quote cs =
      Prod.snd <$> readString false backslash quote cs := by
  rw [readString_eq, readString_eq]
  cases StringUnit.read backslash quote cs <;> rfl

end

/-- The character opens a string literal. -/
def Dialect.OpensString (d : Dialect) (c : Char) : Prop :=
  c = '\'' ∨ (c = '"' ∧ d.opensQuotedIdentifier c = false)

/-- The character starts a number. -/
structure Dialect.StartsNumber (d : Dialect) (c : Char) : Prop where
  digit  : c.isDigit = true
  noWord : d.startsIdentifier c = false
  noName : d.opensQuotedIdentifier c = false

namespace Token

variable {d : Dialect} {u : Bool}

/-- One token and those behind it. -/
theorem lexFrom_ok {loc : Location} {cs : List Char}
    {tokens : List Located} :
    lexFrom d u loc cs = .ok tokens ↔ (cs = [] ∧ tokens = []) ∨
      ∃ c rest token width tail, cs = c :: rest ∧ scan d u c rest = .ok (token, width) ∧
        lexFrom d u (loc.advance (c :: rest.take width)) (rest.drop width) = .ok tail ∧
        tokens = ⟨token, loc⟩ :: tail := by
  cases cs with
  | nil => simp [lexFrom, eq_comm]
  | cons c rest =>
      rw [lexFrom]
      cases hscan : scan d u c rest with
      | error fault => simp [hscan]
      | ok found =>
          obtain ⟨token, width⟩ := found
          cases htail : lexFrom d u (loc.advance (c :: rest.take width)) (rest.drop width) with
          | error e => simp [hscan, htail]
          | ok tail => simp [hscan, htail, eq_comm]

/-- What holds of no text and goes on with every token that is read holds of all that the lexer
    reads. -/
theorem lexFrom_induction {P : Location → List Char → List Located → Prop}
    (nil : ∀ loc, P loc [] [])
    (cons : ∀ {loc c cs t width tail}, scan d u c cs = .ok (t, width) →
      P (loc.advance (c :: cs.take width)) (cs.drop width) tail →
      P loc (c :: cs) (⟨t, loc⟩ :: tail))
    {loc : Location} {cs : List Char} {tokens : List Located}
    (h : lexFrom d u loc cs = .ok tokens) : P loc cs tokens := by
  induction loc, cs using lexFrom.induct d u generalizing tokens with
  | case1 loc =>
      obtain rfl : tokens = [] := by simpa [lexFrom] using h.symm
      exact nil loc
  | case2 loc c rest fault hscan =>
      rw [lexFrom, hscan] at h
      cases h
  | case3 loc c rest token width hscan ih =>
      rcases lexFrom_ok.mp h with ⟨hcs, -⟩ | ⟨_, _, token', width', tail, hcs, hscan', htail, rfl⟩
      · cases hcs
      · obtain ⟨rfl, rfl⟩ := List.cons.inj hcs
        obtain ⟨rfl, rfl⟩ := Prod.mk.inj (Except.ok.inj (hscan.symm.trans hscan'))
        exact cons hscan (ih htail)

/-- Every token of a text was read at some place of it. -/
theorem scan_of_mem {loc : Location} {cs : List Char} {tokens : List Located}
    (h : lexFrom d u loc cs = .ok tokens) :
    ∀ t ∈ tokens, ∃ c rest width, c :: rest <:+ cs ∧ scan d u c rest = .ok (t.token, width) :=
  lexFrom_induction
    (P := fun _ cs L => ∀ t ∈ L, ∃ c rest width, c :: rest <:+ cs ∧
      scan d u c rest = .ok (t.token, width))
    (fun _ => by simp) (fun {_ c cs _ width _} hscan ih => by
      refine List.forall_mem_cons.mpr ⟨⟨c, cs, width, List.suffix_refl _, hscan⟩, fun t ht => ?_⟩
      obtain ⟨c', rest, width', hsuffix, hscan'⟩ := ih t ht
      exact ⟨c', rest, width', hsuffix.trans <| (List.drop_suffix width cs).trans <|
        List.suffix_cons c cs, hscan'⟩) h

/-! ## Literals and identifiers in quotes -/

/-- A literal told by its units. -/
theorem scanString_eq (q : Char) (make : String → Token) (cs : List Char) :
    scanString d u q make cs =
      match StringUnit.read d.backslashEscape q cs with
      | none => .error .unterminatedString
      | some units =>
        .ok (make (stringValue u q units), (units.flatMap (StringUnit.written q)).length + 1) := by
  rw [scanString, readString_eq]
  cases StringUnit.read d.backslashEscape q cs <;> rfl

/-- A literal is its units up to the closing quote; what they stand for is the value. -/
theorem scanString_ok {q : Char} {cs : List Char} {make : String → Token} {t : Token}
    {width : Nat} (h : scanString d u q make cs = .ok (t, width)) :
    ∃ units, StringUnit.read d.backslashEscape q cs = some units ∧
      t = make (stringValue u q units) ∧
      width = (units.flatMap (StringUnit.written q)).length + 1 := by
  rw [scanString_eq] at h
  split at h
  · exact nomatch h
  · next units hread =>
      obtain ⟨rfl, rfl⟩ := Prod.mk.inj (Except.ok.inj h)
      exact ⟨units, hread, rfl, rfl⟩

/-- A quoted name is everything up to the closing quote. -/
theorem scanQuotedIdentifier_ok {q : Char} {cs : List Char} {t : Token} {width : Nat}
    (h : scanQuotedIdentifier q cs = .ok (t, width)) :
    t = .word (Word.of (String.ofList (cs.takeWhile (· != closingQuote q))) (some q)) := by
  unfold scanQuotedIdentifier at h
  dsimp only at h
  split at h
  · exact (Prod.mk.inj (Except.ok.inj h)).1.symm
  · exact nomatch h

/-! ## Numbers and signs -/

/-- The tokens that are signs. -/
def IsSign : Token → Prop
  | .eof | .word _ | .number .. | .char _ | .singleQuoted _ | .doubleQuoted _
  | .whitespace _ => False
  | _ => True

/-- What starts with a digit is read as a number, whatever follows. -/
theorem scanNumber_token (c : Char) (cs : List Char) :
    ∃ digits long, (scanNumber c cs).1 = .number digits long := by
  rw [scanNumber, apply_ite Prod.fst]
  exact ite_eq_or_eq _ _ _ |>.elim (⟨_, _, ·⟩) (⟨_, _, ·⟩)

/-- Every other character is a sign or stands for itself. -/
theorem scanSign_token (c : Char) (cs : List Char) :
    (scanSign c cs).1 = .char c ∨ (scanSign c cs).1.IsSign := by
  unfold scanSign
  split <;> first | exact .inr trivial | exact .inl rfl

/-! ## All ways to read a token -/

/-- The token of a literal between these quotes. -/
def literal (quote : Char) : String → Token :=
  if quote = '"' then .doubleQuoted else .singleQuoted

/-- The tokens that the lexer reads, by the way it reads them. -/
inductive Scanned (d : Dialect) (u : Bool) : Token → Prop where
  | blank (ws : Whitespace) : Scanned d u (.whitespace ws)
  | bareWord {c : Char} (cs : List Char) (hc : d.startsIdentifier c = true) :
      Scanned d u (.word (Word.of (String.ofList (c :: cs.takeWhile d.continuesIdentifier)) none))
  | string {q : Char} {cs : List Char} {units : List StringUnit} (hq : d.OpensString q)
      (h : StringUnit.read d.backslashEscape q cs = some units) :
      Scanned d u (literal q (stringValue u q units))
  | quotedWord {q : Char} (cs : List Char) (hq : d.opensQuotedIdentifier q = true) :
      Scanned d u (.word (Word.of (String.ofList (cs.takeWhile (· != closingQuote q))) (some q)))
  | number {c : Char} {cs : List Char} {digits : String} {long : Bool} (hc : d.StartsNumber c)
      (h : (scanNumber c cs).1 = .number digits long) : Scanned d u (.number digits long)
  | char (c : Char) : Scanned d u (.char c)
  | sign {t : Token} (h : t.IsSign) : Scanned d u t

/-- The tokens that are string literals. -/
def IsString : Token → Prop
  | .singleQuoted _ | .doubleQuoted _ => True
  | _ => False

/-- There is no other way to read a token, and a string literal is read where one is opened. -/
theorem scan_cases {c : Char} {cs : List Char} {t : Token} {width : Nat}
    (h : scan d u c cs = .ok (t, width)) :
    (d.OpensString c ∧ scanString d u c (literal c) cs = .ok (t, width)) ∨
      (t.Scanned d u ∧ ¬ t.IsString) := by
  unfold scan at h
  split at h
  · cases h; exact .inr ⟨.blank _, id⟩
  split at h
  · cases h; exact .inr ⟨.blank _, id⟩
  split at h
  · cases h; exact .inr ⟨.blank _, id⟩
  split at h
  · cases h; exact .inr ⟨.blank _, id⟩
  split at h
  · next hstart => cases h; exact .inr ⟨.bareWord cs hstart, id⟩
  split at h
  · next hc =>
      subst hc
      exact .inl ⟨.inl rfl, h⟩
  split at h
  · next hopen => exact scanQuotedIdentifier_ok h ▸ .inr ⟨.quotedWord cs hopen, id⟩
  split at h
  · next hopen hc =>
      subst hc
      exact .inl ⟨.inr ⟨rfl, by simpa using hopen⟩, h⟩
  split at h
  · next hstart _ hopen _ hdigit =>
      obtain ⟨digits, long, htoken⟩ := scanNumber_token c cs
      -- a digit that starts neither a word nor a quoted name starts a number
      have hnumber : (scanNumber c cs).1 = .number digits long := htoken
      rw [Except.ok.inj h] at htoken
      obtain rfl : t = .number digits long := htoken
      exact .inr ⟨.number ⟨hdigit, by simpa using hstart, by simpa using hopen⟩ hnumber, id⟩
  split at h
  · cases h; exact .inr ⟨.blank _, id⟩
  · unfold scanBlockComment at h
    split at h
    · exact nomatch h
    · cases h; exact .inr ⟨.blank _, id⟩
  · have htoken := scanSign_token c cs
    rw [Except.ok.inj h] at htoken
    obtain hchar | hsign : t = .char c ∨ t.IsSign := htoken
    · exact hchar ▸ .inr ⟨.char c, id⟩
    · refine .inr ⟨.sign hsign, ?_⟩
      cases t <;> first | exact id | exact hsign.elim

/-- Tokens that were read have one of the shapes that the lexer gives. -/
theorem scanned_of_scan {c : Char} {cs : List Char} {t : Token} {width : Nat}
    (h : scan d u c cs = .ok (t, width)) : t.Scanned d u := by
  rcases scan_cases h with ⟨hopens, hstring⟩ | ⟨hscanned, -⟩
  · obtain ⟨units, hread, rfl, -⟩ := scanString_ok hstring
    exact .string hopens hread
  · exact hscanned

/-- Every token of a text was read in one of these ways. -/
theorem scanned_of_mem {text : String} {tokens : List Located} {l : Located}
    (h : lex d u text = .ok tokens) (hl : l ∈ tokens) : l.token.Scanned d u := by
  obtain ⟨c, rest, width, -, hscan⟩ := scan_of_mem h l hl
  exact scanned_of_scan hscan

end Token

end SchemaSql
