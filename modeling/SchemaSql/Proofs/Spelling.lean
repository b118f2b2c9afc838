import Mathlib.Data.Bool.AllAny
import SchemaSql.Proofs.Climbing.Layout
import SchemaSql.Proofs.Scanning

/-! # Spelling — texts that the lexer reads back

    The text of a list of tokens is read back as that list if the lexer reads each token in
    the place where it stands: it is spelled as the lexer spells it, and what follows does not
    go on with it.

    * `Token.Stops d t x` says that a `t` does not go on with the character `x`.
    * `Token.Spelled` says that the lexer reads a token's own text as that token, whatever
      stands behind it that stops it.
    * `Token.Lexes` says that a text has these tokens; where it starts does not matter.
    * `Legible` puts the first two together, and `Legible.lexes` is what it is for.
    * `Dialect.Regular` collects what the built-in dialects have in common; signs, blanks and
      words are spelled in all of them. -/

namespace SchemaSql

namespace Token

/-- A token does not go on with this character. -/
def Stops (d : Dialect) (t : Token) (x : Char) : Prop :=
  match t with
  | .word w => w.quote = none → d.continuesIdentifier x = false
  | .number digits long =>
    long = false → x.isDigit = false ∧ x ≠ 'L' ∧ (x = '.' → '.' ∈ digits.toList)
  | .singleQuoted _ => x ≠ '\''
  | .doubleQuoted _ => x ≠ '"'
  | .char c => c = '!' → x ≠ '='
  | .eq | .gt => x ≠ '='
  | .lt => x ≠ '=' ∧ x ≠ '>'
  | .ltEq => x ≠ '>'
  | .minus => x ≠ '-'
  | .div => x ≠ '*'
  | .pipe => x ≠ '|' ∧ x ≠ '>'
  | .colon => x ≠ ':'
  | _ => True

/-- The lexer reads the text of a token as that token, in front of all that stops it. -/
def Spelled (d : Dialect) (u : Bool) (t : Token) : Prop :=
  ∃ c cs, t.text.toList = c :: cs ∧
    ∀ rest : List Char, (∀ x ∈ rest.head?, t.Stops d x) →
      scan d u c (cs ++ rest) = .ok (t, cs.length)

/-- The text of a list of tokens. -/
def textOf (tokens : List Token) : String := Text.Chunks.text (tokens.map text)

@[simp] theorem textOf_nil : textOf [] = "" := rfl

@[simp] theorem textOf_cons (t : Token) (tokens : List Token) :
    textOf (t :: tokens) = t.text ++ textOf tokens := by
  simp [textOf]

/-- The text of tokens is put together from left to right. -/
@[simp] theorem textOf_append (P Q : List Token) : textOf (P ++ Q) = textOf P ++ textOf Q := by
  simp [textOf]

@[simp] theorem text_space : Token.space.text = " " := rfl

@[simp] theorem text_ofKeyword (k : Keyword) : (Token.ofKeyword k).text = k.name := rfl

/-- A token stops in front of what a text starts with. -/
def StopsAt (d : Dialect) (t : Token) (tokens : List Token) : Prop :=
  ∀ x ∈ (textOf tokens).toList.head?, t.Stops d x

end Token

open Token

/-- A list of tokens whose text is read back as that list. -/
def Legible (d : Dialect) (u : Bool) : List Token → Prop
  | [] => True
  | t :: tokens => t.Spelled d u ∧ t.StopsAt d tokens ∧ Legible d u tokens

namespace Token

variable {d : Dialect} {u : Bool} {cs : List Char} {t : Token} {T : List Token}

/-- The text has these tokens, wherever it starts. -/
def Lexes (d : Dialect) (u : Bool) (cs : List Char) (T : List Token) : Prop :=
  ∀ loc, ∃ L, lexFrom d u loc cs = .ok L ∧ L.map Located.token = T

/-- An empty text has no tokens. -/
theorem Lexes.nil : Lexes d u [] [] := fun _ => ⟨[], lexFrom_ok.mpr (.inl ⟨rfl, rfl⟩), rfl⟩

/-- A token that is read in front, and the tokens of what is left behind it. -/
theorem Lexes.cons {c : Char} {width : Nat} (hscan : scan d u c cs = .ok (t, width))
    (h : Lexes d u (cs.drop width) T) : Lexes d u (c :: cs) (t :: T) := by
  intro loc
  obtain ⟨L, hL, rfl⟩ := h (loc.advance (c :: cs.take width))
  exact ⟨⟨t, loc⟩ :: L, lexFrom_ok.mpr (.inr ⟨c, cs, t, width, L, rfl, hscan, hL, rfl⟩), rfl⟩

/-- The tokens of a text do not depend on where it starts. -/
theorem Lexes.of_lexFrom {loc : Location} {L : List Located} (h : lexFrom d u loc cs = .ok L) :
    Lexes d u cs (L.map Located.token) :=
  lexFrom_induction (P := fun _ cs L => Lexes d u cs (L.map Located.token)) (fun _ => .nil)
    (fun hscan ih => .cons hscan ih) h

/-- A spelled token in front of a text that stops it. -/
theorem Spelled.lexes (h : t.Spelled d u) (hstop : ∀ x ∈ cs.head?, t.Stops d x)
    (hcs : Lexes d u cs T) : Lexes d u (t.text.toList ++ cs) (t :: T) := by
  obtain ⟨c, front, htext, hscan⟩ := h
  rw [htext, List.cons_append]
  exact .cons (hscan cs hstop) (by simpa using hcs)

/-- A spelled token in front of what stops it is the first token of its text, and the others
    are those of what stands behind it. -/
theorem Spelled.lexes_iff (h : t.Spelled d u) (hstop : ∀ x ∈ cs.head?, t.Stops d x) :
    Lexes d u (t.text.toList ++ cs) T ↔ ∃ T', T = t :: T' ∧ Lexes d u cs T' := by
  constructor
  · intro hT
    obtain ⟨c, front, htext, hscan⟩ := h
    obtain ⟨L, hL, rfl⟩ := hT .start
    rw [htext, List.cons_append] at hL
    rcases lexFrom_ok.mp hL with ⟨hnil, -⟩ | ⟨_, _, t', width, tail, hcs, hscan', htail, rfl⟩
    · exact nomatch hnil
    obtain ⟨rfl, rfl⟩ := List.cons.inj hcs
    obtain ⟨rfl, rfl⟩ := Prod.mk.inj (Except.ok.inj ((hscan cs hstop).symm.trans hscan'))
    rw [List.drop_left] at htail
    exact ⟨_, rfl, .of_lexFrom htail⟩
  · rintro ⟨T', rfl, hcs⟩
    exact h.lexes hstop hcs

/-- A text that starts with a spelled token has it as its first token. -/
theorem Spelled.head_eq (h : t.Spelled d u) (hstop : ∀ x ∈ cs.head?, t.Stops d x)
    (hT : Lexes d u (t.text.toList ++ cs) T) : T.head? = some t := by
  obtain ⟨T', rfl, -⟩ := (h.lexes_iff hstop).mp hT
  rfl

end Token

/-- A legible text is read back. -/
theorem Legible.lexes {d : Dialect} {u : Bool} {P : List Token} (h : Legible d u P) :
    Lexes d u (textOf P).toList P := by
  induction P with
  | nil => exact .nil
  | cons t P ih =>
      obtain ⟨hspelled, hstop, hP⟩ := h
      rw [textOf_cons, String.toList_append]
      exact hspelled.lexes hstop (ih hP)

/-! ## What the built-in dialects have in common -/

namespace Unicode

/-- Tables that start behind the first 128 characters have none of these. -/
theorem inIntervals_ascii {intervals : List Interval}
    (h : intervals.all (fun p => 128 ≤ p.1) = true) {c : Char} (hc : c.toNat < 128) :
    inIntervals intervals c = false := by
  rw [inIntervals, List.any_eq_false]
  intro p hp
  have hlow : 128 ≤ p.1 := by simpa using List.all_eq_true.mp h p hp
  simp only [Bool.and_eq_true, decide_eq_true_eq, not_and]
  omega

/-- The alphabetic characters of ASCII are its letters. -/
theorem isAlphabetic_ascii {c : Char} (hc : c.toNat < 128) : isAlphabetic c = c.isAlpha := by
  rw [isAlphabetic, inIntervals_ascii (by decide +kernel) hc, Bool.or_false]

/-- The number characters of ASCII are its digits. -/
theorem isNumeric_ascii {c : Char} (hc : c.toNat < 128) : isNumeric c = c.isDigit := by
  rw [isNumeric, inIntervals_ascii (by decide +kernel) hc, Bool.or_false]

end Unicode

/-- The characters of blanks, quotes and signs, which no bare word has. -/
def signChars : List Char :=
  [' ', '\t', '\n', '\r', '\'', '"', '\x60', '(', ')', ',', '-', '/', '*', '+', '%', '|', '=', '!',
   '<', '>', ':', ';', '[', ']', '&', '^', '.']

namespace Dialect

/-- A dialect whose bare words are words and whose quotes are quotes. -/
class Regular (d : Dialect) : Prop where
  starts    : ∀ c : Char, c.isAlpha = true → d.startsIdentifier c = true
  continues : ∀ c : Char, c.isAlpha = true ∨ c = '_' → d.continuesIdentifier c = true
  sign      : ∀ c ∈ signChars, d.startsIdentifier c = false ∧ d.continuesIdentifier c = false
  opens     : ∀ c : Char, d.opensQuotedIdentifier c = true → c = '"' ∨ c = '\x60'

/-- A text that can be a bare word. -/
def IsBareWord (d : Dialect) (v : String) : Prop :=
  ∃ c cs, v.toList = c :: cs ∧ d.startsIdentifier c = true ∧
    ∀ x ∈ cs, d.continuesIdentifier x = true

/-- Words of letters and underscores are bare words in every regular dialect. -/
theorem IsBareWord.of_letters {d : Dialect} [d.Regular] {v : String}
    (hhead : v.toList.head?.any Char.isAlpha = true)
    (htail : (v.toList.tail.all fun x => x.isAlpha || x == '_') = true) : d.IsBareWord v := by
  obtain ⟨c, hc, hstart⟩ := Option.any_eq_true _ _ |>.mp hhead
  refine ⟨c, v.toList.tail, (List.cons_head?_tail hc).symm, Regular.starts c hstart, ?_⟩
  exact fun x hx => Regular.continues x (by simpa using List.all_eq_true.mp htail x hx)

/-- Every keyword can be written as a word without quotes. -/
theorem IsBareWord.keyword {d : Dialect} [d.Regular] (k : Keyword) : d.IsBareWord k.name := by
  have h : ∀ k ∈ Keyword.ordered, k.name.toList.head?.any Char.isAlpha = true ∧
      (k.name.toList.tail.all fun x => x.isAlpha || x == '_') = true := by decide +kernel
  exact .of_letters (h k k.mem_ordered).1 (h k k.mem_ordered).2

/-- The characters of signs are among the first 128. -/
theorem signChars_ascii : ∀ c ∈ signChars, c.toNat < 128 :=
  List.all_iff_forall_prop.mp (by decide)

/-- What there is to check for a dialect that takes letters and at most a quote: ASCII
    characters can be looked at one by one. -/
theorem Regular.of_ascii {d : Dialect} (starts continues : Char → Bool)
    (hstarts : ∀ c : Char, c.toNat < 128 → d.startsIdentifier c = starts c)
    (hcontinues : ∀ c : Char, c.toNat < 128 → d.continuesIdentifier c = continues c)
    (halpha : ∀ c : Char, c.isAlpha = true →
      d.startsIdentifier c = true ∧ d.continuesIdentifier c = true)
    (hopens : ∀ c : Char, d.opensQuotedIdentifier c = true → c = '"' ∨ c = '\x60')
    (hrest : continues '_' = true ∧
      (signChars.all fun c => !starts c && !continues c) = true) : d.Regular where
  starts c h := (halpha c h).1
  continues c h := by
    rcases h with h | rfl
    · exact (halpha c h).2
    · rw [hcontinues _ (by decide)]
      exact hrest.1
  sign c hc := by
    rw [hstarts c (signChars_ascii c hc), hcontinues c (signChars_ascii c hc)]
    simpa using List.all_eq_true.mp hrest.2 c hc
  opens := hopens

/-- What starts a word here is a letter or one of three characters that start no other token. -/
theorem generic_regular : generic.Regular :=
  .of_ascii (fun c => c.isAlpha || c == '_' || c == '#' || c == '@')
    (fun c => c.isAlpha || c.isDigit || c == '@' || c == '$' || c == '#' || c == '_')
    (fun c hc => by simp only [generic, Unicode.isAlphabetic_ascii hc])
    (fun c hc => by simp only [generic, Unicode.isAlphabetic_ascii hc])
    (fun c h => by simp [generic, Unicode.isAlphabetic_of_isAlpha h])
    (fun c h => by simpa [generic, backtick] using h) (by decide)

theorem ansi_regular : ansi.Regular :=
  .of_ascii Char.isAlpha (fun c => c.isAlphanum || c == '_') (fun _ _ => rfl) (fun _ _ => rfl)
    (fun c h => by simp [ansi, Char.isAlphanum, h]) (fun c h => .inl (by simpa [ansi] using h))
    (by decide)

/-- Among the first 128 characters, letters and three signs start a word. -/
theorem startsMysqlIdentifier_ascii {c : Char} (hc : c.toNat < 128) : startsMysqlIdentifier c =
    (c.isAlpha || c == '_' || c == '$' || c == '@') := by
  have hlow : ¬ 0x80 ≤ c.toNat := by omega
  simp [startsMysqlIdentifier, Unicode.isAlphabetic_ascii hc, hlow]

/-- Names are quoted with backticks, and both quotes open strings. -/
theorem mysql_regular : mysql.Regular :=
  .of_ascii (fun c => c.isAlpha || c == '_' || c == '$' || c == '@')
    (fun c => (c.isAlpha || c == '_' || c == '$' || c == '@') || c.isDigit)
    (fun c hc => startsMysqlIdentifier_ascii hc)
    (fun c hc => by simp only [mysql, startsMysqlIdentifier_ascii hc])
    (fun c h => by simp [mysql, startsMysqlIdentifier, Unicode.isAlphabetic_of_isAlpha h])
    (fun c h => .inr (by simpa [mysql, backtick] using h)) (by decide)

theorem postgresql_regular : postgresql.Regular :=
  .of_ascii (fun c => c.isAlpha || c == '_')
    (fun c => c.isAlpha || c.isDigit || c == '$' || c == '_')
    (fun c hc => by simp only [postgresql, Unicode.isAlphabetic_ascii hc])
    (fun c hc => by simp only [postgresql, Unicode.isAlphabetic_ascii hc])
    (fun c h => by simp [postgresql, Unicode.isAlphabetic_of_isAlpha h])
    (fun c h => .inl (by simpa [postgresql] using h)) (by decide)

theorem bigquery_regular : bigquery.Regular :=
  .of_ascii (fun c => c.isAlpha || c == '_') (fun c => c.isAlphanum || c == '_')
    (fun _ _ => rfl) (fun _ _ => rfl) (fun c h => by simp [bigquery, Char.isAlphanum, h])
    (fun c h => .inr (by simpa [bigquery, backtick] using h)) (by decide)

theorem oracle_regular : oracle.Regular :=
  .of_ascii Char.isAlpha
    (fun c => c.isAlpha || c.isDigit || c == '_' || c == '$' || c == '#' || c == '@')
    (fun c hc => by simp only [oracle, Unicode.isAlphabetic_ascii hc])
    (fun c hc => by simp only [oracle, Unicode.isAlphabetic_ascii hc, Unicode.isNumeric_ascii hc])
    (fun c h => by simp [oracle, Unicode.isAlphabetic_of_isAlpha h])
    (fun c h => .inl (by simpa [oracle] using h)) (by decide)

/-- The built-in dialects are regular. -/
theorem regular_of_builtin {d : Dialect} (h : d ∈ builtin) : d.Regular := by
  simp only [builtin, List.mem_cons, List.not_mem_nil, or_false] at h
  rcases h with rfl | rfl | rfl | rfl | rfl | rfl
  · exact generic_regular
  · exact ansi_regular
  · exact mysql_regular
  · exact postgresql_regular
  · exact bigquery_regular
  · exact oracle_regular

end Dialect

/-! ## Signs and blanks -/

namespace Token

variable {d : Dialect} {u : Bool}

/-- The signs that are read character by character. -/
def signStarts : List Char :=
  ['(', ')', ',', '-', '/', '+', '*', '%', '|', '=', '!', '<', '>', ':', ';', '[', ']', '&', '^',
   '.']

/-- A sign is read as one unless it starts a comment. -/
theorem scan_sign [d.Regular] {c : Char} (hc : c ∈ signStarts) (cs : List Char)
    (hm : c = '-' → ∀ x ∈ cs.head?, x ≠ '-') (hs : c = '/' → ∀ x ∈ cs.head?, x ≠ '*') :
    scan d u c cs = .ok (scanSign c cs) := by
  have hmem : ∀ c ∈ signStarts, c ∈ signChars := List.all_iff_forall_prop.mp (by decide)
  have hstart : d.startsIdentifier c = false := (Dialect.Regular.sign c (hmem c hc)).1
  have hopen : d.opensQuotedIdentifier c = false := by
    by_contra h
    have hq := Dialect.Regular.opens (d := d) c (by simpa using h)
    revert hc
    rcases hq with rfl | rfl <;> decide
  -- none of the earlier arms of the scanner takes a sign
  have hplain : ∀ c ∈ signStarts, c ≠ ' ' ∧ c ≠ '\t' ∧ c ≠ '\n' ∧ c ≠ '\r' ∧ c ≠ '\'' ∧ c ≠ '"' ∧
      c.isDigit = false := List.all_iff_forall_prop.mp (by decide)
  obtain ⟨h1, h2, h3, h4, h5, h6, h7⟩ := hplain c hc
  simp only [scan, h1, h2, h3, h4, h5, h6, h7, hstart, hopen, if_false, Bool.false_eq_true]
  split
  · exact absurd rfl (hm rfl _ rfl)
  · exact absurd rfl (hs rfl _ rfl)
  · rfl

/-- A sign is read back if what follows does not make a longer one of it. -/
theorem Spelled.sign [d.Regular] {t : Token} (c : Char) (cs : List Char)
    (htext : t.text.toList = c :: cs) (hc : c ∈ signStarts)
    (hm : c = '-' → cs = [] ∧ t = .minus) (hs : c = '/' → cs = [] ∧ t = .div)
    (hsign : ∀ rest : List Char, (∀ x ∈ rest.head?, t.Stops d x) →
      scanSign c (cs ++ rest) = (t, cs.length)) : t.Spelled d u := by
  refine ⟨c, cs, htext, fun rest hrest => ?_⟩
  rw [scan_sign hc, hsign rest hrest]
  · intro h x hx
    obtain ⟨rfl, rfl⟩ := hm h
    exact hrest x hx
  · intro h x hx
    obtain ⟨rfl, rfl⟩ := hs h
    exact hrest x hx

/-- A sign that a longer one starts with, in front of what stops it. -/
theorem Spelled.short [d.Regular] {t : Token} (c : Char) (cs : List Char)
    (htext : t.text.toList = c :: cs) (hc : c ∈ signStarts) (hm : c ≠ '-') (hs : c ≠ '/')
    (hend : scanSign c cs = (t, cs.length))
    (hsign : ∀ x rest, t.Stops d x → scanSign c (cs ++ x :: rest) = (t, cs.length)) :
    t.Spelled d u := by
  refine .sign c cs htext hc (fun h => absurd h hm) (fun h => absurd h hs) fun rest hrest => ?_
  cases rest with
  | nil => rwa [List.append_nil]
  | cons x rest => exact hsign x rest (hrest x rfl)

/-- No token goes on with a sign that neither closes a literal nor stands second in a longer
    sign. -/
theorem stops_of_sign [d.Regular] (t : Token) {x : Char} (hx : x ∈ signChars)
    (hfirst : x ∉ ['\'', '"', '.', '=', '>', '-', '*', '|', ':']) : t.Stops d x := by
  have hword : d.continuesIdentifier x = false := (Dialect.Regular.sign x hx).2
  have hnumber : ∀ x ∈ signChars, x.isDigit = false ∧ x ≠ 'L' :=
    List.all_iff_forall_prop.mp (by decide)
  have hne : ∀ c ∈ ['\'', '"', '.', '=', '>', '-', '*', '|', ':'], x ≠ c :=
    fun c hc heq => hfirst (heq ▸ hc)
  cases t with
  | word => exact fun _ => hword
  | number =>
      exact fun _ => ⟨(hnumber x hx).1, (hnumber x hx).2, fun h => absurd h (hne _ (by decide))⟩
  | char => exact fun _ => hne _ (by decide)
  | lt | pipe => exact ⟨hne _ (by decide), hne _ (by decide)⟩
  | singleQuoted | doubleQuoted | eq | gt | ltEq | minus | div | colon => exact hne _ (by decide)
  | _ => trivial

/-- Each sign is read back in front of what does not make another sign of it. -/
theorem spelled_of_isSign [d.Regular] {t : Token} (h : t.IsSign) : t.Spelled d u := by
  cases t with
  | minus => exact .sign _ _ rfl (by decide) (fun _ => ⟨rfl, rfl⟩) nofun fun rest _ => rfl
  | div => exact .sign _ _ rfl (by decide) nofun (fun _ => ⟨rfl, rfl⟩) fun rest _ => rfl
  | eq =>
    exact .short '=' [] rfl (by decide) (by decide) (by decide) rfl fun x rest hx => by
      simp [scanSign, show x ≠ '=' from hx]
  | lt =>
    exact .short '<' [] rfl (by decide) (by decide) (by decide) rfl fun x rest hx => by
      simp [scanSign, show x ≠ '=' ∧ x ≠ '>' from hx]
  | ltEq =>
    exact .short '<' ['='] rfl (by decide) (by decide) (by decide) rfl fun x rest hx => by
      simp [scanSign, show x ≠ '>' from hx]
  | gt =>
    exact .short '>' [] rfl (by decide) (by decide) (by decide) rfl fun x rest hx => by
      simp [scanSign, show x ≠ '=' from hx]
  | pipe =>
    exact .short '|' [] rfl (by decide) (by decide) (by decide) rfl fun x rest hx => by
      simp [scanSign, show x ≠ '|' ∧ x ≠ '>' from hx]
  | colon =>
    exact .short ':' [] rfl (by decide) (by decide) (by decide) rfl fun x rest hx => by
      simp [scanSign, show x ≠ ':' from hx]
  | _ => first | exact h.elim | exact .sign _ _ rfl (by decide) nofun nofun fun rest _ => rfl

theorem Spelled.space : Token.space.Spelled d u := ⟨' ', [], rfl, fun _ _ => rfl⟩

/-! ## Words -/

/-- Characters that go on, in front of one that does not. -/
theorem takeWhile_front {p : Char → Bool} {front rest : List Char} (hfront : ∀ x ∈ front, p x)
    (hrest : ∀ x ∈ rest.head?, p x = false) : (front ++ rest).takeWhile p = front := by
  rw [List.takeWhile_append_of_pos hfront]
  cases rest with
  | nil => simp
  | cons x rest => simp [hrest x rfl]

/-- A character that starts a bare word starts nothing else. -/
theorem scan_word [d.Regular] {c : Char} (h : d.startsIdentifier c = true) (cs : List Char) :
    scan d u c cs =
      .ok (.word (Word.of (String.ofList (c :: cs.takeWhile d.continuesIdentifier)) none),
        (cs.takeWhile d.continuesIdentifier).length) := by
  have hne : ∀ x ∈ signChars, c ≠ x := by
    rintro x hx rfl
    simp [(Dialect.Regular.sign (d := d) c hx).1] at h
  have hblank : c ≠ ' ' ∧ c ≠ '\t' ∧ c ≠ '\n' ∧ c ≠ '\r' :=
    ⟨hne _ (by decide), hne _ (by decide), hne _ (by decide), hne _ (by decide)⟩
  simp [scan, hblank, h]

/-- A word without quotes is read up to the first character that none goes on with. -/
theorem Spelled.bareWord [d.Regular] {v : String} (h : d.IsBareWord v) :
    (word (Word.of v none)).Spelled d u := by
  obtain ⟨c, cs, hv, hc, hcs⟩ := h
  refine ⟨c, cs, hv, fun rest hrest => ?_⟩
  have htake : (cs ++ rest).takeWhile d.continuesIdentifier = cs :=
    takeWhile_front hcs fun x hx => hrest x hx rfl
  rw [scan_word hc, htake, ← hv, String.ofList_toList]

/-- A character that opens a quoted identifier opens nothing else, but for the quote that a
    string starts with. -/
theorem scan_quoted [d.Regular] {q : Char} (hq : d.opensQuotedIdentifier q = true)
    (cs : List Char) : scan d u q cs = scanQuotedIdentifier q cs := by
  have hquote := Dialect.Regular.opens q hq
  have hmem : q ∈ signChars := by rcases hquote with rfl | rfl <;> decide
  have hstart := (Dialect.Regular.sign (d := d) q hmem).1
  have hplain : q ≠ ' ' ∧ q ≠ '\t' ∧ q ≠ '\n' ∧ q ≠ '\r' ∧ q ≠ '\'' := by
    rcases hquote with rfl | rfl <;> decide
  simp only [scan, hplain, hstart, hq, if_false, if_true, Bool.false_eq_true]

/-- The quotes of the built-in dialects close what they open. -/
theorem closingQuote_eq [d.Regular] {q : Char} (hq : d.opensQuotedIdentifier q = true) :
    closingQuote q = q := by
  rcases Dialect.Regular.opens q hq with rfl | rfl <;> rfl

/-- The quoted identifiers whose quote the dialect knows. -/
theorem Spelled.quotedWord [d.Regular] {v : String} {q : Char}
    (hq : d.opensQuotedIdentifier q = true) (hv : q ∉ v.toList) :
    (word (Word.of v (some q))).Spelled d u := by
  have hclose := closingQuote_eq hq
  refine ⟨q, v.toList ++ [q], ?_, fun rest _ => ?_⟩
  · simp [Token.text, Word.text, Word.of, hclose]
  have htake : (v.toList ++ ([q] ++ rest)).takeWhile (· != q) = v.toList :=
    takeWhile_front (fun x hx => by simpa using fun h : x = q => hv (h ▸ hx)) (by simp)
  simp only [scan_quoted hq, scanQuotedIdentifier, List.append_assoc, hclose, htake]
  rw [if_pos (by simp), String.ofList_toList, List.length_append, List.length_singleton]

end Token

/-! ### Words with a space behind each -/

/-- Tokens with a space behind each. -/
def spaced (ts : List Token) : List Token := ts.flatMap fun t => [t, .space]

@[simp] theorem spaced_nil : spaced [] = [] := rfl

@[simp] theorem spaced_cons (t : Token) (ts : List Token) :
    spaced (t :: ts) = t :: .space :: spaced ts := rfl

/-- The spaces stand behind each token, so lists can be put together. -/
@[simp] theorem spaced_append (P Q : List Token) : spaced (P ++ Q) = spaced P ++ spaced Q := by
  simp [spaced]

/-- Without the spaces the tokens are left. -/
theorem solid_spaced {ts : List Token} (h : ∀ t ∈ ts, t.isWhitespace = false) :
    solid (spaced ts) = ts := by
  induction ts with
  | nil => rfl
  | cons t ts ih =>
      rw [spaced_cons, solid_cons, solid_cons, ih fun t' ht' => h t' (List.mem_cons_of_mem t ht')]
      simp [h t (by simp)]

/-- A space stops every token, so tokens with a space behind each are read back. -/
theorem Token.Lexes.spaced {d : Dialect} {u : Bool} {ts T : List Token} {cs : List Char}
    (h : ∀ t ∈ ts, t.Spelled d u ∧ t.Stops d ' ') (hcs : Lexes d u cs T) :
    Lexes d u ((textOf (spaced ts)).toList ++ cs) (SchemaSql.spaced ts ++ T) := by
  induction ts with
  | nil => exact hcs
  | cons t ts ih =>
      obtain ⟨hspelled, hstop⟩ := h t (by simp)
      have hrest := Spelled.space.lexes (fun _ _ => trivial)
        (ih fun t' ht' => h t' (List.mem_cons_of_mem t ht'))
      rw [spaced_cons, textOf_cons, textOf_cons, String.toList_append, String.toList_append,
        List.append_assoc, List.append_assoc]
      refine hspelled.lexes (fun x hx => ?_) hrest
      obtain rfl : x = ' ' := by simpa using hx.symm
      exact hstop

/-- Bare words are read back in front of a space. -/
theorem spelled_bare {d : Dialect} [d.Regular] {u : Bool} {v : String} (h : d.IsBareWord v) :
    (bare v).Spelled d u ∧ (bare v).Stops d ' ' :=
  ⟨.bareWord h, fun _ => (Dialect.Regular.sign ' ' (by decide)).2⟩

theorem spelled_keyword {d : Dialect} [d.Regular] {u : Bool} (k : Keyword) :
    (ofKeyword k).Spelled d u ∧ (ofKeyword k).Stops d ' ' := spelled_bare (.keyword k)

/-! ## Tokens that were read -/

namespace Token

variable {d : Dialect} {u : Bool} {t : Token}

/-- A word of a text has the keyword of its spelling, and the end of a text is no token of
    it. -/
theorem Scanned.proper_and_ne_eof (h : t.Scanned d u) : t.Proper ∧ t ≠ .eof := by
  cases h with
  | bareWord => exact ⟨Expr.proper_word ⟨_, none⟩, nofun⟩
  | quotedWord => exact ⟨Expr.proper_word ⟨_, some _⟩, nofun⟩
  | string =>
      unfold literal
      split <;> exact ⟨Expr.proper_sign nofun, nofun⟩
  | blank | number | char => exact ⟨Expr.proper_sign nofun, nofun⟩
  | sign hsign =>
      refine ⟨Expr.proper_sign ?_, ?_⟩
      · rintro w rfl
        exact hsign
      · rintro rfl
        exact hsign

theorem Scanned.proper (h : t.Scanned d u) : t.Proper := h.proper_and_ne_eof.1

end Token

/-- In front of tokens of a text. -/
theorem Cursor.holds_ofTokens {d : Dialect} {u : Bool} {tokens : List Located}
    (h : ∀ l ∈ tokens, l.token.Scanned d u) :
    (Cursor.ofTokens tokens).Holds (solid (tokens.map Located.token)) := by
  refine ⟨rfl, solidTokens_eq tokens, fun t ht => ?_⟩
  obtain ⟨l, hl, rfl⟩ := List.mem_map.mp (List.mem_filter.mp ht).1
  exact (h l hl).proper

end SchemaSql
