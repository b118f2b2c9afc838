import SchemaSql.Proofs.Spelling.Scanned

/-! # Tokens of hyphenated names — which numbers take the period behind them

    A part of a table name in BigQuery is a bare word with hyphens and further words or digits
    behind it.  The lexer knows nothing of such names: it sees words, hyphens and numbers, and
    a number takes the period behind it.  Where digits end a part, this is the period in front
    of the next one.

    * `Segment` and `Part` are what a name is made of, each with its text and the tokens that it
      is meant to have;
    * `Part.lexes` says when a part has these tokens in front of another text;
    * `lexes_nameTokens` and `broken_of_lexes` are the two cases for a whole name: either its
      tokens are those of its parts, or a number has taken a period. -/

namespace SchemaSql

open Token

/-! ## Parts and segments -/

namespace Hyphenated

/-- What stands behind a hyphen of a name: a bare word or digits. -/
inductive Segment where
  | word (v : String) (h : Dialect.bigquery.IsBareWord v)
  | digits (c : Char) (ds : List Char) (h : ∀ x ∈ c :: ds, x.isDigit = true)

namespace Segment

def text : Segment → String
  | word v _ => v
  | digits c ds _ => String.ofList (c :: ds)

/-- The token of a segment that nothing else of the text belongs to. -/
def token : Segment → Token
  | word v _ => .word (Word.of v none)
  | digits c ds _ => .number (String.ofList (c :: ds)) false

def isDigits : Segment → Bool
  | word .. => false
  | digits .. => true

variable {u : Bool} (s : Segment)

/-- A segment is written as its token is. -/
@[simp] theorem text_token : s.token.text = s.text := by
  cases s <;> simp [token, Token.text, text, Word.text, Word.of]

theorem startsNumber {c : Char} (hc : c.isDigit = true) : Dialect.bigquery.StartsNumber c :=
  Dialect.startsNumber (by simp [Dialect.builtin]) hc

/-- The lexer reads a segment as one word or one number. -/
theorem spelled : s.token.Spelled .bigquery u := by
  have := Dialect.bigquery_regular
  cases s with
  | word v h => exact .bareWord h
  | digits c ds h =>
      obtain ⟨hc, hds⟩ := List.forall_mem_cons.mp h
      exact .number (startsNumber hc) ⟨ds, hds, .inl rfl⟩ false

/-- No segment starts with a hyphen, so that a hyphen in front of one starts no comment. -/
theorem stops_behind (cs : List Char) :
    ∀ x ∈ (s.text.toList ++ cs).head?, Token.minus.Stops .bigquery x := by
  rintro x hx rfl
  cases s with
  | word v h =>
      change '-' ∈ (v.toList ++ cs).head? at hx
      obtain ⟨c, front, hv, hc, -⟩ := h
      obtain rfl : c = '-' := by simpa [hv] using hx
      exact nomatch hc
  | digits c ds h =>
      obtain rfl : c = '-' := by simpa [text] using hx
      exact absurd (h '-' List.mem_cons_self) (by decide)

/-- No segment goes on with a hyphen. -/
theorem stops_minus : s.token.Stops .bigquery '-' := by
  cases s with
  | word v h => exact fun _ => rfl
  | digits c ds h => exact fun _ => ⟨rfl, by decide, nofun⟩

/-- A period behind digits would belong to the number, and behind a word it does not. -/
theorem stops_period (h : s.isDigits = false) : s.token.Stops .bigquery '.' := by
  cases s with
  | word v _ => exact fun _ => rfl
  | digits => exact nomatch h

/-- A segment can stand behind a hyphen of a name. -/
theorem hyphenPart {l : Located} (hl : l.token = s.token) : Ident.hyphenPart l = some s.text := by
  cases s with
  | word v h => simp [Ident.hyphenPart, hl, token, text, Word.of]
  | digits c ds h =>
      have hall : (String.ofList (c :: ds)).toList.all Char.isDigit = true := by
        rw [String.toList_ofList]
        exact List.all_eq_true.mpr h
      simp only [Ident.hyphenPart, hl, token, text, hall, if_true]

end Segment

/-- The text of segments, with a hyphen in front of each. -/
def joined (segments : List Segment) : String := String.join (segments.map fun s => "-" ++ s.text)

@[simp] theorem joined_nil : joined [] = "" := rfl

@[simp] theorem joined_cons (s : Segment) (segments : List Segment) :
    joined (s :: segments) = "-" ++ s.text ++ joined segments := by
  simp [joined]

/-- The tokens of segments, with a hyphen in front of each. -/
def hyphened (segments : List Segment) : List Token := segments.flatMap fun s => [.minus, s.token]

@[simp] theorem hyphened_nil : hyphened [] = [] := rfl

@[simp] theorem hyphened_cons (s : Segment) (segments : List Segment) :
    hyphened (s :: segments) = .minus :: s.token :: hyphened segments := rfl

/-- One part of a name: a bare word, and the segments behind it. -/
structure Part where
  first    : String
  segments : List Segment
  bare     : Dialect.bigquery.IsBareWord first

namespace Part

def text (p : Part) : String := p.first ++ joined p.segments

def tokens (p : Part) : List Token := .word (Word.of p.first none) :: hyphened p.segments

/-- The identifier that a part stands for. -/
def ident (p : Part) : Ident := { value := p.text }

/-- Whether the last segment is digits. -/
def endsInDigits (p : Part) : Bool := p.segments.getLast?.any Segment.isDigits

end Part

/-- The text of a name: its parts with periods between them. -/
def nameText (parts : List Part) : String := ".".intercalate (parts.map Part.text)

/-- The tokens of its parts, with periods between them. -/
def nameTokens (parts : List Part) : List Token := [.period].intercalate (parts.map Part.tokens)

/-- Between two parts stands a period. -/
theorem toList_nameText (p q : Part) (parts : List Part) :
    (nameText (p :: q :: parts)).toList =
      p.text.toList ++ '.' :: (nameText (q :: parts)).toList := by
  simp [nameText]

theorem nameTokens_cons (p q : Part) (parts : List Part) :
    nameTokens (p :: q :: parts) = p.tokens ++ .period :: nameTokens (q :: parts) := by
  simp [nameTokens]

/-! ## The tokens of a name -/

variable {u : Bool} {cs : List Char} {T : List Token}

/-- A token and segments are the first tokens of a text if the last of them ends there. -/
theorem lexes_hyphened {t : Token} {segments : List Segment} (ht : t.Spelled .bigquery u)
    (hminus : t.Stops .bigquery '-')
    (hstop : ∀ t' ∈ (t :: segments.map Segment.token).getLast?, ∀ x ∈ cs.head?,
      t'.Stops .bigquery x) :
    Lexes .bigquery u (t.text.toList ++ ((joined segments).toList ++ cs)) T ↔
      ∃ T', T = t :: (hyphened segments ++ T') ∧ Lexes .bigquery u cs T' := by
  have := Dialect.bigquery_regular
  induction segments generalizing t T with
  | nil => simpa using ht.lexes_iff (hstop t rfl)
  | cons s segments ih =>
      have hhyphen : Token.minus.text = "-" := rfl
      have hsign : Token.minus.Spelled .bigquery u := spelled_of_isSign trivial
      have htext : (joined (s :: segments)).toList ++ cs = Token.minus.text.toList ++
          (s.token.text.toList ++ ((joined segments).toList ++ cs)) := by
        simp [hhyphen]
      -- a segment starts with a letter or a digit, which does not continue a minus sign
      have hbehind : ∀ x ∈ (s.token.text.toList ++ ((joined segments).toList ++ cs)).head?,
          Token.minus.Stops .bigquery x := by
        rw [s.text_token]
        exact s.stops_behind _
      -- the hyphen ends the token in front of it
      have hfront : ∀ x ∈ (Token.minus.text.toList ++
          (s.token.text.toList ++ ((joined segments).toList ++ cs))).head?,
          t.Stops .bigquery x := by
        intro x hx
        obtain rfl : x = '-' := by simpa [hhyphen] using hx.symm
        exact hminus
      rw [htext, ht.lexes_iff hfront]
      simp only [hsign.lexes_iff hbehind, ih s.spelled s.stops_minus (by simpa using hstop)]
      constructor
      · rintro ⟨_, rfl, _, rfl, T', rfl, hT'⟩
        exact ⟨T', rfl, hT'⟩
      · rintro ⟨T', rfl, hT'⟩
        exact ⟨_, rfl, _, rfl, T', rfl, hT'⟩

namespace Part

/-- The last token of a part does not go on with a hyphen, nor with a period unless it is
    digits. -/
theorem stops_last (p : Part) {x : Char} (hx : x = '-' ∨ (x = '.' ∧ p.endsInDigits = false)) :
    ∀ t ∈ (Token.word (Word.of p.first none) :: p.segments.map Segment.token).getLast?,
      t.Stops .bigquery x := by
  intro t ht
  rw [List.getLast?_cons, Option.mem_some_iff, List.getLast?_map] at ht
  subst ht
  cases hlast : p.segments.getLast? with
  | none =>
      rcases hx with rfl | ⟨rfl, -⟩ <;> exact fun _ => rfl
  | some s =>
      rcases hx with rfl | ⟨rfl, hdigits⟩
      · exact s.stops_minus
      · exact s.stops_period (by simpa [endsInDigits, hlast] using hdigits)

/-- A part in front of a hyphen, of a period that it does not take, or of nothing. -/
theorem lexes (p : Part) (hstop : ∀ x ∈ cs.head?, x = '-' ∨ (x = '.' ∧ p.endsInDigits = false)) :
    Lexes .bigquery u (p.text.toList ++ cs) T ↔
      ∃ T', T = p.tokens ++ T' ∧ Lexes .bigquery u cs T' := by
  have := Dialect.bigquery_regular
  have hfirst : (Token.word (Word.of p.first none)).text = p.first := rfl
  rw [text, String.toList_append, List.append_assoc, ← hfirst]
  refine lexes_hyphened (.bareWord p.bare) (fun _ => rfl) ?_
  intro t ht x hx
  exact p.stops_last (hstop x hx) t ht

end Part

/-- The tokens of a name are those of its parts if none but the last ends in digits. -/
theorem lexes_nameTokens {p : Part} {parts : List Part}
    (h : ∀ q ∈ (p :: parts).dropLast, q.endsInDigits = false) :
    Lexes .bigquery u (nameText (p :: parts)).toList (nameTokens (p :: parts)) := by
  have := Dialect.bigquery_regular
  induction parts generalizing p with
  | nil =>
      have hp : Lexes .bigquery u (p.text.toList ++ []) p.tokens :=
        (p.lexes (by simp)).mpr ⟨[], (List.append_nil _).symm, .nil⟩
      simpa [nameText, nameTokens] using hp
  | cons q parts ih =>
      rw [List.dropLast_cons_cons, List.forall_mem_cons] at h
      have hperiod : Token.period.Spelled .bigquery u := spelled_of_isSign trivial
      rw [toList_nameText, nameTokens_cons, p.lexes (by simpa using h.1)]
      exact ⟨_, rfl, hperiod.lexes (fun _ _ => trivial) (ih h.2)⟩

/-! ### Numbers that take a period -/

/-- Digits take the period behind them. -/
theorem lexes_period {c : Char} {ds : List Char} (h : ∀ x ∈ c :: ds, x.isDigit = true)
    (hT : Lexes .bigquery u (c :: (ds ++ '.' :: cs)) T) :
    ∃ digits long T', T = .number digits long :: T' ∧ '.' ∈ digits.toList := by
  obtain ⟨hc, hds⟩ := List.forall_mem_cons.mp h
  obtain ⟨L, hL, rfl⟩ := hT .start
  rcases lexFrom_ok.mp hL with ⟨hnil, -⟩ | ⟨_, _, t, width, tail, hcs, hscan, -, rfl⟩
  · exact nomatch hnil
  obtain ⟨rfl, rfl⟩ := List.cons.inj hcs
  rw [scan_number (Segment.startsNumber hc)] at hscan
  have ht : (scanNumber c (ds ++ '.' :: cs)).1 = t := congrArg Prod.fst (Except.ok.inj hscan)
  have htake : (ds ++ '.' :: cs).takeWhile Char.isDigit = ds := takeWhile_front hds (by simp)
  have hdrop : (ds ++ '.' :: cs).drop ds.length = '.' :: cs := List.drop_left
  simp only [scanNumber, htake, hdrop, List.head?_cons, beq_self_eq_true, if_true] at ht
  split at ht <;> subst ht <;> exact ⟨_, _, _, rfl, by simp⟩

/-- The tokens of a name in which a number has taken a period. -/
inductive Broken : List Token → Prop
  | here (p : Part) {digits : String} {long : Bool} {T : List Token}
      (h : '.' ∈ digits.toList) : Broken (p.tokens ++ .minus :: .number digits long :: T)
  | later (p : Part) {T : List Token} (h : Broken T) : Broken (p.tokens ++ .period :: T)

/-- The period behind a part that ends in digits is read as part of the number. -/
theorem Part.broken {p : Part} (h : p.endsInDigits = true)
    (hT : Lexes .bigquery u (p.text.toList ++ '.' :: cs) T) : Broken T := by
  have := Dialect.bigquery_regular
  obtain ⟨s, hs, hdigits⟩ := Option.any_eq_true _ _ |>.mp h
  obtain ⟨front, hfront⟩ := List.getLast?_eq_some_iff.mp hs
  cases s with
  | word => exact nomatch hdigits
  | digits c ds hds =>
      have hhyphen : Token.minus.Spelled .bigquery u := spelled_of_isSign trivial
      have hstop : ∀ x ∈ ((String.ofList (c :: ds)).toList ++ '.' :: cs).head?,
          Token.minus.Stops .bigquery x := Segment.stops_behind (.digits c ds hds) ('.' :: cs)
      -- in front of the digits stands a hyphen, and in front of that a part
      have htext : p.text.toList ++ '.' :: cs =
          (Part.text { p with segments := front }).toList ++
            (Token.minus.text.toList ++ ((String.ofList (c :: ds)).toList ++ '.' :: cs)) := by
        have hminus : Token.minus.text = "-" := rfl
        simp [Part.text, hfront, joined, Segment.text, hminus]
      rw [htext, Part.lexes] at hT
      · obtain ⟨T', rfl, hT'⟩ := hT
        obtain ⟨T'', rfl, hnumber⟩ := (hhyphen.lexes_iff hstop).mp hT'
        rw [String.toList_ofList] at hnumber
        obtain ⟨digits, long, rest, rfl, hperiod⟩ := lexes_period hds hnumber
        exact .here _ hperiod
      · rintro _ ⟨⟩
        exact .inl rfl

/-- A name breaks at its first part that ends in digits and has another part behind it. -/
theorem broken_of_lexes {p : Part} {parts : List Part}
    (h : ∃ q ∈ (p :: parts).dropLast, q.endsInDigits = true)
    (hT : Lexes .bigquery u (nameText (p :: parts)).toList T) : Broken T := by
  have := Dialect.bigquery_regular
  induction parts generalizing p T with
  | nil => simp at h
  | cons q parts ih =>
      rw [toList_nameText] at hT
      cases hp : p.endsInDigits with
      | true => exact p.broken hp hT
      | false =>
          have hperiod : Token.period.Spelled .bigquery u := spelled_of_isSign trivial
          obtain ⟨T', rfl, hbehind⟩ := (p.lexes (by simpa using hp)).mp hT
          obtain ⟨T'', rfl, hname⟩ := (hperiod.lexes_iff fun _ _ => trivial).mp hbehind
          exact .later p (ih (by simpa [hp] using h) hname)

end Hyphenated

end SchemaSql
