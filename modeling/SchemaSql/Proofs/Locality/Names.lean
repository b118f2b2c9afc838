import SchemaSql.Literal.Parser
import SchemaSql.Proofs.Locality.Captures

/-! # Locality of names and literals

    An identifier is one token, but for names with hyphens in them, which are read token by
    token with the blanks between them.  An optional alias is the one reader that puts the
    last token of what it looks at back without reading on. -/

namespace SchemaSql

open Cursor SchemaSql.Parser

variable {R : Rel}

/-! ## Readers that see blanks -/

/-- Locality of a reader that sees the blanks right in front of it. -/
def Raw {α : Type} (R : Rel) (p : Parser α) : Prop :=
  ∀ ctx c v c', c.overrun = 0 → p ctx c = .ok v c' → c'.overrun = 0 ∧
    ∃ used, c.unread = used ++ c'.rest ∧ ∀ r, R c'.rest r → ∀ d : Cursor, d.overrun = 0 →
      d.unread = used ++ r → ∃ d', p ctx d = .ok v d' ∧ d'.At r

namespace Raw

variable {α β : Type}

/-- A reader that passes blanks does not look at those in front of it. -/
theorem of_local [Lookahead R] {p : Parser α} (hp : Local R p) : Raw R p := by
  intro ctx c v c' h0 h
  obtain ⟨h1, used, hused, hreplay⟩ := hp ctx c v c' h0 h
  refine ⟨h1, c.unread.takeWhile Located.isWhitespace ++ used, ?_, fun r hr d hd0 hd => ?_⟩
  · rw [List.append_assoc, ← hused]
    exact c.unread_eq
  · have hclean : Clean (used ++ r) :=
      Lookahead.clean (Lookahead.append hr) (hused ▸ c.clean_rest)
    refine hreplay r hr d ⟨hd0, ?_⟩
    rw [rest, hd, List.append_assoc,
      dropWhile_append_clean (fun t ht => List.mem_takeWhile_imp ht) hclean]

/-- Only the first of two readers sees the blanks in front of it. -/
theorem bind [Lookahead R] {p : Parser α} {f : α → Parser β} (hp : Raw R p)
    (hf : ∀ a, Local R (f a)) : Raw R (p >>= f) := by
  intro ctx c v c' h0 h
  obtain ⟨a, c1, ha, h⟩ := bind_ok.mp h
  obtain ⟨h1, used, hused, hreplay⟩ := hp ctx c a c1 h0 ha
  obtain ⟨h2, used', hused', hreplay'⟩ := hf a ctx c1 v c' h1 h
  refine ⟨h2, used ++ used', by rw [hused, hused', List.append_assoc],
    fun r hr d hd0 hd => ?_⟩
  obtain ⟨d1, hd1, hat1⟩ := hreplay (used' ++ r) (hused' ▸ Lookahead.append hr) d hd0
    (by rwa [← List.append_assoc])
  obtain ⟨d2, hd2, hat2⟩ := hreplay' r hr d1 hat1
  exact ⟨d2, bind_ok.mpr ⟨a, d1, hd1, hd2⟩, hat2⟩

/-- Asking for the settings leaves the blanks where they are. -/
theorem read_bind {f : Settings → Parser α} (hf : ∀ s, Raw R (f s)) :
    Raw R (read >>= f) := by
  intro ctx c v c' h0 h
  obtain ⟨_, _, hread, h⟩ := bind_ok.mp h
  obtain ⟨rfl, rfl⟩ := read_ok.mp hread
  obtain ⟨h1, used, hused, hreplay⟩ := hf ctx.toSettings ctx c v c' h0 h
  refine ⟨h1, used, hused, fun r hr d hd0 hd => ?_⟩
  obtain ⟨d', hd', hat⟩ := hreplay r hr d hd0 hd
  exact ⟨d', bind_ok.mpr ⟨_, d, read_ok.mpr ⟨rfl, rfl⟩, hd'⟩, hat⟩

/-- Behind a token that was read, a reader may see the blanks. -/
theorem next_bind {k : Located → Parser α} (hk : ∀ t, Raw R (k t)) (heof : Fails (k .eof)) :
    Local R (next >>= k) := by
  intro ctx c v c' h0 h
  obtain ⟨t, w, hat, h⟩ := Local.next_bind_run heof h0 h
  have hnext : ∀ {d : Cursor} {u : List Located}, d.At (t :: u) →
      d.next = (t, d.next.2) ∧ d.next.2.unread = u ∧ d.next.2.overrun = 0 := fun hd => by
    rw [next_of_rest_cons hd.rest]
    exact ⟨rfl, rfl, hd.overrun⟩
  obtain ⟨-, hunread, hn0⟩ := hnext hat
  obtain ⟨h1, used, hused, hreplay⟩ := hk t ctx c.next.2 v c' hn0 h
  refine ⟨h1, t :: used, ?_, fun r hr d hd => ?_⟩
  · rw [hat.rest, List.cons_append, ← hused, hunread]
  · obtain ⟨hdn, hdu, hd0⟩ := hnext hd
    obtain ⟨d', hd', hat'⟩ := hreplay r hr d.next.2 hd0 hdu
    exact ⟨d', bind_ok.mpr ⟨t, d.next.2, next_ok.mpr hdn, hd'⟩, hat'⟩

/-- The token in front of the blanks is taken. -/
theorem next_bind_consumes {k : Located → Parser α} (hk : ∀ t, Raw R (k t))
    (heof : Fails (k .eof)) : Consumes (next >>= k) := by
  intro ctx c v c' h0 h _
  obtain ⟨t, w, hat, h⟩ := Local.next_bind_run heof h0 h
  have hunread : c.next.2.unread = w := by rw [next_of_rest_cons hat.rest]
  obtain ⟨-, used, hused, -⟩ := hk t ctx c.next.2 v c' hat.next.2.overrun h
  rw [hat.rest, ← hunread, hused, List.length_cons, List.length_append]
  omega

end Raw

namespace Ident

/-! ## Names with hyphens -/

/-- What a token adds to a name behind a hyphen. -/
def hyphenPart (t : Located) : Option String :=
  match t.token with
  | .word w => if w.quote.isNone then some w.value else none
  | .number digits false => if digits.toList.all Char.isDigit then some digits else none
  | _ => none

/-- No hyphen stands right here. -/
def NoHyphen (w : List Located) : Prop := (headOf w).token ≠ .minus

variable {ctx : Context} {name : String} {c c' : Cursor}

/-- What is read behind a hyphen. -/
def afterHyphen (name : String) (t : Located) : Parser (Option String) :=
  match hyphenPart t with
  | some part => return some (name ++ "-" ++ part)
  | none => expected "continuation of hyphenated identifier" t

/-- A hyphen that stands right here is followed by a part that stands right behind it. -/
theorem parseHyphenated_eq (name : String) : parseHyphenated name = (do
    if (← get).peekRaw.token ≠ .minus then return none
    let _ ← next
    afterHyphen name ((← modifyGet Cursor.nextRaw).getD .eof)) := by
  have hafter : ∀ found : Located, (match found.token with
      | .word w =>
        if w.quote.isNone then return some (name ++ "-" ++ w.value)
        else expected "continuation of hyphenated identifier" found
      | .number digits false =>
        if digits.toList.all Char.isDigit then return some (name ++ "-" ++ digits)
        else expected "continuation of hyphenated identifier" found
      | _ => expected "continuation of hyphenated identifier" found
        : Parser (Option String)) = afterHyphen name found := by
    intro found
    unfold afterHyphen hyphenPart
    split
    · split <;> simp_all
    · split <;> simp_all
    · simp_all
  simp only [← hafter]
  rfl

/-- Where there is a hyphen it is the next token, without a blank in front. -/
theorem hyphen_of_not_noHyphen {w : List Located} (h : ¬ NoHyphen w) :
    ∃ m v, w = m :: v ∧ m.token = .minus := by
  cases w with
  | nil => exact absurd (by simp [NoHyphen, headOf, Located.eof]) h
  | cons m v => exact ⟨m, v, rfl, by simpa [NoHyphen, headOf] using h⟩

/-- Without a hyphen nothing is read. -/
theorem parseHyphenated_none (h : NoHyphen c.unread) :
    parseHyphenated name ctx c = .ok none c := by
  have hraw : c.peekRaw.token ≠ .minus := h
  rw [parseHyphenated_eq, bind_run (get_ok.mpr ⟨rfl, rfl⟩), if_pos hraw]
  rfl

/-- With one, it and the token behind it are read. -/
theorem parseHyphenated_some {m : Located} {w : List Located} (h : c.unread = m :: w)
    (hm : m.token = .minus) : parseHyphenated name ctx c
      = afterHyphen name (headOf w) ctx (Cursor.nextRaw ⟨m :: c.read, w, c.overrun⟩).2 := by
  have hnext : c.next = (m, ⟨m :: c.read, w, c.overrun⟩) := by
    simp [Cursor.next, h, nextFrom, Located.isWhitespace, hm, Token.isWhitespace]
  have hraw : ¬ c.peekRaw.token ≠ .minus := by simp [peekRaw, h, hm]
  rw [parseHyphenated_eq, bind_run (get_ok.mpr ⟨rfl, rfl⟩), if_neg hraw,
    bind_run (next_ok.mpr hnext)]
  cases w <;> rfl

/-- One hyphen and the part behind it, or no hyphen. -/
theorem parseHyphenated_ok {o : Option String} : parseHyphenated name ctx c = .ok o c' ↔
    (NoHyphen c.unread ∧ o = none ∧ c' = c) ∨
      ∃ m t w part, c.unread = m :: t :: w ∧ m.token = .minus ∧ hyphenPart t = some part ∧
        o = some (name ++ "-" ++ part) ∧ c' = ⟨t :: m :: c.read, w, c.overrun⟩ := by
  -- behind the hyphen the next token decides, wherever the reader stands
  have hcont : ∀ t d, afterHyphen name t ctx d = .ok o c' ↔
      ∃ part, hyphenPart t = some part ∧ o = some (name ++ "-" ++ part) ∧ c' = d := by
    intro t d
    unfold afterHyphen
    cases hyphenPart t with
    | none => simp [expected_ne_ok]
    | some part => rw [pure_ok]; simp [eq_comm]
  by_cases hno : NoHyphen c.unread
  · rw [parseHyphenated_none hno]
    constructor
    · intro h
      obtain ⟨rfl, rfl⟩ := EStateM.Result.ok.inj h
      exact .inl ⟨hno, rfl, rfl⟩
    · rintro (⟨-, rfl, rfl⟩ | ⟨m, t, w, part, hu, hm, -⟩)
      · rfl
      · exact absurd (by rw [hu]; exact hm) hno
  · obtain ⟨m, w, hu, hm⟩ := hyphen_of_not_noHyphen hno
    rw [parseHyphenated_some hu hm, hcont]
    constructor
    · rintro ⟨part, hpart, rfl, rfl⟩
      cases w with
      -- the end of the text is no part of a name
      | nil => simp [hyphenPart, headOf, Located.eof] at hpart
      | cons t w => exact .inr ⟨m, t, w, part, hu, hm, hpart, rfl, rfl⟩
    · rintro (⟨hno', -⟩ | ⟨m', t, w', part, hu', -, hpart, rfl, rfl⟩)
      · exact absurd hno' hno
      · obtain ⟨rfl, rfl⟩ := List.cons.inj (hu.symm.trans hu')
        exact ⟨part, hpart, rfl, rfl⟩

/-- Every part that is added takes a hyphen and a token. -/
theorem parseHyphenated_shortens : Shortens parseHyphenated := by
  intro ctx name c name' c' h0 h
  rcases parseHyphenated_ok.mp h with ⟨-, h, -⟩ | ⟨m, t, w, part, hu, hm, -, -, rfl⟩
  · exact absurd h (by simp)
  · refine ⟨h0, ?_⟩
    have hrest : c.rest = m :: t :: w := by
      rw [rest, hu, List.dropWhile_cons_of_neg (by
        simp [Located.isWhitespace, hm, Token.isWhitespace])]
    have hle := rest_length_le ⟨t :: m :: c.read, w, c.overrun⟩
    rw [hrest, List.length_cons, List.length_cons]
    show _ < w.length + 1 + 1
    have : (⟨t :: m :: c.read, w, c.overrun⟩ : Cursor).unread.length = w.length := rfl
    omega

/-- A name with hyphens takes the tokens it is made of, blanks or not, and ends where no
    hyphen stands. -/
theorem iterates_parseHyphenated {name' : String}
    (h : Iterates parseHyphenated ctx name c name' c') :
    c'.overrun = c.overrun ∧ NoHyphen c'.unread ∧ ∃ used, c.unread = used ++ c'.unread ∧
      ∀ r, NoHyphen r → ∀ d : Cursor, d.unread = used ++ r → ∃ d',
        Iterates parseHyphenated ctx name d name' d' ∧ d'.unread = r ∧
          d'.overrun = d.overrun := by
  induction h with
  | done h =>
      rcases parseHyphenated_ok.mp h with ⟨hno, -, rfl⟩ | ⟨_, _, _, _, _, _, _, h, _⟩
      · refine ⟨rfl, hno, [], rfl, fun r hr d hd => ⟨d, .done ?_, hd, rfl⟩⟩
        rw [List.nil_append] at hd
        exact parseHyphenated_ok.mpr (.inl ⟨hd ▸ hr, rfl, rfl⟩)
      · exact absurd h (by simp)
  | @more s s1 s' c c1 c' h _ ih =>
      rcases parseHyphenated_ok.mp h with ⟨_, h, _⟩ | ⟨m, t, w, part, hu, hm, hpart, hs, rfl⟩
      · exact absurd h (by simp)
      · obtain ⟨hover, hno, used, hused, hreplay⟩ := ih
        -- the hyphen and the part are taken as well, in front of any rest that has no hyphen
        refine ⟨hover, hno, m :: t :: used, ?_, fun r hr d hd => ?_⟩
        · rw [hu, List.cons_append, List.cons_append, ← hused]
        · obtain ⟨d', hd', hunread, hover'⟩ := hreplay r hr
            ⟨t :: m :: d.read, used ++ r, d.overrun⟩ rfl
          exact ⟨d', .more (parseHyphenated_ok.mpr (.inr ⟨m, t, used ++ r, part, hd, hm, hpart,
            hs, rfl⟩)) hd', hunread, hover'⟩

/-- A hyphenated name ends at a blank or at a token that is no hyphen, which is read off the tokens
    right behind it. -/
theorem raw_parseHyphenated [Lookahead R] (name : String) :
    Raw R (iterate parseHyphenated name) := by
  intro ctx c name' c' h0 h
  obtain ⟨hover, hno, used, hused, hreplay⟩ :=
    iterates_parseHyphenated ((iterate_ok parseHyphenated_shortens h0).mp h)
  refine ⟨hover.trans h0, used ++ c'.unread.takeWhile Located.isWhitespace, ?_,
    fun r hr d hd0 hd => ?_⟩
  · rw [List.append_assoc, ← c'.unread_eq, ← hused]
  · rw [List.append_assoc] at hd
    -- a blank in front of the rest keeps a hyphen away; without one the lookahead does
    have hno' : NoHyphen (c'.unread.takeWhile Located.isWhitespace ++ r) := by
      rw [c'.unread_eq] at hno
      cases hb : c'.unread.takeWhile Located.isWhitespace with
      | cons b bs => rwa [hb] at hno
      | nil =>
          rw [hb, List.nil_append] at hno
          rcases Lookahead.mark hr with heq | ⟨-, hm⟩
          · rwa [List.nil_append, NoHyphen, ← heq]
          · rintro heq
            rw [List.nil_append] at heq
            rw [heq] at hm
            simp [EndMark] at hm
    obtain ⟨d', hd', hu', hover'⟩ := hreplay _ hno' d hd
    refine ⟨d', (iterate_ok parseHyphenated_shortens hd0).mpr hd', hover'.trans hd0, ?_⟩
    rw [rest, hu', dropWhile_append_clean (fun t ht => List.mem_takeWhile_imp ht)
      (Lookahead.clean hr c'.clean_rest)]

/-! ## Identifiers -/

/-- The identifier that one token stands for. -/
def ofToken (t : Located) : Option Ident :=
  match t.token with
  | .word w => some (ofWord w)
  | .singleQuoted value => some ⟨value, some '\''⟩
  | .doubleQuoted value => some ⟨value, some '"'⟩
  | _ => none

/-- The word that a name with hyphens starts with. -/
def hyphenStart (inFrom : Bool) (settings : Settings) (t : Located) : Option String :=
  match t.token with
  | .word w =>
    if inFrom && w.quote.isNone && settings.dialect.isVendor .bigquery then some w.value else none
  | _ => none

/-- Whether an identifier may have hyphens is decided by its first token and the settings. -/
theorem parse_eq (inFrom : Bool) : parse inFrom = (next >>= fun t => do
    match hyphenStart inFrom (← read) t with
    | some name => return { value := ← iterate parseHyphenated name }
    | none => match ofToken t with
      | some name => return name
      | none => expected "identifier" t) := by
  rw [parse]
  congr 1
  funext t
  cases ht : t.token with
  | word w =>
      simp only [hyphenStart, ofToken, ht]
      congr 1
      funext settings
      split <;> rfl
  | _ => simp only [hyphenStart, ofToken, ht]; rfl

/-- What an identifier is read from. -/
theorem parse_raw [Lookahead R] (inFrom : Bool) (t : Located) :
    Raw R (do
      match hyphenStart inFrom (← read) t with
      | some name => return { value := ← iterate parseHyphenated name }
      | none => match ofToken t with
        | some name => return name
        | none => expected "identifier" t : Parser Ident) := by
  refine .read_bind fun ctx => ?_
  cases hyphenStart inFrom ctx t with
  | some name => exact (raw_parseHyphenated name).bind fun _ => Local.pure _
  | none =>
      cases ofToken t with
      | some name => exact .of_local (Local.pure _)
      | none => exact .of_local (Local.expected _ _)

/-- The end of the text is no identifier. -/
theorem parse_eof (inFrom : Bool) : Fails (do
    match hyphenStart inFrom (← read) .eof with
    | some name => return { value := ← iterate parseHyphenated name }
    | none => match ofToken .eof with
      | some name => return name
      | none => expected "identifier" .eof : Parser Ident) :=
  Fails.bind_right fun _ => Fails.expected _ _

/-- An identifier takes its first token at least. -/
theorem parse_reads [Lookahead R] (inFrom : Bool) : Reads R (parse inFrom) := by
  rw [parse_eq]
  exact ⟨Raw.next_bind (parse_raw inFrom) (parse_eof inFrom),
    Raw.next_bind_consumes (parse_raw (R := R) inFrom) (parse_eof inFrom)⟩

theorem parse_local [Lookahead R] (inFrom : Bool) : Local R (parse inFrom) :=
  (parse_reads inFrom).isLocal

theorem parseList_local [Lookahead R] : Local R parseList :=
  Local.parenthesizedList (parse_local false)

end Ident

/-! ## Aliases -/

/-- Reading a token and putting it back, at the end of the text too. -/
theorem Cursor.At.next_back {c : Cursor} {w : List Located} (h : c.At w) :
    c.next.2.back.At w := by
  cases w with
  | cons t w => exact Local.next_back h
  | nil =>
      have hrest := h.rest
      rw [Cursor.next, nextFrom_eq]
      rw [Cursor.rest] at hrest
      simp only [hrest, h.overrun]
      exact ⟨rfl, rfl⟩

/-- A reader that puts a token back that it cannot use. -/
theorem Local.next_or_back [Lookahead R] {α : Type} (take : Located → Option α)
    (hmark : ∀ t, EndMark t.token → take t = none) :
    Local R (do
      let t ← next
      match take t with
      | some v => return some v
      | none =>
        back
        return none) := by
  intro ctx c v c' h0 h
  obtain ⟨t, c1, hn, h⟩ := bind_ok.mp h
  rw [next_run] at hn
  obtain ⟨rfl, rfl⟩ := EStateM.Result.ok.inj hn
  -- the token is taken, so it is used; or it is put back and nothing is
  cases ht : take c.peek with
  | some a =>
      rw [ht] at h
      obtain ⟨rfl, rfl⟩ := pure_ok.mp h
      cases hw : c.rest with
      | nil =>
          rw [peek_eq, hw, hmark _ (.inl rfl)] at ht
          exact absurd ht (by simp)
      | cons t w =>
          have hat : c.At (t :: w) := ⟨h0, hw⟩
          obtain ⟨b, hb, hreplay⟩ := hat.next_replay
          refine ⟨hat.next.2.overrun, t :: b, by rw [← hw, hb], fun r hr d hd => ?_⟩
          obtain ⟨-, hat'⟩ := hreplay r (Lookahead.clean hr c.next.2.clean_rest) d hd
          have hpeek : d.peek = c.peek := by
            rw [hd.peek, hat.peek]
            rfl
          refine ⟨d.next.2, bind_ok.mpr ⟨d.peek, d.next.2, next_run ctx d, ?_⟩, hat'⟩
          rw [hpeek, ht]
          exact pure_ok.mpr ⟨rfl, rfl⟩
  | none =>
      rw [ht] at h
      obtain ⟨_, c2, hback, h⟩ := bind_ok.mp h
      obtain rfl := back_ok.mp hback
      obtain ⟨rfl, rfl⟩ := pure_ok.mp h
      have hat := (at_rest h0).next_back
      refine ⟨hat.overrun, [], hat.rest.symm, fun r hr d hd => ?_⟩
      refine ⟨d.next.2.back, bind_ok.mpr ⟨d.peek, d.next.2, next_run ctx d, ?_⟩, hd.next_back⟩
      -- what follows has the same front, or an end mark, which is never taken
      have hpass : take d.peek = none := by
        rw [hat.rest] at hr
        rw [peek_eq] at ht
        rw [hd.peek, List.nil_append]
        rcases Lookahead.mark hr with heq | ⟨-, hm⟩
        · rwa [← heq]
        · exact hmark _ hm
      rw [hpass]
      exact bind_ok.mpr ⟨(), _, back_ok.mpr rfl, pure_ok.mpr ⟨rfl, rfl⟩⟩

namespace Ident

/-- The alias that one token stands for, `afterAs` telling whether `AS` stands in front. -/
def aliasOf (reserved : List Keyword) (afterAs : Bool) (t : Located) : Option Ident :=
  match t.token with
  | .word w => if afterAs || !(w.keyword.any (· ∈ reserved)) then some (ofWord w) else none
  | .singleQuoted value => some ⟨value, some '\''⟩
  | .doubleQuoted value => some ⟨value, some '"'⟩
  | _ => none

/-- A mark that may end a clause is no alias. -/
theorem aliasOf_mark {reserved : List Keyword} {afterAs : Bool} {t : Located}
    (h : EndMark t.token) : aliasOf reserved afterAs t = none := by
  rcases h with h | h | h <;> simp [aliasOf, h]

/-- A token that is no alias is put back, unless `AS` stands in front of it. -/
theorem parseAlias_eq (reserved : List Keyword) : parseAlias reserved = (do
    let afterAs ← acceptKeyword .as
    let t ← next
    match aliasOf reserved afterAs t with
    | some name => return some name
    | none =>
      if afterAs then expected "an identifier after AS" t
      back
      return none) := by
  rw [parseAlias]
  congr 1
  funext afterAs
  congr 1
  funext t
  cases ht : t.token with
  | word w =>
      simp only [aliasOf, ht]
      split <;> rfl
  | _ => simp only [aliasOf, ht]

/-- A token that is put back is ahead again, so the rest is the one there was. -/
theorem parseAlias_local [Lookahead R] (reserved : List Keyword) :
    Local R (parseAlias reserved) := by
  rw [parseAlias_eq]
  refine (Local.acceptKeyword .as).bind fun afterAs => ?_
  cases afterAs with
  | true =>
      have hfails : ∀ t, Fails (do
          if true = true then expected "an identifier after AS" t
          back
          return none : Parser (Option Ident)) := fun t => .bind (.expected _ _) _
      refine Local.next_bind (fun t => ?_) (hfails .eof)
      cases aliasOf reserved true t with
      | some name => exact Local.pure _
      | none => exact Local.of_fails (hfails t)
  | false =>
      convert Local.next_or_back (R := R) (aliasOf reserved false) fun _ => aliasOf_mark
        using 3 with t
      cases aliasOf reserved false t <;> rfl

end Ident

namespace ObjectName

/-- The further parts of a path. -/
theorem parts_local [Lookahead R] (inFrom : Bool) :
    Local R (many do if ← accept .period then some <$> Ident.parse inFrom else return none) :=
  Local.many_item (.accept (by simp [EndMark])) (Ident.parse_local inFrom)

theorem parseIn_reads [Lookahead R] (inFrom : Bool) : Reads R (parseIn inFrom) :=
  .bind (Ident.parse_reads inFrom) fun _ => (parts_local inFrom).bind fun _ => Local.pure _

theorem parse_reads [Lookahead R] : Reads R parse := parseIn_reads false

theorem parse_local [Lookahead R] : Local R parse := parse_reads.isLocal

end ObjectName

namespace Literal

theorem parseString_local [Lookahead R] : Local R parseString :=
  Local.next_bind (fun t => by
    split
    · exact Local.pure _
    · exact Local.pure _
    · exact Local.expected _ _) (Fails.expected _ _)

theorem parseCount_local [Lookahead R] : Local R parseCount :=
  Local.next_bind (fun t => by
    split
    · split
      · exact Local.pure _
      · exact Local.throw _
    · exact Local.expected _ _) (Fails.expected _ _)

end Literal

end SchemaSql
