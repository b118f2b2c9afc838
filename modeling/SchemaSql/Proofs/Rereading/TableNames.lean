import SchemaSql.Proofs.Rereading.Names

/-! # Echoes of table names

    A part of a table name may be several tokens: a word, and hyphens with a word or digits
    behind each of them.  They stand without blanks in the text, so they do in the print, and
    `Hyphened` says that of the tokens behind a first one.  Behind digits a period would be
    read as part of the number; a part that ends in them is printed in front of a period only
    where nothing of it is read, so `ObjectName.Undigited` rules that out. -/

namespace SchemaSql

open Cursor SchemaSql.Parser Token

variable {ctx : Context} {t t' : Token} {part : Ident} {T T' P Q K : List Token} {s : String}

/-! ## Cursors behind a word -/

theorem Cursor.faces_of_unread {d : Cursor} (hoverrun : d.overrun = 0)
    (h : d.unread.map Located.token = K) : d.Faces K :=
  ⟨hoverrun, by rw [rest, map_dropWhile, h]⟩

/-- Where these tokens are left and the first is no blank, it is the next one. -/
theorem Cursor.Faces.uncons {d : Cursor} (h : d.Faces (t :: K)) (ht : t.isWhitespace = false) :
    ∃ l w, d.At (l :: w) ∧ l.token = t ∧ w.map Located.token = K := by
  have hrest := h.rest
  rw [List.dropWhile_cons_of_neg (by simp [ht])] at hrest
  obtain ⟨l, w, hd, hl, hw⟩ := List.map_eq_cons_iff.mp hrest
  exact ⟨l, w, ⟨h.overrun, hd⟩, hl, hw⟩

/-- Taking the next token leaves exactly those behind it, blanks included. -/
theorem Cursor.At.unread_next {d : Cursor} {l : Located} {w : List Located} (h : d.At (l :: w)) :
    d.next.1 = l ∧ d.next.2.unread = w ∧ d.next.2.overrun = 0 := by
  rw [next_of_rest_cons h.rest]
  exact ⟨rfl, rfl, h.overrun⟩

namespace Ident

/-- No hyphen stands right in front of tokens that start with no hyphen behind blanks. -/
theorem noHyphen_of_front {w : List Located} (h : frontOf (solid (w.map Located.token)) ≠ .minus) :
    NoHyphen w := by
  cases w with
  | nil => exact nofun
  | cons l w =>
      intro hl
      have htoken : l.token = .minus := hl
      exact h (by simp [htoken, Token.isWhitespace])

/-! ## Hyphens and what stands behind them -/

/-- The tokens of a name with hyphens behind the token `t`, and their text. -/
inductive Hyphened (ctx : Context) : Token → String → List Token → Prop
  | nil {t : Token} : t.Lucid ctx.dialect ctx.options.unescape → Hyphened ctx t "" []
  | cons {t t' : Token} {piece s : String} {P : List Token} :
      t.Lucid ctx.dialect ctx.options.unescape → t.Stops ctx.dialect '-' →
      (∀ x ∈ t'.text.toList.head?, Token.minus.Stops ctx.dialect x) →
      hyphenPart { token := t' } = some piece → Hyphened ctx t' s P →
      Hyphened ctx t ("-" ++ piece ++ s) (.minus :: t' :: P)

/-- The first token of a hyphenated name is read back. -/
theorem Hyphened.lucid (h : Hyphened ctx t s P) : t.Lucid ctx.dialect ctx.options.unescape := by
  cases h <;> assumption

/-- Behind a hyphen stands a bare word, or digits. -/
theorem hyphenPart_token {piece : String} (h : hyphenPart { token := t } = some piece) :
    (∃ w, t = .word w ∧ w.quote = none ∧ w.value = piece) ∨
      (t = .number piece false ∧ ∀ x ∈ piece.toList, x.isDigit = true) := by
  cases t with
  | word w =>
      simp only [hyphenPart] at h
      split at h
      · next hquote => exact .inl ⟨w, rfl, by simpa using hquote, Option.some.inj h⟩
      · cases h
  | number digits long =>
      cases long with
      | true => cases h
      | false =>
          simp only [hyphenPart] at h
          split at h
          · next hdigits =>
              obtain rfl := Option.some.inj h
              exact .inr ⟨rfl, by simpa using hdigits⟩
          · cases h
  | _ => cases h

/-- A part of a hyphenated name is printed as it was written. -/
theorem text_of_hyphenPart {piece : String} (h : hyphenPart { token := t } = some piece) :
    t.text = piece := by
  rcases hyphenPart_token h with ⟨w, rfl, hquote, rfl⟩ | ⟨rfl, -⟩
  · simp [Token.text, Word.text, hquote]
  · simp [Token.text]

/-- The tokens of a hyphenated name make up its text. -/
theorem Hyphened.text (h : Hyphened ctx t s P) : textOf P = s := by
  induction h with
  | nil => rfl
  | cons _ _ _ hpart _ ih =>
      rw [textOf_cons, textOf_cons, ih, text_of_hyphenPart hpart, ← String.append_assoc]
      rfl

/-- The tokens are read back in front of what stops the last one of them. -/
theorem Hyphened.legible [ctx.dialect.Regular] (h : Hyphened ctx t s P)
    (hstop : ∀ t' ∈ (t :: P).getLast?, t'.StopsAt ctx.dialect Q)
    (hQ : Legible ctx.dialect ctx.options.unescape Q) :
    Legible ctx.dialect ctx.options.unescape (t :: (P ++ Q)) := by
  induction h with
  | nil ht => exact ⟨ht.spelled, hstop _ (by simp), hQ⟩
  | @cons t t' piece s P ht hminus hfits hpart hbehind ih =>
      have hsign : Token.minus.Spelled ctx.dialect ctx.options.unescape :=
        spelled_of_isSign trivial
      refine ⟨ht.spelled, hsign.stopsAt ?_ _, hsign,
        hbehind.lucid.spelled.stopsAt hfits _, ih ?_⟩
      · intro x hx
        obtain rfl : x = '-' := by simpa [Token.text] using hx.symm
        exact hminus
      · intro t'' ht''
        exact hstop t'' (by simpa [List.getLast?_cons] using ht'')

/-- The name ends in a hyphen and digits. -/
def EndsInDigits (part : Ident) : Prop :=
  part.quote = none ∧ ∃ front ds, part.value.toList = front ++ '-' :: ds ∧ ds ≠ [] ∧
    ∀ x ∈ ds, x.isDigit = true

/-- The last token ends in front of a period if it is no number. -/
theorem Hyphened.stops_period [ctx.dialect.Regular] (h : Hyphened ctx t s P)
    (ht : P = [] → t.Stops ctx.dialect '.')
    (hends : ∀ front ds, s.toList = front ++ '-' :: ds → ds ≠ [] →
      ¬ ∀ x ∈ ds, x.isDigit = true) :
    ∀ t' ∈ (t :: P).getLast?, t'.Stops ctx.dialect '.' := by
  induction h with
  | nil => simpa using ht rfl
  | @cons t t' piece s P _ _ _ hpart hbehind ih =>
      have hlast : (t :: .minus :: t' :: P).getLast? = (t' :: P).getLast? := by
        simp [List.getLast?_cons]
      rw [hlast]
      -- the last piece decides: a word stops there, digits would take the period with them
      refine ih (fun hnil => ?_) fun front ds hs hds hdigits => ?_
      · rcases hyphenPart_token hpart with ⟨w, rfl, -, -⟩ | ⟨rfl, hdigits⟩
        · exact fun _ => (Dialect.Regular.sign '.' (by decide)).2
        · -- the digits are the last thing in the name
          subst hnil
          obtain rfl : s = "" := by cases hbehind; rfl
          obtain ⟨c, cs, hcs, -⟩ := hbehind.lucid.spelled
          refine absurd hdigits (hends [] piece.toList (by simp) ?_)
          rw [show piece.toList = c :: cs by simpa [Token.text] using hcs]
          exact List.cons_ne_nil c cs
      · exact hends ('-' :: (piece.toList ++ front)) ds (by simp [hs]) hds hdigits

/-! ## The loop -/

/-- What the loop reads in a text. -/
theorem hyphened_of_iterates {name name' : String} {c c' : Cursor}
    (h : Iterates parseHyphenated ctx name c name' c') {l : Located}
    (hsource : ctx.Source (l :: c.unread)) (hl : l.isWhitespace = false) :
    c'.overrun = c.overrun ∧ ∃ s P, name' = name ++ s ∧ Hyphened ctx l.token s P ∧
      c'.unread <:+ c.unread := by
  induction h generalizing l with
  | done h =>
      rcases parseHyphenated_ok.mp h with ⟨-, -, rfl⟩ | ⟨_, _, _, _, _, _, _, h, _⟩
      · exact ⟨rfl, "", [], by simp, .nil (hsource.head hl), List.suffix_refl _⟩
      · cases h
  | @more name name1 name' c c1 c' h _ ih =>
      rcases parseHyphenated_ok.mp h with ⟨_, h, _⟩ | ⟨m, t, w, piece, hu, hm, hpart, hs, rfl⟩
      · cases h
      · have hpart' : hyphenPart { token := t.token } = some piece := hpart
        have hsolid : t.isWhitespace = false := by
          rcases hyphenPart_token hpart' with ⟨_, ht, -⟩ | ⟨ht, -⟩ <;>
            simp [Located.isWhitespace, ht, Token.isWhitespace]
        rw [hu] at hsource
        have htail : ctx.Source (t :: w) :=
          hsource.mono ((List.suffix_cons m _).trans (List.suffix_cons l _)).isInfix
        -- the loop goes on from the piece, which is now the token in front
        obtain ⟨hoverrun, s, P, hname, hP, hsuffix⟩ := ih htail hsolid
        have hchain := hsource.chain
        simp only [List.map_cons, List.isChain_cons_cons, hm] at hchain
        refine ⟨hoverrun, "-" ++ piece ++ s, .minus :: t.token :: P, ?_,
          .cons (hsource.head hl) ?_ (hchain.2.1 hsolid) hpart' hP, ?_⟩
        · rw [hname, Option.some.inj hs]
          simp [String.append_assoc]
        -- the source has the piece directly behind the hyphen, so nothing else fits between them
        · exact hchain.1 rfl '-' (by simp [Token.text])
        · rw [hu]
          exact hsuffix.trans ((List.suffix_cons t w).trans (List.suffix_cons m _))

/-- What it reads in a print. -/
theorem Hyphened.iterates (h : Hyphened ctx t s P) {d : Cursor} (name : String)
    (hd : d.unread.map Located.token = P ++ K) (hK : frontOf (solid K) ≠ .minus) :
    ∃ d', Iterates parseHyphenated ctx name d (name ++ s) d' ∧
      d'.unread.map Located.token = K ∧ d'.overrun = d.overrun := by
  induction h generalizing d name with
  | nil =>
      have hno : NoHyphen d.unread := noHyphen_of_front (by rw [hd]; exact hK)
      refine ⟨d, ?_, hd, rfl⟩
      rw [String.append_empty]
      exact .done (parseHyphenated_ok.mpr (.inl ⟨hno, rfl, rfl⟩))
  | @cons t t' piece s P _ _ _ hpart _ ih =>
      obtain ⟨m, w, hu, hm, hw⟩ := List.map_eq_cons_iff.mp hd
      obtain ⟨l, w, rfl, hl, hw⟩ := List.map_eq_cons_iff.mp hw
      have hpart' : hyphenPart l = some piece := by
        rw [← hpart]
        simp only [hyphenPart, hl]
      obtain ⟨d', hd', hunread, hoverrun⟩ :=
        ih (d := ⟨l :: m :: d.read, w, d.overrun⟩) (name ++ "-" ++ piece) hw
      refine ⟨d', ?_, hunread, hoverrun⟩
      -- the loop adds piece by piece to the name, the relation adds them from the right
      have hname : name ++ ("-" ++ piece ++ s) = name ++ "-" ++ piece ++ s := by
        simp [String.append_assoc]
      rw [hname]
      exact .more (parseHyphenated_ok.mpr (.inr ⟨m, l, w, piece, hu, hm, hpart', rfl, rfl⟩)) hd'

/-! ## Parts -/

/-- A period may stand behind the part: hyphens are part of a name in BigQuery only. -/
def TakesPeriod (ctx : Context) (part : Ident) : Prop :=
  ctx.dialect.isVendor .bigquery = true → ¬ part.EndsInDigits

/-- The print of a part, behind which a period may stand as well. -/
structure InPath (ctx : Context) (part : Ident) (P : List Token) : Prop
    extends Prints ctx part.text P where
  period : part.TakesPeriod ctx → ∀ Q, Legible ctx.dialect ctx.options.unescape (.period :: Q) →
    Legible ctx.dialect ctx.options.unescape (P ++ .period :: Q)

/-- A token that stops at a period stops in front of one. -/
theorem stopsAt_period [ctx.dialect.Regular] (ht : t.Stops ctx.dialect '.') (Q : List Token) :
    t.StopsAt ctx.dialect (.period :: Q) := by
  intro x hx
  obtain rfl : x = '.' := by simpa [Token.text] using hx.symm
  exact ht

theorem hyphenStart_token (inFrom : Bool) (l : Located) :
    hyphenStart inFrom ctx.toSettings l =
      hyphenStart inFrom ctx.toSettings { token := l.token } := rfl

theorem ofToken_token (l : Located) : ofToken l = ofToken { token := l.token } := rfl

/-- Hyphens may stand behind a word without quotes, in BigQuery. -/
theorem hyphenStart_ok {l : Located} {start : String}
    (h : hyphenStart true ctx.toSettings l = some start) :
    ∃ v, l.token = .word v ∧ v.quote = none ∧ ctx.dialect.isVendor .bigquery = true ∧
      v.value = start := by
  obtain ⟨t, loc⟩ := l
  cases t with
  | word v =>
      simp only [hyphenStart] at h
      split at h
      · next hword =>
        obtain ⟨hquote, hdialect⟩ : v.quote = none ∧ _ := by simpa using hword
        exact ⟨v, rfl, hquote, hdialect, Option.some.inj h⟩
      · cases h
  | _ => cases h

/-- A part of a table name is one token, or a word and what the loop reads behind it. -/
theorem parse_iff {c c' : Cursor} (hoverrun : c.next.2.overrun = 0) :
    parse true ctx c = .ok part c' ↔
      (hyphenStart true ctx.toSettings c.peek = none ∧ ofToken c.peek = some part ∧ c' = c.next.2) ∨
      ∃ start name, hyphenStart true ctx.toSettings c.peek = some start ∧
        Iterates parseHyphenated ctx start c.next.2 name c' ∧ part = { value := name } := by
  rw [parse_eq, bind_run (next_run ctx c), bind_run (read_ok.mpr ⟨rfl, rfl⟩)]
  cases hstart : hyphenStart true ctx.toSettings c.peek with
  | none =>
      cases hname : ofToken c.peek with
      | none => simp [expected_ne_ok]
      | some name =>
          constructor
          -- the loop stays inside the text, so it is the sequence of its steps
          · intro h
            obtain ⟨rfl, rfl⟩ := pure_ok.mp h
            exact .inl ⟨rfl, rfl, rfl⟩
          · rintro (⟨-, hsome, rfl⟩ | ⟨_, _, hnone, -⟩)
            · exact pure_ok.mpr ⟨Option.some.inj hsome, rfl⟩
            · cases hnone
  | some start =>
      constructor
      · intro h
        obtain ⟨name, c1, hiter, h⟩ := bind_ok.mp h
        obtain ⟨rfl, rfl⟩ := pure_ok.mp h
        rw [iterate_ok parseHyphenated_shortens hoverrun] at hiter
        exact .inr ⟨start, name, rfl, hiter, rfl⟩
      · rintro (⟨hnone, -⟩ | ⟨_, name, hsome, hiter, rfl⟩)
        · cases hnone
        · obtain rfl := Option.some.inj hsome
          exact bind_ok.mpr ⟨name, c', (iterate_ok parseHyphenated_shortens hoverrun).mpr hiter,
            pure_ok.mpr ⟨rfl, rfl⟩⟩

variable [hd : Fact (ctx.dialect ∈ Dialect.builtin)]

/-- A part of a path that is one token is a word that names it. -/
theorem inPath_token (ht : t.Lucid ctx.dialect ctx.options.unescape) (hpart : t.Names part) :
    InPath ctx part [t] :=
  ⟨ht.prints.of_eq hpart.printed_eq rfl, fun _ Q hQ =>
    ⟨ht.spelled, stopsAt_period hpart.stops_period Q, hQ⟩⟩

/-- A hyphenated name can be a part of a path where the dialect has such names. -/
theorem Hyphened.inPath {w : Word} (h : Hyphened ctx (.word w) s P) (hw : w.quote = none)
    (hdialect : ctx.dialect.isVendor .bigquery = true) :
    InPath ctx { value := w.value ++ s } (.word w :: P) := by
  refine ⟨.intro ?_ fun Q hQ hlegible => h.legible (fun t _ => hQ.stopsAt t) hlegible,
    fun hends Q hQ => h.legible (fun t ht => stopsAt_period (h.stops_period ?_ ?_ t ht) Q) hQ⟩
  · simp [h.text, Token.text, Word.text, hw, Ident.text]
  · exact fun _ _ => (Dialect.Regular.sign '.' (by decide)).2
  · intro front ds hs hds hdigits
    exact hends hdialect ⟨rfl, w.value.toList ++ front, ds, by simp [hs], hds, hdigits⟩

/-- A part of a table name is printed as it was read. -/
theorem parse_inPath : Echoes ctx (Ident.parse true) (InPath ctx)
    (fun _ _ T' => frontOf T' ≠ .minus) (Shadows 1) := by
  intro c part c' hoverrun hsource hrun
  have hnext := hrun
  rw [parse_eq] at hnext
  obtain ⟨l, w, hat, -⟩ := Local.next_bind_run (parse_eof true) hoverrun hnext
  obtain ⟨hfst, hunread, hoverrun1⟩ := hat.unread_next
  obtain rfl : c.peek = l := by rw [← next_fst, hfst]
  have hl : c.peek.isWhitespace = false := c.clean_rest _ (by simp [hat.rest])
  have hl' : c.peek.token.isWhitespace = false := hl
  have hrest : ∀ {c1 : Cursor}, c1.unread <:+ w → c1.rest <:+ c.rest := fun h => by
    rw [hat.rest, rest]
    exact (List.dropWhile_suffix _).trans (h.trans (List.suffix_cons _ w))
  rw [hat.rest] at hsource
  have hlucid := hsource.head hl
  have hahead : ∀ P : List Token, Shadows 1 c.coming (solid (c.peek.token :: P)) := fun P => by
    rw [coming_of_cons hat.rest, solid_cons, if_neg (by simp [hl'])]
    exact .cons rfl shadows_zero
  -- what is found in front of the print
  have hfound : ∀ {P K : List Token} {d : Cursor}, d.Faces (c.peek.token :: P ++ K) →
      d.peek.token = c.peek.token ∧ d.next.2.unread.map Located.token = P ++ K ∧
        d.next.2.overrun = 0 := fun hd => by
    obtain ⟨l', w', hat', hl', hw'⟩ := hd.uncons hl'
    obtain ⟨hnext, hu, hover⟩ := hat'.unread_next
    exact ⟨by rw [← next_fst, hnext, hl'], hu ▸ hw', hover⟩
  rcases (parse_iff hoverrun1).mp hrun with ⟨hstart, hname, rfl⟩ | ⟨start, name, hstart, hiter, rfl⟩
  · refine ⟨hoverrun1, hrest (hunread ▸ List.suffix_refl _), [c.peek.token],
      inPath_token hlucid hname, fun K _ => ⟨hahead _, fun d hd => ?_⟩⟩
    obtain ⟨hpeek, hunread', hover⟩ := hfound (P := []) hd
    refine ⟨d.next.2, (parse_iff hover).mpr (.inl ⟨?_, ?_, rfl⟩),
      faces_of_unread hover hunread'⟩
    · rw [hyphenStart_token, hpeek, ← hyphenStart_token, hstart]
    · rw [ofToken_token, hpeek, ← ofToken_token, hname]
  · obtain ⟨v, hv, hquote, hdialect, rfl⟩ := hyphenStart_ok hstart
    rw [← hunread] at hsource
    obtain ⟨hover, s, P, rfl, hP, hsuffix⟩ := hyphened_of_iterates hiter hsource hl
    rw [hv] at hP
    refine ⟨hover.trans hoverrun1, hrest (hunread ▸ hsuffix), .word v :: P,
      hP.inPath hquote hdialect, fun K hK => ⟨hv ▸ hahead _, fun d hd => ?_⟩⟩
    obtain ⟨hpeek, hunread', hover'⟩ := hfound (P := P) (by rw [hv]; exact hd)
    obtain ⟨d', hd', hunread'', hover''⟩ := hP.iterates v.value hunread' hK
    refine ⟨d', (parse_iff hover').mpr (.inr ⟨v.value, _, ?_, hd', rfl⟩),
      faces_of_unread (hover''.trans hover') hunread''⟩
    rw [hyphenStart_token, hpeek, ← hyphenStart_token, hstart]

end Ident

namespace ObjectName

/-- No part but the last one ends in a hyphen and digits, if hyphens are part of names. -/
def Undigited (ctx : Context) (name : ObjectName) : Prop :=
  ∀ part ∈ name.parts.dropLast, part.TakesPeriod ctx

/-- Parts with periods between them. -/
theorem prints_path [ctx.dialect.Regular] {parts : List Ident} {Ps : List (List Token)}
    (h : Each (Ident.InPath ctx) parts Ps)
    (hparts : ∀ part ∈ parts.dropLast, part.TakesPeriod ctx) :
    Prints ctx (".".intercalate (parts.map Ident.text)) ([Token.period].intercalate Ps) := by
  induction h with
  | nil => exact Leads.nil.prints
  | @cons part P parts Ps hP h ih =>
      cases h with
      | nil => simpa [List.intercalate] using hP.toPrints
      | @cons part' P' parts Ps hP' h =>
          obtain ⟨hpart, hparts⟩ := List.forall_mem_cons.mp hparts
          have htail := ih hparts
          have hlist : [Token.period].intercalate (P :: P' :: Ps) =
              P ++ .period :: [Token.period].intercalate (P' :: Ps) := by
            simp [List.intercalate]
          rw [hlist]
          -- the period stands directly behind the part, which has to be able to stop in front of it
          refine .intro ?_ fun Q hQ hlegible => ?_
          · rw [textOf_append, textOf_cons, htail.text, hP.text]
            simp [Token.text, String.append_assoc]
          · rw [List.append_assoc, List.cons_append]
            exact hP.period hpart _ ⟨spelled_of_isSign trivial, fun _ _ => trivial,
              (htail.legible Q hQ).mpr hlegible⟩

/-- A first part, and further ones with the period in front of each. -/
theorem each_path {first : Ident} {rest : List Ident} {parts : List (List Token)}
    (hP : Ident.InPath ctx first P)
    (hparts : Each (fun part P => ∃ P', Ident.InPath ctx part P' ∧ P = .period :: P') rest parts) :
    ∃ Ps, Each (Ident.InPath ctx) (first :: rest) Ps ∧
      [Token.period].intercalate Ps = P ++ parts.flatten := by
  induction hparts generalizing first P with
  | nil => exact ⟨[P], .cons hP .nil, by simp [List.intercalate]⟩
  | cons hpart _ ih =>
      obtain ⟨P', hP', rfl⟩ := hpart
      obtain ⟨Ps, hPs, hflat⟩ := ih hP'
      cases hPs with
      | cons hhead htail =>
          refine ⟨P :: _ :: _, .cons hP (.cons hhead htail), ?_⟩
          rw [List.flatten_cons, List.cons_append, ← hflat]
          simp [List.intercalate]

/-- What stands behind a table name goes on with it only where it did in the text. -/
def NameAlike : TokenRel := fun T T' =>
  (frontOf T' = .period → frontOf T = .period) ∧ frontOf T' ≠ .minus

variable [hd : Fact (ctx.dialect ∈ Dialect.builtin)]

/-- A table name is printed as it was read. -/
theorem parseIn_echoes : Echoes ctx (ObjectName.parseIn true)
    (fun name P => name.Undigited ctx → Prints ctx name.text P) (fun _ => NameAlike)
    (Shadows 1) := by
  -- a further part is a period and a name behind it
  have hpart : Echoes ctx (do if ← accept .period then some <$> Ident.parse true else return none)
      (fun o P => o.elim (P = []) fun part => ∃ P', Ident.InPath ctx part P' ∧ P = .period :: P')
      (fun _ => NameAlike) NameAlike := by
    refine (Echoes.accept_of (s := .period) (N := [.period]) (S := NameAlike) trivial rfl
      (fun _ _ => ⟨fun _ => rfl, nofun⟩) fun _ _ h => h.1).bind fun b P hP => ?_
    subst hP
    cases b with
    | true => exact .map (Ident.parse_inPath.mono (fun part P h => ⟨P, h, rfl⟩)
        (fun _ _ _ h => h.2) fun _ _ _ => trivial)
    | false => exact .pure rfl fun _ _ h => h
  refine (Ident.parse_inPath.behind fun _ _ _ (h : NameAlike _ _) => h.2).bind fun first P hP =>
    (Echoes.many_alike (.item (.accept (by simp [EndMark])) (Ident.parse_local true)) hpart).bind
      fun rest P' hP' => .pure (fun hname => ?_) fun _ _ h => h
  obtain ⟨parts, hparts, rfl⟩ := hP'
  obtain ⟨Ps, hPs, hflat⟩ := each_path hP hparts
  exact (prints_path hPs hname).of_eq rfl (by rw [hflat, List.append_nil])

end ObjectName

end SchemaSql
