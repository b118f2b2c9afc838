import SchemaSql.Proofs.Locality

/-! # Locality of the readers for single tokens

    A reader that looks at the next token and takes it or not is described by `Looks`: what it
    makes of a token that it takes, and what it gives otherwise.  Such a reader is local as
    soon as it never takes a token that may stand where a clause ends. -/

namespace SchemaSql

open Cursor

variable {α β : Type} {R : Rel}

namespace Cursor

/-- What is taken is what is looked at. -/
theorem next_fst (c : Cursor) : c.next.1 = c.peek := by
  rw [peek_eq]
  cases h : c.rest with
  | nil => exact (next_of_rest_nil h).1
  | cons t w => rw [next_of_rest_cons h]; rfl

/-- Taking the first token ahead leads to the blanks behind it, which are passed. -/
theorem At.next {c : Cursor} {t : Located} {w : List Located} (h : c.At (t :: w)) :
    c.next = (t, c.next.2) ∧ c.next.2.At (w.dropWhile Located.isWhitespace) := by
  rw [next_of_rest_cons h.rest]
  exact ⟨rfl, h.overrun, rfl⟩

/-- Taking a token replays in front of every other rest. -/
theorem At.next_replay {c : Cursor} {t : Located} {w : List Located} (h : c.At (t :: w)) :
    ∃ b, c.rest = (t :: b) ++ c.next.2.rest ∧ ∀ r, Clean r → ∀ d : Cursor,
      d.At ((t :: b) ++ r) → d.next = (t, d.next.2) ∧ d.next.2.At r := by
  refine ⟨w.takeWhile Located.isWhitespace, ?_, fun r hr d hd => ?_⟩
  · rw [h.rest, h.next.2.rest, List.cons_append, List.takeWhile_append_dropWhile]
  · refine ⟨hd.next.1, ?_⟩
    have hat : d.next.2.At ((w.takeWhile Located.isWhitespace ++ r).dropWhile
        Located.isWhitespace) := hd.next.2
    rwa [dropWhile_append_clean (fun t ht => List.mem_takeWhile_imp ht) hr] at hat

end Cursor

/-- A reader that looks at the next token: it takes the token and gives what `take` makes of
    it, or leaves it and gives `pass`, if there is such a value. -/
def Looks (p : Parser α) (take : Located → Option α) (pass : Option α) : Prop :=
  ∀ ctx c v c', p ctx c = .ok v c' ↔
    (take c.peek = some v ∧ c' = c.next.2) ∨ (take c.peek = none ∧ pass = some v ∧ c' = c)

namespace Looks

variable {p : Parser α} {take : Located → Option α} {pass : Option α}

/-- The token that is looked at decides, and where it is not taken the other rest must not offer one
    that is. -/
theorem local_of (h : Looks p take pass) [Lookahead R] (heof : take .eof = none)
    (hR : pass ≠ none → ∀ w r, R w r → take (headOf w) = none → take (headOf r) = none) :
    Local R p := by
  intro ctx c v c' h0 hrun
  rcases (h ctx c v c').mp hrun with ⟨ht, rfl⟩ | ⟨ht, hpass, rfl⟩
  · cases hw : c.rest with
    | nil =>
        rw [peek_eq, hw] at ht
        exact absurd (heof.symm.trans ht) (by simp)
    | cons t w =>
        have hat : c.At (t :: w) := ⟨h0, hw⟩
        obtain ⟨b, hb, hreplay⟩ := hat.next_replay
        refine ⟨hat.next.2.overrun, t :: b, by rw [← hw, hb], fun r hr d hd => ?_⟩
        obtain ⟨-, hat'⟩ := hreplay r (Lookahead.clean hr c.next.2.clean_rest) d hd
        have hpeek : d.peek = c.peek := by
          rw [hd.peek, hat.peek]
          rfl
        exact ⟨d.next.2, (h ctx d v _).mpr (.inl ⟨hpeek ▸ ht, rfl⟩), hat'⟩
  · refine ⟨h0, [], rfl, fun r hr d hd => ⟨d, (h ctx d v d).mpr (.inr ⟨?_, hpass, rfl⟩), hd⟩⟩
    rw [peek_eq] at ht
    rw [hd.peek]
    exact hR (by simp [hpass]) _ _ hr ht

/-- A reader that never takes a token where a clause may end is local. -/
theorem isLocal (h : Looks p take pass) [Lookahead R]
    (hmark : ∀ t, EndMark t.token → take t = none) : Local R p := by
  refine h.local_of (hmark _ (.inl rfl)) fun _ w r hr ht => ?_
  rcases Lookahead.mark hr with heq | ⟨-, hm⟩
  · rwa [← heq]
  · exact hmark _ hm

/-- Where a comma is never the end, a reader may take commas. -/
theorem isLocal_of_comma (h : Looks p take pass) [CommaAware R]
    (hmark : ∀ t, t.token = .eof ∨ t.token = .semicolon → take t = none) : Local R p := by
  refine h.local_of (hmark _ (.inl rfl)) fun _ w r hr ht => ?_
  rcases CommaAware.mark hr with heq | ⟨-, hm⟩
  · rwa [← heq]
  · exact hmark _ hm

/-- Taking a token makes what is left shorter. -/
theorem shorter (h : Looks p take pass) (heof : take .eof = none) {ctx : Context}
    {c c' : Cursor} {v : α} (h0 : c.overrun = 0) (hrun : p ctx c = .ok v c')
    (hv : pass ≠ some v) : c'.overrun = 0 ∧ c'.rest.length < c.rest.length := by
  rcases (h ctx c v c').mp hrun with ⟨ht, rfl⟩ | ⟨-, hpass, -⟩
  · cases hw : c.rest with
    | nil =>
        rw [peek_eq, hw] at ht
        exact absurd (heof.symm.trans ht) (by simp)
    | cons t w =>
        have hat : c.At (t :: w) := ⟨h0, hw⟩
        refine ⟨hat.next.2.overrun, ?_⟩
        rw [hat.next.2.rest, List.length_cons]
        exact Nat.lt_succ_of_le (List.dropWhile_sublist _).length_le
  · exact absurd hpass hv

/-- A reader that fails unless it takes a token is local, whatever the token. -/
theorem isLocal_of_must (h : Looks p take none) [Lookahead R] (heof : take .eof = none) :
    Local R p := h.local_of heof fun hne => absurd rfl hne

/-- A value that is not the one for passing on was made of a token that was taken. -/
theorem takes (h : Looks p take pass) (heof : take .eof = none) : Takes (pass ≠ some ·) p :=
  fun _ _ _ _ h0 hrun hv => (h.shorter heof h0 hrun hv).2

/-- Without a value for passing on, the reader takes a token or fails. -/
theorem consumes (h : Looks p take none) (heof : take .eof = none) : Consumes p :=
  fun _ _ _ _ h0 hrun _ => (h.shorter heof h0 hrun (by simp)).2

end Looks

/-- A reader is described by what it does with the next token. -/
theorem Looks.of_run {p : Parser α} {take : Located → Option α} {pass : Option α}
    (h : ∀ ctx c, (∃ v, take c.peek = some v ∧ p ctx c = .ok v c.next.2) ∨
      (take c.peek = none ∧ ((∃ v, pass = some v ∧ p ctx c = .ok v c) ∨
        (pass = none ∧ ∃ e, p ctx c = .error e c)))) : Looks p take pass := by
  intro ctx c v c'
  rcases h ctx c with ⟨a, ht, hp⟩ | ⟨ht, ⟨a, hpass, hp⟩ | ⟨hpass, e, hp⟩⟩
  · rw [hp, ht]
    simp [eq_comm]
  · rw [hp, ht, hpass]
    simp [eq_comm]
  · rw [hp, ht, hpass]
    simp

/-! ## Taking one particular token -/

namespace Parser

theorem next_run (ctx : Context) (c : Cursor) : next ctx c = .ok c.peek c.next.2 :=
  next_ok.mpr (Prod.ext c.next_fst rfl)

/-- Accepting a token depends on the token ahead alone. -/
theorem accept_run (token : Token) (ctx : Context) (c : Cursor) :
    accept token ctx c = if c.peek.token = token then .ok true c.next.2 else .ok false c := by
  show (if c.peek.token = token then (do let _ ← next; return true) else return false :
    Parser Bool) ctx c = _
  split <;> rfl

/-- A comma is taken in any case; whether the list goes on behind it is seen from the token there.
    -/
theorem acceptSeparator_run (trailing : Bool) (ctx : Context) (c : Cursor) :
    acceptSeparator trailing ctx c =
      if c.peek.token = .comma then .ok (!(trailing && endsList c.next.2.peek.token)) c.next.2
      else .ok false c := by
  simp only [acceptSeparator, Parser.bind_apply]
  rw [accept_run]
  by_cases hcomma : c.peek.token = .comma
  · simp only [if_pos hcomma]
    rfl
  · simp only [if_neg hcomma]
    rfl

theorem accept_looks (token : Token) :
    Looks (accept token) (fun t => if t.token = token then some true else none)
      (some false) := by
  refine .of_run fun ctx c => ?_
  rw [accept_run]
  by_cases h : c.peek.token = token <;> simp [h]

/-- A token that is missing is named in the error, together with what stands there instead. -/
theorem expect_run (token : Token) (ctx : Context) (c : Cursor) :
    expect token ctx c = if c.peek.token = token then .ok c.peek c.next.2
      else .error (.expected token.text c.peek) c := by
  show (if c.peek.token = token then next else expected token.text c.peek :
    Parser Located) ctx c = _
  split
  · exact next_run ctx c
  · rfl

theorem expect_looks (token : Token) :
    Looks (expect token) (fun t => if t.token = token then some t else none) none := by
  refine .of_run fun ctx c => ?_
  rw [expect_run]
  by_cases h : c.peek.token = token <;> simp [h]

/-- The bare word `w` has this spelling, in whatever case. -/
def spelled (spelling : String) (t : Located) : Bool :=
  match t.token with
  | .word w => w.quote.isNone && w.value.toLower == spelling.toLower
  | _ => false

/-- A word that is no keyword is told by its spelling. -/
theorem acceptSpelling_run (spelling : String) (ctx : Context) (c : Cursor) :
    acceptSpelling spelling ctx c =
      if spelled spelling c.peek then .ok true c.next.2 else .ok false c := by
  show (match c.peek.token with
    | .word w =>
      if w.quote.isNone && w.value.toLower == spelling.toLower then
        (do let _ ← next; return true) else return false
    | _ => return false : Parser Bool) ctx c = _
  unfold spelled
  cases h : c.peek.token with
  | word w =>
      show (if w.quote.isNone && w.value.toLower == spelling.toLower then
        (do let _ ← next; return true) else return false : Parser Bool) ctx c = _
      split <;> rfl
  | _ => rfl

theorem acceptSpelling_looks (spelling : String) :
    Looks (acceptSpelling spelling)
      (fun t => if spelled spelling t then some true else none) (some false) := by
  refine .of_run fun ctx c => ?_
  rw [acceptSpelling_run]
  by_cases h : spelled spelling c.peek <;> simp [h]

/-! ## Words by their keyword -/

/-- The token is a word with this keyword. -/
def hasKeyword (keyword : Option Keyword) (t : Located) : Bool :=
  match t.token with
  | .word w => w.keyword == keyword
  | _ => false

/-- No keyword marks the end of a clause. -/
theorem hasKeyword_mark {keyword : Option Keyword} {t : Located} (h : EndMark t.token) :
    hasKeyword keyword t = false := by
  rcases h with h | h | h <;> simp [hasKeyword, h]

/-- The word that is accepted is given with its place. -/
theorem acceptWord?_run (keyword : Option Keyword) (ctx : Context) (c : Cursor) :
    acceptWord? keyword ctx c =
      if hasKeyword keyword c.peek then .ok (some c.peek) c.next.2 else .ok none c := by
  show (match c.peek.token with
    | .word w => if w.keyword = keyword then some <$> next else return none
    | _ => return none : Parser (Option Located)) ctx c = _
  unfold hasKeyword
  cases ht : c.peek.token with
  | word w =>
      by_cases h : w.keyword = keyword
      · simp only [h, if_true, beq_self_eq_true]
        exact map_ok.mpr ⟨_, next_run ctx c, rfl⟩
      · simp only [h, if_false, beq_iff_eq]
        rfl
  | _ => rfl

theorem acceptWord?_looks (keyword : Option Keyword) :
    Looks (acceptWord? keyword)
      (fun t => if hasKeyword keyword t then some (some t) else none) (some none) := by
  refine .of_run fun ctx c => ?_
  rw [acceptWord?_run]
  by_cases h : hasKeyword keyword c.peek <;> simp [h]

theorem acceptWord_run (keyword : Option Keyword) (ctx : Context) (c : Cursor) :
    acceptWord keyword ctx c =
      if hasKeyword keyword c.peek then .ok true c.next.2 else .ok false c := by
  simp only [acceptWord, Parser.map_apply]
  rw [acceptWord?_run]
  by_cases h : hasKeyword keyword c.peek <;> simp [h]

theorem acceptWord_looks (keyword : Option Keyword) :
    Looks (acceptWord keyword)
      (fun t => if hasKeyword keyword t then some true else none) (some false) := by
  refine .of_run fun ctx c => ?_
  rw [acceptWord_run]
  by_cases h : hasKeyword keyword c.peek <;> simp [h]

/-- The error for a missing word stands at the token ahead. -/
theorem expectWord_run (keyword : Option Keyword) (ctx : Context) (c : Cursor) :
    expectWord keyword ctx c =
      if hasKeyword keyword c.peek then .ok c.peek c.next.2
      else .error (.expected (Keyword.label keyword) c.peek) c := by
  simp only [expectWord, Parser.bind_apply]
  rw [acceptWord?_run]
  by_cases h : hasKeyword keyword c.peek <;> simp [h] <;> rfl

theorem expectWord_looks (keyword : Option Keyword) :
    Looks (expectWord keyword)
      (fun t => if hasKeyword keyword t then some t else none) none := by
  refine .of_run fun ctx c => ?_
  rw [expectWord_run]
  by_cases h : hasKeyword keyword c.peek <;> simp [h]

/-- The keyword of a word, if it is one of these. -/
def keywordOf (keywords : List (Option Keyword)) (t : Located) : Option (Option Keyword) :=
  match t.token with
  | .word w => if keywords.contains w.keyword then some w.keyword else none
  | _ => none

/-- None of the keywords marks the end of a clause. -/
theorem keywordOf_mark {keywords : List (Option Keyword)} {t : Located}
    (h : EndMark t.token) : keywordOf keywords t = none := by
  rcases h with h | h | h <;> simp [keywordOf, h]

/-- The keywords are tried in their order, and a token has one of them at most. -/
theorem acceptWordOf_run (keywords : List (Option Keyword)) (ctx : Context) (c : Cursor) :
    acceptWordOf keywords ctx c =
      match keywordOf keywords c.peek with
      | some keyword => .ok (some keyword) c.next.2
      | none => .ok none c := by
  show (match c.peek.token with
    | .word w =>
      if w.keyword ∈ keywords then (do let _ ← next; return some w.keyword)
      else return none
    | _ => return none : Parser (Option (Option Keyword))) ctx c = _
  unfold keywordOf
  cases ht : c.peek.token with
  | word w =>
      by_cases h : w.keyword ∈ keywords
      · simp only [h, if_true, List.contains_iff_mem]
        rfl
      · simp only [h, if_false, List.contains_iff_mem]
        rfl
  | _ => rfl

/-- Taking one of several keywords, where `none` is what no keyword gives. -/
theorem acceptOneOf_run (keywords : List Keyword) (ctx : Context) (c : Cursor) :
    acceptOneOf keywords ctx c =
      match (keywordOf (keywords.map some) c.peek).join with
      | some keyword => .ok (some keyword) c.next.2
      | none => .ok none c := by
  simp only [acceptOneOf, Parser.map_apply]
  rw [acceptWordOf_run]
  cases h : keywordOf (keywords.map some) c.peek with
  | none => rfl
  | some keyword =>
      cases keyword with
      | some keyword => rfl
      | none =>
          unfold keywordOf at h
          split at h
          · split at h
            · rename_i w _ hmem
              simp only [Option.some.injEq] at h
              simp [h] at hmem
            · simp at h
          · simp at h

theorem acceptOneOf_looks (keywords : List Keyword) :
    Looks (acceptOneOf keywords)
      (fun t => (keywordOf (keywords.map some) t).join.map some) (some none) := by
  refine .of_run fun ctx c => ?_
  rw [acceptOneOf_run]
  cases h : (keywordOf (keywords.map some) c.peek).join <;> simp

/-- Where none of the keywords is found the error names all of them. -/
theorem expectOneOf_run (keywords : List Keyword) (ctx : Context) (c : Cursor) :
    expectOneOf keywords ctx c =
      match (keywordOf (keywords.map some) c.peek).join with
      | some keyword => .ok keyword c.next.2
      | none => (expectedOneOf (keywords.map some) : Parser Keyword) ctx c := by
  simp only [expectOneOf, Parser.bind_apply]
  rw [acceptOneOf_run]
  cases (keywordOf (keywords.map some) c.peek).join <;> rfl

theorem expectOneOf_looks (keywords : List Keyword) :
    Looks (expectOneOf keywords)
      (fun t => (keywordOf (keywords.map some) t).join) none := by
  refine .of_run fun ctx c => ?_
  rw [expectOneOf_run]
  cases h : (keywordOf (keywords.map some) c.peek).join with
  | none => exact .inr ⟨rfl, .inr ⟨rfl, _, rfl⟩⟩
  | some keyword => exact .inl ⟨keyword, rfl, rfl⟩

end Parser

/-! ## Their locality -/

namespace Local

open SchemaSql.Parser

variable [Lookahead R]

/-- A token that no clause ends at is accepted or not whatever the rest is. -/
theorem accept {token : Token} (h : ¬ EndMark token) : Local R (accept token) :=
  (accept_looks token).isLocal fun t ht => by
    rw [if_neg]
    rintro rfl
    exact h ht

/-- A comma is told from the end where the two rests agree about commas. -/
theorem accept_comma {R : Rel} [CommaAware R] : Local R (Parser.accept .comma) :=
  (accept_looks .comma).isLocal_of_comma fun t ht => by
    rcases ht with ht | ht <;> simp [ht]

theorem acceptEquals : Local R acceptEquals := accept (by simp [EndMark])

/-- A token that must be there is taken, so the rest is not looked at. -/
theorem expect {token : Token} (h : token ≠ .eof) : Local R (Parser.expect token) :=
  (expect_looks token).isLocal_of_must (if_neg fun heq => h heq.symm)

theorem acceptSpelling (spelling : String) : Local R (acceptSpelling spelling) :=
  (acceptSpelling_looks spelling).isLocal fun t ht => by
    rcases ht with ht | ht | ht <;> simp [spelled, ht]

theorem acceptKeyword? (keyword : Keyword) : Local R (acceptKeyword? keyword) :=
  (acceptWord?_looks keyword).isLocal fun t ht => by simp [hasKeyword_mark ht]

theorem acceptKeyword (keyword : Keyword) : Local R (acceptKeyword keyword) :=
  (acceptWord_looks keyword).isLocal fun t ht => by simp [hasKeyword_mark ht]

theorem expectKeyword (keyword : Keyword) : Local R (expectKeyword keyword) :=
  (expectWord_looks keyword).isLocal_of_must rfl

theorem acceptOneOf (keywords : List Keyword) : Local R (acceptOneOf keywords) :=
  (acceptOneOf_looks keywords).isLocal fun t ht => by simp [keywordOf_mark ht]

theorem expectOneOf (keywords : List Keyword) : Local R (expectOneOf keywords) :=
  (expectOneOf_looks keywords).isLocal_of_must rfl

end Local

namespace Takes

open SchemaSql.Parser

/-- A token was accepted, so one was taken. -/
theorem accept {token : Token} (h : token ≠ .eof) : Takes (· = true) (accept token) :=
  fun ctx c v c' h0 hrun hv =>
    (accept_looks token).takes (if_neg fun heq => h heq.symm) ctx c v c' h0 hrun (by simp [hv])

theorem acceptKeyword (keyword : Keyword) : Takes (· = true) (acceptKeyword keyword) :=
  fun ctx c v c' h0 hrun hv =>
    (acceptWord_looks keyword).takes rfl ctx c v c' h0 hrun (by simp [hv])

theorem acceptKeyword? (keyword : Keyword) : Takes (· ≠ none) (acceptKeyword? keyword) :=
  fun ctx c v c' h0 hrun hv =>
    (acceptWord?_looks keyword).takes rfl ctx c v c' h0 hrun (by simpa using hv.symm)

theorem acceptOneOf (keywords : List Keyword) : Takes (· ≠ none) (acceptOneOf keywords) :=
  fun ctx c v c' h0 hrun hv =>
    (acceptOneOf_looks keywords).takes rfl ctx c v c' h0 hrun (by simpa using hv.symm)

theorem expect {token : Token} (h : token ≠ .eof) : Consumes (expect token) :=
  (expect_looks token).consumes (if_neg fun heq => h heq.symm)

theorem expectKeyword (keyword : Keyword) : Consumes (expectKeyword keyword) :=
  (expectWord_looks keyword).consumes rfl

theorem expectOneOf (keywords : List Keyword) : Consumes (expectOneOf keywords) :=
  (expectOneOf_looks keywords).consumes rfl

end Takes

namespace Offers

open SchemaSql.Parser

variable [Lookahead R]

/-- The two facts about accepting a token, as the rules for loops ask for them. -/
theorem accept {token : Token} (h : ¬ EndMark token) :
    Offers R (· = true) (Parser.accept token) :=
  ⟨Local.accept h, Takes.accept fun heq => h (.inl heq)⟩

theorem acceptKeyword (keyword : Keyword) : Offers R (· = true) (acceptKeyword keyword) :=
  ⟨Local.acceptKeyword keyword, Takes.acceptKeyword keyword⟩

theorem acceptKeyword? (keyword : Keyword) : Offers R (· ≠ none) (acceptKeyword? keyword) :=
  ⟨Local.acceptKeyword? keyword, Takes.acceptKeyword? keyword⟩

theorem acceptOneOf (keywords : List Keyword) : Offers R (· ≠ none) (acceptOneOf keywords) :=
  ⟨Local.acceptOneOf keywords, Takes.acceptOneOf keywords⟩

theorem expect {token : Token} (h : token ≠ .eof) : Reads R (Parser.expect token) :=
  ⟨Local.expect h, Takes.expect h⟩

theorem expectKeyword (keyword : Keyword) : Reads R (expectKeyword keyword) :=
  ⟨Local.expectKeyword keyword, Takes.expectKeyword keyword⟩

theorem expectOneOf (keywords : List Keyword) : Reads R (expectOneOf keywords) :=
  ⟨Local.expectOneOf keywords, Takes.expectOneOf keywords⟩

end Offers

end SchemaSql
