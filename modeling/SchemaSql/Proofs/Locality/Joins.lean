import SchemaSql.Proofs.Locality.Tokens

/-! # Locality of joined readers

    Rules for the ways in which readers look at more than one token: by reading a token and
    deciding on it, by looking ahead, by trying several keywords in a row, and by repeating a
    step. -/

namespace SchemaSql

open Cursor

variable {α β : Type} {R : Rel}

namespace Local

/-! ## Deciding on a token -/

/-- What a run that starts by taking a token did. -/
theorem next_bind_run {k : Located → Parser α} (heof : Fails (k .eof)) {ctx : Context}
    {c c' : Cursor} {v : α} (h0 : c.overrun = 0) (h : (Parser.next >>= k) ctx c = .ok v c') :
    ∃ t w, c.At (t :: w) ∧ k t ctx c.next.2 = .ok v c' := by
  obtain ⟨t, c1, ht, h⟩ := Parser.bind_ok.mp h
  rw [Parser.next_run] at ht
  obtain ⟨rfl, rfl⟩ := EStateM.Result.ok.inj ht
  cases hw : c.rest with
  | nil =>
      rw [peek_eq, hw] at h
      exact absurd h (heof ctx _ v c')
  | cons t w =>
      have hat : c.At (t :: w) := ⟨h0, hw⟩
      rw [hat.peek] at h
      exact ⟨t, w, hat, h⟩

/-- Replaying a run behind a token that was taken. -/
theorem replay_behind [Lookahead R] {k : Located → Parser α} {t : Located}
    {w : List Located} (hk : Local R (k t)) {ctx : Context} {c c' : Cursor} {v : α}
    (hat : c.At (t :: w)) (h : k t ctx c.next.2 = .ok v c') :
    c'.overrun = 0 ∧ ∃ used, c.rest = used ++ c'.rest ∧
      ∀ r, R c'.rest r → ∀ d : Cursor, d.At (used ++ r) →
        ∃ d', (Parser.next >>= k) ctx d = .ok v d' ∧ d'.At r := by
  obtain ⟨b, hb, hreplay⟩ := hat.next_replay
  obtain ⟨h1, used, hused, hk'⟩ := hk ctx _ v c' hat.next.2.overrun h
  refine ⟨h1, (t :: b) ++ used, by rw [hb, hused, List.append_assoc], fun r hr d hd => ?_⟩
  have hclean : Clean (used ++ r) :=
    Lookahead.clean (Lookahead.append hr) (hused ▸ c.next.2.clean_rest)
  obtain ⟨hdn, hdat⟩ := hreplay (used ++ r) hclean d (by rwa [← List.append_assoc])
  obtain ⟨d', hd', hat'⟩ := hk' r hr d.next.2 hdat
  exact ⟨d', Parser.bind_ok.mpr ⟨t, d.next.2, Parser.next_ok.mpr hdn, hd'⟩, hat'⟩

/-- A reader that takes a token and goes on with it, and fails at the end of the text. -/
theorem next_bind [Lookahead R] {k : Located → Parser α} (hk : ∀ t, Local R (k t))
    (heof : Fails (k .eof)) : Local R (Parser.next >>= k) := by
  intro ctx c v c' h0 h
  obtain ⟨t, w, hat, h⟩ := next_bind_run heof h0 h
  exact replay_behind (hk t) hat h

/-- After `t` was read, the reader goes on behind it, or puts it back and takes tokens from
    there. -/
def Resumes (R : Rel) (k : Located → Parser α) (t : Located) : Prop :=
  Local R (k t) ∨
    ∃ q : Parser α, k t = (Parser.back >>= fun _ => q) ∧ Local R q ∧ Consumes q

/-- Reading a token and putting it back changes nothing but the blanks in front. -/
theorem next_back {c : Cursor} {t : Located} {w : List Located} (h : c.At (t :: w)) :
    c.next.2.back.At (t :: w) := by
  have ht : t.isWhitespace = false := by simpa using h.clean
  rw [next_of_rest_cons h.rest]
  show (⟨_, w, c.overrun⟩ : Cursor).back.At (t :: w)
  rw [h.overrun, back_cons ht]
  exact ⟨rfl, by simp [Cursor.rest, ht]⟩

/-- A reader that takes a token and then goes on behind it or puts it back. -/
theorem next_bind_back [Lookahead R] {k : Located → Parser α} (hk : ∀ t, Resumes R k t)
    (heof : Fails (k .eof)) : Local R (Parser.next >>= k) := by
  intro ctx c v c' h0 h
  obtain ⟨t, w, hat, h⟩ := next_bind_run heof h0 h
  rcases hk t with hl | ⟨q, hq, hql, hqc⟩
  · exact replay_behind hl hat h
  · rw [hq] at h
    obtain ⟨u, c2, hback, h⟩ := Parser.bind_ok.mp h
    obtain rfl := Parser.back_ok.mp hback
    have hat2 := next_back hat
    obtain ⟨h1, used, hused, hreplay⟩ := hql ctx _ v c' hat2.overrun h
    have hlt := hqc ctx _ v c' hat2.overrun h trivial
    rw [hat2.rest] at hused hlt
    refine ⟨h1, used, hat.rest.trans hused, fun r hr d hd => ?_⟩
    cases used with
    -- the reader moves on, so it has used the token that was put back
    | nil =>
        rw [List.nil_append] at hused
        rw [hused] at hlt
        omega
    | cons t' used =>
        obtain rfl : t = t' := (List.cons.inj hused).1
        obtain ⟨d', hd', hat'⟩ := hreplay r hr _ (next_back hd)
        refine ⟨d', Parser.bind_ok.mpr ⟨t, d.next.2, Parser.next_ok.mpr hd.next.1, ?_⟩, hat'⟩
        rw [hq]
        exact Parser.bind_ok.mpr ⟨(), _, Parser.back_ok.mpr rfl, hd'⟩

/-! ## Looking ahead -/

/-- A reader that looks at the next token and goes on with what `f` tells about it. -/
theorem peek_with [Lookahead R] {γ : Type} {k : Located → Parser α} (f : Located → γ)
    (g : γ → Parser α) (hk : ∀ ctx c, k c.peek ctx c = g (f c.peek) ctx c)
    (hg : ∀ t, Local R (g (f t))) (hf : ∀ w r, R w r → f (headOf w) = f (headOf r)) :
    Local R (Parser.peek >>= k) := by
  intro ctx c v c' h0 h
  obtain ⟨t, c1, ht, h⟩ := Parser.bind_ok.mp h
  obtain ⟨rfl, rfl⟩ := Parser.peek_ok.mp ht
  rw [hk] at h
  obtain ⟨h1, used, hused, hreplay⟩ := hg _ ctx c v c' h0 h
  refine ⟨h1, used, hused, fun r hr d hd => ?_⟩
  obtain ⟨d', hd', hat⟩ := hreplay r hr d hd
  refine ⟨d', Parser.bind_ok.mpr ⟨d.peek, d, Parser.peek_ok.mpr ⟨rfl, rfl⟩, ?_⟩, hat⟩
  have heq : f d.peek = f c.peek := by
    rw [hd.peek, peek_eq, hused]
    exact (hf _ _ (Lookahead.append hr)).symm
  rw [hk, heq]
  exact hd'

/-- A test on the next token that comes out alike for all tokens where a clause may end. -/
theorem peek_test [Lookahead R] {γ : Type} {k : Located → Parser α} (f : Token → γ)
    (g : γ → Parser α) (hk : ∀ ctx c, k c.peek ctx c = g (f c.peek.token) ctx c)
    (hg : ∀ x, Local R (g x)) (hsemi : f .semicolon = f .eof) (hcomma : f .comma = f .eof) :
    Local R (Parser.peek >>= k) := by
  refine peek_with (fun t => f t.token) g hk (fun _ => hg _) fun w r hr => ?_
  have hmark : ∀ token, EndMark token → f token = f .eof := by
    rintro token (rfl | rfl | rfl)
    · rfl
    · exact hsemi
    · exact hcomma
  rcases Lookahead.mark hr with heq | ⟨hm, hm'⟩
  · rw [heq]
  · exact (hmark _ hm).trans (hmark _ hm').symm

/-- Where a comma is never the end, the test need not come out alike for commas. -/
theorem peek_sharp [CommaAware R] {γ : Type} {k : Located → Parser α} (f : Token → γ)
    (g : γ → Parser α) (hk : ∀ ctx c, k c.peek ctx c = g (f c.peek.token) ctx c)
    (hg : ∀ x, Local R (g x)) (hsemi : f .semicolon = f .eof) :
    Local R (Parser.peek >>= k) := by
  refine peek_with (fun t => f t.token) g hk (fun _ => hg _) fun w r hr => ?_
  have hmark : ∀ token, token = .eof ∨ token = .semicolon → f token = f .eof := by
    rintro token (rfl | rfl)
    · rfl
    · exact hsemi
  rcases CommaAware.mark hr with heq | ⟨hm, hm'⟩
  · rw [heq]
  · exact (hmark _ hm).trans (hmark _ hm').symm

/-- A reader that asks for a token that no clause ends with. -/
theorem peek_if [Lookahead R] {token : Token} (h : ¬ EndMark token) {p q : Parser α}
    (hp : Local R p) (hq : Local R q) :
    Local R (do if (← Parser.peek).token = token then p else q) := by
  have hne : ∀ t, EndMark t → decide (t = token) = false := by
    rintro t ht
    exact decide_eq_false fun heq => h (heq ▸ ht)
  refine peek_test (fun t => decide (t = token)) (fun b => if b then p else q)
    (fun _ _ => by simp) (fun _ => hp.ite hq) ?_ ?_
  · rw [hne _ (.inr (.inl rfl)), hne _ (.inl rfl)]
  · rw [hne _ (.inr (.inr rfl)), hne _ (.inl rfl)]

/-- A token that no clause ends at is seen in both rests or in neither. -/
theorem peek_if_bind [Lookahead R] {token : Token} (h : ¬ EndMark token) {p q : Parser α}
    {f : α → Parser β} (hp : Local R p) (hq : Local R q) (hf : ∀ a, Local R (f a)) :
    Local R (do if (← Parser.peek).token = token then p >>= f else q >>= f) :=
  peek_if h (hp.bind hf) (hq.bind hf)

/-- A keyword is seen in both rests or in neither. -/
theorem peekKeyword [Lookahead R] (keyword : Keyword) : Local R (Parser.peekKeyword keyword) := by
  refine peek_test (fun token => Parser.hasKeyword (some keyword) { token }) (fun b => return b)
    (fun ctx c => ?_) (fun _ => Local.pure _) rfl rfl
  show Parser.peekWord (some keyword) ctx c = _
  rw [Parser.peekWord, Parser.bind_run (Parser.peek_ok.mpr ⟨rfl, rfl⟩)]
  cases c.peek.token with
  | word w => simp only [Parser.hasKeyword, beq_eq_decide]
  | _ => rfl

/-- A reader that looks at two tokens and goes on with what `f` tells about them. -/
theorem peek_two [Lookahead R] {γ : Type} {k : Cursor → Parser α} (f : Located → Located → γ)
    (g : γ → Parser α)
    (hk : ∀ ctx c, k c ctx c = g (f (c.peekNth 0) (c.peekNth 1)) ctx c)
    (hg : ∀ x, Local R (g x))
    (hf : ∀ w r, Clean w → R w r →
      f (nthSolid 0 w) (nthSolid 1 w) = f (nthSolid 0 r) (nthSolid 1 r)) :
    Local R (get >>= k) := by
  intro ctx c v c' h0 h
  obtain ⟨t, c1, ht, h⟩ := Parser.bind_ok.mp h
  obtain ⟨rfl, rfl⟩ := Parser.get_ok.mp ht
  rw [hk] at h
  obtain ⟨h1, used, hused, hreplay⟩ := hg _ ctx c v c' h0 h
  refine ⟨h1, used, hused, fun r hr d hd => ?_⟩
  obtain ⟨d', hd', hat⟩ := hreplay r hr d hd
  refine ⟨d', Parser.bind_ok.mpr ⟨d, d, Parser.get_ok.mpr ⟨rfl, rfl⟩, ?_⟩, hat⟩
  have heq : f (d.peekNth 0) (d.peekNth 1) = f (c.peekNth 0) (c.peekNth 1) := by
    rw [hd.peekNth, hd.peekNth, peekNth_eq_rest, peekNth_eq_rest, hused]
    exact (hf _ _ (hused ▸ c.clean_rest) (Lookahead.append hr)).symm
  rw [hk, heq]
  exact hd'

/-- Two rests start with the same token, behind which they agree or something ends in both,
    or a clause ends in front of both. -/
theorem two_cases [Lookahead R] {w r : List Located} (hw : Clean w) (h : R w r) :
    (ClauseEnd w ∧ ClauseEnd r) ∨ (nthSolid 0 w = nthSolid 0 r ∧
      (nthSolid 1 w = nthSolid 1 r ∨
        (EndMark (nthSolid 1 w).token ∧ EndMark (nthSolid 1 r).token))) := by
  rcases (Lookahead.follow h).cases with h | ⟨t, w', r', rfl, rfl, htail⟩
  · exact .inl h
  · have ht : t.isWhitespace = false := by simpa using hw
    right
    simpa [nthSolid, ht] using htail.nthSolid_zero

end Local

/-- The token that is read is taken, and the end of the text makes the reader fail. -/
theorem Takes.next_bind [Lookahead R] {P : α → Prop} {k : Located → Parser α}
    (hk : ∀ t, Local R (k t)) (heof : Fails (k .eof)) : Takes P (Parser.next >>= k) := by
  intro ctx c v c' h0 h _
  obtain ⟨t, w, hat, h⟩ := Local.next_bind_run heof h0 h
  have hle := (hk t).length_le hat.next.2.overrun h
  rw [hat.next.2.rest] at hle
  rw [hat.rest, List.length_cons]
  exact Nat.lt_succ_of_le (Nat.le_trans hle (List.dropWhile_sublist _).length_le)

/-- Where the token is put back, the reader that goes on takes it again. -/
theorem Takes.next_bind_back {P : α → Prop} {k : Located → Parser α}
    (hk : ∀ t, Local.Resumes R k t) (heof : Fails (k .eof)) :
    Takes P (Parser.next >>= k) := by
  intro ctx c v c' h0 h _
  obtain ⟨t, w, hat, h⟩ := Local.next_bind_run heof h0 h
  rcases hk t with hl | ⟨q, hq, hql, hqc⟩
  · have hle := hl.length_le hat.next.2.overrun h
    rw [hat.next.2.rest] at hle
    rw [hat.rest, List.length_cons]
    exact Nat.lt_succ_of_le (Nat.le_trans hle (List.dropWhile_sublist _).length_le)
  · rw [hq] at h
    obtain ⟨u, c2, hback, h⟩ := Parser.bind_ok.mp h
    obtain rfl := Parser.back_ok.mp hback
    have hat2 := Local.next_back hat
    rw [hat.rest, ← hat2.rest]
    exact hqc ctx _ v c' hat2.overrun h trivial

namespace Offers

variable [Lookahead R] {P : α → Prop}

/-- Reading a token and going on behind it. -/
theorem next_bind {k : Located → Parser α} (hk : ∀ t, Local R (k t)) (heof : Fails (k .eof)) :
    Offers R P (Parser.next >>= k) := ⟨.next_bind hk heof, .next_bind hk heof⟩

theorem next_bind_back {k : Located → Parser α} (hk : ∀ t, Local.Resumes R k t)
    (heof : Fails (k .eof)) : Offers R P (Parser.next >>= k) :=
  ⟨.next_bind_back hk heof, .next_bind_back hk heof⟩

/-- The reader depends on a fact about the next token that the two rests share. -/
theorem peek_with {γ : Type} {k : Located → Parser α} (f : Located → γ) (g : γ → Parser α)
    (hk : ∀ ctx c, k c.peek ctx c = g (f c.peek) ctx c) (hg : ∀ t, Offers R P (g (f t)))
    (hf : ∀ w r, R w r → f (headOf w) = f (headOf r)) : Offers R P (Parser.peek >>= k) := by
  refine ⟨.peek_with f g hk (fun t => (hg t).isLocal) hf, fun ctx c v c' h0 h hv => ?_⟩
  obtain ⟨t, c1, ht, h⟩ := Parser.bind_ok.mp h
  obtain ⟨rfl, rfl⟩ := Parser.peek_ok.mp ht
  rw [hk] at h
  exact (hg c.peek).takes ctx c v c' h0 h hv

/-- The reader depends on a fact about two tokens that the two rests share. -/
theorem peek_two {γ : Type} {k : Cursor → Parser α} (f : Located → Located → γ)
    (g : γ → Parser α)
    (hk : ∀ ctx c, k c ctx c = g (f (c.peekNth 0) (c.peekNth 1)) ctx c)
    (hg : ∀ x, Offers R P (g x))
    (hf : ∀ w r, Clean w → R w r →
      f (nthSolid 0 w) (nthSolid 1 w) = f (nthSolid 0 r) (nthSolid 1 r)) :
    Offers R P (get >>= k) := by
  refine ⟨.peek_two f g hk (fun x => (hg x).isLocal) hf, fun ctx c v c' h0 h hv => ?_⟩
  obtain ⟨t, c1, ht, h⟩ := Parser.bind_ok.mp h
  obtain ⟨rfl, rfl⟩ := Parser.get_ok.mp ht
  rw [hk] at h
  exact (hg _).takes ctx c v c' h0 h hv

end Offers

/-! ## Several keywords in a row -/

/-- The words with these keywords at the start of what is left, and what stands behind. -/
def takeWords : List (Option Keyword) → List Located → Option (List Located × List Located)
  | [], w => some ([], w)
  | _ :: _, [] => none
  | k :: ks, t :: w =>
    if Parser.hasKeyword k t then
      (takeWords ks (w.dropWhile Located.isWhitespace)).map fun p => (t :: p.1, p.2)
    else none

/-- The words found are taken from the front. -/
theorem takeWords_split {ks : List (Option Keyword)} {w w' found : List Located}
    (hw : Clean w) (h : takeWords ks w = some (found, w')) :
    Clean w' ∧ ∃ used, w = used ++ w' ∧ (ks ≠ [] → used ≠ []) ∧
      ∀ r, Clean r → takeWords ks (used ++ r) = some (found, r) := by
  induction ks generalizing w found with
  | nil =>
      simp only [takeWords, Option.some.injEq, Prod.mk.injEq] at h
      obtain ⟨rfl, rfl⟩ := h
      exact ⟨hw, [], rfl, fun hne => absurd rfl hne, fun r _ => rfl⟩
  | cons k ks ih =>
      cases w with
      | nil => simp [takeWords] at h
      | cons t w =>
          by_cases hk : Parser.hasKeyword k t
          · simp only [takeWords, hk, if_true, Option.map_eq_some_iff] at h
            obtain ⟨⟨found', w''⟩, hrec, heq⟩ := h
            obtain ⟨rfl, rfl⟩ := Prod.mk.inj heq
            obtain ⟨hclean, used, hused, -, hreplay⟩ := ih (clean_dropWhile w) hrec
            -- the blanks behind the word are used along with it
            refine ⟨hclean, t :: w.takeWhile Located.isWhitespace ++ used, ?_, by simp,
              fun r hr => ?_⟩
            · show t :: w = t :: (w.takeWhile Located.isWhitespace ++ used ++ w'')
              rw [List.append_assoc, ← hused, List.takeWhile_append_dropWhile]
            · have hcl : Clean (used ++ r) := by
                by_cases hu : used = []
                · simpa [hu] using hr
                · exact Clean.append_of_ne_nil (hused ▸ clean_dropWhile w) hu
              rw [List.cons_append, List.cons_append, List.append_assoc]
              simp only [takeWords, hk, if_true]
              rw [dropWhile_append_clean (fun t ht => List.mem_takeWhile_imp ht) hcl,
                hreplay r hr]
              rfl
          · simp [takeWords, hk] at h

/-- Words that are not there are not there in front of another end either. -/
theorem takeWords_none {ks : List (Option Keyword)} {w r : List Located}
    (hw : Clean w) (h : Follow ClauseEnd w r) (hnone : takeWords ks w = none) :
    takeWords ks r = none := by
  induction ks generalizing w r with
  | nil => simp [takeWords] at hnone
  | cons k ks ih =>
      rcases h.cases with ⟨-, hr⟩ | ⟨t, w', r', rfl, rfl, htail⟩
      · cases r with
        | nil => rfl
        | cons t r =>
            have : Parser.hasKeyword k t = false := Parser.hasKeyword_mark hr.mark
            simp [takeWords, this]
      · by_cases hk : Parser.hasKeyword k t
        · simp only [takeWords, hk, if_true, Option.map_eq_none_iff] at hnone ⊢
          exact ih (clean_dropWhile w') htail.dropWhile hnone
        · simp [takeWords, hk]

namespace Parser

theorem hasKeyword_eof (k : Option Keyword) : hasKeyword k .eof = false := rfl

/-- Reading the spelling of words stops behind the last of them, or at the first that is
    missing. -/
theorem acceptWordsAsWritten_go_run (ks : List (Option Keyword)) {w : List Located} (ctx : Context)
    {c : Cursor} (hc : c.At w) :
    match takeWords ks w with
    | some (found, w') => ∃ c', acceptWordsAsWritten.go ks ctx c
        = .ok (some (found.map fun t => t.token.text)) c' ∧ c'.At w'
    | none => ∃ c', acceptWordsAsWritten.go ks ctx c = .ok none c' := by
  induction ks generalizing w c with
  | nil => exact ⟨c, rfl, hc⟩
  | cons k ks ih =>
      cases w with
      | nil =>
          refine ⟨c, bind_ok.mpr ⟨none, c, ?_, pure_ok.mpr ⟨rfl, rfl⟩⟩⟩
          rw [acceptWord?_run, hc.peek, if_neg]
          simp [headOf, hasKeyword_eof]
      | cons t w =>
          have hpeek : c.peek = t := hc.peek
          by_cases hk : hasKeyword k t
          · simp only [takeWords, hk, if_true]
            -- the first word is there, so the others are looked for behind it
            have hacc : acceptWord? k ctx c = .ok (some t) c.next.2 := by
              rw [acceptWord?_run, hpeek, if_pos hk]
            have := ih hc.next.2
            cases hrec : takeWords ks (w.dropWhile Located.isWhitespace) with
            | none =>
                rw [hrec] at this
                obtain ⟨c', hc'⟩ := this
                exact ⟨c', bind_ok.mpr ⟨some t, _, hacc,
                  bind_ok.mpr ⟨none, c', hc', pure_ok.mpr ⟨rfl, rfl⟩⟩⟩⟩
            | some p =>
                rw [hrec] at this
                obtain ⟨c', hc', hat⟩ := this
                exact ⟨c', bind_ok.mpr ⟨some t, _, hacc,
                  bind_ok.mpr ⟨_, c', hc', pure_ok.mpr ⟨rfl, rfl⟩⟩⟩, hat⟩
          · simp only [takeWords, hk]
            refine ⟨c, bind_ok.mpr ⟨none, c, ?_, pure_ok.mpr ⟨rfl, rfl⟩⟩⟩
            rw [acceptWord?_run, hpeek, if_neg hk]

/-- Whether words are there is read as their spelling is, which is then dropped. -/
theorem allM_acceptWord (ks : List (Option Keyword)) :
    (ks.map acceptWord).allM id = Option.isSome <$> acceptWordsAsWritten.go ks := by
  induction ks with
  | nil => rfl
  | cons k ks ih =>
      rw [List.map_cons, List.allM_cons, ih, acceptWordsAsWritten.go, id, acceptWord,
        bind_map_left, map_bind]
      refine bind_congr fun found => ?_
      cases found with
      | none => rfl
      | some found => simp

/-- Accepting words one after the other stops behind the last of them, or at the first that is
    missing. -/
theorem allM_run (ks : List (Option Keyword)) {w : List Located} (ctx : Context) {c : Cursor}
    (hc : c.At w) :
    match takeWords ks w with
    | some (_, w') => ∃ c', (ks.map acceptWord).allM id ctx c = .ok true c' ∧ c'.At w'
    | none => ∃ c', (ks.map acceptWord).allM id ctx c = .ok false c' := by
  have h := acceptWordsAsWritten_go_run ks ctx hc
  rw [allM_acceptWord]
  cases htake : takeWords ks w with
  | none =>
      rw [htake] at h
      obtain ⟨c', hc'⟩ := h
      exact ⟨c', map_ok.mpr ⟨none, hc', rfl⟩⟩
  | some p =>
      rw [htake] at h
      obtain ⟨c', hc', hat⟩ := h
      exact ⟨c', map_ok.mpr ⟨_, hc', rfl⟩, hat⟩

/-- Several keywords are taken together or not at all. -/
theorem acceptWords_run (ks : List (Option Keyword)) {w : List Located} (ctx : Context)
    {c : Cursor} (hc : c.At w) :
    match takeWords ks w with
    | some (_, w') => ∃ c', acceptWords ks ctx c = .ok true c' ∧ c'.At w'
    | none => acceptWords ks ctx c = .ok false c := by
  have h := allM_run ks ctx hc
  cases ht : takeWords ks w with
  | none =>
      rw [ht] at h
      obtain ⟨c', hc'⟩ := h
      refine bind_ok.mpr ⟨c, c, get_ok.mpr ⟨rfl, rfl⟩, bind_ok.mpr ⟨false, c', hc', ?_⟩⟩
      exact bind_ok.mpr ⟨(), c, set_ok.mpr rfl, pure_ok.mpr ⟨rfl, rfl⟩⟩
  | some p =>
      rw [ht] at h
      obtain ⟨c', hc', hat⟩ := h
      refine ⟨c', ?_, hat⟩
      exact bind_ok.mpr ⟨c, c, get_ok.mpr ⟨rfl, rfl⟩, bind_ok.mpr ⟨true, c', hc',
        pure_ok.mpr ⟨rfl, rfl⟩⟩⟩

/-- The spelling of several words is taken together or not at all. -/
theorem acceptWordsAsWritten_run (ks : List (Option Keyword)) {w : List Located} (ctx : Context)
    {c : Cursor} (hc : c.At w) :
    match takeWords ks w with
    | some (found, w') => ∃ c', acceptWordsAsWritten ks ctx c
        = .ok (some (" ".intercalate (found.map fun t => t.token.text))) c' ∧ c'.At w'
    | none => acceptWordsAsWritten ks ctx c = .ok none c := by
  have h := acceptWordsAsWritten_go_run ks ctx hc
  cases ht : takeWords ks w with
  | none =>
      rw [ht] at h
      obtain ⟨c', hc'⟩ := h
      refine bind_ok.mpr ⟨c, c, get_ok.mpr ⟨rfl, rfl⟩, bind_ok.mpr ⟨none, c', hc', ?_⟩⟩
      exact bind_ok.mpr ⟨(), c, set_ok.mpr rfl, pure_ok.mpr ⟨rfl, rfl⟩⟩
  | some p =>
      rw [ht] at h
      obtain ⟨c', hc', hat⟩ := h
      exact ⟨c', bind_ok.mpr ⟨c, c, get_ok.mpr ⟨rfl, rfl⟩, bind_ok.mpr ⟨_, c', hc',
        pure_ok.mpr ⟨rfl, rfl⟩⟩⟩, hat⟩

end Parser

/-! ### Their locality -/

/-- A reader that is decided by the words at the start of what is left: it takes them all, or
    nothing. -/
def TakesWords (p : Parser α) (ks : List (Option Keyword)) (full : List Located → α) (none' : α) :
    Prop :=
  ∀ ctx w c, c.At w →
    match takeWords ks w with
    | some (found, w') => ∃ c', p ctx c = .ok (full found) c' ∧ c'.At w'
    | none => p ctx c = .ok none' c

namespace TakesWords

variable {p : Parser α} {ks : List (Option Keyword)} {full : List Located → α} {none' : α}

/-- Words are not found in one rest and missing in the other, since no clause ends at a word. -/
theorem isLocal [Lookahead R] (h : TakesWords p ks full none') : Local R p := by
  intro ctx c v c' h0 hrun
  have hc := at_rest h0
  have hp := h ctx c.rest c hc
  cases ht : takeWords ks c.rest with
  | none =>
      rw [ht] at hp
      obtain ⟨rfl, rfl⟩ := EStateM.Result.ok.inj (hp.symm.trans hrun)
      refine ⟨h0, [], rfl, fun r hr d hd => ⟨d, ?_, hd⟩⟩
      have hd' := h ctx r d hd
      rwa [takeWords_none c.clean_rest (Lookahead.follow hr) ht] at hd'
  | some q =>
      obtain ⟨found, w'⟩ := q
      rw [ht] at hp
      obtain ⟨c1, hp, hat⟩ := hp
      obtain ⟨rfl, rfl⟩ := EStateM.Result.ok.inj (hp.symm.trans hrun)
      obtain ⟨hclean, used, hused, -, hreplay⟩ := takeWords_split c.clean_rest ht
      refine ⟨hat.overrun, used, by rw [hat.rest, hused], fun r hr d hd => ?_⟩
      have hd' := h ctx (used ++ r) d hd
      rwa [hreplay r (Lookahead.clean hr c1.clean_rest)] at hd'

/-- Where all the words were there, they were taken. -/
theorem takes (h : TakesWords p ks full none') (hks : ks ≠ []) : Takes (· ≠ none') p := by
  intro ctx c v c' h0 hrun hv
  have hp := h ctx c.rest c (at_rest h0)
  cases ht : takeWords ks c.rest with
  | none =>
      rw [ht] at hp
      obtain ⟨rfl, -⟩ := EStateM.Result.ok.inj (hp.symm.trans hrun)
      exact absurd rfl hv
  | some q =>
      obtain ⟨found, w'⟩ := q
      rw [ht] at hp
      obtain ⟨c1, hp, hat⟩ := hp
      obtain ⟨-, rfl⟩ := EStateM.Result.ok.inj (hp.symm.trans hrun)
      obtain ⟨-, used, hused, hne, -⟩ := takeWords_split c.clean_rest ht
      rw [hat.rest, hused, List.length_append]
      have := List.length_pos_of_ne_nil (hne hks)
      omega

end TakesWords

namespace Parser

theorem acceptKeywords_words (keywords : List Keyword) :
    TakesWords (acceptKeywords keywords) (keywords.map some) (fun _ => true) false := by
  intro ctx w c hc
  have := acceptWords_run (keywords.map some) ctx hc
  cases h : takeWords (keywords.map some) w <;> rw [h] at this <;> exact this

/-- The words are given as they are written, with one space between each two. -/
theorem acceptKeywordsAsWritten_words (keywords : List Keyword) :
    TakesWords (acceptKeywordsAsWritten keywords) (keywords.map some)
      (fun found => some (" ".intercalate (found.map fun t => t.token.text))) none := by
  intro ctx w c hc
  have := acceptWordsAsWritten_run (keywords.map some) ctx hc
  cases h : takeWords (keywords.map some) w <;> rw [h] at this <;> exact this

end Parser

theorem Local.acceptKeywords [Lookahead R] (keywords : List Keyword) :
    Local R (Parser.acceptKeywords keywords) := (Parser.acceptKeywords_words keywords).isLocal

theorem Takes.acceptKeywords {keywords : List Keyword} (h : keywords ≠ []) :
    Takes (· = true) (Parser.acceptKeywords keywords) :=
  fun ctx c v c' h0 hrun hv =>
    (Parser.acceptKeywords_words keywords).takes (by simpa using h) ctx c v c' h0 hrun
      (by simp [hv])

theorem Offers.acceptKeywords [Lookahead R] {keywords : List Keyword} (h : keywords ≠ []) :
    Offers R (· = true) (Parser.acceptKeywords keywords) :=
  ⟨Local.acceptKeywords keywords, Takes.acceptKeywords h⟩

theorem Local.acceptKeywordsAsWritten [Lookahead R] (keywords : List Keyword) :
    Local R (Parser.acceptKeywordsAsWritten keywords) :=
  (Parser.acceptKeywordsAsWritten_words keywords).isLocal

/-- Keywords that have to stand next. -/
theorem Local.expectKeywords [Lookahead R] (keywords : List Keyword) :
    Local R (Parser.expectKeywords keywords) := by
  rw [Parser.expectKeywords, Parser.expectWords]
  induction keywords with
  | nil => exact Local.pure _
  | cons k ks ih => exact ((Local.expectKeyword k).map _).bind fun _ => ih

end SchemaSql
