import SchemaSql.Proofs.Cursor

/-! # Lookahead — several tokens, or none of them

    A reader for several tokens takes them one by one and goes back to where it began as soon
    as one of them is not there.  So what it does is decided by the tokens that as many reads
    would give: if they are those that are looked for, the reader ends where the reads end, and
    if not it leaves no trace.

    * `Parser.AllOrNothing` says this of a reader;
    * `Cursor.DirectlyBehind` says where the reads end (`reads_directlyBehind`);
    * `Parser.Tests` is one step, `allM_all` and `allM_nothing` are all steps up to the first
      token that is not there, and `acceptAll_allOrNothing` adds the way back. -/

namespace SchemaSql

open Cursor

namespace Cursor

variable {c : Cursor}

/-- The place `d` is directly behind the last of the tokens `found`, which are the first ones
    behind `c` if blanks are left out. -/
def DirectlyBehind (c : Cursor) (found : List Located) (d : Cursor) : Prop :=
  ∃ used, c.unread = used ++ d.unread ∧ d.read = used.reverse ++ c.read ∧
    d.overrun = c.overrun ∧ used.filter (fun t => !t.isWhitespace) = found ∧
    used.getLast? = found.getLast?

/-- A place behind some tokens is behind one more, seen from the token in front of them. -/
theorem directlyBehind_next {t : Located} {w found : List Located} {d : Cursor}
    (h : c.rest = t :: w) (hd : DirectlyBehind c.next.2 found d) :
    DirectlyBehind c (t :: found) d := by
  obtain ⟨used, hunread, hread, hoverrun, hfound, hlast⟩ := hd
  have ht : t.isWhitespace = false := clean_cons.mp (h ▸ c.clean_rest)
  rw [next_of_rest_cons h] at hunread hread hoverrun
  refine ⟨c.unread.takeWhile Located.isWhitespace ++ t :: used, ?_, ?_, hoverrun, ?_, ?_⟩
  · rw [List.append_assoc, List.cons_append, ← hunread, ← h]
    exact c.unread_eq
  · rw [hread]
    simp
  · have hblank : (c.unread.takeWhile Located.isWhitespace).filter
        (fun t => !t.isWhitespace) = [] :=
      List.filter_eq_nil_iff.mpr fun t ht => by simp [List.mem_takeWhile_imp ht]
    rw [List.filter_append, hblank, List.nil_append, List.filter_cons_of_pos (by simp [ht]),
      hfound]
  · rw [List.getLast?_append, List.getLast?_cons, List.getLast?_cons, hlast]
    rfl

/-- Reads end directly behind the last token that they gave, as long as there was one to
    give. -/
theorem reads_directlyBehind (n : Nat) (h : ∀ t ∈ (c.reads n).1, t.token ≠ .eof) :
    DirectlyBehind c (c.reads n).1 (c.reads n).2 := by
  induction n generalizing c with
  | zero => exact ⟨[], rfl, rfl, rfl, rfl, rfl⟩
  | succ n ih =>
      have hhead : c.next.1.token ≠ .eof := h _ (.head _)
      cases hrest : c.rest with
      | nil => exact absurd (congrArg Located.token (next_of_rest_nil hrest).1) hhead
      | cons t w =>
          show DirectlyBehind c (c.next.1 :: (c.next.2.reads n).1) (c.next.2.reads n).2
          have ht : c.next.1 = t := by rw [next_of_rest_cons hrest]
          rw [ht]
          exact directlyBehind_next hrest (ih fun u hu => h u (.tail _ hu))

end Cursor

namespace Parser

variable {α β : Type}

/-- The reader is decided by what `n` reads give: if that is what it looks for, it ends where
    the reads end and gives `full`; otherwise it gives `none'` and ends where it began. -/
structure AllOrNothing (p : Parser α) (n : Nat) (wanted : List Located → Prop)
    (full : List Located → α) (none' : α) : Prop where
  all     : ∀ ctx c, wanted (c.reads n).1 → p ctx c = .ok (full (c.reads n).1) (c.reads n).2
  nothing : ∀ ctx c, ¬ wanted (c.reads n).1 → p ctx c = .ok none' c

/-- What is wanted may be said in another way. -/
theorem AllOrNothing.congr {p : Parser α} {n : Nat} {wanted wanted' : List Located → Prop}
    {full : List Located → α} {none' : α} (h : AllOrNothing p n wanted full none')
    (hiff : ∀ found, wanted' found ↔ wanted found) : AllOrNothing p n wanted' full none' where
  all ctx c hc := h.all ctx c ((hiff _).mp hc)
  nothing ctx c hc := h.nothing ctx c (hc ∘ (hiff _).mpr)

/-! ## Tests on single tokens -/

/-- The reader takes the next token if it passes the test. -/
def Tests (test : Located → Bool) (p : Parser Bool) : Prop :=
  ∀ ctx c, p ctx c = if test c.peek then .ok true c.next.2 else .ok false c

/-- Token by token the tests are passed. -/
def Passed (test : β → Located → Bool) (keys : List β) (found : List Located) : Prop :=
  List.Forall₂ (fun key t => test key t = true) keys found

variable {test : β → Located → Bool} {take : β → Parser Bool}

/-- The first token passes its test, and the tokens behind it pass the others. -/
theorem passed_cons {key : β} {keys : List β} {c : Cursor} :
    Passed test (key :: keys) (c.reads (key :: keys).length).1 ↔
      test key c.peek = true ∧ Passed test keys (c.next.2.reads keys.length).1 := by
  show List.Forall₂ _ (key :: keys) (c.next.1 :: (c.next.2.reads keys.length).1) ↔ _
  rw [List.forall₂_cons, next_fst]
  rfl

/-- Taking tokens one after the other takes the first, and the others only if it was there. -/
theorem allM_cons_run (key : β) (keys : List β) (ctx : Context) (c : Cursor) :
    ((key :: keys).map take).allM id ctx c =
      (take key >>= fun b => if b then (keys.map take).allM id else pure false) ctx c := by
  rw [List.map_cons, List.allM_cons]
  rfl

/-- If every test is passed, every token is taken. -/
theorem allM_all (htake : ∀ key, Tests (test key) (take key)) (keys : List β) (ctx : Context)
    {c : Cursor} (h : Passed test keys (c.reads keys.length).1) :
    (keys.map take).allM id ctx c = .ok true (c.reads keys.length).2 := by
  induction keys generalizing c with
  | nil => rfl
  | cons key keys ih =>
      obtain ⟨hkey, hkeys⟩ := passed_cons.mp h
      have hrun : take key ctx c = .ok true c.next.2 := by rw [htake, if_pos hkey]
      rw [allM_cons_run, bind_run hrun]
      exact ih hkeys

/-- At the first test that is not passed, the reader stops. -/
theorem allM_nothing (htake : ∀ key, Tests (test key) (take key)) (keys : List β)
    (ctx : Context) {c : Cursor} (h : ¬ Passed test keys (c.reads keys.length).1) :
    ∃ c', (keys.map take).allM id ctx c = .ok false c' := by
  induction keys generalizing c with
  | nil => exact absurd .nil h
  | cons key keys ih =>
      rw [allM_cons_run]
      by_cases hkey : test key c.peek
      · have hrun : take key ctx c = .ok true c.next.2 := by rw [htake, if_pos hkey]
        rw [bind_run hrun]
        exact ih fun hkeys => h (passed_cons.mpr ⟨hkey, hkeys⟩)
      · have hrun : take key ctx c = .ok false c := by rw [htake, if_neg hkey]
        rw [bind_run hrun]
        exact ⟨c, rfl⟩

/-- However far the steps got, the way back leads to where they began. -/
theorem acceptAll_allOrNothing (htake : ∀ key, Tests (test key) (take key)) (keys : List β) :
    AllOrNothing (acceptAll (keys.map take)) keys.length (Passed test keys) (fun _ => true)
      false where
  all ctx c h :=
    bind_ok.mpr ⟨c, c, get_ok.mpr ⟨rfl, rfl⟩, bind_ok.mpr ⟨true, _, allM_all htake keys ctx h,
      pure_ok.mpr ⟨rfl, rfl⟩⟩⟩
  nothing ctx c h := by
    obtain ⟨c', hc'⟩ := allM_nothing htake keys ctx h
    refine bind_ok.mpr ⟨c, c, get_ok.mpr ⟨rfl, rfl⟩, bind_ok.mpr ⟨false, c', hc', ?_⟩⟩
    exact bind_ok.mpr ⟨(), c, set_ok.mpr rfl, pure_ok.mpr ⟨rfl, rfl⟩⟩

/-! ## Words and their spelling -/

/-- The tokens are words with these keywords, in this order. -/
def Words (keywords : List (Option Keyword)) (found : List Located) : Prop :=
  List.Forall₂ (fun keyword t => ∃ w, t.token = .word w ∧ w.keyword = keyword) keywords found

theorem hasKeyword_iff {keyword : Option Keyword} {t : Located} :
    hasKeyword keyword t = true ↔ ∃ w, t.token = .word w ∧ w.keyword = keyword := by
  unfold hasKeyword
  cases t.token <;> simp

/-- Tokens are words with these keywords where each of them has its own. -/
theorem passed_words {keywords : List (Option Keyword)} {found : List Located} :
    Words keywords found ↔ Passed hasKeyword keywords found := by
  show List.Forall₂ _ _ _ ↔ List.Forall₂ _ _ _
  simp only [hasKeyword_iff]

theorem acceptWords_allOrNothing (keywords : List (Option Keyword)) :
    AllOrNothing (acceptWords keywords) keywords.length (Words keywords) (fun _ => true) false :=
  (acceptAll_allOrNothing acceptWord_run keywords).congr fun _ => passed_words

/-- Tokens are these where each of them is. -/
theorem passed_tokens {tokens : List Token} {found : List Located} :
    found.map Located.token = tokens ↔
      Passed (fun token t => decide (t.token = token)) tokens found := by
  show _ ↔ List.Forall₂ (fun token t => decide (Located.token t = token) = true) tokens found
  simp only [decide_eq_true_eq]
  have heq : List.Forall₂ Eq (found.map Located.token) tokens ↔
      found.map Located.token = tokens := by rw [List.forall₂_eq_eq_eq]
  rw [← List.forall₂_map_right_iff (R := fun token other => other = token), ← heq]
  exact ⟨.flip, .flip⟩

theorem accept_tests (token : Token) :
    Tests (fun t => decide (t.token = token)) (accept token) := by
  intro ctx c
  simp only [accept_run, decide_eq_true_eq]

theorem acceptTokens_allOrNothing (tokens : List Token) :
    AllOrNothing (acceptTokens tokens) tokens.length (fun found => found.map Located.token = tokens)
      (fun _ => true) false :=
  (acceptAll_allOrNothing accept_tests tokens).congr fun _ => passed_tokens

/-- What the words are spelled like, as far as they are there. -/
theorem asWritten_all (keywords : List (Option Keyword)) (ctx : Context) {c : Cursor}
    (h : Passed hasKeyword keywords (c.reads keywords.length).1) :
    acceptWordsAsWritten.go keywords ctx c =
      .ok (some ((c.reads keywords.length).1.map fun t => t.token.text))
        (c.reads keywords.length).2 := by
  induction keywords generalizing c with
  | nil => rfl
  | cons keyword keywords ih =>
      obtain ⟨hkey, hkeys⟩ := passed_cons.mp h
      have hrun : acceptWord? keyword ctx c = .ok (some c.next.1) c.next.2 := by
        rw [acceptWord?_run, if_pos hkey, next_fst]
      rw [acceptWordsAsWritten.go, bind_run hrun]
      exact bind_ok.mpr ⟨_, _, ih hkeys, pure_ok.mpr ⟨rfl, rfl⟩⟩

/-- If one of the words is missing, the loop gives nothing, wherever it stops. -/
theorem asWritten_nothing (keywords : List (Option Keyword)) (ctx : Context) {c : Cursor}
    (h : ¬ Passed hasKeyword keywords (c.reads keywords.length).1) :
    ∃ c', acceptWordsAsWritten.go keywords ctx c = .ok none c' := by
  induction keywords generalizing c with
  | nil => exact absurd .nil h
  | cons keyword keywords ih =>
      rw [acceptWordsAsWritten.go]
      by_cases hkey : hasKeyword keyword c.peek
      · have hrun : acceptWord? keyword ctx c = .ok (some c.peek) c.next.2 := by
          rw [acceptWord?_run, if_pos hkey]
        obtain ⟨c', hc'⟩ := ih fun hkeys => h (passed_cons.mpr ⟨hkey, hkeys⟩)
        rw [bind_run hrun]
        exact ⟨c', bind_ok.mpr ⟨none, c', hc', pure_ok.mpr ⟨rfl, rfl⟩⟩⟩
      · have hrun : acceptWord? keyword ctx c = .ok none c := by
          rw [acceptWord?_run, if_neg hkey]
        rw [bind_run hrun]
        exact ⟨c, rfl⟩

/-- Words that are kept as they are written are taken all or none of them is, and then the place is
    the one that was kept. -/
theorem acceptWordsAsWritten_allOrNothing (keywords : List (Option Keyword)) :
    AllOrNothing (acceptWordsAsWritten keywords) keywords.length (Words keywords)
      (fun found => some (" ".intercalate (found.map fun t => t.token.text))) none where
  all ctx c h :=
    bind_ok.mpr ⟨c, c, get_ok.mpr ⟨rfl, rfl⟩, bind_ok.mpr ⟨_, _,
      asWritten_all keywords ctx (passed_words.mp h), pure_ok.mpr ⟨rfl, rfl⟩⟩⟩
  nothing ctx c h := by
    obtain ⟨c', hc'⟩ := asWritten_nothing keywords ctx (mt passed_words.mpr h)
    refine bind_ok.mpr ⟨c, c, get_ok.mpr ⟨rfl, rfl⟩, bind_ok.mpr ⟨none, c', hc', ?_⟩⟩
    exact bind_ok.mpr ⟨(), c, set_ok.mpr rfl, pure_ok.mpr ⟨rfl, rfl⟩⟩

/-- Looking for words finds what taking them would take, and takes nothing. -/
theorem peekWords_run (keywords : List (Option Keyword)) (ctx : Context) (c : Cursor) :
    ∃ found c', acceptWords keywords ctx c = .ok found c' ∧
      peekWords keywords ctx c = .ok found c := by
  have hback : ∀ {found c'}, acceptWords keywords ctx c = .ok found c' →
      peekWords keywords ctx c = .ok found c := by
    intro found c' h
    refine bind_ok.mpr ⟨c, c, get_ok.mpr ⟨rfl, rfl⟩, bind_ok.mpr ⟨found, c', h, ?_⟩⟩
    exact bind_ok.mpr ⟨(), c, set_ok.mpr rfl, pure_ok.mpr ⟨rfl, rfl⟩⟩
  by_cases h : Words keywords (c.reads keywords.length).1
  · have hrun := (acceptWords_allOrNothing keywords).all ctx c h
    exact ⟨_, _, hrun, hback hrun⟩
  · have hrun := (acceptWords_allOrNothing keywords).nothing ctx c h
    exact ⟨_, _, hrun, hback hrun⟩

/-! ## Main result -/

/-- Whatever is looked for, wherever the reader stands: several words, several tokens, and
    several words with their spelling are taken together or not at all, looking for words says
    what taking them would and takes nothing, and the place behind tokens that were taken is
    directly behind the last of them. -/
theorem all_or_nothing :
    (∀ keywords, AllOrNothing (acceptWords keywords) keywords.length (Words keywords)
      (fun _ => true) false) ∧
    (∀ tokens, AllOrNothing (acceptTokens tokens) tokens.length
      (fun found => found.map Located.token = tokens) (fun _ => true) false) ∧
    (∀ keywords, AllOrNothing (acceptWordsAsWritten keywords) keywords.length (Words keywords)
      (fun found => some (" ".intercalate (found.map fun t => t.token.text))) none) ∧
    (∀ keywords ctx c, ∃ found c', acceptWords keywords ctx c = .ok found c' ∧
      peekWords keywords ctx c = .ok found c) ∧
    ∀ (c : Cursor) n, (∀ t ∈ (c.reads n).1, t.token ≠ .eof) →
      DirectlyBehind c (c.reads n).1 (c.reads n).2 :=
  ⟨acceptWords_allOrNothing, acceptTokens_allOrNothing, acceptWordsAsWritten_allOrNothing,
    peekWords_run, fun _ => reads_directlyBehind⟩

/-- Two words with a blank between them are taken, and none of them if the second one is
    another. -/
theorem all_or_nothing_set_data :
    let ctx : Context := { dialect := .generic }
    let set : Located := ⟨.word { value := "set", keyword := some .set }, ⟨1, 1⟩⟩
    let blank : Located := ⟨.whitespace .space, ⟨1, 4⟩⟩
    let data : Located := ⟨.word { value := "data", keyword := some .data }, ⟨1, 5⟩⟩
    let c := ofTokens [set, blank, data, blank, ⟨.comma, ⟨1, 10⟩⟩]
    acceptWords [some .set, some .data] ctx c = .ok true (c.reads 2).2 ∧
      acceptWords [some .set, some .default] ctx c = .ok false c ∧
      DirectlyBehind c [set, data] (c.reads 2).2 := by
  intro ctx set blank data c
  have hread : (c.reads 2).1 = [set, data] := rfl
  obtain ⟨hwords, -, -, -, hplace⟩ := all_or_nothing
  refine ⟨(hwords _).all ctx c ?_, (hwords _).nothing ctx c ?_, hplace c 2 ?_⟩
  · show Words _ (c.reads 2).1
    rw [hread]
    exact .cons ⟨_, rfl, rfl⟩ (.cons ⟨_, rfl, rfl⟩ .nil)
  · show ¬ Words _ (c.reads 2).1
    rw [hread]
    rintro (_ | ⟨-, _ | ⟨⟨w, hw, hkeyword⟩, -⟩⟩)
    obtain rfl := Token.word.inj hw
    exact absurd hkeyword (by decide)
  · rw [hread]
    decide

end Parser

end SchemaSql
