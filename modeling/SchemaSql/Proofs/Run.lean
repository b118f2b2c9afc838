import SchemaSql.Proofs.Counter
import SchemaSql.Statement.Parser
import Mathlib.Data.List.TakeWhile
import Mathlib.Tactic

/-! # Successful runs — what a reader did when it gave a value

    A reader either gives a value and a later cursor or an error and a cursor.  No reader of
    this library catches an error, so everything about a whole run that gave a value can be
    said about runs of its steps that gave one.  This file takes a successful run of a
    composite reader apart into such steps, and says what is left to read at a cursor:

    * `bind_ok`, `map_ok`, `pure_ok` and their companions take a run apart;
    * `Cursor.rest` is what is left, without the blanks in front; every lookahead is a
      function of it (`peekNth_eq_rest`);
    * `Iterates` is a loop without its bound, and `iterate_ok` says that the bound of
      `Parser.iterate` is never reached when every step takes a token;
    * `Gathers` is a loop that gathers values, in the order in which they are given. -/

namespace SchemaSql

namespace Parser

variable {α β γ : Type} {ctx : Context} {c c' : Cursor}

/-! ## Runs from a place -/

/-- The run of a step told by the run from a place: the place is where that one ends, and the
    counter is as it was. -/
theorem step_eq (p : Parser α) (settings : Settings) (state : State) :
    p.step settings state =
      match p { settings with depth := state.remaining } state.cursor with
      | .ok a c => .ok a { state with cursor := c }
      | .error e c => .error e { state with cursor := c } := by
  have hrestores := p.restores settings state
  rw [run]
  cases hrun : p.step settings state with
  | ok a state' | error e state' =>
      rw [hrun] at hrestores
      have hlevels : state'.remaining = state.remaining := hrestores
      rw [← hlevels]
      rfl

/-- Readers that do the same from every place are the same: the counter cannot tell them
    apart. -/
theorem ext_run {p q : Parser α} (h : ∀ ctx c, p ctx c = q ctx c) : p = q := by
  have hstep : p.step = q.step := by
    funext settings state
    rw [step_eq p, step_eq q, h]
  cases p
  cases q
  congr

/-- What is read behind a reader starts where that one ended, and has as many levels left. -/
theorem bind_apply (p : Parser α) (f : α → Parser β) (ctx : Context) (c : Cursor) :
    (p >>= f) ctx c =
      match p ctx c with
      | .ok a c1 => f a ctx c1
      | .error e c1 => .error e c1 := by
  show Step.place ((p.step >>= fun a => (f a).step) ctx.toSettings ⟨c, ctx.depth⟩) = _
  simp only [Bind.bind, ReaderT.bind, EStateM.bind]
  rw [step_eq]
  cases p ctx c <;> rfl

/-- A function that is applied to the value changes neither the place nor an error. -/
theorem map_apply (g : α → β) (p : Parser α) (ctx : Context) (c : Cursor) :
    (g <$> p) ctx c =
      match p ctx c with
      | .ok a c1 => .ok (g a) c1
      | .error e c1 => .error e c1 := bind_apply p _ ctx c

instance : LawfulMonad Parser :=
  LawfulMonad.mk' Parser
    (fun p => ext_run fun ctx c => by rw [map_apply]; cases p ctx c <;> rfl)
    (fun a f => ext_run fun ctx c => by rw [bind_apply]; rfl)
    (fun p f g => ext_run fun ctx c => by
      simp only [bind_apply]
      cases p ctx c <;> rfl)

/-- Below the last level nothing is read; otherwise a reader one level down reads as it does
    with one level less. -/
theorem descend_apply (inner : Parser α) (ctx : Context) (c : Cursor) :
    descend inner ctx c =
      match ctx.depth with
      | 0 => .error .recursionLimitExceeded c
      | depth + 1 => inner { ctx with depth } c := by
  obtain ⟨settings, _ | depth⟩ := ctx
  · rfl
  · show Step.place (Step.guarded inner.step settings ⟨c, depth + 1⟩) = _
    rw [Step.guarded_succ, step_eq]
    show _ = inner { toSettings := settings, depth } c
    cases inner { toSettings := settings, depth } c <;> rfl

/-- One level below a context with a level to spare. -/
theorem descend_succ (inner : Parser α) (depth : Nat) (ctx : Context) (c : Cursor) :
    descend inner { ctx with depth := depth + 1 } c = inner { ctx with depth } c :=
  descend_apply inner _ c

/-! ## Taking a run apart -/

/-- Two readers succeed one behind the other where the second goes on from the place at which the
    first has ended. -/
theorem bind_ok {p : Parser α} {f : α → Parser β} {v : β} :
    (p >>= f) ctx c = .ok v c' ↔
      ∃ a c1, p ctx c = .ok a c1 ∧ f a ctx c1 = .ok v c' := by
  rw [bind_apply]
  cases p ctx c <;> simp

/-- A run that goes on behind a reader that gave a value. -/
theorem bind_run {p : Parser α} {a : α} {c1 : Cursor} (h : p ctx c = .ok a c1)
    (f : α → Parser β) : (p >>= f) ctx c = f a ctx c1 := by
  rw [bind_apply, h]

theorem map_ok {p : Parser α} {g : α → β} {v : β} :
    (g <$> p) ctx c = .ok v c' ↔ ∃ a, p ctx c = .ok a c' ∧ g a = v := by
  rw [map_apply]
  cases p ctx c <;> simp [and_comm]

theorem pure_ok {a v : α} : (pure a : Parser α) ctx c = .ok v c' ↔ a = v ∧ c = c' := by
  show EStateM.Result.ok a c = _ ↔ _
  simp

/-- A value is given without any error. -/
theorem pure_ne_error {a : α} {e : ParseError} : (pure a : Parser α) ctx c ≠ .error e c' := by
  show EStateM.Result.ok a c ≠ _
  simp

theorem get_ok {v : Cursor} : (get : Parser Cursor) ctx c = .ok v c' ↔ c = v ∧ c = c' := by
  show EStateM.Result.ok c c = _ ↔ _
  simp

theorem set_ok {s : Cursor} {v : PUnit} : (set s : Parser PUnit) ctx c = .ok v c' ↔ s = c' := by
  show EStateM.Result.ok PUnit.unit s = _ ↔ _
  simp

theorem modify_ok {g : Cursor → Cursor} {v : PUnit} :
    (modify g : Parser PUnit) ctx c = .ok v c' ↔ g c = c' := by
  show EStateM.Result.ok PUnit.unit (g c) = _ ↔ _
  simp

theorem read_ok {v : Settings} :
    (read : Parser Settings) ctx c = .ok v c' ↔ ctx.toSettings = v ∧ c = c' := by
  show EStateM.Result.ok ctx.toSettings c = _ ↔ _
  simp

theorem remaining_ok {v : Nat} : remaining ctx c = .ok v c' ↔ ctx.depth = v ∧ c = c' := by
  show EStateM.Result.ok ctx.depth c = _ ↔ _
  simp

theorem throw_ne_ok {e : ParseError} {v : α} : (throw e : Parser α) ctx c ≠ .ok v c' := by
  show EStateM.Result.error e c ≠ _
  simp

/-- Nothing is read by the error about what was expected. -/
theorem expected_ne_ok {what : String} {found : Located} {v : α} :
    (expected what found : Parser α) ctx c ≠ .ok v c' := throw_ne_ok

theorem peek_ok {v : Located} : peek ctx c = .ok v c' ↔ c.peek = v ∧ c = c' := by
  show EStateM.Result.ok c.peek c = _ ↔ _
  simp

theorem next_ok {v : Located} : next ctx c = .ok v c' ↔ c.next = (v, c') := by
  show EStateM.Result.ok c.next.1 c.next.2 = _ ↔ _
  simp [Prod.ext_iff]

theorem back_ok {v : Unit} : back ctx c = .ok v c' ↔ c.back = c' := modify_ok

/-- A choice that does not depend on the tokens reads what the chosen side reads. -/
theorem ite_ok {b : Prop} [Decidable b] {p q : Parser α} {v : α} :
    (if b then p else q) ctx c = .ok v c' ↔
      (b ∧ p ctx c = .ok v c') ∨ (¬ b ∧ q ctx c = .ok v c') := by
  by_cases h : b <;> simp [h]

/-- What is read one level down is read with a level less, and there was one to take. -/
theorem descend_ok {inner : Parser α} {v : α} :
    descend inner ctx c = .ok v c' ↔
      ∃ depth, ctx.depth = depth + 1 ∧ inner { ctx with depth } c = .ok v c' := by
  rw [descend_apply]
  cases ctx.depth <;> simp

end Parser

/-! ## What is left to read -/

namespace Cursor

/-- What is left to read, without the blanks in front. -/
def rest (c : Cursor) : List Located := c.unread.dropWhile Located.isWhitespace

/-- A list of tokens that does not start with a blank. -/
def Clean (w : List Located) : Prop := ∀ t ∈ w.head?, t.isWhitespace = false

/-- The cursor has not run over the end, and this is left to read. -/
structure At (c : Cursor) (w : List Located) : Prop where
  overrun : c.overrun = 0
  rest    : c.rest = w

/-- Behind its blanks a text starts with none. -/
theorem clean_dropWhile (w : List Located) : Clean (w.dropWhile Located.isWhitespace) := by
  intro t ht
  induction w with
  | nil => simp at ht
  | cons a w ih =>
      by_cases ha : a.isWhitespace
      · rw [List.dropWhile_cons_of_pos ha] at ht
        exact ih ht
      · rw [List.dropWhile_cons_of_neg ha] at ht
        simp at ht
        subst ht
        simpa using ha

/-- What is left behind the blanks starts with a token that counts. -/
theorem clean_rest (c : Cursor) : Clean c.rest := clean_dropWhile c.unread

/-- Where no blank comes first there is none to drop. -/
theorem dropWhile_of_clean {w : List Located} (h : Clean w) :
    w.dropWhile Located.isWhitespace = w := by
  cases w with
  | nil => rfl
  | cons a w =>
      have ha : a.isWhitespace = false := h a (by simp)
      rw [List.dropWhile_cons_of_neg (by simp [ha])]

@[simp] theorem clean_nil : Clean [] := by simp [Clean]

@[simp] theorem clean_cons {t : Located} {w : List Located} :
    Clean (t :: w) ↔ t.isWhitespace = false := by simp [Clean]

/-- Only the first token decides whether a text starts with a blank, so what stands behind some
    tokens can be exchanged. -/
theorem Clean.append_of_ne_nil {u w w' : List Located} (h : Clean (u ++ w)) (hu : u ≠ []) :
    Clean (u ++ w') := by
  cases u with
  | nil => exact absurd rfl hu
  | cons t u => simpa using h

/-- Blanks in front of a clean list are dropped, and nothing else. -/
theorem dropWhile_append_clean {b w : List Located} (hb : ∀ t ∈ b, t.isWhitespace = true)
    (hw : Clean w) : (b ++ w).dropWhile Located.isWhitespace = w := by
  rw [List.dropWhile_append_of_pos (fun t ht => hb t ht), dropWhile_of_clean hw]

theorem rest_length_le (c : Cursor) : c.rest.length ≤ c.unread.length :=
  (List.dropWhile_sublist _).length_le

/-- The tokens ahead are some blanks and the rest behind them. -/
theorem unread_eq (c : Cursor) :
    c.unread = c.unread.takeWhile Located.isWhitespace ++ c.rest :=
  (List.takeWhile_append_dropWhile).symm

/-! ### Lookahead -/

/-- Blanks are not counted when tokens ahead are, so it does not matter whether those in front are
    there. -/
theorem nthSolid_dropWhile (n : Nat) (w : List Located) :
    nthSolid n (w.dropWhile Located.isWhitespace) = nthSolid n w := by
  induction w with
  | nil => rfl
  | cons t w ih =>
      by_cases h : t.isWhitespace
      · rw [List.dropWhile_cons_of_pos h, ih]
        cases n <;> simp [nthSolid, h]
      · rw [List.dropWhile_cons_of_neg h]

/-- Looking ahead passes the blanks that come first. -/
theorem peekNth_eq_rest (c : Cursor) (n : Nat) : c.peekNth n = nthSolid n c.rest :=
  (nthSolid_dropWhile n c.unread).symm

/-- One round of the loop that lists tokens finds the token that is seen first. -/
theorem takeSolid_fst (w : List Located) : (takeSolid w).1 = (nthSolid 0 w).token := by
  induction w with
  | nil => rfl
  | cons t w ih =>
      by_cases ht : t.isWhitespace
      · simpa [takeSolid, nthSolid, ht] using ih
      · simp [takeSolid, nthSolid, ht]

/-- It leaves the index behind that token, so the later ones are seen one place earlier. -/
theorem nthSolid_takeSolid (n : Nat) (w : List Located) :
    nthSolid n (takeSolid w).2 = nthSolid (n + 1) w := by
  induction w with
  | nil => cases n <;> rfl
  | cons t w ih =>
      by_cases ht : t.isWhitespace
      · simpa [takeSolid, nthSolid, ht] using ih
      · simp [takeSolid, nthSolid, ht]

/-- The loop with one running index gives what a search from the start gives for each place. -/
theorem solidPrefix_eq (n : Nat) (w : List Located) :
    solidPrefix n w = (List.range n).map fun k => (nthSolid k w).token := by
  induction n generalizing w with
  | zero => rfl
  | succ n ih =>
      rw [solidPrefix, ih, takeSolid_fst, List.range_succ_eq_map, List.map_cons, List.map_map]
      congr 1
      exact List.map_congr_left fun k _ => congrArg Located.token (nthSolid_takeSolid k w)

/-- The loop that looks at several tokens in one pass finds what looking at each of them finds. -/
theorem peekTokens_eq (c : Cursor) (n : Nat) :
    c.peekTokens n = (List.range n).map fun k => (c.peekNth k).token := solidPrefix_eq n c.unread

theorem peekTokens_two (c : Cursor) :
    c.peekTokens 2 = [(c.peekNth 0).token, (c.peekNth 1).token] := peekTokens_eq c 2

/-- The first token of a clean list, or the end. -/
def headOf (w : List Located) : Located := w.head?.getD .eof

theorem nthSolid_zero_of_clean {w : List Located} (h : Clean w) : nthSolid 0 w = headOf w := by
  cases w with
  | nil => rfl
  | cons t w => simp at h; simp [nthSolid, headOf, h]

/-- What is looked at is the first token of the rest. -/
theorem peek_eq (c : Cursor) : c.peek = headOf c.rest := by
  rw [peek, peekNth_eq_rest, nthSolid_zero_of_clean c.clean_rest]

theorem At.peek {c : Cursor} {w : List Located} (h : c.At w) : c.peek = headOf w := by
  rw [peek_eq, h.rest]

/-- What is found ahead depends on the rest alone, not on how the place was reached. -/
theorem At.peekNth {c : Cursor} {w : List Located} (h : c.At w) (n : Nat) :
    c.peekNth n = nthSolid n w := by rw [peekNth_eq_rest, h.rest]

theorem At.clean {c : Cursor} {w : List Located} (h : c.At w) : Clean w := h.rest ▸ c.clean_rest

/-- A place between tokens is where its rest is. -/
theorem at_rest {c : Cursor} (h : c.overrun = 0) : c.At c.rest := ⟨h, rfl⟩

/-! ### Reading one token, and putting it back -/

/-- The loop that takes a token drops the blanks and takes the first token behind them; without one,
    the end is read once more. -/
theorem nextFrom_eq (n : Nat) (read unread : List Located) :
    nextFrom n read unread =
      match unread.dropWhile Located.isWhitespace with
      | [] => (.eof, ⟨unread.reverse ++ read, [], n + 1⟩)
      | t :: w =>
        (t, ⟨t :: ((unread.takeWhile Located.isWhitespace).reverse ++ read), w, n⟩) := by
  induction unread generalizing read with
  | nil => rfl
  | cons t unread ih =>
      by_cases h : t.isWhitespace
      · rw [List.dropWhile_cons_of_pos h, List.takeWhile_cons_of_pos h]
        simp only [nextFrom, h, if_true, ih, List.reverse_cons, List.append_assoc,
          List.singleton_append]
      · rw [List.dropWhile_cons_of_neg h, List.takeWhile_cons_of_neg h]
        simp [nextFrom, h]

/-- At the end of the text, reading gives the end. -/
theorem next_of_rest_nil {c : Cursor} (h : c.rest = []) :
    c.next.1 = .eof ∧ c.next.2.rest = [] := by
  rw [next, nextFrom_eq]
  rw [rest] at h
  simp [h, rest]

/-- Elsewhere it gives the first token that is left, and leaves what stands behind it. -/
theorem next_of_rest_cons {c : Cursor} {t : Located} {w : List Located} (h : c.rest = t :: w) :
    c.next = (t, ⟨t :: ((c.unread.takeWhile Located.isWhitespace).reverse ++ c.read), w,
      c.overrun⟩) := by
  rw [next, nextFrom_eq]
  rw [rest] at h
  rw [h]

/-- A token that was just read is put back as it was. -/
theorem back_cons {t : Located} {read unread : List Located} (h : t.isWhitespace = false) :
    (⟨t :: read, unread, 0⟩ : Cursor).back = ⟨read, t :: unread, 0⟩ := by
  simp [back, backFrom, h]

/-- Stepping back from a place between tokens goes to the front of the last token that is no
    blank. -/
theorem backFrom_eq (read unread : List Located) :
    (backFrom read unread).tokens = read.reverse ++ unread ∧
      (backFrom read unread).read = (read.dropWhile Located.isWhitespace).tail ∧
      (backFrom read unread).overrun = 0 := by
  induction read generalizing unread with
  | nil => exact ⟨rfl, rfl, rfl⟩
  | cons t read ih =>
      by_cases ht : t.isWhitespace
      · obtain ⟨htokens, hread, hoverrun⟩ := ih (t :: unread)
        rw [backFrom, if_pos ht, List.dropWhile_cons_of_pos ht]
        exact ⟨by rw [htokens]; simp, hread, hoverrun⟩
      · rw [backFrom, if_neg ht, List.dropWhile_cons_of_neg ht]
        exact ⟨by simp [tokens], rfl, rfl⟩

theorem back_of_overrun_zero {c : Cursor} (h : c.overrun = 0) :
    c.back = backFrom c.read c.unread := by rw [back, h]

/-- Behind the end, putting back takes back one reading of the end and no token. -/
theorem back_of_overrun_succ {c : Cursor} {n : Nat} (h : c.overrun = n + 1) :
    c.back = { c with overrun := n } := by rw [back, h]

/-- Stepping back changes nothing about the tokens there are. -/
theorem tokens_back (c : Cursor) : c.back.tokens = c.tokens := by
  cases hover : c.overrun with
  | zero =>
      rw [back_of_overrun_zero hover]
      exact (backFrom_eq c.read c.unread).1
  | succ n => rw [back_of_overrun_succ hover]; rfl

end Cursor

/-! ## Loops -/

namespace Parser

variable {β : Type} {ctx : Context}

/-- A loop that applies `step` from one state and cursor on until it gives nothing. -/
inductive Iterates (step : β → Parser (Option β)) (ctx : Context) :
    β → Cursor → β → Cursor → Prop where
  | done {s c c'} (h : step s ctx c = .ok none c') : Iterates step ctx s c s c'
  | more {s s1 s' c c1 c'} (h : step s ctx c = .ok (some s1) c1)
      (rest : Iterates step ctx s1 c1 s' c') : Iterates step ctx s c s' c'

/-- Every step of a loop that gives something takes a token. -/
def Shortens (step : β → Parser (Option β)) : Prop :=
  ∀ ctx s c s' c', c.overrun = 0 → step s ctx c = .ok (some s') c' →
    c'.overrun = 0 ∧ c'.rest.length < c.rest.length

/-- With more rounds than tokens the bound of a loop is never met: it gives what some chain of steps
    gives, and nothing else. -/
theorem iterateUpTo_ok {step : β → Parser (Option β)} (hstep : Shortens step) :
    ∀ (n : Nat) (s : β) (c : Cursor) (s' : β) (c' : Cursor), c.overrun = 0 →
      c.rest.length < n →
      (iterateUpTo step n s ctx c = .ok s' c' ↔ Iterates step ctx s c s' c') := by
  intro n
  induction n with
  | zero => intro s c s' c' _ hlt; omega
  | succ n ih =>
      intro s c s' c' h0 hlt
      rw [iterateUpTo, bind_ok]
      constructor
      · rintro ⟨o, c1, h, hrest⟩
        cases o with
        | none =>
            obtain ⟨rfl, rfl⟩ := pure_ok.mp hrest
            exact .done h
        | some s1 =>
            -- a step that goes on takes a token, so the bound lasts for what is left
            obtain ⟨h1, hlt1⟩ := hstep ctx s c s1 c1 h0 h
            exact .more h ((ih s1 c1 s' c' h1 (by omega)).mp hrest)
      · intro h
        cases h with
        | done h => exact ⟨none, c', h, pure_ok.mpr ⟨rfl, rfl⟩⟩
        | @more _ s1 _ _ c1 _ h hrest =>
            obtain ⟨h1, hlt1⟩ := hstep ctx s c s1 c1 h0 h
            exact ⟨some s1, c1, h, (ih s1 c1 s' c' h1 (by omega)).mpr hrest⟩

/-- The bound of a loop whose steps take tokens is never reached. -/
theorem iterate_ok {step : β → Parser (Option β)} (hstep : Shortens step) {s s' : β}
    {c c' : Cursor} (h0 : c.overrun = 0) :
    iterate step s ctx c = .ok s' c' ↔ Iterates step ctx s c s' c' := by
  rw [iterate, bind_ok]
  constructor
  · rintro ⟨cur, c1, hget, h⟩
    obtain ⟨rfl, rfl⟩ := get_ok.mp hget
    exact (iterateUpTo_ok hstep _ s c s' c' h0
      (Nat.lt_succ_of_le c.rest_length_le)).mp h
  · intro h
    exact ⟨c, c, get_ok.mpr ⟨rfl, rfl⟩, (iterateUpTo_ok hstep _ s c s' c' h0
      (Nat.lt_succ_of_le c.rest_length_le)).mpr h⟩

/-- A loop is the one that is bounded by the tokens that are left. -/
theorem iterate_apply (step : β → Parser (Option β)) (s : β) (ctx : Context) (c : Cursor) :
    iterate step s ctx c = iterateUpTo step (c.unread.length + 1) s ctx c :=
  bind_run (get_ok.mpr ⟨rfl, rfl⟩) _

/-- A step that gives something is the first of the loop. -/
theorem iterates_more_iff {step : β → Parser (Option β)} {s s1 s' : β} {c c1 c' : Cursor}
    (h : step s ctx c = .ok (some s1) c1) :
    Iterates step ctx s c s' c' ↔ Iterates step ctx s1 c1 s' c' := by
  refine ⟨fun hloop => ?_, .more h⟩
  cases hloop with
  | done hdone => exact nomatch h.symm.trans hdone
  | more hmore hrest =>
      obtain ⟨⟨⟩, rfl⟩ := EStateM.Result.ok.inj (h.symm.trans hmore)
      exact hrest

/-! ### Loops that gather values -/

/-- Values that `item` gives one after the other, until it gives none. -/
inductive Gathers {α : Type} (item : Parser (Option α)) (ctx : Context) :
    Cursor → List α → Cursor → Prop where
  | nil {c c'} (h : item ctx c = .ok none c') : Gathers item ctx c [] c'
  | cons {a items c c1 c'} (h : item ctx c = .ok (some a) c1)
      (rest : Gathers item ctx c1 items c') : Gathers item ctx c (a :: items) c'

/-- Values are gathered in front of those that were, the last first. -/
theorem iterates_collect {α : Type} {item : Parser (Option α)} {items out : List α}
    {c c' : Cursor} :
    Iterates (fun items => (·.map (· :: items)) <$> item) ctx items c out c' ↔
      ∃ more, Gathers item ctx c more c' ∧ out = more.reverse ++ items := by
  constructor
  · intro h
    induction h with
    | done h =>
        obtain ⟨o, ho, heq⟩ := map_ok.mp h
        obtain rfl : o = none := by simpa using heq
        exact ⟨[], .nil ho, rfl⟩
    | more h _ ih =>
        obtain ⟨o, ho, heq⟩ := map_ok.mp h
        obtain ⟨a, rfl, rfl⟩ := Option.map_eq_some_iff.mp heq
        obtain ⟨more, hmore, rfl⟩ := ih
        exact ⟨a :: more, .cons ho hmore, by simp⟩
  · rintro ⟨more, h, rfl⟩
    induction h generalizing items with
    | nil h => exact .done (map_ok.mpr ⟨none, h, rfl⟩)
    | cons h _ ih =>
        rw [List.reverse_cons, List.append_assoc]
        exact .more (map_ok.mpr ⟨some _, h, rfl⟩) ih

end Parser

end SchemaSql
