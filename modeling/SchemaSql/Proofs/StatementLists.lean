import SchemaSql.Proofs.Locality.Statements

/-! # Lists of statements — semicolons separate them and nothing else does

    A text is read as a list of statements exactly when it is laid out as one: gaps of blanks
    and semicolons, and between them the tokens of one statement each, every statement ending
    at a semicolon or at the end of the text.

    * `Laid` says that tokens are laid out as a list of statements;
    * `runTokens_iff` says that this is what it takes to be read as that list: one direction
      takes the loop of the reader apart, the other replays each statement by its locality;
    * putting two layouts together, with a semicolon between them, and taking one apart are
      then inductions over the layout (`Laid.append`, `Laid.segments`). -/

namespace SchemaSql

open Cursor SchemaSql.Parser

namespace Statement

/-! ## Gaps -/

/-- A blank, a comment or a semicolon. -/
def isGap (t : Located) : Bool := t.isWhitespace || t.token = .semicolon

/-- No end mark stands among the tokens. -/
def NoEof (w : List Located) : Prop := ∀ t ∈ w, t.token ≠ .eof

instance (w : List Located) : Decidable (NoEof w) :=
  inferInstanceAs (Decidable (∀ t ∈ w, t.token ≠ .eof))

/-- Blanks are part of a gap, so it does not matter whether they were dropped. -/
theorem dropGap_blanks (w : List Located) :
    (w.dropWhile Located.isWhitespace).dropWhile isGap = w.dropWhile isGap := by
  induction w with
  | nil => rfl
  | cons t w ih =>
      by_cases ht : t.isWhitespace
      · rw [List.dropWhile_cons_of_pos ht, ih, List.dropWhile_cons_of_pos (by simp [isGap, ht])]
      · rw [List.dropWhile_cons_of_neg ht]

/-- A gap that starts with no blank starts with a semicolon, or is empty. -/
theorem isGap_head {w : List Located} (hw : Clean w) (h : ∀ t ∈ w, isGap t = true) :
    StatementEnd w := by
  cases w with
  | nil => exact .inl rfl
  | cons t w =>
      have ht : t.isWhitespace = false := by simpa using hw
      have := h t (by simp)
      simp only [isGap, ht, Bool.false_or, decide_eq_true_eq] at this
      exact .inr ⟨t, w, rfl, this⟩

/-- The step of the loop that takes semicolons. -/
def semicolon? : Parser (Option Unit) := do
  if ← accept .semicolon then return some () else return none

/-- A semicolon is taken if there is one. -/
theorem semicolon?_run (ctx : Context) (c : Cursor) :
    semicolon? ctx c =
      if c.peek.token = .semicolon then .ok (some ()) c.next.2 else .ok none c := by
  simp only [semicolon?, Parser.bind_apply]
  rw [accept_run]
  by_cases h : c.peek.token = .semicolon
  · simp only [if_pos h]
    rfl
  · simp only [if_neg h]
    rfl

/-- Every semicolon that is taken is one token less. -/
theorem semicolon?_shortens :
    Shortens fun items : List Unit => (·.map (· :: items)) <$> semicolon? := by
  intro ctx items c items' c' h0 h
  obtain ⟨o, ho, heq⟩ := map_ok.mp h
  rw [semicolon?_run] at ho
  split at ho
  · rename_i hsemi
    obtain ⟨rfl, rfl⟩ := EStateM.Result.ok.inj ho
    have hrun : accept .semicolon ctx c = .ok true c.next.2 := by
      rw [accept_run, if_pos hsemi]
    exact (accept_looks .semicolon).shorter rfl h0 hrun (by simp)
  · obtain ⟨rfl, rfl⟩ := EStateM.Result.ok.inj ho
    exact absurd heq (by simp)

/-- The loop takes all semicolons, and is done where none is left. -/
theorem iterates_semicolon? (ctx : Context) {w : List Located} {c : Cursor} (hc : c.At w)
    (items : List Unit) : ∃ n c',
      Iterates (fun items : List Unit => (·.map (· :: items)) <$> semicolon?) ctx items c
        (List.replicate n () ++ items) c' ∧ c'.At (w.dropWhile isGap) ∧
      (n = 0 ↔ (headOf w).token ≠ .semicolon) := by
  -- a semicolon may have blanks behind it, so the induction is on the length of what is left
  induction hn : w.length using Nat.strong_induction_on generalizing w c items with
  | _ len ih =>
      have hdone : (headOf w).token ≠ .semicolon →
          ((·.map (· :: items)) <$> semicolon? : Parser (Option (List Unit))) ctx c
            = .ok none c := fun hne =>
        map_ok.mpr ⟨none, by rw [semicolon?_run, hc.peek, if_neg hne], rfl⟩
      cases w with
      | nil => exact ⟨0, c, .done (hdone (by simp [headOf, Located.eof])), hc,
          by simp [headOf, Located.eof]⟩
      | cons t w =>
          have ht : t.isWhitespace = false := by simpa using hc.clean
          by_cases hsemi : t.token = .semicolon
          · obtain ⟨n, c', hrun, hat, -⟩ := ih _ (by
              have := (List.dropWhile_sublist Located.isWhitespace (l := w)).length_le
              simp only [List.length_cons] at hn
              omega) hc.next.2 (() :: items) rfl
            refine ⟨n + 1, c', ?_, ?_, by simp [headOf, hsemi]⟩
            · rw [List.replicate_succ', List.append_assoc]
              refine .more (map_ok.mpr ⟨some (), ?_, rfl⟩) hrun
              rw [semicolon?_run, hc.peek]
              exact if_pos hsemi
            · rwa [List.dropWhile_cons_of_pos (by simp [isGap, hsemi]), ← dropGap_blanks]
          · refine ⟨0, c, .done (hdone hsemi), ?_, by simpa [headOf] using hsemi⟩
            rwa [List.dropWhile_cons_of_neg (by simp [isGap, ht, hsemi])]

/-- All of a gap is taken, and the answer is whether a semicolon came first. -/
theorem acceptSemicolons_run (ctx : Context) {w : List Located} {c : Cursor} (hc : c.At w) :
    ∃ c', acceptSemicolons ctx c = .ok (decide ((headOf w).token = .semicolon)) c' ∧
      c'.At (w.dropWhile isGap) := by
  obtain ⟨n, c', hrun, hat, hn⟩ := iterates_semicolon? ctx hc []
  refine ⟨c', bind_ok.mpr ⟨List.replicate n (), c', ?_, pure_ok.mpr ⟨?_, rfl⟩⟩, hat⟩
  · refine map_ok.mpr ⟨_, (iterate_ok semicolon?_shortens hc.overrun).mpr hrun, ?_⟩
    rw [List.append_nil, List.reverse_replicate]
  · cases n with
    | zero => simpa using hn.mp rfl
    | succ n =>
        have hsemi : (headOf w).token = .semicolon := by
          by_contra hne
          exact absurd (hn.mpr hne) (by simp)
        simp [List.replicate_succ, hsemi]

/-! ## One more statement -/

/-- What is done between two statements: at the end of the text nothing more is read, and
    where something is left, a semicolon has to stand in front of it. -/
theorem parseNext_ok (ctx : Context) (first : Bool) {w : List Located} {c : Cursor}
    (hc : c.At w) : ∃ c1, c1.At (w.dropWhile isGap) ∧ ∀ o c',
      parseNext noExtension first ctx c = .ok o c' ↔
        ((headOf (w.dropWhile isGap)).token = .eof ∧ o = none ∧ c' = c1) ∨
        ((headOf (w.dropWhile isGap)).token ≠ .eof ∧
          (first = true ∨ (headOf w).token = .semicolon) ∧
          ∃ s, parseWith noExtension ctx c1 = .ok s c' ∧ o = some s) := by
  obtain ⟨c1, hsemis, hat⟩ := acceptSemicolons_run ctx hc
  refine ⟨c1, hat, fun o c' => ?_⟩
  rw [← hat.peek, parseNext, bind_ok]
  constructor
  · rintro ⟨_, c2, hs, h⟩
    obtain ⟨rfl, rfl⟩ := EStateM.Result.ok.inj (hsemis.symm.trans hs)
    obtain ⟨_, _, hp, h⟩ := bind_ok.mp h
    obtain ⟨rfl, rfl⟩ := peek_ok.mp hp
    -- the end, a statement without a semicolon in front, which is an error, or a statement
    rcases ite_ok.mp h with ⟨heof, h⟩ | ⟨heof, h⟩
    · obtain ⟨rfl, rfl⟩ := pure_ok.mp h
      exact .inl ⟨heof, rfl, rfl⟩
    · rcases ite_ok.mp h with ⟨hsep, h⟩ | ⟨hsep, h⟩
      · obtain ⟨_, _, h, -⟩ := bind_ok.mp h
        exact absurd h expected_ne_ok
      · obtain ⟨s, hs, rfl⟩ := map_ok.mp h
        refine .inr ⟨heof, ?_, s, hs, rfl⟩
        simpa [or_iff_not_imp_left] using hsep
  · intro h
    refine ⟨_, c1, hsemis, bind_ok.mpr ⟨_, c1, peek_ok.mpr ⟨rfl, rfl⟩, ite_ok.mpr ?_⟩⟩
    rcases h with ⟨heof, rfl, rfl⟩ | ⟨heof, hsep, s, hs, rfl⟩
    · exact .inl ⟨heof, pure_ok.mpr ⟨rfl, rfl⟩⟩
    · refine .inr ⟨heof, ite_ok.mpr (.inr ⟨?_, map_ok.mpr ⟨s, hs, rfl⟩⟩)⟩
      simpa [or_iff_not_imp_left] using hsep

/-- The step of the loop that reads statements. -/
theorem step_shortens : Shortens fun statements : List Statement =>
    (·.map (· :: statements)) <$> parseNext noExtension statements.isEmpty := by
  intro ctx statements c statements' c' h0 h
  obtain ⟨o, ho, heq⟩ := map_ok.mp h
  obtain ⟨c1, hat, hok⟩ := parseNext_ok ctx statements.isEmpty (at_rest h0)
  rcases (hok o c').mp ho with ⟨-, rfl, -⟩ | ⟨-, -, s, hs, rfl⟩
  · exact absurd heq (by simp)
  · have hreads := parseWith_reads (R := Follow StatementEnd)
    refine ⟨(hreads.isLocal ctx c1 s c' hat.overrun hs).1, ?_⟩
    calc c'.rest.length < c1.rest.length := hreads.takes ctx c1 s c' hat.overrun hs trivial
      _ = (c.rest.dropWhile isGap).length := by rw [hat.rest]
      _ ≤ c.rest.length := (List.dropWhile_sublist _).length_le

/-! ## Layouts -/

/-- These tokens are read as this statement wherever a statement may end behind them. -/
structure Sentence (ctx : Context) (used : List Located) (s : Statement) : Prop where
  head   : ∃ t u, used = t :: u ∧ isGap t = false
  replay : ∀ r, StatementEnd r → ∀ d : Cursor, d.At (used ++ r) →
    ∃ d', parseWith noExtension ctx d = .ok s d' ∧ d'.At r

/-- The tokens are laid out as a list of statements. -/
inductive Laid (ctx : Context) : List Located → List Statement → Prop where
  | nil {gap} (hgap : ∀ t ∈ gap, isGap t = true) : Laid ctx gap []
  | cons {gap used w s ss} (hgap : ∀ t ∈ gap, isGap t = true) (hs : Sentence ctx used s)
      (hend : StatementEnd w) (rest : Laid ctx w ss) : Laid ctx (gap ++ (used ++ w)) (s :: ss)

variable {ctx : Context}

/-- Without statements there is a gap and nothing else. -/
theorem Laid.nil_inv {w : List Located} (h : Laid ctx w []) : ∀ t ∈ w, isGap t = true := by
  cases h with
  | nil hgap => exact hgap

/-- The first statement stands behind a gap and in front of an end. -/
theorem Laid.cons_inv {w : List Located} {s : Statement} {ss : List Statement}
    (h : Laid ctx w (s :: ss)) : ∃ gap used w', w = gap ++ (used ++ w') ∧
      (∀ t ∈ gap, isGap t = true) ∧ Sentence ctx used s ∧ StatementEnd w' ∧ Laid ctx w' ss := by
  cases h with
  | cons hgap hs hend rest => exact ⟨_, _, _, rfl, hgap, hs, hend, rest⟩

/-- A gap in front belongs to the layout. -/
theorem Laid.gap_append {gap w : List Located} {ss : List Statement}
    (hgap : ∀ t ∈ gap, isGap t = true) (h : Laid ctx w ss) : Laid ctx (gap ++ w) ss := by
  cases h with
  | nil hgap' => exact .nil fun t ht => (List.mem_append.mp ht).elim (hgap t) (hgap' t)
  | @cons gap' used w s ss hgap' hs hend hlaid =>
      rw [← List.append_assoc]
      exact .cons (fun t ht => (List.mem_append.mp ht).elim (hgap t) (hgap' t)) hs hend hlaid

/-- A semicolon ends a statement. -/
theorem statementEnd_of_head {w : List Located} (h : (headOf w).token = .semicolon) :
    StatementEnd w := by
  cases w with
  | nil => exact .inl rfl
  | cons t w => exact .inr ⟨t, w, rfl, h⟩

/-- Two gaps one behind the other are one. -/
theorem dropGap_append {gap w : List Located} (h : ∀ t ∈ gap, isGap t = true) :
    (gap ++ w).dropWhile isGap = w.dropWhile isGap :=
  List.dropWhile_append_of_pos h

/-- Read statements are laid out; behind one of them a gap starts with a semicolon. -/
theorem laid_of_iterates {c c' : Cursor} {acc acc' : List Statement}
    (h : Iterates (fun statements : List Statement =>
      (·.map (· :: statements)) <$> parseNext noExtension statements.isEmpty) ctx acc c acc' c')
    {w : List Located} (hc : c.At w) (hw : NoEof w) :
    ∃ ss, acc' = ss.reverse ++ acc ∧ Laid ctx w ss ∧ (acc ≠ [] → StatementEnd w) := by
  induction h generalizing w with
  | @done acc c c' h =>
      obtain ⟨o, ho, heq⟩ := map_ok.mp h
      obtain ⟨c1, hat, hok⟩ := parseNext_ok ctx acc.isEmpty hc
      rcases (hok o c').mp ho with ⟨heof, -, -⟩ | ⟨-, -, s, -, rfl⟩
      -- the loop ends where only a gap is left
      · have hgap : ∀ t ∈ w, isGap t = true := by
          rw [← List.dropWhile_eq_nil_iff]
          cases hd : w.dropWhile isGap with
          | nil => rfl
          | cons t u =>
              rw [hd] at heof
              have hmem := (List.dropWhile_sublist isGap (l := w)).subset (hd ▸ List.mem_cons_self)
              exact absurd heof (hw t hmem)
        exact ⟨[], rfl, .nil hgap, fun _ => isGap_head hc.clean hgap⟩
      · exact absurd heq (by simp)
  | @more acc acc1 acc' c c1 c' h _ ih =>
      obtain ⟨o, ho, heq⟩ := map_ok.mp h
      obtain ⟨c2, hat, hok⟩ := parseNext_ok ctx acc.isEmpty hc
      rcases (hok o c1).mp ho with ⟨-, rfl, -⟩ | ⟨hne, hsep, s, hs, rfl⟩
      · exact absurd heq (by simp)
      · obtain rfl : s :: acc = acc1 := by simpa using heq
        have hreads := parseWith_reads (R := Follow StatementEnd)
        -- what the statement took is read as it wherever a statement ends behind it
        obtain ⟨h1, used, hused, hreplay⟩ := hreads.isLocal ctx c2 s c1 hat.overrun hs
        have hlt := hreads.takes ctx c2 s c1 hat.overrun hs trivial
        rw [hat.rest] at hused hlt
        have hw1 : NoEof c1.rest := fun t ht => hw t <|
          (List.dropWhile_sublist isGap (l := w)).subset (hused ▸ List.mem_append_right used ht)
        obtain ⟨ss, rfl, hlaid, hend⟩ := ih (at_rest h1) hw1
        have hend1 : StatementEnd c1.rest := hend (by simp)
        refine ⟨s :: ss, by simp, ?_, fun hacc => statementEnd_of_head (hsep.resolve_left ?_)⟩
        · rw [← List.takeWhile_append_dropWhile (p := isGap) (l := w), hused]
          refine .cons (fun t ht => List.mem_takeWhile_imp ht) ⟨?_, fun r hr d hd => ?_⟩ hend1
            hlaid
          · cases used with
            | nil =>
                rw [List.nil_append] at hused
                rw [hused] at hlt
                exact absurd hlt (lt_irrefl _)
            | cons t u =>
                have hhead := List.head?_dropWhile_not isGap w
                rw [hused] at hhead
                exact ⟨t, u, rfl, by simpa using hhead⟩
          · exact hreplay r ⟨[], c1.rest, r, hend1, hr, rfl, rfl⟩ d hd
        · simpa using hacc

/-- A layout is read as it says: each statement is replayed in front of the rest. -/
theorem iterates_of_laid {w : List Located} {ss : List Statement} (h : Laid ctx w ss)
    (hw : NoEof w) {c : Cursor} (hc : c.At (w.dropWhile Located.isWhitespace))
    (acc : List Statement) (hacc : acc ≠ [] → StatementEnd w) :
    ∃ c', Iterates (fun statements : List Statement =>
      (·.map (· :: statements)) <$> parseNext noExtension statements.isEmpty) ctx acc c
        (ss.reverse ++ acc) c' := by
  induction h generalizing c acc with
  | @nil gap hgap =>
      obtain ⟨c1, hat, hok⟩ := parseNext_ok ctx acc.isEmpty hc
      refine ⟨c1, .done (map_ok.mpr ⟨none, (hok none c1).mpr (.inl ⟨?_, rfl, rfl⟩), rfl⟩)⟩
      rw [dropGap_blanks, List.dropWhile_eq_nil_iff.mpr hgap]
      rfl
  | @cons gap used w s ss hgap hs hend hlaid ih =>
      obtain ⟨t, u, rfl, ht⟩ := hs.head
      have hdrop : (gap ++ (t :: u ++ w)).dropWhile isGap = t :: u ++ w := by
        rw [dropGap_append hgap, List.cons_append, List.dropWhile_cons_of_neg (by simp [ht])]
      obtain ⟨c1, hat, hok⟩ := parseNext_ok ctx acc.isEmpty hc
      rw [dropGap_blanks, hdrop] at hat hok
      -- the statement is read behind its gap, and the loop goes on where it ends
      obtain ⟨c2, hrun, hat2⟩ := hs.replay w hend c1 hat
      obtain ⟨c', hiter⟩ := ih (fun t ht => hw t (by simp [ht]))
        (by rwa [dropWhile_of_clean hend.clauseEnd.clean]) (s :: acc) fun _ => hend
      refine ⟨c', ?_⟩
      rw [List.reverse_cons, List.append_assoc]
      refine .more (map_ok.mpr ⟨some s, (hok _ c2).mpr (.inr ⟨?_, ?_, s, hrun, rfl⟩), rfl⟩) hiter
      · exact hw t (by simp)
      -- behind another statement the gap has a semicolon
      · cases acc with
        | nil => exact .inl rfl
        | cons a acc =>
            have hsemi := hacc (by simp)
            rw [dropWhile_of_clean hsemi.clauseEnd.clean]
            rcases hsemi with hnil | ⟨t', r, heq, htok⟩
            · simp at hnil
            · rw [heq]
              exact .inr htok

/-- A text is read as these statements exactly when it is laid out as them. -/
theorem runTokens_iff {tokens : List Located} (h : NoEof tokens) {ss : List Statement} :
    parseAll.runTokens ctx tokens = .ok ss ↔ Laid ctx tokens ss := by
  have hc : (Cursor.ofTokens tokens).At (tokens.dropWhile Located.isWhitespace) := ⟨rfl, rfl⟩
  have hrun : parseAll.runTokens ctx tokens = .ok ss ↔
      ∃ c', parseAll ctx (Cursor.ofTokens tokens) = .ok ss c' := by
    unfold runTokens
    cases parseAll ctx (Cursor.ofTokens tokens) <;> simp
  rw [hrun]
  constructor
  · rintro ⟨c', h'⟩
    obtain ⟨acc, hiter, rfl⟩ := map_ok.mp h'
    have hsub := List.dropWhile_sublist Located.isWhitespace (l := tokens)
    obtain ⟨ss, rfl, hlaid, -⟩ := laid_of_iterates ((iterate_ok step_shortens rfl).mp hiter) hc
      fun t ht => h t (hsub.subset ht)
    rw [List.append_nil, List.reverse_reverse]
    -- the blanks in front of everything belong to the first gap
    rw [← List.takeWhile_append_dropWhile (p := Located.isWhitespace) (l := tokens)]
    exact hlaid.gap_append fun t ht => by simp [isGap, List.mem_takeWhile_imp ht]
  · intro hlaid
    obtain ⟨c', hiter⟩ := iterates_of_laid hlaid h hc [] (by simp)
    refine ⟨c', map_ok.mpr ⟨_, (iterate_ok step_shortens rfl).mpr hiter, by simp⟩⟩

/-! ## Putting lists together and taking them apart -/

/-- Two layouts with a semicolon between them are one. -/
theorem Laid.append {A B : List Located} {as bs : List Statement} {semi : Located}
    (hA : Laid ctx A as) (hB : Laid ctx B bs) (hsemi : semi.token = .semicolon) :
    Laid ctx (A ++ semi :: B) (as ++ bs) := by
  induction hA with
  | @nil gap hgap =>
      have hgap' : ∀ t ∈ gap ++ [semi], isGap t = true := by
        intro t ht
        rcases List.mem_append.mp ht with ht | ht
        · exact hgap t ht
        · obtain rfl : t = semi := by simpa using ht
          simp [isGap, hsemi]
      simpa using hB.gap_append hgap'
  | @cons gap used w s ss hgap hs hend _ ih =>
      have hend' : StatementEnd (w ++ semi :: B) := by
        rcases hend with rfl | ⟨t, r, rfl, ht⟩
        · exact .inr ⟨semi, B, rfl, hsemi⟩
        · exact .inr ⟨t, r ++ semi :: B, rfl, ht⟩
      simpa using Laid.cons hgap hs hend' ih

/-- The tokens of one statement are laid out as that statement alone. -/
theorem Sentence.laid {used : List Located} {s : Statement} (h : Sentence ctx used s) :
    Laid ctx used [s] := by
  have hlaid : Laid ctx ([] ++ (used ++ [])) [s] :=
    .cons (by simp) h (.inl rfl) (.nil (by simp))
  simpa using hlaid

/-- Tokens in segments, a gap being in front of them all and one behind each. -/
structure Segments (ctx : Context) (C : List Located) (ss : List Statement)
    (lead : List Located) (segments : List (List Located × List Located)) : Prop where
  tokens    : C = lead ++ segments.flatMap fun p => p.1 ++ p.2
  lead      : ∀ t ∈ lead, isGap t = true
  gaps      : ∀ p ∈ segments, ∀ t ∈ p.2, isGap t = true
  separated : ∀ p ∈ segments.dropLast, ∃ t ∈ p.2, t.token = .semicolon
  alone     : List.Forall₂ (fun p s => parseAll.runTokens ctx p.1 = .ok [s]) segments ss

/-- A layout is made of segments; where it starts at the end of a statement, its first gap
    has a semicolon, unless it is empty. -/
theorem Laid.segments {C : List Located} {ss : List Statement} (h : Laid ctx C ss)
    (hC : NoEof C) : ∃ lead segments, Segments ctx C ss lead segments ∧
      (StatementEnd C → segments ≠ [] → ∃ t ∈ lead, t.token = .semicolon) := by
  induction h with
  | @nil gap hgap =>
      exact ⟨gap, [], ⟨by simp, hgap, by simp, by simp, .nil⟩, fun _ h => absurd rfl h⟩
  | @cons gap used w s ss hgap hs hend _ ih =>
      obtain ⟨lead, segments, hseg, hsemi⟩ := ih fun t ht => hC t (by simp [ht])
      refine ⟨gap, (used, lead) :: segments, ⟨?_, hgap, ?_, ?_, ?_⟩, ?_⟩
      · rw [hseg.tokens]
        simp
      · rintro p hp
        rcases List.mem_cons.mp hp with rfl | hp
        · exact hseg.lead
        · exact hseg.gaps p hp
      -- the gap behind a statement separates it if another one follows
      · cases segments with
        | nil => simp
        | cons q segments =>
            rintro p hp
            rw [List.dropLast_cons_cons] at hp
            rcases List.mem_cons.mp hp with rfl | hp
            · exact hsemi hend (by simp)
            · exact hseg.separated p hp
      · refine .cons ?_ hseg.alone
        exact (runTokens_iff fun t ht => hC t (by simp [ht])).mpr hs.laid
      · intro hstart _
        -- the text starts at an end, and the statement does not, so the gap starts with a semicolon
        obtain ⟨t, u, rfl, ht⟩ := hs.head
        cases gap with
        | nil =>
            rcases hstart with h | ⟨t', r, heq, ht'⟩
            · simp at h
            · obtain rfl : t = t' := by simpa using (List.cons.inj heq).1
              simp [isGap, ht'] at ht
        | cons t' gap =>
            rcases hstart with h | ⟨t'', r, heq, ht'⟩
            · simp at h
            · exact ⟨t', by simp, by rw [(List.cons.inj heq).1]; exact ht'⟩

/-- **Statement lists are compositional.**  What two texts are read as, they are read as with
    a semicolon between them, one list behind the other.  Conversely, the tokens that are read
    as a list of statements split into one segment for each, with gaps around them and a
    semicolon in each gap between two, such that each segment is read as its statement. -/
theorem parseAll_compositional (ctx : Context) :
    (∀ A B semi as bs, NoEof A → NoEof B → semi.token = .semicolon →
      parseAll.runTokens ctx A = .ok as → parseAll.runTokens ctx B = .ok bs →
      parseAll.runTokens ctx (A ++ semi :: B) = .ok (as ++ bs)) ∧
    (∀ C ss, NoEof C → parseAll.runTokens ctx C = .ok ss →
      ∃ lead segments, Segments ctx C ss lead segments) := by
  constructor
  · intro A B semi as bs hA hB hsemi ha hb
    have hAB : NoEof (A ++ semi :: B) := by
      intro t ht
      rcases List.mem_append.mp ht with ht | ht
      · exact hA t ht
      · rcases List.mem_cons.mp ht with rfl | ht
        · simp [hsemi]
        · exact hB t ht
    exact (runTokens_iff hAB).mpr
      (((runTokens_iff hA).mp ha).append ((runTokens_iff hB).mp hb) hsemi)
  · intro C ss hC h
    obtain ⟨lead, segments, hseg, -⟩ := ((runTokens_iff hC).mp h).segments hC
    exact ⟨lead, segments, hseg⟩

/-- The tokens of `SELECT` and a number. -/
def selectTokens (digits : String) : List Located :=
  [⟨.word ⟨"SELECT", none, some .select⟩, .start⟩, ⟨.whitespace .space, .start⟩,
    ⟨.number digits false, .start⟩]

/-- The query that they are. -/
def selectNumber (digits : String) : Statement :=
  .query { body := .select { projection := [.unnamed (.literal (.number digits false))] } }

/-- Two queries are read with a semicolon between them, and what was read is taken apart again. -/
theorem parseAll_selects : let ctx : Context := { dialect := .generic }
    let C := selectTokens "1" ++ ⟨.semicolon, .start⟩ :: selectTokens "2"
    parseAll.runTokens ctx C = .ok [selectNumber "1", selectNumber "2"] ∧
      ∃ lead segments, Segments ctx C [selectNumber "1", selectNumber "2"] lead segments := by
  intro ctx C
  have h : parseAll.runTokens ctx C = .ok [selectNumber "1", selectNumber "2"] :=
    (parseAll_compositional ctx).1 (selectTokens "1") (selectTokens "2") ⟨.semicolon, .start⟩
      [selectNumber "1"] [selectNumber "2"] (by decide) (by decide) rfl (by rfl) (by rfl)
  exact ⟨h, (parseAll_compositional ctx).2 C _ (by decide) h⟩

end Statement

end SchemaSql
