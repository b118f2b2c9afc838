import SchemaSql.Proofs.Levels.Comparisons

/-! # How many levels suffice

    Each level costs a token that is read on the way down, but for the level of the statement
    and that of a query, so the tokens that are left bound the levels that can still be needed.
    `Spared ctx n p` says that with `n` tokens left `p` does not end because of the limit of
    `ctx`; the rules follow the way readers are written, and a reader that knows no levels is
    `Spared.free`. -/

namespace SchemaSql

open Cursor SchemaSql.Parser Comparison

/-! ## Levels that suffice -/

section

variable {α β : Type} {ctx : Context} {n : Nat}

/-- The number of tokens that are no blanks. -/
def solids (w : List Located) : Nat := w.countP fun t => !t.isWhitespace

/-- Blanks that are passed are not among the tokens that are counted. -/
theorem solids_dropWhile (w : List Located) :
    solids (w.dropWhile Located.isWhitespace) = solids w := by
  have hblanks : (w.takeWhile Located.isWhitespace).countP (fun t => !t.isWhitespace) = 0 :=
    List.countP_eq_zero.mpr fun t ht => by simp [List.mem_takeWhile_imp ht]
  conv => rhs; rw [← List.takeWhile_append_dropWhile (p := Located.isWhitespace) (l := w)]
  rw [solids, solids, List.countP_append, hblanks, Nat.zero_add]

/-- A reader that does not run over the end, and leaves no more than there was. -/
def Settles (p : Parser α) : Prop :=
  ∀ ctx c v c', c.overrun = 0 → p ctx c = .ok v c' →
    c'.overrun = 0 ∧ solids c'.rest ≤ solids c.rest

/-- What reads some of the tokens ahead leaves no more than there were. -/
theorem Local.settles {R : Rel} {p : Parser α} (h : Local R p) : Settles p := by
  intro ctx c v c' h0 hrun
  obtain ⟨h1, used, hused, -⟩ := h ctx c v c' h0 hrun
  refine ⟨h1, ?_⟩
  rw [hused, solids, solids, List.countP_append]
  omega

theorem Settles.of {p : Parser α} (h : Alike.LocalItem p) : Settles p := h.settles

/-- What takes a token leaves fewer. -/
theorem Local.solids_lt {p : Parser α} (h : Alike.LocalItem p) {ctx : Context} {c c' : Cursor}
    {v : α} (h0 : c.overrun = 0) (hrun : p ctx c = .ok v c')
    (hlt : c'.rest.length < c.rest.length) : solids c'.rest < solids c.rest := by
  obtain ⟨-, used, hused, -⟩ := h ctx c v c' h0 hrun
  cases used with
  | nil => simp [hused] at hlt
  | cons t used =>
      have ht : t.isWhitespace = false := by
        have := c.clean_rest
        rw [hused] at this
        simpa using this
      rw [hused, solids, solids, List.cons_append, List.countP_cons, List.countP_append]
      simp [ht]

/-- With at most `n` tokens left, the reader does not end because of the limit. -/
def Spared (ctx : Context) (n : Nat) (p : Parser α) : Prop :=
  ∀ c, c.overrun = 0 → solids c.rest ≤ n → ∀ c', p ctx c ≠ .error .recursionLimitExceeded c'

namespace Spared

/-- A reader that knows no levels. -/
theorem free {p : Parser α} (h : unlimited.Steady p) : Spared ctx n p := by
  intro c h0 _ c' hrun
  have hrs := h ctx ctx c c ⟨rfl, rfl, trivial⟩ ⟨rfl, h0⟩
  rw [hrun] at hrs
  cases hrs with
  | error he => exact he.1 rfl

/-- A value needs no level. -/
theorem pure (a : α) : Spared ctx n (Pure.pure a : Parser α) := fun _ _ _ _ h =>
  absurd h pure_ne_error

theorem ite {b : Prop} [Decidable b] {p q : Parser α} (hp : Spared ctx n p)
    (hq : Spared ctx n q) : Spared ctx n (if b then p else q) := by
  split
  · exact hp
  · exact hq

/-- Behind a reader no more tokens are left, so what sufficed in front of it suffices behind it. -/
theorem bind {p : Parser α} {f : α → Parser β} (hp : Spared ctx n p) (hl : Settles p)
    (hf : ∀ a, Spared ctx n (f a)) : Spared ctx n (p >>= f) := by
  intro c h0 hc c' hrun
  simp only [Parser.bind_apply] at hrun
  cases h : p ctx c with
  | ok a c1 =>
      rw [h] at hrun
      obtain ⟨h1, hle⟩ := hl ctx c a c1 h0 h
      exact hf a c1 h1 (hle.trans hc) c' hrun
  | error e c1 =>
      rw [h] at hrun
      obtain ⟨rfl, -⟩ := EStateM.Result.error.inj hrun
      exact hp c h0 hc c1 h

/-- Behind a reader that takes a token, fewer are left. -/
theorem bind_reads {p : Parser α} {f : α → Parser β} (hp : Spared ctx n p)
    (hr : Reads (Follow StatementEnd) p) (hf : ∀ m < n, ∀ a, Spared ctx m (f a)) :
    Spared ctx n (p >>= f) := by
  intro c h0 hc c' hrun
  simp only [Parser.bind_apply] at hrun
  cases h : p ctx c with
  | ok a c1 =>
      rw [h] at hrun
      have hlt := Local.solids_lt hr.isLocal h0 h (hr.takes ctx c a c1 h0 h trivial)
      have h1 := (Settles.of hr.isLocal ctx c a c1 h0 h).1
      exact hf _ (hlt.trans_le hc) a c1 h1 le_rfl c' hrun
  | error e c1 =>
      rw [h] at hrun
      obtain ⟨rfl, -⟩ := EStateM.Result.error.inj hrun
      exact hp c h0 hc c1 h

/-- What is done with a value needs no level. -/
theorem map {p : Parser α} {f : α → β} (hp : Spared ctx n p) : Spared ctx n (f <$> p) := by
  intro c h0 hc c' hrun
  simp only [Parser.map_apply] at hrun
  cases h : p ctx c with
  | ok a c1 => rw [h] at hrun; exact absurd hrun (by simp)
  | error e c1 =>
      rw [h] at hrun
      obtain ⟨rfl, -⟩ := EStateM.Result.error.inj hrun
      exact hp c h0 hc c1 h

/-- Asking how many levels are left takes none. -/
theorem remaining {f : Nat → Parser α} (hf : Spared ctx n (f ctx.depth)) :
    Spared ctx n (Parser.remaining >>= f) := fun c h0 hc => hf c h0 hc

theorem read {f : Settings → Parser α} (hf : Spared ctx n (f ctx.toSettings)) :
    Spared ctx n (MonadReader.read >>= f : Parser α) := fun c h0 hc => hf c h0 hc

/-- A token that is looked at stays among those that are left. -/
theorem peek {k : Located → Parser α} (hk : ∀ t, Spared ctx n (k t)) :
    Spared ctx n (Parser.peek >>= k) := by
  intro c h0 hc
  rw [bind_run (peek_ok.mpr ⟨rfl, rfl⟩)]
  exact hk _ c h0 hc

/-- A reader that takes the next token, or puts it back and goes on, and fails at the end. -/
theorem next_or_back {k : Located → Parser α} (hk : ∀ t, (∀ m < n, Spared ctx m (k t)) ∨
      ∃ p, k t = (Parser.back >>= fun _ => p) ∧ Spared ctx n p)
    (heof : unlimited.Throws (k .eof) (k .eof)) : Spared ctx n (Parser.next >>= k) := by
  intro c h0 hc
  rw [bind_run (next_run ctx c)]
  cases hrest : c.rest with
  | nil =>
      have heq : c.peek = .eof := by rw [peek_eq, hrest]; rfl
      rw [heq]
      -- at the end of the text the error is the same at every level
      obtain ⟨e, f, c', d', hrun, -, he⟩ := heof ctx ctx c.next.2 c.next.2
      rw [hrun]
      intro _ h
      exact he.1 (EStateM.Result.error.inj h).1
  | cons t w =>
      -- a token taken pays for one level; a token put back leaves the bound as it was
      rcases hk c.peek with htake | ⟨p, hp, hback⟩
      · have hat := (At.next ⟨h0, hrest⟩).2
        have ht : t.isWhitespace = false := clean_cons.mp (hrest ▸ c.clean_rest)
        have hsolids : solids c.rest = solids w + 1 := by
          rw [hrest, solids, solids, List.countP_cons]
          simp [ht]
        refine htake (solids w) (by omega) _ hat.overrun ?_
        rw [hat.rest, solids_dropWhile]
      · have hat := (at_rest h0).next_back
        rw [hp, bind_run (back_ok (v := ()).mpr rfl)]
        exact hback _ hat.overrun (by rwa [hat.rest])

/-- A reader that takes the next token, and fails at the end. -/
theorem next {k : Located → Parser α} (hk : ∀ m < n, ∀ t, Spared ctx m (k t))
    (heof : unlimited.Throws (k .eof) (k .eof)) : Spared ctx n (Parser.next >>= k) :=
  next_or_back (fun t => .inl fun m hm => hk m hm t) heof

/-- A reader that starts with a test that knows no levels. -/
theorem test {t : Parser Bool} {p q : Parser α} (ht : unlimited.Steady t)
    (hl : Alike.LocalItem t) (hp : Spared ctx n p) (hq : Spared ctx n q) :
    Spared ctx n (t >>= fun b => if b then p else q) :=
  (free ht).bind (.of hl) fun _ => hp.ite hq

/-- A test that takes a token leaves fewer to what it guards. -/
theorem test_takes {t : Parser Bool} {p q : Parser α} (ht : unlimited.Steady t)
    (hl : Offers (Follow StatementEnd) (· = true) t) (hp : ∀ m < n, Spared ctx m p)
    (hq : Spared ctx n q) : Spared ctx n (t >>= fun b => if b then p else q) := by
  intro c h0 hc
  cases h : t ctx c with
  | ok b c1 =>
      obtain ⟨h1, hle⟩ := Settles.of hl.isLocal ctx c b c1 h0 h
      rw [bind_run h]
      cases b with
      | true =>
          have hlt := Local.solids_lt hl.isLocal h0 h (hl.takes ctx c true c1 h0 h rfl)
          exact hp _ (hlt.trans_le hc) c1 h1 le_rfl
      | false => exact hq c1 h1 (hle.trans hc)
  | error e c1 =>
      intro c' hrun
      simp only [Parser.bind_apply, h] at hrun
      obtain ⟨rfl, -⟩ := EStateM.Result.error.inj hrun
      exact free ht c h0 hc c1 h

theorem accept {token : Token} (h : ¬ EndMark token) {p q : Parser α} (hp : Spared ctx n p)
    (hq : Spared ctx n q) :
    Spared ctx n (Parser.accept token >>= fun b => if b then p else q) :=
  test (.accept (by rintro rfl; exact h (.inl rfl))) (Local.accept h) hp hq

theorem keyword (keyword : Keyword) {p q : Parser α} (hp : Spared ctx n p)
    (hq : Spared ctx n q) :
    Spared ctx n (acceptKeyword keyword >>= fun b => if b then p else q) :=
  test (.acceptKeyword _) (Local.acceptKeyword _) hp hq

theorem keywords (keywords : List Keyword) {p q : Parser α} (hp : Spared ctx n p)
    (hq : Spared ctx n q) :
    Spared ctx n (acceptKeywords keywords >>= fun b => if b then p else q) :=
  test (.acceptKeywords _) (Local.acceptKeywords _) hp hq

/-- A reader that goes on behind one that knows no levels. -/
theorem behind {p : Parser α} {f : α → Parser β} (hs : unlimited.Steady p)
    (hl : Alike.LocalItem p) (hf : ∀ a, Spared ctx n (f a)) : Spared ctx n (p >>= f) :=
  (free hs).bind (.of hl) hf

theorem expectKeyword (keyword : Keyword) {f : Located → Parser β}
    (hf : ∀ t, Spared ctx n (f t)) : Spared ctx n (Parser.expectKeyword keyword >>= f) :=
  (free (p := Parser.expectKeyword keyword) ((Alike.expectKeyword keyword).mono
    fun _ _ h => h)).bind (.of (Local.expectKeyword _)) hf

theorem expect {token : Token} (h : token ≠ .eof) {f : Located → Parser β}
    (hf : ∀ t, Spared ctx n (f t)) : Spared ctx n (Parser.expect token >>= f) :=
  (free (p := Parser.expect token) ((Alike.expect h).mono fun _ _ h => h)).bind
    (.of (Local.expect h)) hf

/-! ### Loops and lists -/

/-- Every round starts with no more tokens than the loop, so levels that suffice for one round at a
    time suffice for all. -/
theorem iterate {step : β → Parser (Option β)} (hs : ∀ b, Spared ctx n (step b))
    (hl : ∀ b, Settles (step b)) (b : β) : Spared ctx n (Parser.iterate step b) := by
  have hloop : ∀ k b, Spared ctx n (iterateUpTo step k b) := by
    intro k
    induction k with
    | zero => exact fun b => pure b
    | succ k ih =>
        intro b
        refine (hs b).bind (hl b) fun next => ?_
        cases next with
        | none => exact pure b
        | some b => exact ih b
  intro c h0 hc
  rw [iterate_apply]
  exact hloop _ b c h0 hc

theorem many {item : Parser (Option α)} (h : Spared ctx n item) (hl : Settles item) :
    Spared ctx n (Parser.many item) := by
  refine (iterate (fun _ => h.map) (fun items ctx c v c' h0 hrun => ?_) []).map
  obtain ⟨a, ha, -⟩ := map_ok.mp hrun
  exact hl ctx c a c' h0 ha

/-- Items behind a test that knows no levels. -/
theorem many_test {t : Parser Bool} {item : Parser α} (ht : unlimited.Steady t)
    (hlt : Alike.LocalItem t) (h : Spared ctx n item) (hl : Alike.LocalItem item) :
    Spared ctx n (Parser.many do if ← t then some <$> item else return none) :=
  many (test ht hlt h.map (pure _)) (.of (hlt.test (hl.map _) (.pure _)))

/-- The commas between the items know no levels. -/
theorem commaSeparatedWith (trailing : Bool) {item : Parser α} (h : Spared ctx n item)
    (hl : Alike.LocalItem item) : Spared ctx n (Parser.commaSeparatedWith trailing item) :=
  h.bind (.of hl) fun _ => (many_test (.acceptSeparator trailing)
    (Offers.acceptSeparator trailing).isLocal h hl).bind
      (.of (Local.many_item (.acceptSeparator trailing) hl)) fun _ => pure _

theorem commaSeparated {item : Parser α} (h : Spared ctx n item)
    (hl : Alike.LocalItem item) : Spared ctx n (Parser.commaSeparated item) :=
  read (commaSeparatedWith _ h hl)

/-- Whether the list is empty is decided without a level. -/
theorem commaSeparatedUntil {close : Token} {item : Parser α} (h : Spared ctx n item)
    (hl : Alike.LocalItem item) : Spared ctx n (Parser.commaSeparatedUntil close item) := by
  refine peek fun t => .ite (pure _) (read fun c h0 hc => ?_)
  rw [bind_run (get_ok.mpr ⟨rfl, rfl⟩)]
  split
  · -- reading the comma never fails
    intro c' hrun
    rw [bind_run (next_run ctx c)] at hrun
    exact absurd hrun pure_ne_error
  · exact commaSeparated h hl c h0 hc

theorem parenthesized {inner : Parser α} (h : Spared ctx n inner) (hl : Settles inner) :
    Spared ctx n (Parser.parenthesized inner) :=
  expect (by simp) fun _ => h.bind hl fun _ => expect (by simp) fun _ => pure _

theorem parenthesizedList {item : Parser α} (h : Spared ctx n item)
    (hl : Alike.LocalItem item) : Spared ctx n (Parser.parenthesizedList item) :=
  parenthesized (commaSeparatedWith false h hl)
    (.of (Local.commaSeparatedWith false hl))

/-- One level down, one level fewer is left. -/
theorem descend {depth : Nat} {inner : Parser α} (hdepth : ctx.depth = depth + 1)
    (h : Spared { ctx with depth } n inner) : Spared ctx n (Parser.descend inner) := by
  intro c h0 hc
  rw [descend_apply, hdepth]
  exact h c h0 hc

end Spared

end

/-! ## Expressions and data types -/

variable {ctx : Context} {n : Nat}

namespace Expr

section

variable {sub : SubParser}

/-- The arguments of a call stand behind its parenthesis, with the levels that the operand has. -/
theorem parsePath_spared (hsub : ∀ p, Spared ctx n (sub p)) (hl : ∀ p, Alike.LocalItem (sub p))
    (first : Ident) : Spared ctx n (parsePath sub first) := by
  have hargs : Local (Within (Follow StatementEnd)) (commaSeparatedUntil .rparen (sub 0)) :=
    commaSeparatedUntil_local (by simp [EndMark]) (hl 0).within
  exact .behind parts_steady (Local.many part_offers) fun _ => .accept (by simp [EndMark])
    ((Spared.commaSeparatedUntil (hsub 0) (hl 0)).bind (Local.settles hargs)
      fun _ => .expect (by simp) fun _ => .pure _)
    (.ite (.pure _) (.pure _))

/-- The expressions inside an operand start behind a token of it, a sign, a parenthesis or a word,
    so one level less suffices for them. -/
theorem parseOperand_spared (hsub : ∀ m < n, ∀ p, Spared ctx m (sub p))
    (hl : ∀ p, Alike.LocalItem (sub p)) : Spared ctx n (parseOperand sub) := by
  refine .next (fun m hm t => ?_) (.expected _ rfl)
  have hsign : ∀ op p, Spared ctx m (do return Expr.unary op (← sub p)) := fun _ p =>
    (hsub m hm p).bind (.of (hl p)) fun _ => .pure _
  split
  · split
    · exact .pure _
    · exact .pure _
    · exact .pure _
    · exact hsign _ _
    · exact parsePath_spared (hsub m hm) hl _
  · exact .pure _
  · exact .pure _
  · exact .pure _
  · exact hsign _ _
  · exact hsign _ _
  · exact (hsub m hm 0).bind (.of (hl 0)) fun _ => .expect (by simp) fun _ => .pure _
  · exact .pure _
  · exact .free (.expected _ rfl)

/-- The list behind `IN` stands in parentheses and needs no more than its items. -/
theorem parseInList_spared (hsub : ∀ p, Spared ctx n (sub p)) (hl : ∀ p, Alike.LocalItem (sub p))
    (operand : Expr) (negated : Bool) : Spared ctx n (parseInList sub operand negated) := by
  have hitems := Local.commaSeparated (hl 0)
  exact (Spared.parenthesized (.commaSeparated (hsub 0) (hl 0)) (.of hitems)).bind
    (.of (Local.parenthesized hitems.within)) fun _ => .pure _

/-- Both ends of a range have the levels that the operator has. -/
theorem parseBetween_spared (hsub : ∀ p, Spared ctx n (sub p)) (hl : ∀ p, Alike.LocalItem (sub p))
    (operand : Expr) (negated : Bool) : Spared ctx n (parseBetween sub operand negated) :=
  (hsub _).bind (.of (hl _)) fun _ => .expectKeyword _ fun _ =>
    (hsub _).bind (.of (hl _)) fun _ => .pure _

/-- An operator takes a token in front of each expression that belongs to it. -/
theorem parseOperator_spared (hsub : ∀ m < n, ∀ p, Spared ctx m (sub p))
    (hl : ∀ p, Alike.LocalItem (sub p)) (left : Expr) (precedence : Nat) :
    Spared ctx n (parseOperator sub left precedence) := by
  -- the keyword is put back, so this reader starts in front of a token it will take
  have hrange : Spared ctx n (do
      let negated ← acceptKeyword .not
      if ← acceptKeyword .in then return ← parseInList sub left negated
      if ← acceptKeyword .between then return ← parseBetween sub left negated
      expected "IN or BETWEEN after NOT" (← peek)) :=
    .behind (.acceptKeyword _) (Local.acceptKeyword _) fun negated =>
      .test_takes (.acceptKeyword _) (.acceptKeyword _)
        (fun m hm => parseInList_spared (hsub m hm) hl left negated) <|
      .test_takes (.acceptKeyword _) (.acceptKeyword _)
        (fun m hm => parseBetween_spared (hsub m hm) hl left negated) <|
      .free (.expected_peek _)
  refine .next_or_back (fun t => ?_) (.throw ⟨by simp, rfl⟩)
  cases t.token.binaryOp? with
  | some op =>
      exact .inl fun m hm => (hsub m hm _).bind (.of (hl _)) fun _ => .pure _
  | none =>
      dsimp only
      split
      · exact .inl fun m _ => .keyword _ (.pure _) <| .keywords _ (.pure _) <|
          .free (.expected_peek _)
      · exact .inr ⟨_, rfl, hrange⟩
      · exact .inr ⟨_, rfl, hrange⟩
      · exact .inr ⟨_, rfl, hrange⟩
      · exact .inl fun m _ => .free (.throw ⟨by simp, rfl⟩)

end

/-- As many levels as tokens suffice, and one more. -/
theorem parseAt_spared {depth : Nat} (h : n < depth) (precedence : Nat) :
    Spared { ctx with depth } n (parseAt depth precedence) := by
  have hlocal : ∀ n m, Alike.LocalItem (parseAt n m) := fun n m => (parseAt_reads n m).isLocal
  induction depth generalizing n precedence with
  | zero => exact absurd h (by simp)
  | succ depth ih =>
      have hsub : ∀ m < n, ∀ p, Spared { ctx with depth } m (parseAt depth p) := fun m hm p =>
        ih (by omega) p
      refine .descend rfl <| (parseOperand_spared hsub (hlocal depth)).bind
        (.of (parseOperand_reads (hlocal depth)).isLocal) fun operand =>
          .iterate (fun left => ?_) (fun left => .of ?_) operand
      · exact .behind nextPrecedence_steady nextPrecedence_local fun next => .ite (.pure _)
          (parseOperator_spared hsub (hlocal depth) left next).map
      · exact nextPrecedence_local.bind fun next => .ite (.pure _)
          ((parseOperator_reads (hlocal depth) left next).isLocal.map _)

/-- As many levels as there are tokens suffice, and one for the expression itself. -/
theorem parse_spared (h : n < ctx.depth) : Spared ctx n parse :=
  .remaining (parseAt_spared h 0)

end Expr

namespace DataType

/-- The type of the elements stands behind a name and an angle bracket, which the level for it is
    paid with. -/
theorem parseAt_spared {depth : Nat} (h : n < depth) :
    Spared { ctx with depth } n (parseAt depth) := by
  induction depth generalizing n with
  | zero => exact absurd h (by simp)
  | succ depth ih =>
      refine .descend rfl <|
        (Spared.free parseName_steady).bind_reads parseName_reads fun m hm name =>
        .accept (by simp [EndMark]) ?_ ?_
      · exact (ih (by omega)).bind (.of (parseAt_local depth)) fun _ => .expect (by simp) fun _ =>
          .behind parseArguments_steady parseArguments_local fun _ => .pure _
      · exact .behind parseArguments_steady parseArguments_local fun _ => .pure _

theorem parse_spared (h : n < ctx.depth) : Spared ctx n parse := .remaining (parseAt_spared h)

end DataType

/-! ## What clauses are made of -/

theorem ColumnDefinition.parse_spared (h : n < ctx.depth) : Spared ctx n parse := by
  refine .behind (Ident.parse_steady false) (Ident.parse_local false) fun name => .peek fun t => ?_
  have hspecs : ∀ dataType, Spared ctx n (do
      return { name, dataType, specs := ← parseSpecs } : Parser ColumnDefinition) := fun _ =>
    .behind parseSpecs_steady parseSpecs_local fun _ => .pure _
  exact .ite (hspecs none) ((DataType.parse_spared h).map.bind
    (.of (DataType.parse_local.map some)) hspecs)

theorem ColumnAction.parse_spared (h : n < ctx.depth) : Spared ctx n parse := by
  have htype : ∀ long, Spared ctx n (do
      return .setDataType (← DataType.parse) long : Parser ColumnAction) := fun _ =>
    (DataType.parse_spared h).bind (.of DataType.parse_local) fun _ => .pure _
  exact .keyword _ (htype false) <| .keywords _ (htype true) <|
    .keywords _ ((Expr.parse_spared h).bind (.of Expr.parse_local) fun _ => .pure _) <|
    .keywords _ (.pure _) <| .keywords _ (.pure _) <| .keywords _ (.pure _) <|
    .keywords _ (.pure _) <| .keywords _ (.pure _) <|
    .keywords _ (.behind Lawful.group groupText_local fun _ => .pure _) <|
    .free (.expected_peek _)

/-- Only the conditions and expressions inside a constraint take levels. -/
theorem TableConstraint.parse_spared (h : n < ctx.depth) : Spared ctx n parse := by
  have hcondition : Spared ctx n parseCondition :=
    .parenthesized (Expr.parse_spared h) (.of Expr.parse_local)
  have hcheck : ∀ name, Spared ctx n (do
      return .check name (← parseCondition) : Parser TableConstraint) := fun _ =>
    hcondition.bind (.of (Local.parenthesized Expr.parse_local.within)) fun _ => .pure _
  have hforeign : ∀ name, Spared ctx n (do
      return .foreignKey (← ForeignKey.parse name) : Parser TableConstraint) := fun name =>
    .behind (ForeignKey.parse_steady name) (ForeignKey.parse_local name) fun _ => .pure _
  have hnamed : ∀ name, Spared ctx n (do
      if ← acceptKeyword .foreign then return .foreignKey (← ForeignKey.parse name)
      if ← acceptKeyword .check then return .check name (← parseCondition)
      return .named name (← Index.parse) : Parser TableConstraint) := fun name =>
    .keyword _ (hforeign name) <| .keyword _ (hcheck name) <|
      .behind Index.parse_steady Index.parse_local fun _ => .pure _
  refine .keyword _ (.peek fun t => .ite (hnamed none) ?_) ?_
  · exact (Spared.free (Ident.parse_steady false)).map.bind
      (.of ((Ident.parse_local false).map some)) hnamed
  · exact .keyword _ (hforeign none) <| .keyword _ (hcheck none) <|
      .behind Index.parse_steady Index.parse_local fun _ => .pure _

namespace Partitioning

/-- A key is a list of columns or an expression. -/
theorem parseKey_spared (h : n < ctx.depth) (method : PartitionMethod) :
    Spared ctx n (parseKey method) := by
  have hcolumns : ∀ keyword, Spared ctx n (do
      return .columns keyword (← Ident.parseList) : Parser PartitionKey) := fun _ =>
    .behind Ident.parseList_steady Ident.parseList_local fun _ => .pure _
  exact .keyword _ (hcolumns true) <| .ite (hcolumns false) <|
    (Spared.parenthesized (Expr.parse_spared h) (.of Expr.parse_local)).bind
      (.of (Local.parenthesized Expr.parse_local.within)) fun _ => .pure _

theorem parse_spared (h : n < ctx.depth) : Spared ctx n parse := by
  refine .behind (.acceptKeyword _) (Local.acceptKeyword _) fun linear =>
    .behind parseMethod_steady parseMethod_local fun method =>
      (parseKey_spared h method).bind (.of (parseKey_local method)) fun key => .free ?_
  refine (Steady.acceptKeyword _).test_next
    (Literal.parseCount_steady.map fun _ _ heq => by rw [heq]) (.pure rfl) fun count => ?_
  exact .peek_if_next PartitionDefinition.parseList_steady (.pure rfl) fun _ => .pure rfl

end Partitioning

/-! ## Clauses -/

namespace AlterClause

theorem parseAdd_spared (h : n < ctx.depth) : Spared ctx n parseAdd := by
  have hcolumn := ColumnDefinition.parse_spared h
  have hl := ColumnDefinition.parse_local (R := Follow StatementEnd)
  refine .keyword _ (.behind PartitionDefinition.parseList_steady
    PartitionDefinition.parseList_local fun _ => .pure _) ?_
  refine .behind ColumnKeyword.parse_steady ColumnKeyword.parse_local fun keyword =>
    .peek fun t => .ite ?_ ?_
  · exact (TableConstraint.parse_spared h).bind (.of TableConstraint.parse_local) fun _ => .pure _
  · exact .behind (.acceptKeywords _) (Local.acceptKeywords _) fun _ => .peek fun t => .ite
      ((Spared.parenthesizedList hcolumn hl).bind (.of (Local.parenthesizedList hl))
        fun _ => .pure _)
      (hcolumn.bind (.of hl) fun _ => .pure _)

theorem parseAlter_spared (h : n < ctx.depth) : Spared ctx n parseAlter := by
  refine .keyword _ (.free ((Ident.parse_steady false).next fun _ =>
    (Steady.expectOneOf _).next fun _ => .pure rfl)) ?_
  refine .behind (.acceptOneOf _) (Local.acceptOneOf _) fun keyword => ?_
  split
  · exact .free ((Ident.parse_steady false).next fun _ => (Steady.acceptKeyword _).next fun _ =>
      .behind_keyword _ (.pure rfl))
  · exact .behind ColumnKeyword.parse_steady ColumnKeyword.parse_local fun _ =>
      .behind (Ident.parse_steady false) (Ident.parse_local false) fun _ =>
        (ColumnAction.parse_spared h).bind (.of ColumnAction.parse_local) fun _ => .pure _

theorem parseModify_spared (h : n < ctx.depth) : Spared ctx n parseModify := by
  have hcolumn := ColumnDefinition.parse_spared h
  have hitem : Spared ctx n parseModifiedColumn :=
    .behind (.acceptKeyword _) (Local.acceptKeyword _) fun _ =>
      hcolumn.bind (.of ColumnDefinition.parse_local) fun _ => .pure _
  have hl := parseModifiedColumn_local (R := Follow StatementEnd)
  exact .behind ColumnKeyword.parse_steady ColumnKeyword.parse_local fun _ => .peek fun t => .ite
    ((Spared.parenthesizedList hitem hl).bind (.of (Local.parenthesizedList hl)) fun _ => .pure _)
    (hcolumn.bind (.of ColumnDefinition.parse_local) fun _ => .pure _)

theorem parseChange_spared (h : n < ctx.depth) : Spared ctx n parseChange :=
  .behind ColumnKeyword.parse_steady ColumnKeyword.parse_local fun _ =>
    .behind (Ident.parse_steady false) (Ident.parse_local false) fun _ =>
      (ColumnDefinition.parse_spared h).bind (.of ColumnDefinition.parse_local) fun _ => .pure _

/-- Clauses that define columns, constraints or partitions need levels, and so do the values of
    table options. -/
theorem parseAfter_spared (h : n < ctx.depth) (found : Located) (keyword : Option Keyword) :
    Spared ctx n (parseAfter found keyword) := by
  unfold parseAfter
  -- a reader without expressions spends no levels; the others are bounded by their parts
  split
  · exact parseAdd_spared h
  · exact parseAlter_spared h
  · exact .free parseDrop_steady
  · exact parseModify_spared h
  · exact parseChange_spared h
  · exact .free parseRename_steady
  · exact .free (parseCollate_steady false)
  · exact .free parseDefault_steady
  · exact .free (.behind_keyword _ (parseCharacterSet_steady false))
  · exact .free parseConvert_steady
  · exact .free (parseSetting_steady _)
  · exact .free (parseSetting_steady _)
  · exact .free (parseSetting_steady _)
  · exact .free (Steady.acceptEquals.next fun _ =>
      Literal.parseCount_steady.next fun _ => .pure rfl)
  · exact .pure _
  · exact .free (Steady.acceptEquals.next fun _ =>
      Literal.parseString_steady.next fun _ => .pure rfl)
  · exact .free (parseTablespace_steady _ _)
  · exact .free (parseTablespace_steady _ _)
  · exact .free (.behind_keyword _ (.pure rfl))
  · exact .free (.behind_keyword _ (.pure rfl))
  · exact .free (parsePartitionCommand_steady _)
  · exact .free (parsePartitionCommand_steady _)
  · exact .free (parsePartitionCommand_steady _)
  · exact .free (parsePartitionCommand_steady _)
  · exact .free (parsePartitionCommand_steady _)
  · exact .free (parsePartitionCommand_steady _)
  · exact .free (.behind_keyword _ <| Literal.parseCount_steady.next fun _ => .pure rfl)
  · exact .free parseReorganize_steady
  · exact .free parseExchange_steady
  · exact .free (.behind_keyword _ (.pure rfl))
  · exact .expectKeyword _ fun _ =>
      (Partitioning.parse_spared h).bind (.of Partitioning.parse_local) fun _ => .pure _
  · exact .free (Alike.back.next fun _ => Lawful.value.next fun _ => .pure rfl)
  · exact .ite (.behind Steady.acceptEquals Local.acceptEquals fun _ =>
      (Expr.parse_spared h).bind (.of Expr.parse_local) fun _ => .pure _)
      (.free (.expected _ rfl))
  · exact .free (.expected _ rfl)

/-- Each kind of clause needs no more levels than the expressions and types in it. -/
theorem parse_spared (h : n < ctx.depth) : Spared ctx n parse :=
  .next (fun _ hm t => parseAfter_spared (hm.trans h) t _) (.expected _ rfl)

end AlterClause

theorem Alter.parse_spared (h : n < ctx.depth) : Spared ctx n parse := by
  have hl := AlterClause.parse_reads (R := Follow StatementEnd) |>.isLocal
  exact .expectKeyword _ fun _ => .behind (.acceptKeywords _) (Local.acceptKeywords _) fun _ =>
    .behind (.acceptKeyword _) (Local.acceptKeyword _) fun _ =>
      .behind ObjectName.parse_steady ObjectName.parse_local fun _ =>
        (Spared.commaSeparatedWith false (AlterClause.parse_spared h) hl).bind
          (.of (Local.commaSeparatedWith false hl)) fun _ => .pure _

/-! ## Queries -/

theorem SelectItem.parse_spared (h : n < ctx.depth) : Spared ctx n parse := by
  refine .test (Steady.accept (by simp)) (Local.accept (by simp [EndMark])) (.pure _) ?_
  refine (Expr.parse_spared h).bind (.of Expr.parse_local) fun e => .free ?_
  refine (Ident.parseAlias_steady _).next fun asName => ?_
  cases asName with
  | none => exact .pure rfl
  | some asName => exact .pure rfl

theorem SelectItem.parseList_spared (h : n < ctx.depth) : Spared ctx n parseList :=
  .commaSeparated (parse_spared h) parse_local

theorem OrderItem.parse_spared (h : n < ctx.depth) : Spared ctx n parse := by
  refine (Expr.parse_spared h).bind (.of Expr.parse_local) fun expr => .free ?_
  refine (Steady.acceptOneOf _).next fun direction => ?_
  split
  · exact .pure rfl
  · exact .pure rfl
  · exact .pure rfl

/-- An expression that may follow. -/
theorem Expr.parse?_spared {α : Type} (h : n < ctx.depth) (keyword : Keyword)
    {f : Option Expr → Parser α} (hf : ∀ e, Spared ctx n (f e)) : Spared ctx n (do
      let e ← if ← acceptKeyword keyword then some <$> Expr.parse else Pure.pure none
      f e) :=
  .keyword _ ((Expr.parse_spared h).map.bind (.of (Expr.parse_local.map some)) hf) (hf none)

/-- The parts of a query stand one behind the other and share its levels. -/
theorem Select.parse_spared (h : n < ctx.depth) : Spared ctx n parse := by
  refine .behind (.acceptKeyword _) (Local.acceptKeyword _) fun distinct =>
    (SelectItem.parseList_spared h).bind (.of SelectItem.parseList_local) fun projection => ?_
  have hwhere : ∀ source, Spared ctx n (do
      let selection ← if ← acceptKeyword .where then some <$> Expr.parse else pure none
      return { distinct, projection, source, selection } : Parser Select) := fun _ =>
    Expr.parse?_spared h _ fun _ => .pure _
  exact .keyword _ ((Spared.free TableRef.parse_steady).map.bind
    (.of (TableRef.parse_local.map some)) hwhere) (hwhere none)

/-- The words in front of the expressions of a pipe operator are tokens too, so here the levels need
    not exceed the tokens that are left. -/
theorem PipeOperator.parse_spared (h : n ≤ ctx.depth) : Spared ctx n parse := by
  refine .next (fun m hm t => ?_) (.expected _ rfl)
  -- the keyword of the operator has been taken, which leaves one token fewer
  have h : m < ctx.depth := by omega
  split
  · exact (Expr.parse_spared h).bind (.of Expr.parse_local) fun _ => .pure _
  · exact (SelectItem.parseList_spared h).bind (.of SelectItem.parseList_local) fun _ => .pure _
  · exact (SelectItem.parseList_spared h).bind (.of SelectItem.parseList_local) fun _ => .pure _
  · exact .free ((Alike.commaSeparated (Ident.parse_local false) (Ident.parse_local false)
      (Ident.parse_steady false)).next fun _ => .pure rfl)
  · exact .free ((Ident.parse_steady false).next fun _ => .pure rfl)
  · exact (Expr.parse_spared h).bind (.of Expr.parse_local) fun _ =>
      Expr.parse?_spared h _ fun _ => .pure _
  · exact .expectKeyword _ fun _ => (Spared.commaSeparated (OrderItem.parse_spared h)
      OrderItem.parse_local).bind (.of (Local.commaSeparated OrderItem.parse_local))
        fun _ => .pure _
  · exact .free ((Alike.commaSeparated Renaming.parse_local Renaming.parse_local
      Renaming.parse_steady).next fun _ => .pure rfl)
  · have hlist := SelectItem.parseList_spared h
    have hgroup : ∀ items, Spared ctx m (do
        let groupBy ← if ← acceptKeywords [.group, .by] then SelectItem.parseList else pure []
        return .aggregate items groupBy : Parser PipeOperator) := fun _ =>
      .keywords _ (hlist.bind (.of SelectItem.parseList_local) fun _ => .pure _) (.pure _)
    exact .peek fun t => .ite (hgroup []) (hlist.bind (.of SelectItem.parseList_local) hgroup)
  · exact .free (.expected _ rfl)

namespace Query

/-- The body of a query starts with a word, which is one token less for what stands in it. -/
theorem parseBody_spared (h : n ≤ ctx.depth) : Spared ctx n parseBody :=
  .test_takes (.acceptKeyword _) (.acceptKeyword _)
    (fun m hm => (Select.parse_spared (by omega)).bind (.of Select.parse_local) fun _ => .pure _) <|
    .free (.behind_keyword _ <| TableRef.parse_steady.next fun _ => .pure rfl)

/-- A query takes one level, and its first word pays for the expressions behind it. -/
theorem parse_spared (h : n < ctx.depth) : Spared ctx n parse := by
  obtain ⟨depth, hdepth⟩ : ∃ depth, ctx.depth = depth + 1 := ⟨ctx.depth - 1, by omega⟩
  have hpipes : ∀ m < n, Spared { ctx with depth } m parsePipes := fun m hm =>
    .read <| .ite (.pure _) <| .many_test (Steady.accept (by simp))
      (Local.accept (by simp [EndMark]))
      (PipeOperator.parse_spared (by show m ≤ depth; omega)) PipeOperator.parse_local
  exact .descend hdepth <| (parseBody_spared (by show n ≤ depth; omega)).bind_reads parseBody_reads
    fun m hm body => (hpipes m hm).bind (.of parsePipes_local) fun _ => .pure _

end Query

/-! ## Statements -/

theorem Explain.parse_spared (h : n < ctx.depth) (keyword : ExplainKeyword) :
    Spared ctx n (parse keyword) := by
  have htarget : Spared ctx n parseTarget :=
    .behind (.peekKeyword _) (Local.peekKeyword _) fun _ =>
      .behind (.peekKeyword _) (Local.peekKeyword _) fun _ => .ite
        ((Query.parse_spared h).bind (.of Query.parse_reads.isLocal) fun _ => .pure _)
        (.free (ObjectName.parse_steady.next fun _ => .pure rfl))
  exact .behind (.many ExplainOption.parse_offers ExplainOption.parse_offers
    ExplainOption.parse_steady) (Local.many ExplainOption.parse_offers) fun _ =>
      htarget.bind (.of parseTarget_local) fun _ => .pure _

namespace Statement

/-- Whatever the first word says, the statement needs the levels of its parts. -/
theorem parseBuiltin_spared (h : n < ctx.depth) : Spared ctx n parseBuiltin := by
  have hquery : Spared ctx n (do return .query (← Query.parse) : Parser Statement) :=
    (Query.parse_spared h).bind (.of Query.parse_reads.isLocal) fun _ => .pure _
  refine .next_or_back (fun t => ?_) (.expected _ rfl)
  split
  · exact .inl fun m hm => (Alter.parse_spared (hm.trans h)).bind (.of Alter.parse_local)
      fun _ => .pure _
  · exact .inl fun m hm => (Explain.parse_spared (hm.trans h) _).bind (.of (Explain.parse_local _))
      fun _ => .pure _
  · exact .inl fun m hm => (Explain.parse_spared (hm.trans h) _).bind (.of (Explain.parse_local _))
      fun _ => .pure _
  · exact .inl fun m hm => (Explain.parse_spared (hm.trans h) _).bind (.of (Explain.parse_local _))
      fun _ => .pure _
  · exact .inl fun m hm => .free ((CreateSynonym.parse_steady fun hd =>
      congrArg Dialect.synonyms hd).next fun _ => .pure rfl)
  · exact .inr ⟨_, rfl, hquery⟩
  · exact .inr ⟨_, rfl, hquery⟩
  · exact .inl fun m hm => .free (.expected _ rfl)

/-- A statement takes one level, and a query starts with the first word of its statement. -/
theorem parseWith_spared (h : n + 2 ≤ ctx.depth) : Spared ctx n (parseWith noExtension) := by
  obtain ⟨depth, hdepth⟩ : ∃ depth, ctx.depth = depth + 1 := ⟨ctx.depth - 1, by omega⟩
  have hbuiltin : Spared { ctx with depth } n parseBuiltin :=
    parseBuiltin_spared (by show n < depth; omega)
  exact .descend hdepth hbuiltin

/-- Semicolons are passed, and a statement is read or the end is found. -/
theorem parseNext_settles (first : Bool) : Settles (parseNext noExtension first) := by
  intro ctx c o c' h0 h
  obtain ⟨c1, hat, hok⟩ := parseNext_ok ctx first (at_rest h0)
  have hle : solids c1.rest ≤ solids c.rest := by
    rw [hat.rest]
    exact (List.dropWhile_sublist _).countP_le
  rcases (hok o c').mp h with ⟨-, -, rfl⟩ | ⟨-, -, s, hs, -⟩
  · exact ⟨hat.overrun, hle⟩
  · obtain ⟨h1, hle'⟩ := Settles.of parseWith_reads.isLocal ctx c1 s c' hat.overrun hs
    exact ⟨h1, hle'.trans hle⟩

theorem acceptSemicolons_settles : Settles acceptSemicolons := by
  intro ctx c b c' h0 h
  obtain ⟨c1, hrun, hat⟩ := acceptSemicolons_run ctx (at_rest h0)
  obtain ⟨-, rfl⟩ := EStateM.Result.ok.inj (h.symm.trans hrun)
  refine ⟨hat.overrun, ?_⟩
  rw [hat.rest]
  exact (List.dropWhile_sublist _).countP_le

/-- Two levels more than there are tokens suffice: one is the statement's, and the other the query's
    in it. -/
theorem parseNext_spared (h : n + 2 ≤ ctx.depth) (first : Bool) :
    Spared ctx n (parseNext noExtension first) := by
  have hstatement : Spared ctx n (some <$> parseWith noExtension) := (parseWith_spared h).map
  refine (Spared.free acceptSemicolons_steady).bind acceptSemicolons_settles fun separated =>
    .peek fun t => .ite (.pure _) <| .ite (fun c _ _ c' hrun => ?_) hstatement
  exact absurd (EStateM.Result.error.inj hrun).1 (by simp)

/-- Two levels more than tokens suffice for a whole text. -/
theorem parseAll_spared (h : n + 2 ≤ ctx.depth) : Spared ctx n parseAll := by
  have hstep : ∀ statements : List Statement, Spared ctx n
      ((·.map (· :: statements)) <$> parseNext noExtension statements.isEmpty) := fun statements =>
    (parseNext_spared h statements.isEmpty).map
  have hsettles : ∀ statements : List Statement, Settles
      ((·.map (· :: statements)) <$> parseNext noExtension statements.isEmpty) := by
    intro statements ctx c o c' h0 hrun
    obtain ⟨o, ho, -⟩ := map_ok.mp hrun
    exact parseNext_settles _ ctx c o c' h0 ho
  exact (Spared.iterate hstep hsettles []).map

end Statement

end SchemaSql
