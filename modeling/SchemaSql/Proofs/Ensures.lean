import SchemaSql.Proofs.Run

/-! # What every value of a reader satisfies

    `Ensures p P` says that whatever `p` gives, on whatever tokens, satisfies `P`; where that
    depends on the context, `EnsuresAt ctx p P` says it of one context.  The rules follow the
    combinators that readers are built from, so that a fact about the readers of the parts is
    all that a proof about a composite reader needs:

    * `EnsuresAt.bind`, `EnsuresAt.ite` and their companions follow a `do` block;
    * `EnsuresAt.iterate` is the invariant of a loop, and `EnsuresAt.many` gathers values;
    * `EnsuresAt.commaSeparatedWith` and the lists built on it are never empty;
    * the rules of `Ensures` are those of `EnsuresAt`, in every context;
    * `Expr.parseOperator_ensures` says what an operator has to be known of. -/

namespace SchemaSql

open SchemaSql.Parser

variable {α β : Type}

/-- Every value that a reader gives in a context satisfies `P`. -/
def EnsuresAt (ctx : Context) (p : Parser α) (P : α → Prop) : Prop :=
  ∀ c v c', p ctx c = .ok v c' → P v

/-- Every value that a reader gives satisfies `P`. -/
def Ensures (p : Parser α) (P : α → Prop) : Prop :=
  ∀ ctx c v c', p ctx c = .ok v c' → P v

/-- A list that has items, all of which satisfy `P`. -/
def Filled (P : α → Prop) (items : List α) : Prop := items ≠ [] ∧ ∀ a ∈ items, P a

/-! ## In one context -/

namespace EnsuresAt

variable {ctx : Context} {P Q : α → Prop} {R : β → Prop}

/-- What is said of all values may be said more weakly. -/
theorem mono {p : Parser α} (hp : EnsuresAt ctx p P) (h : ∀ a, P a → Q a) : EnsuresAt ctx p Q :=
  fun c v c' hrun => h v (hp c v c' hrun)

/-- What holds of every value holds of those that a reader gives. -/
theorem of_forall {p : Parser α} (h : ∀ a, P a) : EnsuresAt ctx p P := fun _ v _ _ => h v

/-- The value that is given is the only one. -/
theorem pure {a : α} (h : P a) : EnsuresAt ctx (Pure.pure a) P := by
  intro c v c' hrun
  obtain ⟨rfl, -⟩ := pure_ok.mp hrun
  exact h

/-- An error gives no value, and so none that could fail `P`. -/
theorem throw {e : ParseError} : EnsuresAt ctx (MonadExcept.throw e : Parser α) P :=
  fun _ _ _ hrun => absurd hrun throw_ne_ok

theorem expected {what : String} {found : Located} :
    EnsuresAt ctx (Parser.expected what found) P := throw

/-- What holds of the first value may be used about the second reader. -/
theorem bind {p : Parser α} {f : α → Parser β} (hp : EnsuresAt ctx p P)
    (hf : ∀ a, P a → EnsuresAt ctx (f a) R) : EnsuresAt ctx (p >>= f) R := by
  intro c v c' hrun
  obtain ⟨a, c1, ha, hrun⟩ := bind_ok.mp hrun
  exact hf a (hp c a c1 ha) c1 v c' hrun

/-- A reader whose value does not matter for what comes behind it. -/
theorem after {p : Parser α} {f : α → Parser β} (hf : ∀ a, EnsuresAt ctx (f a) R) :
    EnsuresAt ctx (p >>= f) R :=
  bind (of_forall (P := fun _ => True) fun _ => trivial) fun a _ => hf a

/-- A reader that asks how many levels are left. -/
theorem remaining {f : Nat → Parser α} (hf : EnsuresAt ctx (f ctx.depth) P) :
    EnsuresAt ctx (Parser.remaining >>= f) P := hf

theorem map {p : Parser α} {g : α → β} (hp : EnsuresAt ctx p P) (hg : ∀ a, P a → R (g a)) :
    EnsuresAt ctx (g <$> p) R := by
  intro c v c' hrun
  obtain ⟨a, ha, rfl⟩ := map_ok.mp hrun
  exact hg a (hp c a c' ha)

/-- Each side of a choice may use that it was chosen. -/
theorem ite {b : Prop} [Decidable b] {p q : Parser α} (hp : b → EnsuresAt ctx p P)
    (hq : ¬ b → EnsuresAt ctx q P) : EnsuresAt ctx (if b then p else q) P := by
  by_cases h : b
  · rw [if_pos h]
    exact hp h
  · rw [if_neg h]
    exact hq h

/-- A reader that is asked for a token and goes one way or the other. -/
theorem test {t : Parser Bool} {p q : Parser α} (hp : EnsuresAt ctx p P)
    (hq : EnsuresAt ctx q P) : EnsuresAt ctx (t >>= fun b => if b then p else q) P :=
  after fun _ => ite (fun _ => hp) fun _ => hq

/-- A value that is read in one of two ways. -/
theorem bind_ite {b : Prop} [Decidable b] {p q : Parser α} {f : α → Parser β}
    (hp : EnsuresAt ctx p P) (hq : EnsuresAt ctx q P) (hf : ∀ a, P a → EnsuresAt ctx (f a) R) :
    EnsuresAt ctx (if b then p >>= f else q >>= f) R :=
  ite (fun _ => bind hp hf) fun _ => bind hq hf

/-- The same, where the value does not matter for what comes behind it. -/
theorem either {b : Prop} [Decidable b] {p q : Parser α} {f : α → Parser β}
    (hf : ∀ a, EnsuresAt ctx (f a) R) : EnsuresAt ctx (if b then p >>= f else q >>= f) R :=
  ite (fun _ => after hf) fun _ => after hf

/-- What a reader gives where a test succeeds, and nothing elsewhere. -/
theorem bind_option {t : Parser Bool} {p : Parser α} {f : Option α → Parser β}
    (hp : EnsuresAt ctx p P) (hf : ∀ o, (∀ a ∈ o, P a) → EnsuresAt ctx (f o) R) :
    EnsuresAt ctx (t >>= fun b => if b then some <$> p >>= f else Pure.pure none >>= f) R :=
  after fun _ => bind_ite (map hp (by simp)) (pure (by simp)) hf

/-- What is read one level further down is read with one level less. -/
theorem descend {p : Parser α}
    (hp : ∀ depth, ctx.depth = depth + 1 → EnsuresAt { ctx with depth } p P) :
    EnsuresAt ctx (Parser.descend p) P := by
  intro c v c' hrun
  obtain ⟨depth, hdepth, hrun⟩ := descend_ok.mp hrun
  exact hp depth hdepth c v c' hrun

/-! ### Loops -/

/-- A bounded loop keeps an invariant that each of its rounds keeps. -/
theorem iterateUpTo {step : β → Parser (Option β)}
    (h : ∀ s, R s → EnsuresAt ctx (step s) fun o => ∀ s' ∈ o, R s') (n : Nat) :
    ∀ s, R s → EnsuresAt ctx (Parser.iterateUpTo step n s) R := by
  induction n with
  | zero => exact fun s hs => pure hs
  | succ n ih =>
      intro s hs
      refine bind (h s hs) fun o ho => ?_
      cases o with
      | none => exact pure hs
      | some s' => exact ih s' (ho s' rfl)

/-- What holds in front of a loop and is kept by its step holds behind it. -/
theorem iterate {step : β → Parser (Option β)} {s : β} (hs : R s)
    (h : ∀ s, R s → EnsuresAt ctx (step s) fun o => ∀ s' ∈ o, R s') :
    EnsuresAt ctx (Parser.iterate step s) R :=
  after fun _ => iterateUpTo h _ s hs

/-- A property of each value that a round gives is one of all values that are gathered. -/
theorem many {item : Parser (Option α)} (h : EnsuresAt ctx item fun o => ∀ a ∈ o, P a) :
    EnsuresAt ctx (Parser.many item) fun items => ∀ a ∈ items, P a := by
  refine map (P := fun items => ∀ a ∈ items, P a)
    (iterate (by simp) fun items hitems => map h ?_) (by simp)
  rintro (_ | a) ho
  · simp
  · simpa using ⟨ho a rfl, hitems⟩

/-- A loop that reads an item wherever a test succeeds. -/
theorem many_test {t : Parser Bool} {item : Parser α} (h : EnsuresAt ctx item P) :
    EnsuresAt ctx (Parser.many do if ← t then some <$> item else return none)
      fun items => ∀ a ∈ items, P a :=
  many (test (map h (by simp)) (pure (by simp)))

/-! ### Lists -/

/-- The first item makes the list one that has items. -/
theorem commaSeparatedWith (trailing : Bool) {item : Parser α} (h : EnsuresAt ctx item P) :
    EnsuresAt ctx (Parser.commaSeparatedWith trailing item) (Filled P) :=
  bind h fun first hfirst => bind (many_test h) fun rest hrest =>
    pure ⟨List.cons_ne_nil first rest, List.forall_mem_cons.mpr ⟨hfirst, hrest⟩⟩

theorem commaSeparated {item : Parser α} (h : EnsuresAt ctx item P) :
    EnsuresAt ctx (Parser.commaSeparated item) (Filled P) :=
  after fun ctx' => commaSeparatedWith ctx'.options.trailingCommas h

/-- A list that may be empty satisfies what its items satisfy, and no more. -/
theorem commaSeparatedUntil {close : Token} {item : Parser α} (h : EnsuresAt ctx item P) :
    EnsuresAt ctx (Parser.commaSeparatedUntil close item) fun items => ∀ a ∈ items, P a := by
  refine after fun _ => ite (fun _ => pure (by simp)) fun _ => ?_
  refine after fun _ => after fun _ => ite (fun _ => after fun _ => pure (by simp)) fun _ => ?_
  exact (commaSeparated h).mono fun _ hitems => hitems.2

/-- The parentheses add nothing to the value. -/
theorem parenthesized {p : Parser α} (hp : EnsuresAt ctx p P) :
    EnsuresAt ctx (Parser.parenthesized p) P :=
  after fun _ => bind hp fun _ hvalue => after fun _ => pure hvalue

end EnsuresAt

/-! ## In every context -/

namespace Ensures

variable {P Q : α → Prop} {R : β → Prop}

theorem mono {p : Parser α} (hp : Ensures p P) (h : ∀ a, P a → Q a) : Ensures p Q :=
  fun ctx => EnsuresAt.mono (hp ctx) h

theorem of_forall {p : Parser α} (h : ∀ a, P a) : Ensures p P := fun _ => EnsuresAt.of_forall h

theorem pure {a : α} (h : P a) : Ensures (Pure.pure a) P := fun _ => EnsuresAt.pure h

theorem throw {e : ParseError} : Ensures (MonadExcept.throw e : Parser α) P :=
  fun _ => EnsuresAt.throw

theorem expected {what : String} {found : Located} : Ensures (Parser.expected what found) P :=
  throw

theorem bind {p : Parser α} {f : α → Parser β} (hp : Ensures p P)
    (hf : ∀ a, P a → Ensures (f a) R) : Ensures (p >>= f) R :=
  fun ctx => EnsuresAt.bind (hp ctx) fun a ha => hf a ha ctx

theorem after {p : Parser α} {f : α → Parser β} (hf : ∀ a, Ensures (f a) R) :
    Ensures (p >>= f) R := fun ctx => EnsuresAt.after fun a => hf a ctx

theorem map {p : Parser α} {g : α → β} (hp : Ensures p P) (hg : ∀ a, P a → R (g a)) :
    Ensures (g <$> p) R := fun ctx => EnsuresAt.map (hp ctx) hg

theorem ite {b : Prop} [Decidable b] {p q : Parser α} (hp : b → Ensures p P)
    (hq : ¬ b → Ensures q P) : Ensures (if b then p else q) P :=
  fun ctx => EnsuresAt.ite (fun h => hp h ctx) fun h => hq h ctx

/-- A test in front of two readers may choose either. -/
theorem test {t : Parser Bool} {p q : Parser α} (hp : Ensures p P) (hq : Ensures q P) :
    Ensures (t >>= fun b => if b then p else q) P :=
  fun ctx => EnsuresAt.test (hp ctx) (hq ctx)

/-- Two readers for one value, and what comes behind both. -/
theorem bind_ite {b : Prop} [Decidable b] {p q : Parser α} {f : α → Parser β}
    (hp : Ensures p P) (hq : Ensures q P) (hf : ∀ a, P a → Ensures (f a) R) :
    Ensures (if b then p >>= f else q >>= f) R :=
  fun ctx => EnsuresAt.bind_ite (hp ctx) (hq ctx) fun a ha => hf a ha ctx

/-- Where only the reader behind a choice matters, both sides may be anything. -/
theorem either {b : Prop} [Decidable b] {p q : Parser α} {f : α → Parser β}
    (hf : ∀ a, Ensures (f a) R) : Ensures (if b then p >>= f else q >>= f) R :=
  fun ctx => EnsuresAt.either fun a => hf a ctx

/-- A part that may be missing: the reader behind it uses what holds of the part if there is one. -/
theorem bind_option {t : Parser Bool} {p : Parser α} {f : Option α → Parser β}
    (hp : Ensures p P) (hf : ∀ o, (∀ a ∈ o, P a) → Ensures (f o) R) :
    Ensures (t >>= fun b => if b then some <$> p >>= f else Pure.pure none >>= f) R :=
  fun ctx => EnsuresAt.bind_option (hp ctx) fun o ho => hf o ho ctx

theorem descend {p : Parser α} (hp : Ensures p P) : Ensures (Parser.descend p) P :=
  fun _ => EnsuresAt.descend fun _ _ => hp _

theorem iterate {step : β → Parser (Option β)} {s : β} (hs : R s)
    (h : ∀ s, R s → Ensures (step s) fun o => ∀ s' ∈ o, R s') :
    Ensures (Parser.iterate step s) R :=
  fun ctx => EnsuresAt.iterate hs fun s hs => h s hs ctx

theorem many {item : Parser (Option α)} (h : Ensures item fun o => ∀ a ∈ o, P a) :
    Ensures (Parser.many item) fun items => ∀ a ∈ items, P a :=
  fun ctx => EnsuresAt.many (h ctx)

/-- Items that are read as long as a test in front of them succeeds. -/
theorem many_test {t : Parser Bool} {item : Parser α} (h : Ensures item P) :
    Ensures (Parser.many do if ← t then some <$> item else return none)
      fun items => ∀ a ∈ items, P a :=
  fun ctx => EnsuresAt.many_test (h ctx)

theorem commaSeparatedWith (trailing : Bool) {item : Parser α} (h : Ensures item P) :
    Ensures (Parser.commaSeparatedWith trailing item) (Filled P) :=
  fun ctx => EnsuresAt.commaSeparatedWith trailing (h ctx)

theorem commaSeparated {item : Parser α} (h : Ensures item P) :
    Ensures (Parser.commaSeparated item) (Filled P) :=
  fun ctx => EnsuresAt.commaSeparated (h ctx)

theorem commaSeparatedUntil {close : Token} {item : Parser α} (h : Ensures item P) :
    Ensures (Parser.commaSeparatedUntil close item) fun items => ∀ a ∈ items, P a :=
  fun ctx => EnsuresAt.commaSeparatedUntil (h ctx)

theorem parenthesized {p : Parser α} (hp : Ensures p P) : Ensures (Parser.parenthesized p) P :=
  fun ctx => EnsuresAt.parenthesized (hp ctx)

theorem parenthesizedList {item : Parser α} (h : Ensures item P) :
    Ensures (Parser.parenthesizedList item) (Filled P) :=
  parenthesized (commaSeparatedWith false h)

/-- Whatever the items are, a list of them is not empty. -/
theorem commaSeparated_ne_nil {item : Parser α} : Ensures (Parser.commaSeparated item) (· ≠ []) :=
  (commaSeparated (of_forall (P := fun _ => True) fun _ => trivial)).mono fun _ h => h.1

/-- Between parentheses a list has items whatever these are. -/
theorem parenthesizedList_ne_nil {item : Parser α} :
    Ensures (Parser.parenthesizedList item) (· ≠ []) :=
  (parenthesizedList (of_forall (P := fun _ => True) fun _ => trivial)).mono fun _ h => h.1

end Ensures

/-! ## Operators of expressions -/

namespace Expr

/-- An operator is put behind an operand that is there already, so it is enough to know the
    expressions that are built from this operand and from what is read to its right. -/
theorem parseOperator_ensures {sub : SubParser} {P : Expr → Prop} {left : Expr} {precedence : Nat}
    (hbinary : ∀ op, Ensures (sub precedence) fun right => P (.binary left op right))
    (hnull : P (.isNull left)) (hnotNull : P (.isNotNull left))
    (hinList : ∀ negated, Ensures (parseInList sub left negated) P)
    (hbetween : ∀ negated, Ensures (parseBetween sub left negated) P) :
    Ensures (parseOperator sub left precedence) P := by
  -- the keyword of a range is put back, and `NOT` may stand in front of it
  have hrange : Ensures (do
      back
      let negated ← acceptKeyword .not
      if ← acceptKeyword .in then return ← parseInList sub left negated
      if ← acceptKeyword .between then return ← parseBetween sub left negated
      expected "IN or BETWEEN after NOT" (← peek)) P :=
    .after fun _ => .after fun negated =>
      .test (hinList negated) <| .test (hbetween negated) <| .after fun _ => .expected
  refine .after fun found => ?_
  split
  · exact .bind (hbinary _) fun right hright => .pure hright
  · split
    · exact .test (.pure hnull) <| .test (.pure hnotNull) <| .after fun _ => .expected
    · exact hrange
    · exact hrange
    · exact hrange
    · exact .throw

end Expr

end SchemaSql
