import SchemaSql.Proofs.Progress.Expressions

/-! # The recursion of the readers — nothing but the counter bounds it

    The readers of expressions and of data types are recursive, and they are defined by recursion
    on the levels that are left where they start.  That bound is the counter's own: a level that
    is taken from the counter is one that the recursion goes down.  So the readers are those that
    take a level, read what may have such a reader inside it, and give the level back
    (`Expr.parseAbove_eq`, `DataType.parse_eq`), and no error for the limit has another source. -/

namespace SchemaSql

open SchemaSql.Parser

/-! ## Readers that do the same in one context -/

/-- The readers do the same from every place, with these levels left. -/
def Parser.Agree {α : Type} (ctx : Context) (p q : Parser α) : Prop := ∀ c, p ctx c = q ctx c

namespace Parser.Agree

variable {α β : Type} {ctx : Context} {p q : Parser α}

theorem refl (p : Parser α) : Agree ctx p p := fun _ => rfl

/-- Behind readers that do the same, the same levels are left. -/
theorem bind {f g : α → Parser β} (h : Agree ctx p q) (hf : ∀ a, Agree ctx (f a) (g a)) :
    Agree ctx (p >>= f) (q >>= g) := by
  intro c
  rw [bind_apply, bind_apply, h c]
  cases q ctx c with
  | ok a c1 => exact hf a c1
  | error e c1 => rfl

/-- The same reader may stand in front of both. -/
theorem behind (p : Parser α) {f g : α → Parser β} (hf : ∀ a, Agree ctx (f a) (g a)) :
    Agree ctx (p >>= f) (p >>= g) := (refl p).bind hf

/-- The same reader may stand behind both. -/
theorem next (f : α → Parser β) (h : Agree ctx p q) : Agree ctx (p >>= f) (q >>= f) :=
  h.bind fun a => refl (f a)

theorem map (g : α → β) (h : Agree ctx p q) : Agree ctx (g <$> p) (g <$> q) := fun c => by
  rw [map_apply, map_apply, h c]

theorem ite {b : Prop} [Decidable b] {p' q' : Parser α} (h : Agree ctx p q)
    (h' : Agree ctx p' q') : Agree ctx (if b then p else p') (if b then q else q') := by
  split
  · exact h
  · exact h'

/-! ### Loops and lists -/

/-- Loops whose steps do the same go round alike. -/
theorem iterate {step step' : β → Parser (Option β)} (h : ∀ s, Agree ctx (step s) (step' s))
    (s : β) : Agree ctx (Parser.iterate step s) (Parser.iterate step' s) := by
  have hupTo : ∀ n s, Agree ctx (iterateUpTo step n s) (iterateUpTo step' n s) := by
    intro n
    induction n with
    | zero => exact fun s => refl _
    | succ n ih =>
        refine fun s => (h s).bind fun o => ?_
        cases o with
        | none => exact refl _
        | some s' => exact ih s'
  exact fun c => by rw [iterate_apply, iterate_apply, hupTo]

/-- Lists are gathered alike from items that are read alike. -/
theorem many {item item' : Parser (Option α)} (h : Agree ctx item item') :
    Agree ctx (Parser.many item) (Parser.many item') :=
  (iterate (fun _ => h.map _) []).map _

theorem commaSeparatedWith (trailing : Bool) (h : Agree ctx p q) :
    Agree ctx (Parser.commaSeparatedWith trailing p) (Parser.commaSeparatedWith trailing q) :=
  h.bind fun _ => (many <| behind _ fun _ => (h.map some).ite (refl _)).next _

theorem commaSeparated (h : Agree ctx p q) :
    Agree ctx (Parser.commaSeparated p) (Parser.commaSeparated q) :=
  behind _ fun _ => h.commaSeparatedWith _

/-- Whether a list is empty is found by the same tokens, so only its items can differ. -/
theorem commaSeparatedUntil (close : Token) (h : Agree ctx p q) :
    Agree ctx (Parser.commaSeparatedUntil close p) (Parser.commaSeparatedUntil close q) :=
  behind _ fun _ => (refl _).ite <| behind _ fun _ => behind _ fun _ =>
    (refl _).ite h.commaSeparated

theorem parenthesized (h : Agree ctx p q) :
    Agree ctx (Parser.parenthesized p) (Parser.parenthesized q) :=
  behind _ fun _ => h.next _

end Parser.Agree

/-! ## Expressions -/

namespace Expr

section

variable {ctx : Context} {sub sub' : SubParser} (h : ∀ n, Agree ctx (sub n) (sub' n))

include h

/-- The arguments of a call are where a path asks for the reader of expressions. -/
theorem parsePath_agree (first : Ident) :
    Agree ctx (parsePath sub first) (parsePath sub' first) :=
  .behind _ fun _ => .behind _ fun _ => ((h 0).commaSeparatedUntil _ |>.next _).ite (.refl _)

/-- Only the expressions inside an operand are read by the reader of expressions. -/
theorem parseOperand_agree : Agree ctx (parseOperand sub) (parseOperand sub') := by
  refine .behind _ fun found => ?_
  cases found.token with
  | word w =>
      dsimp only
      split
      · exact .refl _
      · exact .refl _
      · exact .refl _
      · exact (h _).next _
      · exact parsePath_agree h _
  | minus => exact (h _).next _
  | plus => exact (h _).next _
  | lparen => exact (h 0).next _
  | _ => exact .refl _

/-- What stands to the right of an operator is read by the reader of expressions, and so are the
    list of `IN` and the ends of a range. -/
theorem parseOperator_agree (left : Expr) (precedence : Nat) :
    Agree ctx (parseOperator sub left precedence) (parseOperator sub' left precedence) := by
  have hrange : Agree ctx
      (back >>= fun _ => acceptKeyword .not >>= fun negated => parseRange sub left negated)
      (back >>= fun _ => acceptKeyword .not >>= fun negated => parseRange sub' left negated) :=
    .behind _ fun _ => .behind _ fun negated => .behind _ fun _ =>
      ((h 0).commaSeparated.parenthesized.next _).ite <| .behind _ fun _ =>
        ((h _).bind fun _ => .behind _ fun _ => (h _).next _).ite (.refl _)
  refine .behind _ fun found => ?_
  cases found.token.binaryOp? with
  | some op => exact (h _).next _
  | none =>
      dsimp only
      split
      · exact .refl _
      · exact hrange
      · exact hrange
      · exact hrange
      · exact .refl _

/-- A round of the loop asks for the operator that stands there and for nothing else. -/
theorem another_agree (precedence : Nat) (left : Expr) :
    Agree ctx (another sub precedence left) (another sub' precedence left) :=
  .behind _ fun _ => (Agree.refl _).ite <| (parseOperator_agree h left _).map some

end

/-- An expression is read one level down, and so is every expression inside it: what bounds the
    recursion is the counter. -/
theorem parseAbove_eq (precedence : Nat) : parseAbove precedence = descend (do
    let operand ← parseOperand parseAbove
    iterate (another parseAbove precedence) operand) := by
  refine ext_run fun ctx c => ?_
  obtain ⟨settings, _ | levels⟩ := ctx
  · rfl
  -- with `levels` left the readers inside are those that the recursion has for them
  · have hsub : ∀ n, Agree { settings with depth := levels } (parseAt levels n) (parseAbove n) :=
      fun n c => rfl
    show parseAt (levels + 1) precedence { settings with depth := levels + 1 } c = _
    rw [parseAt_succ, descend_apply, descend_apply]
    exact (parseOperand_agree hsub).bind (fun _ => .iterate (another_agree hsub precedence) _) c

end Expr

/-! ## Data types -/

namespace DataType

/-- A type is read one level down, and so is the type of its elements. -/
theorem parse_eq : parse = descend (do
    let name ← parseName
    if ← accept .lt then
      let element ← parse
      let _ ← expect .gt
      return .collection name element (← parseArguments)
    return .plain name (← parseArguments)) := by
  refine ext_run fun ctx c => ?_
  obtain ⟨settings, _ | levels⟩ := ctx
  · rfl
  · have hsub : Agree { settings with depth := levels } (parseAt levels) parse := fun c => rfl
    show parseAt (levels + 1) { settings with depth := levels + 1 } c = _
    rw [parseAt, descend_apply, descend_apply]
    exact Agree.behind parseName (fun _ => .behind _ fun _ => (hsub.next _).ite (.refl _)) c

end DataType

end SchemaSql
