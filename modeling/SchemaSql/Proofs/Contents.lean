import SchemaSql.Walk.Contents

/-! # What holds of everything that a statement stores

    `Throughout P nodes` says that every expression among the nodes satisfies `P`, the ones
    inside others included.  It is taken apart along the lists that contents are made of. -/

namespace SchemaSql

/-- Every expression among the nodes satisfies `P`. -/
def Throughout (P : Expr → Prop) (nodes : List Node) : Prop := ∀ e, .expr e ∈ nodes → P e

variable {P Q : Expr → Prop}

/-- What holds of all expressions may be said more weakly. -/
theorem Throughout.mono {nodes : List Node} (h : Throughout P nodes) (hPQ : ∀ e, P e → Q e) :
    Throughout Q nodes := fun e he => hPQ e (h e he)

@[simp] theorem throughout_nil : Throughout P [] := by simp [Throughout]

@[simp] theorem throughout_relation (name : ObjectName) (nodes : List Node) :
    Throughout P (.relation name :: nodes) ↔ Throughout P nodes := by simp [Throughout]

@[simp] theorem throughout_expr (e : Expr) (nodes : List Node) :
    Throughout P (.expr e :: nodes) ↔ P e ∧ Throughout P nodes := by
  simp [Throughout, or_imp, forall_and]

@[simp] theorem throughout_append (a b : List Node) :
    Throughout P (a ++ b) ↔ Throughout P a ∧ Throughout P b := by
  simp [Throughout, or_imp, forall_and]

/-- Something holds throughout a list of parts if it does throughout each of them. -/
@[simp] theorem throughout_flatMap {α : Type} (f : α → List Node) (l : List α) :
    Throughout P (l.flatMap f) ↔ ∀ a ∈ l, Throughout P (f a) := by
  induction l with
  | nil => simp
  | cons a l ih => simp [ih]

/-- Something holds throughout a list of expressions if it does throughout each of them. -/
theorem Expr.throughout_listContents (items : List Expr) :
    Throughout P (listContents items) ↔ ∀ e ∈ items, Throughout P e.contents := by
  induction items with
  | nil => simp [listContents]
  | cons e rest ih => simp [listContents, ih]

/-- The expressions of a statement are those among its contents. -/
theorem Statement.throughout_contents (s : Statement) :
    Throughout P s.contents ↔ ∀ e ∈ s.exprs, P e := by
  simp only [Throughout, exprs, List.mem_filterMap]
  constructor
  · rintro h e ⟨node, hnode, hexpr⟩
    cases node with
    | expr e' =>
        obtain rfl := Option.some.inj hexpr
        exact h e' hnode
    | _ => simp [Node.expr?] at hexpr
  · exact fun h e he => h e ⟨_, he, rfl⟩

/-- Setting options of an explanation changes nothing that it stores. -/
theorem Explain.foldl_addOption_contents (options : List ExplainOption) (explain : Explain) :
    (options.foldl addOption explain).contents = explain.contents := by
  induction options generalizing explain with
  | nil => rfl
  | cons option options ih => exact ih _

end SchemaSql
