import SchemaSql.Query.Parser
import SchemaSql.Proofs.Progress.Expressions

/-! # Progress of the readers for queries

    Tables, columns of results and pipe operators advance; an alias need not, but stands behind
    something that does. -/

namespace SchemaSql

open Cursor SchemaSql.Parser

theorem TableRef.parse_advances : Advances parse :=
  (ObjectName.parseIn_advances true).after fun _ => (Ident.parseAlias_onward _).behind fun _ =>
    .pure id

theorem SelectItem.parse_advances : Advances parse := by
  refine .test (.accept (by simp)) (.pure id) ?_
  refine Expr.parse_advances.after fun e => (Ident.parseAlias_onward _).behind fun asName => ?_
  cases asName with
  | none => exact .pure id
  | some asName => exact .pure id

theorem SelectItem.parseList_advances : Advances parseList := .commaSeparated parse_advances

theorem OrderItem.parse_advances : Advances parse := by
  refine Expr.parse_advances.after fun expr => (Forward.acceptOneOf _).behind fun direction => ?_
  split
  · exact .pure id
  · exact .pure id
  · exact .pure id

theorem Renaming.parse_advances : Advances parse :=
  (Ident.parse_advances false).after fun _ => (Forward.acceptKeyword _).behind fun _ =>
    (Ident.parse_advances false).after fun _ => .pure id

theorem Select.parse_advances : Advances parse := by
  refine (Forward.acceptKeyword _).behind fun distinct =>
    SelectItem.parseList_advances.after fun projection => ?_
  refine .bind_option (.acceptKeyword _) TableRef.parse_advances.onward fun source => ?_
  exact .bind_option (.acceptKeyword _) Expr.parse_advances.onward fun _ => .pure id

/-- The word of the operator is read. -/
theorem PipeOperator.parse_advances : Advances parse := by
  refine .next (fun t => ?_) fun _ => .expected (by decide)
  split
  · exact Expr.parse_advances.after fun _ => .pure id
  · exact SelectItem.parseList_advances.after fun _ => .pure id
  · exact SelectItem.parseList_advances.after fun _ => .pure id
  · exact (Forward.commaSeparated (Ident.parse_advances false)).after fun _ => .pure id
  · exact (Ident.parse_advances false).after fun _ => .pure id
  · exact Expr.parse_advances.after fun _ =>
      .bind_option (.acceptKeyword _) Expr.parse_advances.onward fun _ => .pure id
  · exact (Forward.expectKeyword _).after fun _ =>
      (Forward.commaSeparated OrderItem.parse_advances).after fun _ => .pure id
  · exact (Forward.commaSeparated Renaming.parse_advances).after fun _ => .pure id
  · refine .peek fun t => .bind_ite (.pure id) SelectItem.parseList_advances.onward fun items => ?_
    exact (Forward.acceptKeywords _ _).behind fun _ =>
      .bind_ite SelectItem.parseList_advances.onward (.pure id) fun _ => .pure id
  · exact .expected (by decide)

namespace Query

theorem parseBody_advances : Advances parseBody :=
  .test (.acceptKeyword _) (Select.parse_advances.after fun _ => .pure id) <|
    (Forward.expectKeyword _).after fun _ => TableRef.parse_advances.after fun _ => .pure id

theorem parsePipes_eq : parsePipes = (do
    if !(← read).dialect.pipeOperators then return []
    many (further (accept .pipeArrow) PipeOperator.parse)) := rfl

theorem pipe_forward : Forward (·.isSome) (further (accept .pipeArrow) PipeOperator.parse) :=
  .further (.accept (by simp)) PipeOperator.parse_advances.onward

/-- A query may have no pipes, and in some dialects it has none. -/
theorem parsePipes_onward : Onward parsePipes := by
  rw [parsePipes_eq]
  exact .read fun ctx => .ite (.pure id) (.many pipe_forward)

theorem parse_advances : Advances parse :=
  .descend <| parseBody_advances.after fun _ => parsePipes_onward.behind fun _ => .pure id

end Query

end SchemaSql
