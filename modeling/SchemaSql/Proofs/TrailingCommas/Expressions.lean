import SchemaSql.Proofs.Climbing.Layout
import SchemaSql.Proofs.Contents
import SchemaSql.Proofs.TrailingCommas.Extends

/-! # Expressions with and without trailing commas

    The lists of an expression are the arguments of a call and the items behind `IN`.  An
    expression is `Calm` if no item of any list in it starts with a reserved word, the first
    items apart.

    * What an expression starts with is the token that its reader stood in front of
      (`Expr.parseAt_opens`).
    * Calm expressions are read alike with and without trailing commas (`Expr.parse_extends`):
      the loop over the operators keeps what was read so far inside what it gives. -/

namespace SchemaSql

open Cursor SchemaSql.Parser Comparison

namespace Expr

/-- The token that an expression starts with. -/
def first (e : Expr) : Token := e.tokens.head?.getD .eof

/-- The list that an expression has itself. -/
def items : Expr → List Expr
  | .call _ args => args
  | .inList _ items _ => items
  | .ident _ | .compound _ | .literal _ | .binary _ _ _ | .unary _ _ | .nested _ | .isNull _
  | .isNotNull _ | .between _ _ _ _ | .wildcard => []

/-- No item of this expression's own list but the first starts with a reserved word. -/
def Settled (e : Expr) : Prop := ∀ t ∈ (e.items.map first).tail, ¬ t.IsReserved

/-- This holds of all expressions inside an expression. -/
abbrev Calm (e : Expr) : Prop := Throughout Settled e.contents

/-! ## First tokens -/

variable {sub : SubParser}

/-- A path starts with its first name. -/
theorem parsePath_first (name : Ident) :
    Ensures (parsePath sub name) fun e => e.tokens.head? = some (.word name.word) :=
  .after fun rest => .test
    (.after fun args => .after fun _ => .pure (by simp [tokens, pathTokens])) <|
    .ite (fun _ => .pure (by simp [tokens])) fun _ => .pure (by simp [tokens, pathTokens])

/-- An operand starts with the token that is next. -/
theorem parseOperand_opens : Opens first (parseOperand sub) := by
  refine .next (fun ctx c l w e c' htoken hproper hreserved hrun => ?_) fun l hend => ?_
  · obtain ⟨k, hk, hword⟩ := hreserved
    rw [htoken] at hword hrun
    -- a word in quotes has no keyword
    have hquote : w.quote = none := by
      by_contra hquote
      rw [hproper, Token.keyword?, Word.of, if_neg (by simpa using hquote)] at hword
      cases hword
    have hbare : (Token.word w).bareKeyword? = some k := by
      rw [Token.bareKeyword?, hquote]
      exact hword
    dsimp only at hrun
    rw [hbare] at hrun
    have hpath : ∀ {e : Expr}, parsePath sub (Ident.ofWord w) ctx c = .ok e c' →
        e.first.IsReserved := by
      intro e hpath
      have hname : (Ident.ofWord w).word = w := hproper.symm
      rw [first, parsePath_first _ _ _ _ _ hpath, hname]
      exact ⟨k, hk, hword⟩
    simp only [Keyword.reservedForColumnAlias, List.mem_cons, List.not_mem_nil, or_false] at hk
    rcases hk with rfl | rfl | rfl | rfl | rfl | rfl | rfl | rfl | rfl | rfl | rfl | rfl
    · exact hpath hrun
    · exact hpath hrun
    · exact hpath hrun
    · exact hpath hrun
    · exact hpath hrun
    · exact hpath hrun
    · exact hpath hrun
    · -- `NOT` is the one that is no name here
      obtain ⟨x, c1, -, hpure⟩ := bind_ok.mp hrun
      obtain ⟨rfl, -⟩ := pure_ok.mp hpure
      exact ⟨.not, by decide, keyword?_ofKeyword .not⟩
    · exact hpath hrun
    · exact hpath hrun
    · exact hpath hrun
    · exact hpath hrun
  · rcases hend with h | h | h | h
    all_goals
      rw [h]
      exact Fails.expected _ _

/-- Operators go behind what was read so far. -/
theorem parseOperator_first (left : Expr) (precedence : Nat) {t : Token}
    (h : left.tokens.head? = some t) :
    Ensures (parseOperator sub left precedence) fun e => e.tokens.head? = some t := by
  -- what is built has the left operand in front, whichever operator is read
  refine parseOperator_ensures (fun op => .of_forall fun right => ?_) ?_ ?_
    (fun negated => .after fun _ => .pure ?_)
    fun negated => .after fun _ => .after fun _ => .after fun _ => .pure ?_
  all_goals simp [tokens, h]

/-- An expression starts with the token that its reader stood in front of; where a list may end that
    is a reserved word. -/
theorem parseAt_opens (depth precedence : Nat) : Opens first (parseAt depth precedence) := by
  intro ctx c e c' hgood hends hrun
  cases depth with
  | zero => exact absurd hrun throw_ne_ok
  | succ depth =>
      obtain ⟨levels, -, hrun⟩ := descend_ok.mp hrun
      obtain ⟨operand, c1, hoperand, hrun⟩ := bind_ok.mp hrun
      have hfirst := parseOperand_opens _ c operand c1 hgood hends hoperand
      cases hhead : operand.tokens.head? with
      | none =>
          obtain ⟨k, -, hword⟩ := hfirst
          simp [first, hhead, Token.keyword?] at hword
      | some t =>
          -- the loop puts operators behind the operand, so the first token stays
          have hloop : Ensures (iterate (fun left => do
              let next ← nextPrecedence
              if next ≤ precedence then return none
              some <$> parseOperator (parseAt depth) left next) operand)
              fun e : Expr => e.tokens.head? = some t :=
            .iterate hhead fun left hleft => .after fun next => .ite (fun _ => .pure (by simp))
              fun _ => .map (parseOperator_first left next hleft) (by simp)
          rw [first, hloop _ c1 e c' hrun, ← hhead]
          exact hfirst

theorem parse_opens : Opens first parse :=
  fun ctx c v c' hgood hends hrun => parseAt_opens ctx.depth 0 ctx c v c' hgood hends hrun

/-- No expression starts with a comma. -/
theorem parseAt_comma {depth precedence : Nat} {ctx : Context} {c c' : Cursor} {e : Expr}
    (h : c.peek.token = .comma) : parseAt depth precedence ctx c ≠ .ok e c' := by
  intro hrun
  cases depth with
  | zero => exact absurd hrun throw_ne_ok
  | succ depth =>
      obtain ⟨levels, -, hrun⟩ := descend_ok.mp hrun
      obtain ⟨operand, c1, hoperand, -⟩ := bind_ok.mp hrun
      rw [parseOperand, bind_run (next_run _ c), h] at hoperand
      exact absurd hoperand throw_ne_ok

/-! ## Calm expressions -/

/-- Calm is what has no list of its own and only calm expressions inside. -/
theorem calm_iff {e : Expr} {inside : List Node} (hcontents : e.contents = .expr e :: inside)
    (hitems : e.items = []) : e.Calm ↔ Throughout Settled inside := by
  have hsettled : e.Settled := by simp [Settled, hitems]
  rw [Calm, hcontents, throughout_expr]
  exact and_iff_right hsettled

theorem calm_binary {left right : Expr} {op : BinaryOp} :
    Calm (.binary left op right) ↔ left.Calm ∧ right.Calm :=
  (calm_iff rfl rfl).trans (throughout_append _ _)

theorem calm_unary {op : UnaryOp} {operand : Expr} : Calm (.unary op operand) ↔ operand.Calm :=
  calm_iff rfl rfl

theorem calm_nested {inner : Expr} : Calm (.nested inner) ↔ inner.Calm := calm_iff rfl rfl

theorem calm_isNull {operand : Expr} : Calm (.isNull operand) ↔ operand.Calm := calm_iff rfl rfl

theorem calm_isNotNull {operand : Expr} : Calm (.isNotNull operand) ↔ operand.Calm :=
  calm_iff rfl rfl

theorem calm_between {operand low high : Expr} {negated : Bool} :
    Calm (.between operand negated low high) ↔ operand.Calm ∧ low.Calm ∧ high.Calm := by
  rw [← and_assoc, ← throughout_append]
  exact (calm_iff rfl rfl).trans (throughout_append _ _)

/-- Calm items, by what is inside them. -/
theorem listed_calm {list : List Expr} : Listed Calm first list ↔
    Throughout Settled (listContents list) ∧ ∀ t ∈ (list.map first).tail, ¬ t.IsReserved := by
  rw [Listed, throughout_listContents]

/-- The arguments of a call are a list that may end in a comma. -/
theorem calm_call {function : ObjectName} {args : List Expr} :
    Calm (.call function args) ↔ Listed Calm first args := by
  rw [listed_calm]
  exact (throughout_expr _ _).trans and_comm

/-- The items behind `IN` are a list that may end in a comma. -/
theorem calm_inList {operand : Expr} {list : List Expr} {negated : Bool} :
    Calm (.inList operand list negated) ↔ operand.Calm ∧ Listed Calm first list := by
  rw [listed_calm, ← and_assoc, ← throughout_append]
  exact (throughout_expr _ _).trans and_comm

/-! ## Readers -/

/-- The expressions inside another extend themselves. -/
structure Extending (sub : SubParser) : Prop where
  calm  : ∀ n, Extends Calm (sub n) (sub n)
  opens : Opens first (sub 0)
  comma : ∀ ctx c v c', c.peek.token = .comma → sub 0 ctx c ≠ .ok v c'

namespace Extending

/-- Only the arguments of a call are read differently. -/
theorem parsePath (hsub : Extending sub) (name : Ident) :
    Extends Calm (Expr.parsePath sub name) (Expr.parsePath sub name) := by
  refine .after (fun _ => parts_steady) fun rest => .test (fun _ => .accept (by simp)) ?_
    (.ite (.pure _) (.pure _))
  refine .bind (.commaSeparatedUntil (hsub.calm 0) hsub.opens hsub.comma)
    (fun _ => .after (Free.expect (by simp)) fun _ => .pure _) fun args => ?_
  exact .after fun _ => .pure calm_call.mp

/-- An operand is calm if the expressions inside it are. -/
theorem parseOperand (hsub : Extending sub) :
    Extends Calm (Expr.parseOperand sub) (Expr.parseOperand sub) := by
  -- a sign or `NOT` in front of an operand
  have hsign : ∀ op n, Extends Calm (do return Expr.unary op (← sub n))
      (do return Expr.unary op (← sub n)) := fun op n =>
    .bind (hsub.calm n) (fun _ => .pure _) fun _ => .pure calm_unary.mp
  refine .next (fun found => ?_) fun _ _ _ _ => throw_ne_ok
  split
  · split
    · exact .pure _
    · exact .pure _
    · exact .pure _
    · exact hsign _ _
    · exact hsub.parsePath _
  · exact .pure _
  · exact .pure _
  · exact .pure _
  · exact hsign _ _
  · exact hsign _ _
  · exact .bind (hsub.calm 0) (fun _ => .after (Free.expect (by simp)) fun _ => .pure _)
      fun _ => .after fun _ => .pure calm_nested.mp
  · exact .pure _
  · exact .expected

/-- The list behind `IN` is read differently only where it ends. -/
theorem parseInList (hsub : Extending sub) (operand : Expr) (negated : Bool) :
    Extends Calm (Expr.parseInList sub operand negated) (Expr.parseInList sub operand negated) :=
  .bind (.parenthesized (.commaSeparated (hsub.calm 0) hsub.opens)) (fun _ => .pure _)
    fun _ => .pure fun h => (calm_inList.mp h).2

/-- The ends of a range hold lists, but are none. -/
theorem parseBetween (hsub : Extending sub) (operand : Expr) (negated : Bool) :
    Extends Calm (Expr.parseBetween sub operand negated)
      (Expr.parseBetween sub operand negated) :=
  .bind (hsub.calm _) (fun _ => .after (Free.expectKeyword _) fun _ =>
      .bind (hsub.calm _) (fun _ => .pure _) fun _ => .pure fun h => (calm_between.mp h).2.2)
    fun _ => .after fun _ => .after fun _ => .pure fun h => (calm_between.mp h).2.1

/-- What stands behind an operator is read by the reader of the expressions inside it. -/
theorem parseOperator (hsub : Extending sub) (left : Expr) (precedence : Nat) :
    Extends Calm (Expr.parseOperator sub left precedence)
      (Expr.parseOperator sub left precedence) := by
  -- the same three readers with and without trailing commas
  have hrange : Extends Calm (do
      back
      let negated ← acceptKeyword .not
      if ← acceptKeyword .in then return ← Expr.parseInList sub left negated
      if ← acceptKeyword .between then return ← Expr.parseBetween sub left negated
      expected "IN or BETWEEN after NOT" (← peek)) (do
      back
      let negated ← acceptKeyword .not
      if ← acceptKeyword .in then return ← Expr.parseInList sub left negated
      if ← acceptKeyword .between then return ← Expr.parseBetween sub left negated
      expected "IN or BETWEEN after NOT" (← peek)) :=
    .after (fun _ => Alike.back) fun _ => .after (fun _ => .acceptKeyword .not) fun negated =>
      .test (fun _ => .acceptKeyword .in) (hsub.parseInList left negated) <|
      .test (fun _ => .acceptKeyword .between) (hsub.parseBetween left negated) <|
      .peek fun _ => .expected
  refine .next (fun found => ?_) fun _ _ _ _ => throw_ne_ok
  split
  · exact .bind (hsub.calm _) (fun _ => .pure _) fun _ => .pure fun h => (calm_binary.mp h).2
  · split
    · exact .test (fun _ => .acceptKeyword .null) (.pure _) <|
        .test (fun _ => .acceptKeywords _) (.pure _) <| .peek fun _ => .expected
    · exact hrange
    · exact hrange
    · exact hrange
    · exact .throw

end Extending

/-- What was read so far stays inside what an operator makes of it. -/
theorem parseOperator_keeps (left : Expr) (precedence : Nat) :
    Ensures (parseOperator sub left precedence) fun e => e.Calm → left.Calm :=
  -- the left operand is a part of what is built
  parseOperator_ensures (fun _ => .of_forall fun _ h => (calm_binary.mp h).1)
    calm_isNull.mp calm_isNotNull.mp
    (fun _ => .after fun _ => .pure fun h => (calm_inList.mp h).1)
    fun _ => .after fun _ => .after fun _ => .after fun _ => .pure fun h => (calm_between.mp h).1

/-- By induction on the levels of nesting. -/
theorem parseAt_extending (depth : Nat) : Extending (parseAt depth) := by
  induction depth with
  | zero =>
      exact ⟨fun _ => .throw, parseAt_opens 0 0, fun _ _ _ _ => parseAt_comma⟩
  | succ depth ih =>
      refine ⟨fun precedence => ?_, parseAt_opens _ 0, fun _ _ _ _ => parseAt_comma⟩
      have hloop : ∀ operand, Extends Calm (iterate (fun left => do
          let next ← nextPrecedence
          if next ≤ precedence then return none
          some <$> parseOperator (parseAt depth) left next) operand) (iterate (fun left => do
          let next ← nextPrecedence
          if next ≤ precedence then return none
          some <$> parseOperator (parseAt depth) left next) operand) :=
        .iterate (fun left => .after (fun _ => nextPrecedence_steady) fun next =>
          .ite (.pure _) (.map (ih.parseOperator left next) (by simp)))
          fun left => .after fun next => .ite (fun _ => .pure (by simp)) fun _ =>
            .map (parseOperator_keeps left next) (by simp)
      -- the first operand stays inside all that the loop makes of it
      refine .descend <| .bind ih.parseOperand hloop fun operand => ?_
      refine .iterate (R := fun e : Expr => e.Calm → operand.Calm) id fun left hleft =>
        .after fun next => ?_
      exact .ite (fun _ => .pure (by simp)) fun _ =>
        .map ((parseOperator_keeps left next).mono fun _ h => hleft ∘ h) (by simp)

/-- Calm expressions are read alike with and without trailing commas. -/
theorem parse_extends : Extends Calm parse parse :=
  fun ctx c v c' hstrict hgood hrun =>
    (parseAt_extending ctx.depth).calm 0 ctx c v c' hstrict hgood hrun

end Expr

end SchemaSql
