import SchemaSql.Proofs.Climbing.Legal
import SchemaSql.Proofs.Contents
import SchemaSql.Proofs.Ensures
import SchemaSql.Proofs.SingleStatements

/-! # Trees within the limit

    The limit bounds how deep the readers of expressions call each other, and with it the levels
    of every tree that they give.  An operator is wrapped around the operand in front of it
    without another call, so the height of a tree is not bounded.

    * `Expr.parseAt_levels` is by induction on the levels that are left; the loop over the
      operators keeps the bound for what is read so far.
    * `Shallow` says of the nodes of a tree that their levels are bounded, and each reader gives
      values within the limit because the readers of its parts do.
    * `Statement.parseAll_levels` puts them together for whole texts, and
      `Statement.parseAll_height` is a text whose tree is higher than its limit. -/

namespace SchemaSql

open SchemaSql.Parser

/-! ## Expressions -/

namespace Expr

variable {sub : SubParser} {n : Nat}

attribute [local simp] levels listLevels

/-- The levels of a list are those of its deepest item. -/
theorem listLevels_le {items : List Expr} (h : ∀ e ∈ items, e.levels ≤ n) :
    listLevels items ≤ n := by
  induction items with
  | nil => exact Nat.zero_le n
  | cons e rest ih =>
      rw [listLevels]
      exact max_le (h e (by simp)) (ih fun e he => h e (by simp [he]))

/-- The arguments of a call are read one level down. -/
theorem parsePath_levels (hsub : ∀ p, Ensures (sub p) (·.levels ≤ n)) (first : Ident) :
    Ensures (parsePath sub first) (·.levels ≤ n + 1) := by
  refine .after fun rest => .test ?_ (.ite (fun _ => .pure ?_) fun _ => .pure ?_)
  · refine .bind (.commaSeparatedUntil (hsub 0)) fun args hargs => .after fun _ => .pure ?_
    rw [levels]
    exact Nat.succ_le_succ (listLevels_le hargs)
  · simp
  · simp

/-- The expressions inside an operand are read one level down, and so is its own. -/
theorem parseOperand_levels (hsub : ∀ p, Ensures (sub p) (·.levels ≤ n)) :
    Ensures (parseOperand sub) (·.levels ≤ n + 1) := by
  have hunary : ∀ op p, Ensures (do return Expr.unary op (← sub p)) (·.levels ≤ n + 1) :=
    fun op p => .bind (hsub p) fun _ h => .pure (by simpa using h)
  refine .after fun found => ?_
  split
  · split
    · exact .pure (by simp)
    · exact .pure (by simp)
    · exact .pure (by simp)
    · exact hunary .not Precedence.not
    · exact parsePath_levels hsub _
  · exact .pure (by simp)
  · exact .pure (by simp)
  · exact .pure (by simp)
  · exact hunary .minus Precedence.sign
  · exact hunary .plus Precedence.sign
  · exact .bind (hsub 0) fun _ h => .after fun _ => .pure (by simpa using h)
  · exact .pure (by simp)
  · exact .expected

/-- The items behind `IN` are read one level down, and the operand is there already. -/
theorem parseInList_levels (hsub : ∀ p, Ensures (sub p) (·.levels ≤ n)) {operand : Expr}
    (h : operand.levels ≤ n + 1) (negated : Bool) :
    Ensures (parseInList sub operand negated) (·.levels ≤ n + 1) := by
  refine .bind (.parenthesized (.commaSeparated (hsub 0))) fun items hitems => .pure ?_
  rw [levels]
  exact max_le h (Nat.succ_le_succ (listLevels_le hitems.2))

/-- Both ends of a range are read one level down, and the operand is there already. -/
theorem parseBetween_levels (hsub : ∀ p, Ensures (sub p) (·.levels ≤ n)) {operand : Expr}
    (h : operand.levels ≤ n + 1) (negated : Bool) :
    Ensures (parseBetween sub operand negated) (·.levels ≤ n + 1) := by
  refine .bind (hsub _) fun low hlow => .after fun _ => .bind (hsub _) fun high hhigh => .pure ?_
  rw [levels]
  exact max_le h (max_le (Nat.succ_le_succ hlow) (Nat.succ_le_succ hhigh))

/-- The operand in front of an operator keeps its levels. -/
theorem parseOperator_levels (hsub : ∀ p, Ensures (sub p) (·.levels ≤ n)) {left : Expr}
    (h : left.levels ≤ n + 1) (precedence : Nat) :
    Ensures (parseOperator sub left precedence) (·.levels ≤ n + 1) := by
  refine parseOperator_ensures (fun op => (hsub precedence).mono fun right hright => ?_) h h
    (parseInList_levels hsub h) (parseBetween_levels hsub h)
  -- the operand on the right is one level down, the left one is bounded by assumption
  rw [levels]
  exact max_le h (Nat.succ_le_succ hright)

/-- A tree that is read with `depth` levels left has no more. -/
theorem parseAt_levels (depth : Nat) :
    ∀ precedence, Ensures (parseAt depth precedence) (·.levels ≤ depth) := by
  induction depth with
  | zero => exact fun _ => .throw
  | succ depth ih =>
      intro precedence
      refine .descend <| .bind (parseOperand_levels ih) fun operand hoperand => ?_
      -- what was read so far stays on the level of the operand that it starts with
      refine .iterate hoperand fun left hleft => .after fun next => ?_
      refine .ite (fun _ => .pure (by simp)) fun _ => ?_
      exact .map (parseOperator_levels ih hleft next) (by simp)

mutual

/-- No expression inside a tree has more levels than the tree. -/
theorem levels_of_mem {e : Expr} : ∀ {whole : Expr}, .expr e ∈ whole.contents →
    e.levels ≤ whole.levels
  -- a member is the expression itself or a member of one of its parts, which are no deeper
  | .binary left op right, h => by
      simp only [contents, List.mem_cons, Node.expr.injEq, List.mem_append] at h
      rcases h with rfl | h | h
      · exact le_rfl
      · exact (levels_of_mem h).trans (by simp)
      · exact (levels_of_mem h).trans (by rw [levels]; omega)
  | .unary op operand, h => by
      simp only [contents, List.mem_cons, Node.expr.injEq] at h
      rcases h with rfl | h
      · exact le_rfl
      · exact (levels_of_mem h).trans (by simp)
  | .nested inner, h => by
      simp only [contents, List.mem_cons, Node.expr.injEq] at h
      rcases h with rfl | h
      · exact le_rfl
      · exact (levels_of_mem h).trans (by simp)
  | .call function args, h => by
      simp only [contents, List.mem_cons, Node.expr.injEq] at h
      rcases h with rfl | h
      · exact le_rfl
      · exact (listLevels_of_mem h).trans (by simp)
  | .isNull operand, h => by
      simp only [contents, List.mem_cons, Node.expr.injEq] at h
      rcases h with rfl | h
      · exact le_rfl
      · exact (levels_of_mem h).trans (by simp)
  | .isNotNull operand, h => by
      simp only [contents, List.mem_cons, Node.expr.injEq] at h
      rcases h with rfl | h
      · exact le_rfl
      · exact (levels_of_mem h).trans (by simp)
  | .inList operand items negated, h => by
      simp only [contents, List.mem_cons, Node.expr.injEq, List.mem_append] at h
      rcases h with rfl | h | h
      · exact le_rfl
      · exact (levels_of_mem h).trans (by simp)
      · exact (listLevels_of_mem h).trans (by rw [levels]; omega)
  | .between operand negated low high, h => by
      simp only [contents, List.mem_cons, Node.expr.injEq, List.mem_append] at h
      rcases h with rfl | (h | h) | h
      · exact le_rfl
      · exact (levels_of_mem h).trans (by simp)
      · exact (levels_of_mem h).trans (by rw [levels]; omega)
      · exact (levels_of_mem h).trans (by rw [levels]; omega)
  | .ident name, h => by simp_all [contents]
  | .compound parts, h => by simp_all [contents]
  | .literal value, h => by simp_all [contents]
  | .wildcard, h => by simp_all [contents]

/-- An expression inside a list has no more levels than the list. -/
theorem listLevels_of_mem {e : Expr} : ∀ {items : List Expr}, .expr e ∈ listContents items →
    e.levels ≤ listLevels items
  | [], h => by simp [listContents] at h
  | first :: rest, h => by
      simp only [listContents, List.mem_append] at h
      rcases h with h | h
      · exact (levels_of_mem h).trans (by simp)
      · exact (listLevels_of_mem h).trans (by simp)

end

end Expr

/-- No expression among the nodes has more than `n` levels. -/
abbrev Shallow (n : Nat) (nodes : List Node) : Prop := Throughout (·.levels ≤ n) nodes

/-- What is within a limit is within a higher one. -/
theorem Shallow.deeper {n m : Nat} {nodes : List Node} (h : Shallow n nodes) (hle : n ≤ m) :
    Shallow m nodes := Throughout.mono h fun _ he => he.trans hle

/-- Every expression inside an expression has no more levels than it. -/
theorem Expr.shallow_contents {n : Nat} {e : Expr} (h : e.levels ≤ n) : Shallow n e.contents :=
  fun _ he => (levels_of_mem he).trans h

/-- The levels that are left bound the levels of what is read. -/
theorem Expr.parse_shallow (ctx : Context) :
    EnsuresAt ctx Expr.parse fun e => Shallow ctx.depth e.contents :=
  .remaining <| EnsuresAt.mono (parseAt_levels ctx.depth 0 ctx) fun _ h => shallow_contents h

/-! ## Clauses -/

variable (ctx : Context)

theorem ColumnAction.parse_shallow :
    EnsuresAt ctx ColumnAction.parse fun action => Shallow ctx.depth action.contents :=
  .test (.after fun _ => .pure throughout_nil) <| .test (.after fun _ => .pure throughout_nil) <|
  .test (.bind (Expr.parse_shallow ctx) fun _ h => .pure h) <|
  .test (.pure throughout_nil) <| .test (.pure throughout_nil) <| .test (.pure throughout_nil) <|
  .test (.pure throughout_nil) <| .test (.pure throughout_nil) <|
  .test (.after fun _ => .pure throughout_nil) <| .after fun _ => .expected

/-- Only a condition stores an expression. -/
theorem TableConstraint.parse_shallow :
    EnsuresAt ctx TableConstraint.parse fun c => Shallow ctx.depth c.contents := by
  have hcheck : ∀ name, EnsuresAt ctx (do return .check name (← parseCondition))
      fun c : TableConstraint => Shallow ctx.depth c.contents :=
    fun _ => .bind (.parenthesized (Expr.parse_shallow ctx)) fun _ h => .pure h
  have hkey : ∀ name, EnsuresAt ctx (do return .foreignKey (← ForeignKey.parse name))
      fun c : TableConstraint => Shallow ctx.depth c.contents :=
    fun _ => .after fun _ => .pure (by simp [contents])
  refine .test (.after fun _ => ?_) ?_
  · exact .either fun name => .test (hkey name) <| .test (hcheck name) <|
      .after fun _ => .pure throughout_nil
  · exact .test (hkey _) <| .test (hcheck _) <| .after fun _ => .pure throughout_nil

/-- Only a key by expression stores one. -/
theorem Partitioning.parse_shallow :
    EnsuresAt ctx Partitioning.parse fun p => Shallow ctx.depth p.key.contents := by
  have hkey : ∀ method, EnsuresAt ctx (parseKey method)
      fun key => Shallow ctx.depth key.contents := fun method =>
    .test (.after fun _ => .pure throughout_nil) <|
    .ite (fun _ => .after fun _ => .pure throughout_nil) fun _ =>
      .bind (.parenthesized (Expr.parse_shallow ctx)) fun _ h => .pure h
  refine .after fun _ => .after fun method => .bind (hkey method) fun key h => ?_
  exact .after fun _ => .either fun _ => .after fun _ => .either fun _ => .pure h

namespace AlterClause

/-- A clause without expressions is within every limit. -/
abbrev Fits (p : Parser AlterClause) : Prop :=
  EnsuresAt ctx p fun clause => Shallow ctx.depth clause.contents

/-- What is added stores an expression in a constraint only. -/
theorem parseAdd_shallow : Fits ctx parseAdd := by
  refine .test (.after fun _ => .pure throughout_nil) <| .after fun _ => .after fun _ => ?_
  refine .ite (fun _ => .bind (TableConstraint.parse_shallow ctx) fun _ h => .pure h) fun _ => ?_
  exact .after fun _ => .after fun _ => .ite (fun _ => .after fun _ => .pure throughout_nil)
    fun _ => .after fun _ => .pure throughout_nil

/-- What is altered stores an expression as the default of a column only. -/
theorem parseAlter_shallow : Fits ctx parseAlter := by
  refine .test (.after fun _ => .after fun _ => .pure throughout_nil) (.after fun keyword => ?_)
  cases keyword with
  | some keyword => exact .after fun _ => .after fun _ => .after fun _ => .pure throughout_nil
  | none =>
      exact .after fun _ => .after fun _ => .bind (ColumnAction.parse_shallow ctx) fun _ h =>
        .pure h

theorem parseDrop_shallow : Fits ctx parseDrop := by
  refine .test (.pure throughout_nil) <| .test (.after fun _ => .pure throughout_nil) ?_
  refine .test (.after fun _ => .either fun _ => .after fun _ => .either fun _ =>
    .pure throughout_nil) (.after fun keyword => ?_)
  cases keyword with
  | some keyword => exact .after fun _ => .pure throughout_nil
  | none =>
      exact .test (.after fun _ => .pure throughout_nil) <| .test
        (.after fun _ => .after fun _ => .after fun _ => .pure throughout_nil)
        (.after fun _ => .after fun _ => .after fun _ => .after fun _ => .pure throughout_nil)

/-- What is renamed stores names. -/
theorem parseRename_shallow : Fits ctx parseRename := by
  refine .after fun keyword => ?_
  cases keyword with
  | some keyword => exact .after fun _ => .pure (by simp [contents])
  | none =>
      refine .after fun kind => .either fun _ => .after fun _ => .after fun _ => .after fun _ => ?_
      cases kind with
      | some kind => exact .pure throughout_nil
      | none => exact .pure throughout_nil

theorem parseCharacterSet_shallow (default : Bool) : Fits ctx (parseCharacterSet default) :=
  .after fun _ => .after fun _ => .after fun _ => .pure throughout_nil

theorem parseSetting_shallow (kind : NamedSetting) : Fits ctx (parseSetting kind) :=
  .after fun _ => .after fun _ => .pure throughout_nil

/-- Clauses about tablespaces store no expressions. -/
theorem parseTablespace_shallow {whole : AlterClause} (h : whole.contents = [])
    (command : PartitionCommand) : Fits ctx (parseTablespace whole command) :=
  .test (.pure (h ▸ throughout_nil)) <| .after fun _ => .after fun _ => .after fun _ =>
    .pure throughout_nil

theorem parsePartitionCommand_shallow (command : PartitionCommand) :
    Fits ctx (parsePartitionCommand command) :=
  .after fun _ => .after fun _ => .pure throughout_nil

theorem parseExchange_shallow : Fits ctx parseExchange := by
  have hend : ∀ partition table validation, Shallow ctx.depth
      (contents (.exchangePartition partition table validation)) := by simp [contents]
  exact .after fun _ => .after fun _ => .after fun _ => .after fun _ =>
    .test (.pure (hend _ _ _)) <| .test (.pure (hend _ _ _)) <| .pure (hend _ _ _)

/-- One case for each word that a clause starts with. -/
theorem parseAfter_shallow (found : Located) (keyword : Option Keyword) :
    Fits ctx (parseAfter found keyword) := by
  unfold parseAfter
  -- most clauses have no expressions in them
  split
  · exact parseAdd_shallow ctx
  · exact parseAlter_shallow ctx
  · exact parseDrop_shallow ctx
  · exact .after fun _ => .after fun _ => .ite (fun _ => .after fun _ => .pure throughout_nil)
      fun _ => .after fun _ => .pure throughout_nil
  · exact .after fun _ => .after fun _ => .after fun _ => .pure throughout_nil
  · exact parseRename_shallow ctx
  · exact .after fun _ => .after fun _ => .pure throughout_nil
  · exact .test (.after fun _ => .after fun _ => .pure throughout_nil) <|
      .after fun _ => parseCharacterSet_shallow ctx true
  · exact .after fun _ => parseCharacterSet_shallow ctx false
  · exact .after fun _ => .after fun _ => .after fun _ => .pure throughout_nil
  · exact parseSetting_shallow ctx .lock
  · exact parseSetting_shallow ctx .algorithm
  · exact parseSetting_shallow ctx .engine
  · exact .after fun _ => .after fun _ => .pure throughout_nil
  · exact .pure throughout_nil
  · exact .after fun _ => .after fun _ => .pure throughout_nil
  · exact parseTablespace_shallow ctx rfl .discardTablespace
  · exact parseTablespace_shallow ctx rfl .importTablespace
  · exact .after fun _ => .pure throughout_nil
  · exact .after fun _ => .pure throughout_nil
  · exact parsePartitionCommand_shallow ctx .truncate
  · exact parsePartitionCommand_shallow ctx .analyze
  · exact parsePartitionCommand_shallow ctx .check
  · exact parsePartitionCommand_shallow ctx .optimize
  · exact parsePartitionCommand_shallow ctx .rebuild
  · exact parsePartitionCommand_shallow ctx .repair
  · exact .after fun _ => .after fun _ => .pure throughout_nil
  · exact .after fun _ => .after fun _ => .after fun _ => .after fun _ => .pure throughout_nil
  · exact parseExchange_shallow ctx
  · exact .after fun _ => .pure throughout_nil
  · exact .after fun _ => .bind (Partitioning.parse_shallow ctx) fun _ h => .pure h
  · exact .after fun _ => .after fun _ => .pure throughout_nil
  · exact .ite (fun _ => .after fun _ => .bind (Expr.parse_shallow ctx) fun _ h => .pure h)
      fun _ => .expected
  · exact .expected

end AlterClause

/-- The clauses share the levels of the statement. -/
theorem Alter.parse_shallow :
    EnsuresAt ctx Alter.parse fun alter => Shallow ctx.depth alter.contents := by
  refine .after fun _ => .after fun _ => .after fun _ => .after fun _ => ?_
  refine .bind (.commaSeparatedWith false (.after fun found =>
    AlterClause.parseAfter_shallow ctx found _)) fun clauses hclauses => .pure ?_
  simpa [contents] using hclauses.2

/-! ## Queries -/

/-- A column of a query has the levels of its expression. -/
theorem SelectItem.parse_shallow :
    EnsuresAt ctx SelectItem.parse fun item => Shallow ctx.depth item.contents := by
  refine .test (.pure throughout_nil) <| .bind (Expr.parse_shallow ctx) fun e he =>
    .after fun asName => ?_
  cases asName with
  | some asName => exact .pure he
  | none => exact .pure he

theorem SelectItem.parseList_shallow : EnsuresAt ctx SelectItem.parseList
    fun items => ∀ item ∈ items, Shallow ctx.depth item.contents :=
  (EnsuresAt.commaSeparated (SelectItem.parse_shallow ctx)).mono fun _ h => h.2

theorem OrderItem.parse_shallow :
    EnsuresAt ctx OrderItem.parse fun item => Shallow ctx.depth item.expr.contents := by
  refine .bind (Expr.parse_shallow ctx) fun e he => .after fun direction => ?_
  split
  · exact .pure he
  · exact .pure he
  · exact .pure he

/-- The columns and the condition of a query share its levels. -/
theorem Select.parse_shallow : EnsuresAt ctx Select.parse
    fun select => Shallow ctx.depth (QueryBody.select select).contents := by
  refine .after fun _ => .bind (SelectItem.parseList_shallow ctx) fun items hitems => ?_
  refine .bind_option (.of_forall (P := fun _ => True) fun _ => trivial) fun source _ => ?_
  refine .bind_option (Expr.parse_shallow ctx) fun selection hselection => .pure ?_
  simpa [QueryBody.contents, TableRef.contents] using ⟨hitems, hselection⟩

/-- The expressions of an operator share the levels of its query. -/
theorem PipeOperator.parse_shallow :
    EnsuresAt ctx PipeOperator.parse fun pipe => Shallow ctx.depth pipe.contents := by
  refine .after fun found => ?_
  split
  · exact .bind (Expr.parse_shallow ctx) fun _ h => .pure h
  · exact .bind (SelectItem.parseList_shallow ctx) fun _ h => .pure (by simpa [contents] using h)
  · exact .bind (SelectItem.parseList_shallow ctx) fun _ h => .pure (by simpa [contents] using h)
  · exact .after fun _ => .pure throughout_nil
  · exact .after fun _ => .pure throughout_nil
  · refine .bind (Expr.parse_shallow ctx) fun count hcount => ?_
    exact .bind_option (Expr.parse_shallow ctx) fun offset hoffset =>
      .pure (by simpa [contents] using ⟨hcount, hoffset⟩)
  · exact .after fun _ => .bind (.commaSeparated (OrderItem.parse_shallow ctx)) fun _ h =>
      .pure (by simpa [contents] using h.2)
  · exact .after fun _ => .pure throughout_nil
  · have hlist := SelectItem.parseList_shallow ctx
    refine .after fun _ => .bind_ite (.pure (by simp)) hlist fun items hitems => ?_
    refine .after fun _ => .bind_ite hlist (.pure (by simp)) fun groupBy hgroupBy => ?_
    exact .pure (by simpa [contents] using ⟨hitems, hgroupBy⟩)
  · exact .expected

/-- A query takes a level, and what is in it is within those that are left. -/
theorem Query.parse_shallow :
    EnsuresAt ctx Query.parse fun query => Shallow ctx.depth query.contents := by
  have hbody : ∀ ctx, EnsuresAt ctx parseBody fun body => Shallow ctx.depth body.contents :=
    fun ctx => .test (.bind (Select.parse_shallow ctx) fun _ h => .pure h) <|
      .after fun _ => .after fun _ => .pure (by simp [QueryBody.contents, TableRef.contents])
  have hpipes : ∀ ctx, EnsuresAt ctx parsePipes
      fun pipes => ∀ pipe ∈ pipes, Shallow ctx.depth pipe.contents :=
    fun ctx => .after fun _ => .ite (fun _ => .pure (by simp)) fun _ =>
      .many_test (PipeOperator.parse_shallow ctx)
  refine .descend fun depth hdepth => .bind (hbody _) fun body hb =>
    .bind (hpipes _) fun pipes hp => .pure ?_
  have hshallow : Shallow depth (Query.contents { body, pipes }) := by
    simpa [contents] using ⟨hb, hp⟩
  exact hshallow.deeper (by omega)

/-! ## Statements -/

/-- Only the query that is explained stores expressions. -/
theorem Explain.parse_shallow (keyword : ExplainKeyword) :
    EnsuresAt ctx (Explain.parse keyword) fun explain => Shallow ctx.depth explain.contents := by
  have htarget : EnsuresAt ctx parseTarget fun target =>
      Shallow ctx.depth (Explain.contents { keyword, target }) :=
    .after fun _ => .after fun _ => .ite
      (fun _ => .bind (Query.parse_shallow ctx) fun _ h => .pure h)
      fun _ => .after fun _ => .pure (by simp [contents])
  refine .after fun options => .bind htarget fun target h => .pure ?_
  rwa [foldl_addOption_contents]

namespace Statement

/-- Each kind of statement is within the levels that it starts with. -/
theorem parseBuiltin_shallow :
    EnsuresAt ctx parseBuiltin fun s => Shallow ctx.depth s.contents := by
  refine .after fun found => ?_
  split
  · exact .bind (Alter.parse_shallow ctx) fun _ h => .pure h
  · exact .bind (Explain.parse_shallow ctx .explain) fun _ h => .pure h
  · exact .bind (Explain.parse_shallow ctx .describe) fun _ h => .pure h
  · exact .bind (Explain.parse_shallow ctx .desc) fun _ h => .pure h
  · exact .after fun _ => .pure (by simp [contents, CreateSynonym.contents])
  · exact .after fun _ => .bind (Query.parse_shallow ctx) fun _ h => .pure h
  · exact .after fun _ => .bind (Query.parse_shallow ctx) fun _ h => .pure h
  · exact .expected

/-- Every statement of a text starts with the levels that the text has. -/
theorem parseAll_shallow : EnsuresAt ctx parseAll
    fun statements => ∀ s ∈ statements, Shallow ctx.depth s.contents := by
  have hone : EnsuresAt ctx (parseWith noExtension) fun s => Shallow ctx.depth s.contents := by
    -- there is no extension, and one level of the limit is spent on the statement
    refine .descend fun depth hdepth => .bind (P := (· = none)) (.pure rfl) fun o hnone => ?_
    have hle : depth ≤ ctx.depth := by omega
    rw [hnone]
    exact EnsuresAt.mono (parseBuiltin_shallow { ctx with depth }) fun _ h => h.deeper hle
  have hnext : ∀ first, EnsuresAt ctx (parseNext noExtension first)
      fun o => ∀ s ∈ o, Shallow ctx.depth s.contents := by
    intro first
    refine .after fun _ => .after fun _ => .ite (fun _ => .pure (by simp)) fun _ => ?_
    refine .ite (fun _ => .bind (P := fun _ => False) .expected nofun) fun _ => ?_
    exact .map hone (by simp)
  refine .map (P := fun statements => ∀ s ∈ statements, Shallow ctx.depth s.contents)
    (.iterate (by simp) fun statements hs => .map (hnext _) ?_) (by simp)
  rintro (_ | s) ho
  · simp
  · simpa using ⟨ho s rfl, hs⟩

/-- No expression of a statement that is read has more levels of nesting than the limit allows,
    where an operator adds no level for the operand in front of it. -/
theorem parseAll_levels {text : String} {statements : List Statement}
    (h : parseAll.runText ctx text = .ok statements) :
    ∀ s ∈ statements, ∀ e ∈ s.exprs, e.levels ≤ ctx.depth := by
  obtain ⟨tokens, -, hrun⟩ := runText_ok.mp h
  rw [runTokens] at hrun
  split at hrun
  · rename_i value c' hread
    obtain rfl := Except.ok.inj hrun
    exact fun s hs => s.throughout_contents.mp (parseAll_shallow ctx _ _ c' hread s hs)
  · cases hrun

/-- The statement of `SELECT f(-(a))`. -/
def callOfSign : Statement :=
  .query {
    body := .select {
      projection := [.unnamed <| .call (.simple "f")
        [.unary .minus (.nested (.ident ⟨"a", none⟩))]] } }

/-- Its tree has four levels, and is read one level below its query and statement. -/
theorem callOfSign_levels : let ctx : Context := { dialect := .generic, depth := 6 }
    parseAll.runText ctx "SELECT f(-(a))" = .ok [callOfSign] ∧
      ∀ s ∈ [callOfSign], ∀ e ∈ s.exprs, e.levels ≤ ctx.depth := by
  intro ctx
  have h : parseAll.runText ctx "SELECT f(-(a))" = .ok [callOfSign] := by decide +kernel
  exact ⟨h, parseAll_levels ctx h⟩

end Statement

/-! ## Height -/

mutual

/-- The height of a tree, counted in expressions that stand in one another. -/
def Expr.height : Expr → Nat
  | .ident _ | .compound _ | .literal _ | .wildcard => 1
  | .binary left _ right => max left.height right.height + 1
  | .unary _ operand => operand.height + 1
  | .nested inner => inner.height + 1
  | .call _ args => Expr.listHeight args + 1
  | .isNull operand => operand.height + 1
  | .isNotNull operand => operand.height + 1
  | .inList operand items _ => max operand.height (Expr.listHeight items) + 1
  | .between operand _ low high => max operand.height (max low.height high.height) + 1

/-- The height of the highest of these trees. -/
def Expr.listHeight : List Expr → Nat
  | [] => 0
  | e :: rest => max e.height (Expr.listHeight rest)

end

/-- The statement of `SELECT a IS NULL IS NULL IS NULL`. -/
def Statement.nullTests : Statement :=
  .query {
    body := .select {
      projection := [.unnamed (.isNull (.isNull (.isNull (.ident ⟨"a", none⟩))))] } }

/-- Three levels are enough for a tree of height four, since each test is wrapped around the
    one in front of it. -/
theorem Statement.parseAll_height :
    parseAll.runText { dialect := .generic, depth := 3 } "SELECT a IS NULL IS NULL IS NULL"
        = .ok [nullTests] ∧
      ¬ ∀ s ∈ [nullTests], ∀ e ∈ s.exprs, e.height ≤ 3 := by
  refine ⟨by decide +kernel, fun h => ?_⟩
  have hroot := h nullTests (by simp) (.isNull (.isNull (.isNull (.ident ⟨"a", none⟩))))
    (by simp [exprs, contents, nullTests, Query.contents, QueryBody.contents,
      SelectItem.contents, Expr.contents, Node.expr?])
  simp [Expr.height] at hroot

end SchemaSql
