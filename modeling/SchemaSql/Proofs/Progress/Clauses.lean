import SchemaSql.Alter.Parser
import SchemaSql.Proofs.Progress.Definitions

/-! # Progress of the readers for the clauses of ALTER TABLE

    A clause starts with a bare keyword, which is no end, so what is read behind it need not
    move.  `MOVE` is the one keyword that is put back; the captured text that is read instead
    takes it again. -/

namespace SchemaSql

open Cursor SchemaSql.Parser

theorem DropBehavior.parse_onward : Onward parse :=
  .test (.acceptKeyword _) (.pure id) <| .test (.acceptKeyword _) (.pure id) (.pure id)

theorem CharacterSetCollation.parse_onward : Onward parse :=
  .test (.acceptKeyword _)
    (Forward.acceptEquals.behind fun _ => (Ident.parse_advances false).after fun _ => .pure id)
    (.pure id)

namespace AlterClause

/-- A further name of a list of partitions, unless the comma separates clauses. -/
def furtherPartition : Parser (Option Ident) := do
  let cursor ← get
  if cursor.peek.token ≠ .comma || startsClause (cursor.peekNth 1).token then return none
  let _ ← next
  some <$> Ident.parse false

theorem parsePartitions_eq : parsePartitions = (do
    let first ← Ident.parse false
    let rest ← many furtherPartition
    return first :: rest) := rfl

/-- A further name has its comma in front, and without one nothing is read. -/
theorem furtherPartition_forward : Forward (·.isSome) furtherPartition := by
  have hname : Onward (some <$> Ident.parse false) :=
    (Ident.parse_advances false).onward.map fun _ => id
  refine .get fun ctx c hc => ?_
  split
  · exact .ok hc le_rfl nofun
  · next hcomma =>
      simp only [Bool.or_eq_true, decide_eq_true_eq, not_or, not_not] at hcomma
      exact Forward.next_lands hc hname fun heof => by simp [hcomma.1] at heof

theorem parsePartitions_advances : Advances parsePartitions := by
  rw [parsePartitions_eq]
  exact (Ident.parse_advances false).after fun _ =>
    (Forward.many furtherPartition_forward).behind fun _ => .pure id

/-- Something is added, whichever of the three it is. -/
theorem parseAdd_advances : Advances parseAdd := by
  refine .test (.acceptKeyword _) (PartitionDefinition.parseList_advances.after fun _ => .pure id)
    ?_
  refine ColumnKeyword.parse_onward.behind fun keyword => .peek fun t => ?_
  refine .ite (TableConstraint.parse_advances.after fun _ => .pure id) ?_
  exact (Forward.acceptKeywords _ _).behind fun _ => .peek fun _ => .ite
    ((Forward.parenthesizedList ColumnDefinition.parse_advances).after fun _ => .pure id)
    (ColumnDefinition.parse_advances.after fun _ => .pure id)

theorem parseAlter_advances : Advances parseAlter := by
  refine .test (.acceptKeyword _) ((Ident.parse_advances false).after fun _ =>
    (Forward.expectOneOf _).after fun _ => .pure id) ?_
  refine (Forward.acceptOneOf _).behind fun keyword => ?_
  split
  · exact (Ident.parse_advances false).after fun _ => (Forward.acceptKeyword _).behind fun _ =>
      (Forward.expectKeyword _).after fun _ => .pure id
  · exact ColumnKeyword.parse_onward.behind fun _ => (Ident.parse_advances false).after fun _ =>
      ColumnAction.parse_advances.after fun _ => .pure id

/-- Whatever is dropped is named by a word at least. -/
theorem parseDrop_advances : Advances parseDrop := by
  have hname : Onward (some <$> Ident.parse false) :=
    (Ident.parse_advances false).onward.map fun _ => id
  refine .test (.acceptKeywords _ _) (.pure id) ?_
  refine .test (.acceptKeyword _) (Ident.parseList_advances.after fun _ => .pure id) ?_
  refine .test (.acceptKeywords _ _) (.peek fun t => .bind_ite (.pure id) hname fun name =>
    .peek fun t => .bind_ite Ident.parseList_advances.onward (.pure id) fun _ => .pure id) ?_
  refine IndexKeyword.parse_forward.behind fun keyword => ?_
  split
  · exact (Ident.parse_advances false).after fun _ => .pure id
  refine .test (.acceptKeyword _) (parsePartitions_advances.after fun _ => .pure id) ?_
  refine .test (.acceptKeyword _) ((Forward.acceptKeywords _ _).behind fun _ =>
    (Ident.parse_advances false).after fun _ => DropBehavior.parse_onward.behind fun _ =>
      .pure id) ?_
  exact ColumnKeyword.parse_onward.behind fun _ => (Forward.acceptKeywords _ _).behind fun _ =>
    (Ident.parse_advances false).after fun _ => DropBehavior.parse_onward.behind fun _ => .pure id

theorem parseModifiedColumn_advances : Advances parseModifiedColumn :=
  (Forward.acceptKeyword _).behind fun _ => ColumnDefinition.parse_advances.after fun _ => .pure id

theorem parseModify_advances : Advances parseModify :=
  ColumnKeyword.parse_onward.behind fun _ => .peek fun _ => .ite
    ((Forward.parenthesizedList parseModifiedColumn_advances).after fun _ => .pure id)
    (ColumnDefinition.parse_advances.after fun _ => .pure id)

theorem parseChange_advances : Advances parseChange :=
  ColumnKeyword.parse_onward.behind fun _ => (Ident.parse_advances false).after fun _ =>
    ColumnDefinition.parse_advances.after fun _ => .pure id

theorem parseRenameKind_onward : Onward parseRenameKind :=
  .test (.acceptKeyword _) (.pure id) <|
    .test (.acceptKeyword _) (.pure id) <|
    .test (.acceptKeyword _) (.pure id) (.pure id)

theorem parseRename_advances : Advances parseRename := by
  refine (Forward.acceptOneOf _).behind fun keyword => ?_
  split
  · exact ObjectName.parse_advances.after fun _ => .pure id
  refine parseRenameKind_onward.behind fun kind => ?_
  refine .bind_ite (.pure id) ColumnKeyword.parse_onward fun keyword => ?_
  refine (Ident.parse_advances false).after fun oldName => (Forward.expectKeyword _).after fun _ =>
    (Ident.parse_advances false).after fun newName => ?_
  cases kind with
  | some kind => exact .pure id
  | none => exact .pure id

theorem parseCollate_advances (default : Bool) : Advances (parseCollate default) :=
  Forward.acceptEquals.behind fun _ => (Ident.parse_advances false).after fun _ => .pure id

theorem parseCharacterSet_advances (default : Bool) : Advances (parseCharacterSet default) :=
  Forward.acceptEquals.behind fun _ => (Ident.parse_advances false).after fun _ =>
    CharacterSetCollation.parse_onward.behind fun _ => .pure id

theorem parseDefault_advances : Advances parseDefault :=
  .test (.acceptKeyword _) (parseCollate_advances true).onward <|
    (Forward.expectKeywords _).behind fun _ => parseCharacterSet_advances true

theorem parseConvert_advances : Advances parseConvert :=
  (Forward.expectKeywords _).behind fun _ => (Ident.parse_advances false).after fun _ =>
    CharacterSetCollation.parse_onward.behind fun _ => .pure id

theorem parseSetting_advances (kind : NamedSetting) : Advances (parseSetting kind) :=
  Forward.acceptEquals.behind fun _ => (Ident.parse_advances false).after fun _ => .pure id

/-- The word `TABLESPACE` is read at the start or at the end. -/
theorem parseTablespace_advances (whole : AlterClause) (command : PartitionCommand) :
    Advances (parseTablespace whole command) :=
  .test (.acceptKeyword _) (.pure id) <|
    (Forward.expectKeyword _).after fun _ => parsePartitions_advances.after fun _ =>
      (Forward.expectKeyword _).after fun _ => .pure id

theorem parsePartitionCommand_advances (command : PartitionCommand) :
    Advances (parsePartitionCommand command) :=
  (Forward.expectKeyword _).after fun _ => parsePartitions_advances.after fun _ => .pure id

theorem parseReorganize_advances : Advances parseReorganize :=
  (Forward.expectKeyword _).after fun _ => parsePartitions_advances.after fun _ =>
    (Forward.expectKeyword _).after fun _ => PartitionDefinition.parseList_advances.after fun _ =>
      .pure id

theorem parseExchange_advances : Advances parseExchange :=
  (Forward.expectKeyword _).after fun _ => (Ident.parse_advances false).after fun _ =>
    (Forward.expectKeywords _).behind fun _ => ObjectName.parse_advances.after fun _ =>
      .test (.acceptKeywords _ _) (.pure id) <|
        .test (.acceptKeywords _ _) (.pure id) (.pure id)

/-- Behind every first word but `MOVE`, which is put back. -/
theorem parseAfter_onward (found : Located) {keyword : Option Keyword} (h : keyword ≠ some .move) :
    Onward (parseAfter found keyword) := by
  unfold parseAfter
  split
  · exact parseAdd_advances.onward
  · exact parseAlter_advances.onward
  · exact parseDrop_advances.onward
  · exact parseModify_advances.onward
  · exact parseChange_advances.onward
  · exact parseRename_advances.onward
  · exact (parseCollate_advances false).onward
  · exact parseDefault_advances.onward
  · exact (Forward.expectKeyword _).after fun _ => (parseCharacterSet_advances false).onward
  · exact parseConvert_advances.onward
  · exact (parseSetting_advances _).onward
  · exact (parseSetting_advances _).onward
  · exact (parseSetting_advances _).onward
  · exact Forward.acceptEquals.behind fun _ => Literal.parseCount_advances.after fun _ => .pure id
  · exact .pure id
  · exact Forward.acceptEquals.behind fun _ => Literal.parseString_advances.after fun _ => .pure id
  · exact (parseTablespace_advances _ _).onward
  · exact (parseTablespace_advances _ _).onward
  · exact (Forward.expectKeyword _).after fun _ => .pure id
  · exact (Forward.expectKeyword _).after fun _ => .pure id
  · exact (parsePartitionCommand_advances _).onward
  · exact (parsePartitionCommand_advances _).onward
  · exact (parsePartitionCommand_advances _).onward
  · exact (parsePartitionCommand_advances _).onward
  · exact (parsePartitionCommand_advances _).onward
  · exact (parsePartitionCommand_advances _).onward
  · exact (Forward.expectKeyword _).after fun _ => Literal.parseCount_advances.after fun _ =>
      .pure id
  · exact parseReorganize_advances.onward
  · exact parseExchange_advances.onward
  · exact (Forward.expectKeyword _).after fun _ => .pure id
  · exact (Forward.expectKeyword _).after fun _ => Partitioning.parse_advances.after fun _ =>
      .pure id
  · exact absurd rfl h
  · exact .ite (Forward.acceptEquals.behind fun _ => Expr.parse_advances.after fun _ => .pure id)
      (.expected (by decide))
  · exact .expected (by decide)

/-- A clause starts with a word, which is read. -/
theorem parse_advances : Advances parse := by
  refine .next_or_back fun t => ?_
  by_cases hmove : t.token.bareKeyword? = some .move
  · rw [hmove]
    exact .inr ⟨_, valueText_advances.after fun _ => .pure id, rfl⟩
  · refine .inl ⟨parseAfter_onward t hmove, fun heof => ?_⟩
    have hnone : t.token.bareKeyword? = none := by rw [heof]; rfl
    rw [hnone]
    exact .expected (by decide)

end AlterClause

theorem Alter.parse_advances : Advances parse :=
  (Forward.expectKeyword _).after fun _ => (Forward.acceptKeywords _ _).behind fun _ =>
    (Forward.acceptKeyword _).behind fun _ => ObjectName.parse_advances.after fun _ =>
      (Forward.commaSeparatedWith false AlterClause.parse_advances).after fun _ => .pure id

end SchemaSql
