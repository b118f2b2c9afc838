import SchemaSql.Proofs.Comparison.Definitions
import SchemaSql.Proofs.Locality.Clauses

/-! # Two runs of the readers for the clauses of ALTER TABLE

    The word a clause starts with is the same in both runs, so the same reader goes on behind
    it.  A clause with `MOVE` is the one that is read from its first word on once more. -/

namespace SchemaSql

open Cursor SchemaSql.Parser Comparison

variable {K : Comparison}

section

variable [Dialectal K]

theorem DropBehavior.parse_steady : K.Steady parse :=
  (Steady.acceptKeyword _).test (.pure rfl) <|
    (Steady.acceptKeyword _).test (.pure rfl) (.pure rfl)

theorem CharacterSetCollation.parse_steady : K.Steady parse :=
  (Steady.acceptKeyword _).test
    (Steady.acceptEquals.next fun _ => (Ident.parse_steady false).next fun _ => .pure rfl)
    (.pure rfl)

end

namespace AlterClause

section

variable [Dialectal K]

/-- A further name of a list of partitions; the two tokens it starts with decide. -/
theorem partition_steady : K.Steady (do
    let cursor ← get
    if cursor.peek.token ≠ .comma || startsClause (cursor.peekNth 1).token then return none
    let _ ← next
    some <$> Ident.parse false) := by
  intro ctx ctx' c d hctx hc
  rw [bind_run (get_ok.mpr ⟨rfl, rfl⟩), bind_run (get_ok.mpr ⟨rfl, rfl⟩),
    ← Lawful.peek_token hc, ← Lawful.token (Lawful.peekNth hc 1)]
  split
  · exact .ok rfl hc
  · rename_i hcomma
    simp only [Bool.or_eq_true, decide_eq_true_eq, not_or, not_not] at hcomma
    exact Alike.next_seen (by simp) (fun _ _ _ => (Ident.parse_steady false).map
      fun _ _ heq => by rw [heq]) hctx hc hcomma.1

/-- Whether a comma goes on with the names is decided by the token behind it. -/
theorem parsePartitions_steady : K.Steady parsePartitions :=
  (Ident.parse_steady false).next fun _ =>
    (Alike.many partition_offers partition_offers partition_steady).next fun _ => .pure rfl

end

section

variable [Nesting K] [Listing K]

/-- A constraint, a list of columns and a single one are told by the next token. -/
theorem parseAdd_steady : K.Steady parseAdd := by
  refine (Steady.acceptKeyword _).test
    (PartitionDefinition.parseList_steady.next fun _ => .pure rfl) ?_
  refine ColumnKeyword.parse_steady.next fun keyword => .peek fun token _ _ _ => ?_
  refine .ite (TableConstraint.parse_steady.next fun _ => .pure rfl) ?_
  exact (Steady.acceptKeywords _).next fun _ => .peek_if
    ((Alike.parenthesizedList ColumnDefinition.parse_local ColumnDefinition.parse_local
      ColumnDefinition.parse_steady).next fun _ => .pure rfl)
    (ColumnDefinition.parse_steady.next fun _ => .pure rfl)

theorem parseAlter_steady : K.Steady parseAlter := by
  refine (Steady.acceptKeyword _).test ((Ident.parse_steady false).next fun _ =>
    (Steady.expectOneOf _).next fun _ => .pure rfl) ?_
  refine (Steady.acceptOneOf _).next fun keyword => ?_
  split
  · exact (Ident.parse_steady false).next fun _ => (Steady.acceptKeyword _).next fun _ =>
      .behind_keyword _ (.pure rfl)
  · exact ColumnKeyword.parse_steady.next fun _ => (Ident.parse_steady false).next fun _ =>
      ColumnAction.parse_steady.next fun _ => .pure rfl

end

section

variable [Dialectal K]

/-- What is dropped is told by words, and a missing name by what ends the clause. -/
theorem parseDrop_steady : K.Steady parseDrop := by
  refine (Steady.acceptKeywords _).test (.pure rfl) ?_
  refine (Steady.acceptKeyword _).test (Ident.parseList_steady.next fun _ => .pure rfl) ?_
  refine (Steady.acceptKeywords _).test (.peek fun token _ _ _ => ?_) ?_
  · exact .ite_next (.pure rfl) ((Ident.parse_steady false).map fun _ _ heq => by rw [heq])
      fun name => .peek_if_next Ident.parseList_steady (.pure rfl) fun _ => .pure rfl
  · refine IndexKeyword.parse_steady.next fun keyword => ?_
    split
    · exact (Ident.parse_steady false).next fun _ => .pure rfl
    refine (Steady.acceptKeyword _).test (parsePartitions_steady.next fun _ => .pure rfl) ?_
    refine (Steady.acceptKeyword _).test ((Steady.acceptKeywords _).next fun _ =>
      (Ident.parse_steady false).next fun _ => DropBehavior.parse_steady.next fun _ =>
        .pure rfl) ?_
    exact ColumnKeyword.parse_steady.next fun _ => (Steady.acceptKeywords _).next fun _ =>
      (Ident.parse_steady false).next fun _ => DropBehavior.parse_steady.next fun _ => .pure rfl

end

section

variable [Nesting K]

theorem parseModifiedColumn_steady : K.Steady parseModifiedColumn :=
  (Steady.acceptKeyword _).next fun _ => ColumnDefinition.parse_steady.next fun _ => .pure rfl

theorem parseModify_steady : K.Steady parseModify :=
  ColumnKeyword.parse_steady.next fun _ => .peek_if
    ((Alike.parenthesizedList parseModifiedColumn_local parseModifiedColumn_local
      parseModifiedColumn_steady).next fun _ => .pure rfl)
    (ColumnDefinition.parse_steady.next fun _ => .pure rfl)

theorem parseChange_steady : K.Steady parseChange :=
  ColumnKeyword.parse_steady.next fun _ => (Ident.parse_steady false).next fun _ =>
    ColumnDefinition.parse_steady.next fun _ => .pure rfl

end

section

variable [Dialectal K]

theorem parseRenameKind_steady : K.Steady parseRenameKind :=
  (Steady.acceptKeyword _).test (.pure rfl) <|
    (Steady.acceptKeyword _).test (.pure rfl) <|
    (Steady.acceptKeyword _).test (.pure rfl) (.pure rfl)

theorem parseRename_steady : K.Steady parseRename := by
  refine (Steady.acceptOneOf _).next fun keyword => ?_
  split
  · exact ObjectName.parse_steady.next fun _ => .pure rfl
  refine parseRenameKind_steady.next fun kind => ?_
  refine .ite_next (.pure rfl) ColumnKeyword.parse_steady fun keyword => ?_
  refine (Ident.parse_steady false).next fun oldName => .behind_keyword _ <|
    (Ident.parse_steady false).next fun newName => ?_
  cases kind with
  | some kind => exact .pure rfl
  | none => exact .pure rfl

theorem parseCollate_steady (default : Bool) : K.Steady (parseCollate default) :=
  Steady.acceptEquals.next fun _ => (Ident.parse_steady false).next fun _ => .pure rfl

theorem parseCharacterSet_steady (default : Bool) : K.Steady (parseCharacterSet default) :=
  Steady.acceptEquals.next fun _ => (Ident.parse_steady false).next fun _ =>
    CharacterSetCollation.parse_steady.next fun _ => .pure rfl

theorem parseDefault_steady : K.Steady parseDefault :=
  (Steady.acceptKeyword _).test (parseCollate_steady true) <|
    (Steady.expectKeywords _).next fun _ => parseCharacterSet_steady true

theorem parseConvert_steady : K.Steady parseConvert :=
  (Steady.expectKeywords _).next fun _ => (Ident.parse_steady false).next fun _ =>
    CharacterSetCollation.parse_steady.next fun _ => .pure rfl

theorem parseSetting_steady (kind : NamedSetting) : K.Steady (parseSetting kind) :=
  Steady.acceptEquals.next fun _ => (Ident.parse_steady false).next fun _ => .pure rfl

theorem parseTablespace_steady (whole : AlterClause) (command : PartitionCommand) :
    K.Steady (parseTablespace whole command) :=
  (Steady.acceptKeyword _).test (.pure rfl) <|
    .behind_keyword _ <| parsePartitions_steady.next fun _ => .behind_keyword _ (.pure rfl)

theorem parsePartitionCommand_steady (command : PartitionCommand) :
    K.Steady (parsePartitionCommand command) :=
  .behind_keyword _ <| parsePartitions_steady.next fun _ => .pure rfl

theorem parseReorganize_steady : K.Steady parseReorganize :=
  .behind_keyword _ <| parsePartitions_steady.next fun _ => .behind_keyword _ <|
    PartitionDefinition.parseList_steady.next fun _ => .pure rfl

theorem parseExchange_steady : K.Steady parseExchange :=
  .behind_keyword _ <| (Ident.parse_steady false).next fun _ =>
    (Steady.expectKeywords _).next fun _ => ObjectName.parse_steady.next fun _ =>
      (Steady.acceptKeywords _).test (.pure rfl) <|
        (Steady.acceptKeywords _).test (.pure rfl) (.pure rfl)

end

variable [Nesting K] [Listing K]

/-- The word that a clause starts with stands in like places, and matters to errors alone. -/
theorem parseAfter_alike {found found' : Located} (h : K.tokens found found')
    (keyword : Option Keyword) :
    K.Alike Eq (parseAfter found keyword) (parseAfter found' keyword) := by
  unfold parseAfter
  split
  · exact parseAdd_steady
  · exact parseAlter_steady
  · exact parseDrop_steady
  · exact parseModify_steady
  · exact parseChange_steady
  · exact parseRename_steady
  · exact parseCollate_steady false
  · exact parseDefault_steady
  · exact .behind_keyword _ (parseCharacterSet_steady false)
  · exact parseConvert_steady
  · exact parseSetting_steady _
  · exact parseSetting_steady _
  · exact parseSetting_steady _
  · exact Steady.acceptEquals.next fun _ => Literal.parseCount_steady.next fun _ => .pure rfl
  · exact .pure rfl
  · exact Steady.acceptEquals.next fun _ => Literal.parseString_steady.next fun _ => .pure rfl
  · exact parseTablespace_steady _ _
  · exact parseTablespace_steady _ _
  · exact .behind_keyword _ (.pure rfl)
  · exact .behind_keyword _ (.pure rfl)
  · exact parsePartitionCommand_steady _
  · exact parsePartitionCommand_steady _
  · exact parsePartitionCommand_steady _
  · exact parsePartitionCommand_steady _
  · exact parsePartitionCommand_steady _
  · exact parsePartitionCommand_steady _
  · exact .behind_keyword _ <| Literal.parseCount_steady.next fun _ => .pure rfl
  · exact parseReorganize_steady
  · exact parseExchange_steady
  · exact .behind_keyword _ (.pure rfl)
  · exact .behind_keyword _ <| Partitioning.parse_steady.next fun _ => .pure rfl
  · exact Alike.back.next fun _ => Lawful.value.next fun _ => .pure rfl
  · exact .ite (Steady.acceptEquals.next fun _ => Expr.parse_steady.next fun _ => .pure rfl)
      (.expected _ h)
  · exact .expected _ h

theorem parse_steady : K.Steady parse :=
  .next_token (fun _ _ _ h => parseAfter_alike h _) fun h => .expected _ h

end AlterClause

theorem Alter.parse_steady [Nesting K] [Listing K] : K.Steady parse := by
  have hlocal : Alike.LocalItem AlterClause.parse := AlterClause.parse_reads.isLocal
  exact .behind_keyword _ <| (Steady.acceptKeywords _).next fun _ =>
    (Steady.acceptKeyword _).next fun _ => ObjectName.parse_steady.next fun _ =>
      (Alike.commaSeparatedWith false hlocal hlocal AlterClause.parse_steady).next
        fun _ => .pure rfl

end SchemaSql
