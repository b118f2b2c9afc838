import SchemaSql.Alter.Parser
import SchemaSql.Proofs.Locality.Definitions

/-! # Locality of the clauses of ALTER TABLE

    A clause is local at the places where a clause may end: a comma that a list of partitions
    stops at is one in front of a word that starts a clause, and the words that start a clause
    are those that the reader of clauses goes by (`startsClause_of_parse`).  Only `MOVE` keeps
    text up to the end of the statement, so it is local where a comma is never the end. -/

namespace SchemaSql

open Cursor SchemaSql.Parser

variable {R : Rel} [Lookahead R]

theorem DropBehavior.parse_local : Local R parse :=
  (Local.acceptKeyword _).test (Local.pure _) <|
    (Local.acceptKeyword _).test (Local.pure _) (Local.pure _)

theorem CharacterSetCollation.parse_local : Local R parse :=
  (Local.acceptKeyword _).test
    (Local.acceptEquals.bind fun _ => (Ident.parse_local false).bind fun _ => Local.pure _)
    (Local.pure _)

namespace AlterClause

/-! ## Lists of partitions -/

/-- A comma that is not in front of a clause. -/
def anotherName (t t' : Located) : Bool := t.token == .comma && !startsClause t'.token

/-- No clause starts with a mark that may end one. -/
theorem startsClause_mark {t : Located} (h : EndMark t.token) :
    startsClause t.token = false := by
  rcases h with h | h | h <;> simp [startsClause, h, Token.bareKeyword?]

/-- Where a clause ends there is no further name of a partition. -/
theorem anotherName_end {w : List Located} (h : ClauseEnd w) :
    anotherName (nthSolid 0 w) (nthSolid 1 w) = false := by
  have hzero := nthSolid_zero_of_clean h.clean
  rcases h with h | ⟨t, r, rfl, ht, hr⟩
  · rcases h.mark with hm | hm <;> simp [anotherName, hzero, hm]
  · have hone : nthSolid 1 (t :: r) = nthSolid 0 r := by
      simp [nthSolid, Located.isWhitespace, ht, Token.isWhitespace]
    simp [anotherName, hone, hr]

/-- A further name of a list of partitions. -/
theorem partition_offers : Offers R (· ≠ none) (do
    let cursor ← get
    if cursor.peek.token ≠ .comma || startsClause (cursor.peekNth 1).token then return none
    let _ ← next
    some <$> Ident.parse false) := by
  refine .peek_two anotherName (fun b => if b then do
      let _ ← expect .comma
      some <$> Ident.parse false
    else return none) (fun ctx c => ?_) (fun b => ?_) fun w r hw h => ?_
  · have hpeek : c.peek = c.peekNth 0 := rfl
    by_cases hname : anotherName (c.peekNth 0) (c.peekNth 1)
    · have hcond := hname
      simp only [anotherName, Bool.and_eq_true, beq_iff_eq, Bool.not_eq_true'] at hcond
      rw [if_pos hname, if_neg (by simp [hpeek, hcond.1, hcond.2])]
      rw [next_bind_eq_expect, hpeek, hcond.1]
    · rw [if_neg hname, if_pos]
      simpa [anotherName, hpeek, imp_iff_not_or] using hname
  · exact .ite (.bind (.expect (by simp)) fun _ => (Ident.parse_local false).map some)
      (.pure (by simp))
  -- the test looks at two tokens: behind an end mark it fails whatever follows
  · rcases Local.two_cases hw h with ⟨hend, hend'⟩ | ⟨heq, heq' | ⟨hm, hm'⟩⟩
    · rw [anotherName_end hend, anotherName_end hend']
    · rw [heq, heq']
    · simp only [anotherName, heq, startsClause_mark hm, startsClause_mark hm']

/-- The comma that ends a list of partitions stands in front of a clause in both rests. -/
theorem parsePartitions_local : Local R parsePartitions :=
  (Ident.parse_local false).bind fun _ => (Local.many partition_offers).bind fun _ => Local.pure _

/-! ## The clauses -/

/-- What is added is told by the first words, none of which may end a clause. -/
theorem parseAdd_local : Local R parseAdd := by
  refine (Local.acceptKeyword _).test
    (PartitionDefinition.parseList_local.bind fun _ => Local.pure _) ?_
  refine ColumnKeyword.parse_local.bind fun keyword => ?_
  refine Local.peek_test TableConstraint.startsConstraint (fun b => do
    if keyword = .none && b then return .addConstraint (← TableConstraint.parse)
    let ifNotExists ← acceptKeywords [.if, .not, .exists]
    if (← peek).token = .lparen then
      return .addColumns keyword ifNotExists true (← parenthesizedList ColumnDefinition.parse)
    return .addColumns keyword ifNotExists false [← ColumnDefinition.parse])
    (fun _ _ => rfl) (fun b => ?_) rfl rfl
  refine (TableConstraint.parse_local.bind fun _ => Local.pure _).ite ?_
  exact (Local.acceptKeywords _).bind fun _ => Local.peek_if (by simp [EndMark])
    ((Local.parenthesizedList ColumnDefinition.parse_local).bind fun _ => Local.pure _)
    (ColumnDefinition.parse_local.bind fun _ => Local.pure _)

theorem parseAlter_local : Local R parseAlter := by
  refine (Local.acceptKeyword _).test ((Ident.parse_local false).bind fun _ =>
    (Local.expectOneOf _).bind fun _ => Local.pure _) ?_
  refine (Local.acceptOneOf _).bind fun keyword => ?_
  split
  · exact (Ident.parse_local false).bind fun _ => (Local.acceptKeyword _).bind fun _ =>
      (Local.expectKeyword _).bind fun _ => Local.pure _
  · exact ColumnKeyword.parse_local.bind fun _ => (Ident.parse_local false).bind fun _ =>
      ColumnAction.parse_local.bind fun _ => Local.pure _

/-- A foreign key may be dropped without a name, which is seen from the mark behind it. -/
theorem parseDrop_local : Local R parseDrop := by
  refine (Local.acceptKeywords _).test (Local.pure _) ?_
  refine (Local.acceptKeyword _).test (Ident.parseList_local.bind fun _ => Local.pure _) ?_
  refine (Local.acceptKeywords _).test ?_ ?_
  · refine Local.peek_test (fun token => endsClause token || decide (token = .lparen))
      (fun b => do
        let name ← if b then pure none else some <$> Ident.parse false
        let columns ← if (← peek).token = .lparen then Ident.parseList else pure []
        return .dropForeignKey name columns) (fun _ _ => rfl) (fun b => ?_) rfl rfl
    refine Local.ite_bind (Local.pure _) ((Ident.parse_local false).map some) fun name => ?_
    exact Local.peek_if_bind (by simp [EndMark]) Ident.parseList_local (Local.pure _)
      fun _ => Local.pure _
  -- an index, then partitions, a constraint or a column
  · refine IndexKeyword.parse_local.bind fun keyword => ?_
    split
    · exact (Ident.parse_local false).bind fun _ => Local.pure _
    refine (Local.acceptKeyword _).test (parsePartitions_local.bind fun _ => Local.pure _) ?_
    refine (Local.acceptKeyword _).test ((Local.acceptKeywords _).bind fun _ =>
      (Ident.parse_local false).bind fun _ => DropBehavior.parse_local.bind fun _ =>
        Local.pure _) ?_
    exact ColumnKeyword.parse_local.bind fun _ => (Local.acceptKeywords _).bind fun _ =>
      (Ident.parse_local false).bind fun _ => DropBehavior.parse_local.bind fun _ => Local.pure _

theorem parseModifiedColumn_local : Local R parseModifiedColumn :=
  (Local.acceptKeyword _).bind fun _ => ColumnDefinition.parse_local.bind fun _ => Local.pure _

/-- A parenthesis tells whether there are several columns. -/
theorem parseModify_local : Local R parseModify :=
  ColumnKeyword.parse_local.bind fun _ => Local.peek_if (by simp [EndMark])
    ((Local.parenthesizedList parseModifiedColumn_local).bind fun _ => Local.pure _)
    (ColumnDefinition.parse_local.bind fun _ => Local.pure _)

theorem parseChange_local : Local R parseChange :=
  ColumnKeyword.parse_local.bind fun _ => (Ident.parse_local false).bind fun _ =>
    ColumnDefinition.parse_local.bind fun _ => Local.pure _

theorem parseRenameKind_local : Local R parseRenameKind :=
  (Local.acceptKeyword _).test (Local.pure _) <|
    (Local.acceptKeyword _).test (Local.pure _) <|
    (Local.acceptKeyword _).test (Local.pure _) (Local.pure _)

/-- A kind, a word for columns or neither may stand in front of the two names. -/
theorem parseRename_local : Local R parseRename := by
  refine (Local.acceptOneOf _).bind fun keyword => ?_
  split
  · exact ObjectName.parse_local.bind fun _ => Local.pure _
  refine parseRenameKind_local.bind fun kind => ?_
  refine Local.ite_bind (Local.pure _) ColumnKeyword.parse_local fun keyword => ?_
  refine (Ident.parse_local false).bind fun oldName => (Local.expectKeyword _).bind fun _ =>
    (Ident.parse_local false).bind fun newName => ?_
  cases kind with
  | some kind => exact Local.pure _
  | none => exact Local.pure _

theorem parseCollate_local (default : Bool) : Local R (parseCollate default) :=
  Local.acceptEquals.bind fun _ => (Ident.parse_local false).bind fun _ => Local.pure _

theorem parseCharacterSet_local (default : Bool) : Local R (parseCharacterSet default) :=
  Local.acceptEquals.bind fun _ => (Ident.parse_local false).bind fun _ =>
    CharacterSetCollation.parse_local.bind fun _ => Local.pure _

theorem parseDefault_local : Local R parseDefault :=
  (Local.acceptKeyword _).test (parseCollate_local true) <|
    (Local.expectKeywords _).bind fun _ => parseCharacterSet_local true

theorem parseConvert_local : Local R parseConvert :=
  (Local.expectKeywords _).bind fun _ => (Ident.parse_local false).bind fun _ =>
    CharacterSetCollation.parse_local.bind fun _ => Local.pure _

theorem parseSetting_local (kind : NamedSetting) : Local R (parseSetting kind) :=
  Local.acceptEquals.bind fun _ => (Ident.parse_local false).bind fun _ => Local.pure _

/-- The word behind `DISCARD` or `IMPORT` tells whether partitions are named. -/
theorem parseTablespace_local (whole : AlterClause) (command : PartitionCommand) :
    Local R (parseTablespace whole command) :=
  (Local.acceptKeyword _).test (Local.pure _) <|
    (Local.expectKeyword _).bind fun _ => parsePartitions_local.bind fun _ =>
      (Local.expectKeyword _).bind fun _ => Local.pure _

theorem parsePartitionCommand_local (command : PartitionCommand) :
    Local R (parsePartitionCommand command) :=
  (Local.expectKeyword _).bind fun _ => parsePartitions_local.bind fun _ => Local.pure _

theorem parseReorganize_local : Local R parseReorganize :=
  (Local.expectKeyword _).bind fun _ => parsePartitions_local.bind fun _ =>
    (Local.expectKeyword _).bind fun _ => PartitionDefinition.parseList_local.bind fun _ =>
      Local.pure _

theorem parseExchange_local : Local R parseExchange :=
  (Local.expectKeyword _).bind fun _ => (Ident.parse_local false).bind fun _ =>
    (Local.expectKeywords _).bind fun _ => ObjectName.parse_local.bind fun _ =>
      (Local.acceptKeywords _).test (Local.pure _) <|
        (Local.acceptKeywords _).test (Local.pure _) (Local.pure _)

/-- All clauses but those behind `MOVE` are local at the ends of clauses. -/
theorem parseAfter_local (found : Located) {keyword : Option Keyword}
    (h : keyword ≠ some .move) : Local R (parseAfter found keyword) := by
  unfold parseAfter
  split
  · exact parseAdd_local
  · exact parseAlter_local
  · exact parseDrop_local
  · exact parseModify_local
  · exact parseChange_local
  · exact parseRename_local
  · exact parseCollate_local false
  · exact parseDefault_local
  · exact (Local.expectKeyword _).bind fun _ => parseCharacterSet_local false
  · exact parseConvert_local
  · exact parseSetting_local _
  · exact parseSetting_local _
  · exact parseSetting_local _
  · exact Local.acceptEquals.bind fun _ => Literal.parseCount_local.bind fun _ => Local.pure _
  · exact Local.pure _
  · exact Local.acceptEquals.bind fun _ => Literal.parseString_local.bind fun _ => Local.pure _
  · exact parseTablespace_local _ _
  · exact parseTablespace_local _ _
  · exact (Local.expectKeyword _).bind fun _ => Local.pure _
  · exact (Local.expectKeyword _).bind fun _ => Local.pure _
  · exact parsePartitionCommand_local _
  · exact parsePartitionCommand_local _
  · exact parsePartitionCommand_local _
  · exact parsePartitionCommand_local _
  · exact parsePartitionCommand_local _
  · exact parsePartitionCommand_local _
  · exact (Local.expectKeyword _).bind fun _ => Literal.parseCount_local.bind fun _ =>
      Local.pure _
  · exact parseReorganize_local
  · exact parseExchange_local
  · exact (Local.expectKeyword _).bind fun _ => Local.pure _
  · exact (Local.expectKeyword _).bind fun _ => Partitioning.parse_local.bind fun _ =>
      Local.pure _
  · exact absurd rfl h
  · exact (Local.acceptEquals.bind fun _ => Expr.parse_local.bind fun _ => Local.pure _).ite
      (Local.expected _ _)
  · exact Local.expected _ _

/-- A clause behind `MOVE` is read from that word on. -/
theorem parseAfter_resumes {R : Rel} [CommaAware R] (found : Located) :
    Local.Resumes R (fun t => parseAfter t t.token.bareKeyword?) found := by
  by_cases h : found.token.bareKeyword? = some .move
  · refine .inr ⟨do return .unspecific (← valueText), ?_, valueText_local.bind fun _ =>
      Local.pure _, (Offers.bind (valueText_reads (R := R)) fun _ => Local.pure _).takes⟩
    show parseAfter found found.token.bareKeyword? = _
    rw [h]
    rfl
  · exact .inl (parseAfter_local found h)

theorem parse_reads {R : Rel} [CommaAware R] : Reads R parse :=
  .next_bind_back parseAfter_resumes (Fails.expected _ _)

/-- Each setting of a table starts with a word that may start a clause. -/
theorem tableOptions_start : ∀ keyword ∈ tableOptions, keyword ∈ clauseStarts := by decide

/-- The words that start a clause are those that the reader goes by. -/
theorem parseAfter_starts {found : Located} {keyword : Option Keyword} {ctx : Context}
    {c c' : Cursor} {clause : AlterClause}
    (h : parseAfter found keyword ctx c = .ok clause c') :
    keyword.any (· ∈ clauseStarts) = true := by
  unfold parseAfter at h
  split at h
  all_goals try rfl
  · -- the names of table options are the only words that are looked up in a table
    rcases ite_ok.mp h with ⟨hmem, -⟩ | ⟨-, h⟩
    · simpa using tableOptions_start _ hmem
    · exact absurd h expected_ne_ok
  · exact absurd h expected_ne_ok

/-- A clause that was read starts with a word that may start one, so a comma in front of it ends a
    list of partitions. -/
theorem startsClause_of_parse {ctx : Context} {c c' : Cursor} {clause : AlterClause}
    (h : parse ctx c = .ok clause c') : startsClause c.peek.token = true := by
  obtain ⟨found, c1, hn, h⟩ := bind_ok.mp h
  rw [next_run] at hn
  obtain ⟨rfl, rfl⟩ := EStateM.Result.ok.inj hn
  exact parseAfter_starts h

end AlterClause

/-! ## Statements -/

/-- The clauses end where the statement does. -/
theorem Alter.parse_local {R : Rel} [CommaAware R] : Local R parse :=
  (Local.expectKeyword _).bind fun _ => (Local.acceptKeywords _).bind fun _ =>
    (Local.acceptKeyword _).bind fun _ => ObjectName.parse_local.bind fun _ =>
      (Local.commaSeparatedWith false AlterClause.parse_reads.isLocal).bind fun _ => Local.pure _

end SchemaSql
