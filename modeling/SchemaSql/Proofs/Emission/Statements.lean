import SchemaSql.Proofs.Emission

/-! # Emission of statements — clauses, queries and what they stand in

    The printers of statements are put together from those of their parts by the rules of
    `Emits`.  Where a node's text is defined by cases (a list that may be empty, a word that may
    be missing), the two sides are compared case by case. -/

namespace SchemaSql

open Text Emits

/-! ## ALTER TABLE -/

theorem TableOption.emits (option : TableOption) :
    Emits (fun _ _ put => option.emit put) option.text :=
  of_eq (next (piece _) <| next (piece _) <| next (piece _) option.value.emits)
    (by simp [TableOption.text, TableOption.chunks, Expr.text, String.append_assoc])

theorem CharacterSetCollation.emits_trailer (collation : Option CharacterSetCollation) :
    Emits (fun _ _ put => CharacterSetCollation.emitTrailer put collation)
      (CharacterSetCollation.trailer collation) := by
  refine of_eq
    (optional (fun c : CharacterSetCollation =>
      next (piece " COLLATE") <| next (piece (equalsText c.equals)) <|
        next (piece " ") c.collation.emits) collation) ?_
  cases collation <;> simp [CharacterSetCollation.trailer, String.append_assoc]

theorem DropBehavior.emits_trailer (behavior : Option DropBehavior) :
    Emits (fun _ _ put => DropBehavior.emitTrailer put behavior)
      (DropBehavior.trailer behavior) := by
  refine of_eq
    (optional (fun behavior : DropBehavior => next (piece " ") (piece behavior.text)) behavior) ?_
  cases behavior <;> simp [DropBehavior.trailer]

namespace AlterClause

/-- Columns are passed on with commas between them, in parentheses if they were read in some. -/
theorem emits_columns (columns : List ColumnDefinition) (parenthesized : Bool) :
    Emits (fun _ _ put => emitColumns put columns parenthesized)
      (Chunks.text (columnsChunks columns parenthesized)) := by
  refine of_eq
    (next (when parenthesized (piece "(")) <|
      next (separated ColumnDefinition.emits ", " columns) (when parenthesized (piece ")"))) ?_
  have hlist : Chunks.text (Chunks.separated ", " (columns.map ColumnDefinition.chunks)) =
      ", ".intercalate (columns.map ColumnDefinition.text) := by
    rw [Chunks.text_separated, List.map_map]
    rfl
  cases parenthesized <;> simp [columnsChunks, hlist]

theorem emits_partitions (verb : String) (partitions : List Ident) :
    Emits (fun _ _ put => emitPartitions put verb partitions)
      (partitionsText verb partitions) :=
  of_eq (next (piece _) (next (piece _) (Ident.emits_list partitions)))
    (by simp only [partitionsText, String.append_assoc])

/-- Each kind of clause passes on its words and what it is about, in the order of its text. -/
theorem emits (clause : AlterClause) : Emits (fun _ _ put => clause.emit put) clause.text := by
  cases clause with
  | addColumns keyword ifNotExists parenthesized columns =>
      exact of_eq
        (next (piece _) <| next (piece _) <| next (when _ (piece _)) <|
          emits_columns columns parenthesized)
        (by simp [text, chunks, String.append_assoc])
  | addConstraint constraint =>
      exact of_eq (next (piece _) constraint.emits)
        (by simp [text, chunks, TableConstraint.text])
  | addPartition partitions =>
      exact of_eq (next (piece _) (next (PartitionDefinition.emits_list partitions) (piece _)))
        (by simp [text, chunks])
  | alterColumn keyword name action =>
      exact of_eq
        (next (piece _) <| next (piece _) <| next name.emits <| next (piece _) action.emits)
        (by simp [text, chunks, String.append_assoc])
  | alterIndex name visible =>
      exact of_eq (next (piece _) <| next name.emits <| next (piece _) (piece _))
        (by simp [text, chunks, String.append_assoc])
  | alterConstraint keyword name enforced =>
      exact of_eq
        (next (piece _) <| next (piece _) <| next (piece _) <| next name.emits <|
          next (piece _) <| next (piece _) (piece _))
        (by simp [text, chunks, String.append_assoc])
  | dropColumn keyword ifExists name behavior =>
      exact of_eq
        (next (piece _) <| next (piece _) <| next (when _ (piece _)) <| next name.emits <|
          DropBehavior.emits_trailer behavior)
        (by simp [text, chunks, String.append_assoc])
  | dropConstraint ifExists name behavior =>
      exact of_eq
        (next (piece _) <| next (when _ (piece _)) <| next name.emits <|
          DropBehavior.emits_trailer behavior)
        (by simp [text, chunks, String.append_assoc])
  | dropIndex keyword name =>
      exact of_eq (next (piece _) <| next (piece _) <| next (piece _) name.emits)
        (by simp [text, chunks, String.append_assoc])
  | dropUnique columns =>
      exact of_eq (next (piece _) (next (Ident.emits_list columns) (piece _)))
        (by simp [text, chunks, ← String.append_assoc])
  | dropForeignKey name columns =>
      refine of_eq
        (next (piece _) <|
          next (optional (fun name : Ident => next (piece " ") name.emits) name) <|
          when (!columns.isEmpty) <| next (piece _) <|
            next (Ident.emits_list columns) (piece _)) ?_
      cases hcolumns : columns.isEmpty <;> simp [text, chunks, hcolumns, ← String.append_assoc]
  | modify keyword parenthesized columns =>
      exact of_eq (next (piece _) <| next (piece _) <| emits_columns columns parenthesized)
        (by simp [text, chunks, String.append_assoc])
  | change keyword oldName column =>
      exact of_eq
        (next (piece _) <| next (piece _) <| next oldName.emits <| next (piece _) column.emits)
        (by simp [text, chunks, ColumnDefinition.text, String.append_assoc])
  | renameColumn keyword oldName newName =>
      exact of_eq
        (next (piece _) <| next (piece _) <| next oldName.emits <| next (piece _) newName.emits)
        (by simp [text, chunks, String.append_assoc])
  | renameObject kind oldName newName =>
      exact of_eq
        (next (piece _) <| next (piece _) <| next (piece _) <| next oldName.emits <|
          next (piece _) newName.emits)
        (by simp [text, chunks, String.append_assoc])
  | renameTable asKeyword newName =>
      exact of_eq (next (piece _) <| next (piece _) <| next (piece _) newName.emits)
        (by cases asKeyword <;> simp [text, chunks, ← String.append_assoc])
  | comment equals text' =>
      exact of_eq (next (piece _) <| next (piece _) <| next (piece _) text'.emits)
        (by simp [text, chunks, String.append_assoc])
  | collate default equals collation =>
      exact of_eq
        (next (when _ (piece _)) <| next (piece _) <| next (piece _) <|
          next (piece _) collation.emits)
        (by simp [text, chunks, String.append_assoc])
  | convert convertTo default equals charset collation =>
      cases convertTo with
      | true =>
          exact of_eq
            (next (piece _) <| next charset.emits <| CharacterSetCollation.emits_trailer collation)
            (by simp [text, chunks, String.append_assoc])
      | false =>
          exact of_eq
            (next (when _ (piece _)) <| next (piece _) <| next (piece _) <| next (piece _) <|
              next charset.emits <| CharacterSetCollation.emits_trailer collation)
            (by simp [text, chunks, String.append_assoc])
  | setting kind equals value =>
      exact of_eq (next (piece _) <| next (piece _) <| next (piece _) value.emits)
        (by simp [text, chunks, String.append_assoc])
  | keyBlockSize equals size =>
      exact of_eq (next (piece _) <| next (piece _) <| next (piece _) (piece _))
        (by simp [text, chunks, String.append_assoc])
  | tableOption option => exact option.emits
  | onPartitions command partitions =>
      refine of_eq (next (emits_partitions command.verb partitions) (when _ (piece _))) ?_
      cases command <;> simp [text, chunks, PartitionCommand.trailer]
  | coalescePartition count =>
      exact of_eq (next (piece _) (piece _)) (by simp [text, chunks])
  | reorganizePartition partitions into =>
      exact of_eq
        (next (emits_partitions _ partitions) <| next (piece _) <|
          next (PartitionDefinition.emits_list into) (piece _))
        (by simp [text, chunks, String.append_assoc])
  | exchangePartition partition table validation =>
      refine of_eq
        (next (piece _) <| next partition.emits <| next (piece _) <| next table.emits <|
          optional (fun validation : Bool =>
            piece (if validation then " WITH VALIDATION" else " WITHOUT VALIDATION"))
            validation) ?_
      rcases validation with _ | _ | _ <;> simp [text, chunks, String.append_assoc]
  | partitionBy partitioning => exact partitioning.emits
  | dropPrimaryKey | force | discardTablespace | importTablespace | disableKeys | enableKeys
  | removePartitioning | unspecific text' =>
      exact of_eq (piece _) (by simp [text, chunks])

end AlterClause

/-- The clauses are passed on behind the name of the table. -/
theorem Alter.emits (alter : Alter) : Emits (fun _ _ put => alter.emit put) alter.text := by
  refine of_eq
    (next (piece _) <| next (when alter.ifExists (piece _)) <|
      next (when alter.only (piece _)) <| next alter.table.emits <|
      when (!alter.clauses.isEmpty) <|
        next (piece _) (separated AlterClause.emits ", " alter.clauses)) ?_
  have hlist : Chunks.text (Chunks.separated ", " (alter.clauses.map AlterClause.chunks)) =
      ", ".intercalate (alter.clauses.map AlterClause.text) := by
    rw [Chunks.text_separated, List.map_map]
    rfl
  cases hclauses : alter.clauses.isEmpty <;>
    simp [Alter.text, Alter.chunks, hclauses, hlist, String.append_assoc]

/-! ## Queries and the other statements -/

theorem TableRef.emits (table : TableRef) :
    Emits (fun _ _ put => table.emit put) table.text := by
  obtain ⟨name, asName⟩ := table
  refine of_eq
    (next name.emits (optional (fun asName : Ident => next (piece " AS ") asName.emits) asName)) ?_
  cases asName <;> simp [TableRef.text, String.append_assoc]

/-- A column of a query passes on its alias behind `AS`. -/
theorem SelectItem.emits (item : SelectItem) :
    Emits (fun _ _ put => item.emit put) item.text := by
  cases item with
  | unnamed e => exact e.emits
  | aliased e asName =>
      exact of_eq (next e.emits (next (piece _) asName.emits))
        (by simp [SelectItem.text, SelectItem.chunks, Expr.text])
  | wildcard => exact of_eq (piece _) rfl

theorem SelectItem.emits_list (items : List SelectItem) :
    Emits (fun _ _ put => SelectItem.emitList put items)
      (Chunks.text (SelectItem.listChunks items)) := by
  refine of_eq (separated SelectItem.emits ", " items) ?_
  rw [SelectItem.listChunks, Chunks.text_separated, List.map_map]
  rfl

theorem OrderItem.emits (item : OrderItem) : Emits (fun _ _ put => item.emit put) item.text :=
  of_eq (next item.expr.emits (Direction.emits_trailer item.direction))
    (by simp [OrderItem.text, OrderItem.chunks, Expr.text])

theorem Renaming.emits (r : Renaming) : Emits (fun _ _ put => r.emit put) r.text :=
  of_eq (next r.name.emits (next (piece _) r.newName.emits))
    (by simp only [Renaming.text, String.append_assoc])

/-- Each operator passes on its word and its items. -/
theorem PipeOperator.emits (pipe : PipeOperator) :
    Emits (fun _ _ put => pipe.emit put) pipe.text := by
  cases pipe with
  | «where» condition =>
      exact of_eq (next (piece _) condition.emits)
        (by simp [PipeOperator.text, PipeOperator.chunks, Expr.text])
  | select items | extend items =>
      exact of_eq (next (piece _) (SelectItem.emits_list items))
        (by simp [PipeOperator.text, PipeOperator.chunks])
  | drop columns =>
      exact of_eq (next (piece _) (Ident.emits_list columns))
        (by simp [PipeOperator.text, PipeOperator.chunks])
  | «as» asName =>
      exact of_eq (next (piece _) asName.emits)
        (by simp [PipeOperator.text, PipeOperator.chunks])
  | limit count offset =>
      refine of_eq
        (next (piece _) <| next count.emits <|
          optional (fun offset : Expr => next (piece " OFFSET ") offset.emits) offset) ?_
      cases offset <;> simp [PipeOperator.text, PipeOperator.chunks, Expr.text]
  | orderBy items =>
      refine of_eq (next (piece _) (separated OrderItem.emits ", " items)) ?_
      simp only [PipeOperator.text, PipeOperator.chunks, Chunks.text_cons,
        Chunks.text_separated, List.map_map]
      rfl
  | rename renamings =>
      exact of_eq (next (piece _) (separated Renaming.emits ", " renamings))
        (by simp [PipeOperator.text, PipeOperator.chunks, commaSeparated])
  | aggregate items groupBy =>
      refine of_eq
        (next (piece _) <|
          next (when (!items.isEmpty) (next (piece _) (SelectItem.emits_list items))) <|
          when (!groupBy.isEmpty) (next (piece _) (SelectItem.emits_list groupBy))) ?_
      cases hitems : items.isEmpty <;> cases hgroup : groupBy.isEmpty <;>
        simp [PipeOperator.text, PipeOperator.chunks, hitems, hgroup, String.append_assoc]

/-- The parts that a query does not have are passed over. -/
theorem QueryBody.emits (body : QueryBody) :
    Emits (fun _ _ put => body.emit put) (Chunks.text body.chunks) := by
  cases body with
  | select s =>
      refine of_eq
        (next (piece _) <| next (when s.distinct (piece _)) <|
          next (SelectItem.emits_list s.projection) <|
          next (optional (fun table : TableRef => next (piece " FROM ") table.emits) s.source) <|
          optional (fun condition : Expr => next (piece " WHERE ") condition.emits)
            s.selection) ?_
      cases hselection : s.selection <;>
        simp [QueryBody.chunks, hselection, Expr.text, String.append_assoc]
  | «from» table =>
      exact of_eq (next (piece _) table.emits) (by simp [QueryBody.chunks])

/-- The pipes are passed on behind the body. -/
theorem Query.emits (query : Query) : Emits (fun _ _ put => query.emit put) query.text := by
  refine of_eq
    (next query.body.emits <|
      all (fun pipe : PipeOperator => next (piece " |> ") pipe.emits) query.pipes) ?_
  rw [Query.text, Query.chunks, Chunks.text_append]
  congr 1
  induction query.pipes with
  | nil => rfl
  | cons pipe rest ih =>
      rw [List.map_cons, Chunks.text_cons, ih, List.flatMap_cons, Chunks.text_append,
        Chunks.text_cons]
      rfl

theorem ExplainOption.emits (option : ExplainOption) :
    Emits (fun _ _ put => option.emit put) option.text := by
  obtain ⟨kind, value⟩ := option
  refine of_eq
    (next (piece _) (optional (fun value => next (piece " ") (piece value)) value)) ?_
  cases value <;> simp [ExplainOption.text, String.append_assoc]

/-- In front of a table the options are left out, as in the text. -/
theorem Explain.emits (explain : Explain) :
    Emits (fun _ _ put => explain.emit put) explain.text := by
  obtain ⟨keyword, options, target⟩ := explain
  cases target with
  | table name =>
      exact of_eq (next (piece _) (next (piece _) name.emits))
        (by simp [Explain.text, Explain.chunks, String.append_assoc])
  | query query =>
      exact of_eq
        (next (piece _) <|
          next (all (fun option : ExplainOption => next (piece " ") option.emits) options) <|
          next (piece _) query.emits)
        (by simp [Explain.text, Explain.chunks, Query.text])

/-- A synonym passes on its words and its two names. -/
theorem CreateSynonym.emits (s : CreateSynonym) :
    Emits (fun _ _ put => s.emit put) s.text :=
  of_eq
    (next (piece _) <| next (when s.orReplace (piece _)) <| next (when s.isPublic (piece _)) <|
      next (piece _) <| next s.synonym.emits <| next (piece _) s.object.emits)
    (by simp [CreateSynonym.text, CreateSynonym.chunks, String.append_assoc])

/-- A statement hands over pieces that make up its text, in an order that what takes them
    cannot change. -/
theorem Statement.emits (statement : Statement) :
    Emits (fun _ _ put => statement.emit put) statement.text := by
  cases statement with
  | alter alter => exact alter.emits
  | explain explain => exact explain.emits
  | createSynonym s => exact s.emits
  | query query => exact query.emits

end SchemaSql
