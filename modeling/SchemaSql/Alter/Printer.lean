import SchemaSql.Alter

/-!
# Printing ALTER TABLE
-/

namespace SchemaSql

namespace AlterClause

/-- The pieces of a list of columns, in parentheses if the list was written so. -/
def columnsChunks (columns : List ColumnDefinition) (parenthesized : Bool) : Text.Chunks :=
  let list := Text.Chunks.separated ", " (columns.map ColumnDefinition.chunks)
  if parenthesized then "(" :: list ++ [")"] else list

/-- The words `COMMAND PARTITION` and the names of the partitions. -/
def partitionsText (verb : String) (partitions : List Ident) : String :=
  verb ++ " PARTITION " ++ Text.commaSeparated (partitions.map Ident.text)

/-- The pieces of a clause's text. -/
def chunks : AlterClause → Text.Chunks
  | .addColumns keyword ifNotExists parenthesized columns =>
    ("ADD " ++ keyword.lead ++ (if ifNotExists then "IF NOT EXISTS " else ""))
      :: columnsChunks columns parenthesized
  | .addConstraint constraint => "ADD " :: constraint.chunks
  | .addPartition partitions =>
    "ADD PARTITION (" :: PartitionDefinition.listChunks partitions ++ [")"]
  | .alterColumn keyword name action =>
    ("ALTER " ++ keyword.lead ++ name.text ++ " ") :: action.chunks
  | .alterIndex name visible => ["ALTER INDEX " ++ name.text ++ " " ++ visibility visible]
  | .alterConstraint keyword name enforced =>
    ["ALTER " ++ keyword.text ++ " " ++ name.text ++ " " ++ negation (!enforced) ++ "ENFORCED"]
  | .dropColumn keyword ifExists name behavior =>
    ["DROP " ++ keyword.lead ++ (if ifExists then "IF EXISTS " else "") ++ name.text
      ++ DropBehavior.trailer behavior]
  | .dropConstraint ifExists name behavior =>
    ["DROP CONSTRAINT " ++ (if ifExists then "IF EXISTS " else "") ++ name.text
      ++ DropBehavior.trailer behavior]
  | .dropIndex keyword name => ["DROP " ++ keyword.text ++ " " ++ name.text]
  | .dropPrimaryKey => ["DROP PRIMARY KEY"]
  | .dropUnique columns => ["DROP UNIQUE (" ++ Text.commaSeparated (columns.map Ident.text) ++ ")"]
  | .dropForeignKey name columns =>
    "DROP FOREIGN KEY" :: (name.toList.map fun name => " " ++ name.text)
      ++ if columns.isEmpty then []
        else [" (" ++ Text.commaSeparated (columns.map Ident.text) ++ ")"]
  | .modify keyword parenthesized columns =>
    ("MODIFY " ++ keyword.lead) :: columnsChunks columns parenthesized
  | .change keyword oldName column =>
    ("CHANGE " ++ keyword.lead ++ oldName.text ++ " ") :: column.chunks
  | .renameColumn keyword oldName newName =>
    ["RENAME " ++ keyword.lead ++ oldName.text ++ " TO " ++ newName.text]
  | .renameObject kind oldName newName =>
    ["RENAME " ++ kind.text ++ " " ++ oldName.text ++ " TO " ++ newName.text]
  | .renameTable asKeyword newName =>
    ["RENAME " ++ (if asKeyword then "AS " else "TO ") ++ newName.text]
  | .comment equals text => ["COMMENT" ++ equalsText equals ++ " " ++ text.text]
  | .collate default equals collation =>
    [(if default then "DEFAULT " else "") ++ "COLLATE" ++ equalsText equals ++ " "
      ++ collation.text]
  | .convert convertTo default equals charset collation =>
    [(if convertTo then "CONVERT TO CHARACTER SET "
        else (if default then "DEFAULT " else "") ++ "CHARACTER SET" ++ equalsText equals ++ " ")
      ++ charset.text ++ CharacterSetCollation.trailer collation]
  | .setting kind equals value => [kind.text ++ equalsText equals ++ " " ++ value.text]
  | .keyBlockSize equals size => ["KEY_BLOCK_SIZE" ++ equalsText equals ++ " " ++ toString size]
  | .force => ["FORCE"]
  | .tableOption option => option.chunks
  | .discardTablespace => ["DISCARD TABLESPACE"]
  | .importTablespace => ["IMPORT TABLESPACE"]
  | .disableKeys => ["DISABLE KEYS"]
  | .enableKeys => ["ENABLE KEYS"]
  | .onPartitions command partitions =>
    [partitionsText command.verb partitions ++ command.trailer]
  | .coalescePartition count => ["COALESCE PARTITION " ++ toString count]
  | .reorganizePartition partitions into =>
    (partitionsText "REORGANIZE" partitions ++ " INTO (")
      :: PartitionDefinition.listChunks into ++ [")"]
  | .exchangePartition partition table validation =>
    let trailer := match validation with
      | some true => " WITH VALIDATION"
      | some false => " WITHOUT VALIDATION"
      | none => ""
    ["EXCHANGE PARTITION " ++ partition.text ++ " WITH TABLE " ++ table.text ++ trailer]
  | .removePartitioning => ["REMOVE PARTITIONING"]
  | .partitionBy partitioning => partitioning.chunks
  | .unspecific text => [text]

/-- The text of a clause. -/
def text (clause : AlterClause) : String := Text.Chunks.text clause.chunks

end AlterClause

namespace Alter

/-- The pieces of a statement's text. -/
def chunks (alter : Alter) : Text.Chunks :=
  ("ALTER TABLE " ++ (if alter.ifExists then "IF EXISTS " else "")
      ++ (if alter.only then "ONLY " else "") ++ alter.table.text)
    :: if alter.clauses.isEmpty then []
      else " " :: Text.Chunks.separated ", " (alter.clauses.map AlterClause.chunks)

/-- The text of a statement. -/
def text (alter : Alter) : String := Text.Chunks.text alter.chunks

end Alter

end SchemaSql
