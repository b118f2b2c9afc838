import SchemaSql.Alter

/-!
# Operations — the names under which changes to a table are reported
-/

namespace SchemaSql

/-- What a clause does, without its particulars. -/
inductive AlterOperation where
  | add | alter | drop | dropPrimaryKey | dropUnique | dropForeignKey | modify | change
  | rename | renameTable | renameIndex | renameKey | renameConstraint
  | collate | convert | lock | algorithm | engine | force | comment | setTableOption
  | keyBlockSize
  | addPartition | dropPartition | truncatePartition | coalescePartition | reorganizePartition
  | exchangePartition | analyzePartition | checkPartition | optimizePartition
  | rebuildPartition | repairPartition | removePartitioning | discardPartition
  | importPartition | discardTablespace | importTablespace | disableKeys | enableKeys
  | partitionBy | unspecific
  deriving DecidableEq, Repr, Inhabited

/-- The name of an operation. -/
def AlterOperation.name : AlterOperation → String
  | .add => "ADD"
  | .alter => "ALTER"
  | .drop => "DROP"
  | .dropPrimaryKey => "DROP_PRIMARY_KEY"
  | .dropUnique => "DROP_UNIQUE"
  | .dropForeignKey => "DROP_FOREIGN_KEY"
  | .modify => "MODIFY"
  | .change => "CHANGE"
  | .rename => "RENAME"
  | .renameTable => "RENAME_TABLE"
  | .renameIndex => "RENAME_INDEX"
  | .renameKey => "RENAME_KEY"
  | .renameConstraint => "RENAME_CONSTRAINT"
  | .collate => "COLLATE"
  | .convert => "CONVERT"
  | .lock => "LOCK"
  | .algorithm => "ALGORITHM"
  | .engine => "ENGINE"
  | .force => "FORCE"
  | .comment => "COMMENT"
  | .setTableOption => "SET_TABLE_OPTION"
  | .keyBlockSize => "KEY_BLOCK_SIZE"
  | .addPartition => "ADD_PARTITION"
  | .dropPartition => "DROP_PARTITION"
  | .truncatePartition => "TRUNCATE_PARTITION"
  | .coalescePartition => "COALESCE_PARTITION"
  | .reorganizePartition => "REORGANIZE_PARTITION"
  | .exchangePartition => "EXCHANGE_PARTITION"
  | .analyzePartition => "ANALYZE_PARTITION"
  | .checkPartition => "CHECK_PARTITION"
  | .optimizePartition => "OPTIMIZE_PARTITION"
  | .rebuildPartition => "REBUILD_PARTITION"
  | .repairPartition => "REPAIR_PARTITION"
  | .removePartitioning => "REMOVE_PARTITIONING"
  | .discardPartition => "DISCARD_PARTITION"
  | .importPartition => "IMPORT_PARTITION"
  | .discardTablespace => "DISCARD_TABLESPACE"
  | .importTablespace => "IMPORT_TABLESPACE"
  | .disableKeys => "DISABLE_KEYS"
  | .enableKeys => "ENABLE_KEYS"
  | .partitionBy => "PARTITION_BY"
  | .unspecific => "UNSPECIFIC"

/-- The operation of renaming an object of this kind. -/
def RenameKind.operation : RenameKind → AlterOperation
  | .index => .renameIndex
  | .key => .renameKey
  | .constraint => .renameConstraint

/-- The operation of changing a setting. -/
def NamedSetting.operation : NamedSetting → AlterOperation
  | .lock => .lock
  | .algorithm => .algorithm
  | .engine => .engine

/-- The operation of a command on partitions. -/
def PartitionCommand.operation : PartitionCommand → AlterOperation
  | .drop => .dropPartition
  | .truncate => .truncatePartition
  | .analyze => .analyzePartition
  | .check => .checkPartition
  | .optimize => .optimizePartition
  | .rebuild => .rebuildPartition
  | .repair => .repairPartition
  | .discardTablespace => .discardPartition
  | .importTablespace => .importPartition

/-- The operation of a clause. -/
def AlterClause.operation : AlterClause → AlterOperation
  | .addColumns .. | .addConstraint _ => .add
  | .addPartition _ => .addPartition
  | .alterColumn .. | .alterIndex .. | .alterConstraint .. => .alter
  | .dropColumn .. | .dropConstraint .. | .dropIndex .. => .drop
  | .dropPrimaryKey => .dropPrimaryKey
  | .dropUnique _ => .dropUnique
  | .dropForeignKey .. => .dropForeignKey
  | .modify .. => .modify
  | .change .. => .change
  | .renameColumn .. => .rename
  | .renameObject kind .. => kind.operation
  | .renameTable .. => .renameTable
  | .comment .. => .comment
  | .collate .. => .collate
  | .convert .. => .convert
  | .setting kind .. => kind.operation
  | .keyBlockSize .. => .keyBlockSize
  | .force => .force
  | .tableOption _ => .setTableOption
  | .discardTablespace => .discardTablespace
  | .importTablespace => .importTablespace
  | .disableKeys => .disableKeys
  | .enableKeys => .enableKeys
  | .onPartitions command _ => command.operation
  | .coalescePartition _ => .coalescePartition
  | .reorganizePartition .. => .reorganizePartition
  | .exchangePartition .. => .exchangePartition
  | .removePartitioning => .removePartitioning
  | .partitionBy _ => .partitionBy
  | .unspecific _ => .unspecific

/-- The operations of a statement's clauses, in order. -/
def Alter.operations (alter : Alter) : List AlterOperation :=
  alter.clauses.map AlterClause.operation

end SchemaSql
