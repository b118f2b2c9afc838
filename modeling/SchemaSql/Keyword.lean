import SchemaSql.Sorted

/-!
# SQL keywords — the words the grammar gives a meaning to

A keyword is not a reserved word: it may name a column wherever the grammar has no other use
for it.  `Keyword.ordered` lists the keywords in the order of their names, so that `Keyword.find?`
can look a spelling up by halving the list.  The lists at the end say which keywords cannot
stand in a position where an identifier is optional.
-/

namespace SchemaSql

/-- A keyword of the statements this library reads. -/
inductive Keyword where
  | action | add | after | aggregate | algorithm | «all» | alter | analyze | «and» | array | «as»
  | asc | autoIncrement | avgRowLength | between | bit | buffers | «by» | cascade | change | char
  | character | charset | check | checksum | coalesce | collate | column | columns | comment
  | compression | constraint | convert | costs | create | data | date | default | deferrable
  | deferred | delayKeyWrite | delete | desc | describe | disable | discard | distinct | double
  | drop | enable | encryption | enforced | engine | exchange | exists | explain | extend | false
  | first | «for» | force | foreign | format | «from» | fulltext | generated | group | hash | «if»
  | immediate | «import» | «in» | index | initially | insertMethod | into | invisible | «is» | key
  | keys | keyBlockSize | less | limit | linear | list | lock | maxvalue | maxRows | minRows
  | modify | move | no | «not» | novalidate | null | offset | «on» | «only» | optimize | options
  | «or» | order | packKeys | parser | partition | partitioning | partitions | plan | precision
  | primary | «public» | range | rebuild | references | remove | rename | reorganize | repair
  | replace | restrict | rowFormat | select | «set» | spatial | statsAutoRecalc | statsPersistent
  | statsSamplePages | stored | synonym | table | tablespace | than | time | timestamp | «to»
  | true | truncate | type | unique | update | «using» | validate | validation | values | varying
  | verbose | virtual | visible | «where» | «with» | without | zone
  deriving DecidableEq, Repr, Inhabited

namespace Keyword

/-- The spelling of a keyword, in upper case. -/
def name : Keyword → String
  | .action => "ACTION"
  | .add => "ADD"
  | .after => "AFTER"
  | .aggregate => "AGGREGATE"
  | .algorithm => "ALGORITHM"
  | .all => "ALL"
  | .alter => "ALTER"
  | .analyze => "ANALYZE"
  | .and => "AND"
  | .array => "ARRAY"
  | .as => "AS"
  | .asc => "ASC"
  | .autoIncrement => "AUTO_INCREMENT"
  | .avgRowLength => "AVG_ROW_LENGTH"
  | .between => "BETWEEN"
  | .bit => "BIT"
  | .buffers => "BUFFERS"
  | .by => "BY"
  | .cascade => "CASCADE"
  | .change => "CHANGE"
  | .char => "CHAR"
  | .character => "CHARACTER"
  | .charset => "CHARSET"
  | .check => "CHECK"
  | .checksum => "CHECKSUM"
  | .coalesce => "COALESCE"
  | .collate => "COLLATE"
  | .column => "COLUMN"
  | .columns => "COLUMNS"
  | .comment => "COMMENT"
  | .compression => "COMPRESSION"
  | .constraint => "CONSTRAINT"
  | .convert => "CONVERT"
  | .costs => "COSTS"
  | .create => "CREATE"
  | .data => "DATA"
  | .date => "DATE"
  | .default => "DEFAULT"
  | .deferrable => "DEFERRABLE"
  | .deferred => "DEFERRED"
  | .delayKeyWrite => "DELAY_KEY_WRITE"
  | .delete => "DELETE"
  | .desc => "DESC"
  | .describe => "DESCRIBE"
  | .disable => "DISABLE"
  | .discard => "DISCARD"
  | .distinct => "DISTINCT"
  | .double => "DOUBLE"
  | .drop => "DROP"
  | .enable => "ENABLE"
  | .encryption => "ENCRYPTION"
  | .enforced => "ENFORCED"
  | .engine => "ENGINE"
  | .exchange => "EXCHANGE"
  | .exists => "EXISTS"
  | .explain => "EXPLAIN"
  | .extend => "EXTEND"
  | .false => "FALSE"
  | .first => "FIRST"
  | .for => "FOR"
  | .force => "FORCE"
  | .foreign => "FOREIGN"
  | .format => "FORMAT"
  | .from => "FROM"
  | .fulltext => "FULLTEXT"
  | .generated => "GENERATED"
  | .group => "GROUP"
  | .hash => "HASH"
  | .if => "IF"
  | .immediate => "IMMEDIATE"
  | .import => "IMPORT"
  | .in => "IN"
  | .index => "INDEX"
  | .initially => "INITIALLY"
  | .insertMethod => "INSERT_METHOD"
  | .into => "INTO"
  | .invisible => "INVISIBLE"
  | .is => "IS"
  | .key => "KEY"
  | .keys => "KEYS"
  | .keyBlockSize => "KEY_BLOCK_SIZE"
  | .less => "LESS"
  | .limit => "LIMIT"
  | .linear => "LINEAR"
  | .list => "LIST"
  | .lock => "LOCK"
  | .maxvalue => "MAXVALUE"
  | .maxRows => "MAX_ROWS"
  | .minRows => "MIN_ROWS"
  | .modify => "MODIFY"
  | .move => "MOVE"
  | .no => "NO"
  | .not => "NOT"
  | .novalidate => "NOVALIDATE"
  | .null => "NULL"
  | .offset => "OFFSET"
  | .on => "ON"
  | .only => "ONLY"
  | .optimize => "OPTIMIZE"
  | .options => "OPTIONS"
  | .or => "OR"
  | .order => "ORDER"
  | .packKeys => "PACK_KEYS"
  | .parser => "PARSER"
  | .partition => "PARTITION"
  | .partitioning => "PARTITIONING"
  | .partitions => "PARTITIONS"
  | .plan => "PLAN"
  | .precision => "PRECISION"
  | .primary => "PRIMARY"
  | .public => "PUBLIC"
  | .range => "RANGE"
  | .rebuild => "REBUILD"
  | .references => "REFERENCES"
  | .remove => "REMOVE"
  | .rename => "RENAME"
  | .reorganize => "REORGANIZE"
  | .repair => "REPAIR"
  | .replace => "REPLACE"
  | .restrict => "RESTRICT"
  | .rowFormat => "ROW_FORMAT"
  | .select => "SELECT"
  | .set => "SET"
  | .spatial => "SPATIAL"
  | .statsAutoRecalc => "STATS_AUTO_RECALC"
  | .statsPersistent => "STATS_PERSISTENT"
  | .statsSamplePages => "STATS_SAMPLE_PAGES"
  | .stored => "STORED"
  | .synonym => "SYNONYM"
  | .table => "TABLE"
  | .tablespace => "TABLESPACE"
  | .than => "THAN"
  | .time => "TIME"
  | .timestamp => "TIMESTAMP"
  | .to => "TO"
  | .true => "TRUE"
  | .truncate => "TRUNCATE"
  | .type => "TYPE"
  | .unique => "UNIQUE"
  | .update => "UPDATE"
  | .using => "USING"
  | .validate => "VALIDATE"
  | .validation => "VALIDATION"
  | .values => "VALUES"
  | .varying => "VARYING"
  | .verbose => "VERBOSE"
  | .virtual => "VIRTUAL"
  | .visible => "VISIBLE"
  | .where => "WHERE"
  | .with => "WITH"
  | .without => "WITHOUT"
  | .zone => "ZONE"

/-- Every keyword, in the order of the names. -/
def ordered : List Keyword :=
  [.action, .add, .after, .aggregate, .algorithm, .all, .alter, .analyze, .and, .array, .as, .asc,
   .autoIncrement, .avgRowLength, .between, .bit, .buffers, .by, .cascade, .change, .char,
   .character, .charset, .check, .checksum, .coalesce, .collate, .column, .columns, .comment,
   .compression, .constraint, .convert, .costs, .create, .data, .date, .default, .deferrable,
   .deferred, .delayKeyWrite, .delete, .desc, .describe, .disable, .discard, .distinct, .double,
   .drop, .enable, .encryption, .enforced, .engine, .exchange, .exists, .explain, .extend, .false,
   .first, .for, .force, .foreign, .format, .from, .fulltext, .generated, .group, .hash, .if,
   .immediate, .import, .in, .index, .initially, .insertMethod, .into, .invisible, .is, .key,
   .keys, .keyBlockSize, .less, .limit, .linear, .list, .lock, .maxvalue, .maxRows, .minRows,
   .modify, .move, .no, .not, .novalidate, .null, .offset, .on, .only, .optimize, .options, .or,
   .order, .packKeys, .parser, .partition, .partitioning, .partitions, .plan, .precision,
   .primary, .public, .range, .rebuild, .references, .remove, .rename, .reorganize, .repair,
   .replace, .restrict, .rowFormat, .select, .set, .spatial, .statsAutoRecalc, .statsPersistent,
   .statsSamplePages, .stored, .synonym, .table, .tablespace, .than, .time, .timestamp, .to,
   .true, .truncate, .type, .unique, .update, .using, .validate, .validation, .values, .varying,
   .verbose, .virtual, .visible, .where, .with, .without, .zone]

/-- The keyword with exactly this upper-case spelling. -/
def find? (key : String) : Option Keyword :=
  Sorted.find? ordered.toArray name key

/-! ## Words with a use of their own in some position -/

/-- A word from this list directly after a column name starts the column's further
    specification; any other word is its data type. -/
def startsColumnSpec : List Keyword :=
  [.after, .as, .autoIncrement, .check, .collate, .comment, .constraint, .default, .drop, .first,
   .generated, .not, .null, .primary, .references, .set, .unique]

/-- A word from this list after an expression goes on with the query, so it is no alias
    unless `AS` stands before it. -/
def reservedForColumnAlias : List Keyword :=
  [.and, .between, .from, .group, .in, .is, .limit, .not, .offset, .or, .order, .where]

/-- A word from this list after a table name goes on with the query, so it is no alias unless
    `AS` stands before it. -/
def reservedForTableAlias : List Keyword :=
  [.group, .limit, .offset, .order, .where]

end Keyword

end SchemaSql
