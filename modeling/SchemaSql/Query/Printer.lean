import SchemaSql.Query

/-!
# Printing queries

Optional words are written where they make the reading plain: every alias has its `AS`.
-/

namespace SchemaSql

/-- The pieces of an item's text. -/
def SelectItem.chunks : SelectItem → Text.Chunks
  | .unnamed e => e.chunks
  | .aliased e asName => e.chunks ++ [" AS " ++ asName.text]
  | .wildcard => ["*"]

/-- The text of an item. -/
def SelectItem.text (item : SelectItem) : String := Text.Chunks.text item.chunks

/-- The pieces of a comma separated list of items. -/
def SelectItem.listChunks (items : List SelectItem) : Text.Chunks :=
  Text.Chunks.separated ", " (items.map SelectItem.chunks)

/-- The pieces of an order item's text. -/
def OrderItem.chunks (item : OrderItem) : Text.Chunks :=
  item.expr.chunks ++ [Direction.trailer item.direction]

/-- The text of an order item. -/
def OrderItem.text (item : OrderItem) : String := Text.Chunks.text item.chunks

/-- The pieces of a pipe operator's text. -/
def PipeOperator.chunks : PipeOperator → Text.Chunks
  | .where condition => "WHERE " :: condition.chunks
  | .select items => "SELECT " :: SelectItem.listChunks items
  | .extend items => "EXTEND " :: SelectItem.listChunks items
  | .drop columns => ["DROP " ++ Text.commaSeparated (columns.map Ident.text)]
  | .as asName => ["AS " ++ asName.text]
  | .limit count offset =>
    "LIMIT " :: count.chunks ++ match offset with
      | some offset => " OFFSET " :: offset.chunks
      | none => []
  | .orderBy items => "ORDER BY " :: Text.Chunks.separated ", " (items.map OrderItem.chunks)
  | .rename renamings => ["RENAME " ++ Text.commaSeparated (renamings.map Renaming.text)]
  | .aggregate items groupBy =>
    "AGGREGATE"
      :: (if items.isEmpty then [] else " " :: SelectItem.listChunks items)
      ++ if groupBy.isEmpty then [] else " GROUP BY " :: SelectItem.listChunks groupBy

/-- The text of a pipe operator. -/
def PipeOperator.text (pipe : PipeOperator) : String := Text.Chunks.text pipe.chunks

/-- The pieces of the text of a query's start. -/
def QueryBody.chunks : QueryBody → Text.Chunks
  | .select s =>
    ("SELECT " ++ if s.distinct then "DISTINCT " else "")
      :: SelectItem.listChunks s.projection
      ++ (s.source.toList.map fun table => " FROM " ++ table.text)
      ++ match s.selection with
        | some condition => " WHERE " :: condition.chunks
        | none => []
  | .from table => ["FROM " ++ table.text]

namespace Query

/-- The pieces of a query's text. -/
def chunks (query : Query) : Text.Chunks :=
  query.body.chunks ++ query.pipes.flatMap fun pipe => " |> " :: pipe.chunks

/-- The text of a query. -/
def text (query : Query) : String := Text.Chunks.text query.chunks

end Query

end SchemaSql
