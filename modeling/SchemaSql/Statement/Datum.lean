import SchemaSql.Alter.Datum
import SchemaSql.Query.Datum
import SchemaSql.Statement

/-!
# Data of statements
-/

namespace SchemaSql

instance : Named ExplainKeyword where
  names := [(.explain, "Explain"), (.describe, "Describe"), (.desc, "Desc")]

instance : Named ExplainOptionKind where
  names := [(.analyze, "Analyze"), (.verbose, "Verbose"), (.costs, "Costs"), (.buffers, "Buffers"),
    (.format, "Format"), (.plan, "Plan"), (.planFor, "PlanFor")]

instance : DataForm ExplainOption where
  toDatum option := .record [("option_type", toDatum option.kind), ("value", toDatum option.value)]
  ofDatum? d := return ⟨← d.get? "option_type", ← d.get? "value"⟩

instance : DataForm ExplainTarget where
  toDatum
    | .table name => .case "Table" (toDatum name)
    | .query query => .case "Query" (toDatum query)
  ofDatum? d := do
    match ← d.case? with
    | ("Table", c) => .table <$> ofDatum? c
    | ("Query", c) => .query <$> ofDatum? c
    | _ => none

instance : DataForm Explain where
  toDatum explain := .record [("keyword", toDatum explain.keyword),
    ("options", toDatum explain.options), ("target", toDatum explain.target)]
  ofDatum? d := return ⟨← d.get? "keyword", ← d.get? "options", ← d.get? "target"⟩

instance : DataForm CreateSynonym where
  toDatum s := .record [("or_replace", toDatum s.orReplace), ("public", toDatum s.isPublic),
    ("synonym", toDatum s.synonym), ("for_object", toDatum s.object)]
  ofDatum? d := return ⟨← d.get? "or_replace", ← d.get? "public", ← d.get? "synonym",
    ← d.get? "for_object"⟩

instance : DataForm Statement where
  toDatum
    | .alter statement => .case "Alter" (toDatum statement)
    | .explain statement => .case "Explain" (toDatum statement)
    | .createSynonym statement => .case "CreateSynonym" (toDatum statement)
    | .query statement => .case "Query" (toDatum statement)
  ofDatum? d := do
    match ← d.case? with
    | ("Alter", c) => .alter <$> ofDatum? c
    | ("Explain", c) => .explain <$> ofDatum? c
    | ("CreateSynonym", c) => .createSynonym <$> ofDatum? c
    | ("Query", c) => .query <$> ofDatum? c
    | _ => none

end SchemaSql
