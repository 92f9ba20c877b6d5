import Orc.Schema.Manifest

/-!
# The generated view

`series/<name>/view.sql` unites the epochs of a series by column name. A key that some epoch does
not declare is coalesced against `extra`, where its values went then.

The text is generated from the manifest alone and rewritten by every flush, so a view that is lost
or stale does no harm, and no result about flushes looks at it. What is worth proving is that the
text is one statement whatever the names are, and that its columns are the declared ones
(`Orc.Flush.ViewLex`). `viewColumns` names the columns a second time, as the source does.
-/

namespace Orc

/-- Double every occurrence of a quote. -/
def doubled (quote : Char) (s : String) : String :=
  String.ofList (s.toList.flatMap fun c ↦ if c = quote then [c, c] else [c])

/-- A string literal. -/
def sqlStr (s : String) : String := "'" ++ doubled (Char.ofNat 39) s ++ "'"

/-- An identifier, always quoted: key names may be keywords. -/
def sqlIdent (s : String) : String := "\"" ++ doubled '"' s ++ "\""

/-- The column type of a key. -/
def duckdbType : KeyType → String
  | .bool => "BOOLEAN"
  | .i64 => "BIGINT"
  | .f64 => "DOUBLE"
  | .str => "VARCHAR"

/-- The keys of all epochs, each where its name first occurs. -/
def allKeys (history : List EpochSchema) : List KeyDef :=
  (history.flatMap EpochSchema.keys).foldl
    (fun seen k ↦ if seen.any (·.name == k.name) then seen else seen ++ [k]) []

/-- The column of a key: itself, or coalesced where an epoch lacks it. -/
def keyColumn (history : List EpochSchema) (k : KeyDef) : String :=
  if history.all fun e ↦ e.keys.any (·.name == k.name) then
    "  " ++ sqlIdent k.name ++ ",\n"
  else
    "  coalesce(" ++ sqlIdent k.name ++ ", try_cast(extra[" ++ sqlStr k.name ++ "] AS " ++
      duckdbType k.ty ++ ")) AS " ++ sqlIdent k.name ++ ",\n"

/-- `CREATE VIEW` for one series, whose history is oldest first. -/
def viewSql (series : String) (history : List EpochSchema) : String :=
  "-- Generated by orc; regenerated on every flush. Do not edit.\n" ++
  "-- Paths are relative to the data directory, and DuckDB resolves them\n" ++
  "-- against the process working directory -- not this file's location:\n" ++
  "--   cd <data_dir> && duckdb -c \".read series/" ++ series ++ "/view.sql\"\n" ++
  (if history = [] then "-- No epochs recorded for this series yet.\n"
    else "-- Epochs unioned: " ++
      ", ".intercalate (history.map fun e ↦ toString e.epoch.toNat) ++ "\n") ++
  "CREATE OR REPLACE VIEW " ++ sqlIdent series ++ " AS SELECT\n" ++
  "  ts,\n  id,\n" ++
  String.join ((allKeys history).map (keyColumn history)) ++
  "  extra,\n  data\n" ++
  "FROM read_parquet(" ++ sqlStr ("series/" ++ series ++ "/**/*.parquet") ++
    ", hive_partitioning = 1, union_by_name = 1);\n"

/-- The columns the view exposes, in order. The names of the keys seen so far are kept beside the
columns. -/
def viewColumns (history : List EpochSchema) : List String :=
  ["ts", "id"] ++
    ((history.flatMap EpochSchema.keys).foldl
      (fun (p : List String × List String) k ↦
        if k.name ∈ p.1 then p else (k.name :: p.1, p.2 ++ [k.name])) ([], [])).2 ++
    ["extra", "data"]

end Orc
