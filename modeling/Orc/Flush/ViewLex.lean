import Orc.Flush.View
import Orc.Format.Sql
import Orc.Names

/-!
# The generated view as SQL

`viewSql` puts the name of the series into a comment, an identifier and a string literal, and the
names of the keys into identifiers and string literals. Read by the rules of SQL the text is
comments and one statement, whatever these names contain: a name of a series has no control
character that could end the comment, and between quotes every name is one token (`view_sql_lexes`).

The columns are listed twice in the source, by `viewSql` and by `viewColumns`. The two agree.

The text is lexed by `Orc.Format.Sql`, which knows nothing of views. A proof goes through the text
part by part, and the parts are the source's own format strings; what a name contributes is covered
by the lemma about quoted text.
-/

namespace Orc

open Bytes Sql

/-- Every epoch declares a key of this name. -/
def DeclaredEverywhere (history : List EpochSchema) (name : String) : Prop :=
  ∀ e ∈ history, ∃ k ∈ e.keys, k.name = name

instance instDecidableDeclaredEverywhere (history : List EpochSchema) (name : String) :
    Decidable (DeclaredEverywhere history name) :=
  inferInstanceAs (Decidable (∀ e ∈ history, ∃ k ∈ e.keys, k.name = name))

/-! ## The statement -/

/-- A column coalesced with the value in `extra`, cast to the type of the column. -/
def coalescedItem (name : String) (ty : KeyType) : List Token :=
  [.word "coalesce", .sym '(', .ident name, .sym ',', .word "try_cast", .sym '(', .word "extra",
    .sym '[', .str name, .sym ']', .word "AS", .word (duckdbType ty), .sym ')', .sym ')',
    .word "AS", .ident name]

/-- The item of a key. -/
def selectItem (history : List EpochSchema) (k : KeyDef) : List Token :=
  if DeclaredEverywhere history k.name then [.ident k.name] else coalescedItem k.name k.ty

/-- The items of the statement. -/
def selectItems (history : List EpochSchema) : List (List Token) :=
  [[.word "ts"], [.word "id"]] ++ (allKeys history).map (selectItem history) ++
    [[.word "extra"], [.word "data"]]

/-- The statement with a select list. -/
def viewStatement (series : String) (list : List Token) : List Token :=
  [.word "CREATE", .word "OR", .word "REPLACE", .word "VIEW", .ident series, .word "AS",
    .word "SELECT"] ++ list ++
  [.word "FROM", .word "read_parquet", .sym '(', .str ("series/" ++ series ++ "/**/*.parquet"),
    .sym ',', .word "hive_partitioning", .sym '=', .word "1", .sym ',', .word "union_by_name",
    .sym '=', .word "1", .sym ')', .sym ';']

/-! ## Lexing the parts -/

theorem toList_doubled (quote : Char) (s : String) :
    (doubled quote s).toList = escape quote s.toList := String.toList_ofList

private theorem toList_sqlIdent (name : String) :
    (sqlIdent name).toList = '"' :: (escape '"' name.toList ++ ['"']) := by
  rw [sqlIdent, String.toList_append, String.toList_append, toList_doubled]
  rfl

private theorem toList_sqlStr (text : String) :
    (sqlStr text).toList = strQuote :: (escape strQuote text.toList ++ [strQuote]) := by
  rw [sqlStr, String.toList_append, String.toList_append, toList_doubled]
  rfl

theorem lexFrom_sqlIdent (name : String) {rest : List Char} (hrest : rest.head? ≠ some '"') :
    lexFrom .plain ((sqlIdent name).toList ++ rest) =
      (lexFrom .plain rest).map (.ident name :: ·) := by
  have h := lexFrom_quoted .ident name.toList hrest
  rw [Quoted.token, String.ofList_toList] at h
  rw [toList_sqlIdent, List.cons_append, List.append_assoc, List.singleton_append]
  exact h

theorem lexFrom_sqlStr (text : String) {rest : List Char} (hrest : rest.head? ≠ some strQuote) :
    lexFrom .plain ((sqlStr text).toList ++ rest) = (lexFrom .plain rest).map (.str text :: ·) := by
  have h := lexFrom_quoted .str text.toList hrest
  rw [Quoted.token, String.ofList_toList] at h
  rw [toList_sqlStr, List.cons_append, List.append_assoc, List.singleton_append]
  exact h

theorem declaredEverywhere_iff {history : List EpochSchema} {name : String} :
    (history.all fun e ↦ e.keys.any (·.name == name)) = true ↔ DeclaredEverywhere history name := by
  simp [DeclaredEverywhere]

theorem lexFrom_fixed {s : String} {ts : List Token} (h : run .plain s.toList = (.plain, ts))
    (rest : List Char) :
    lexFrom .plain (s.toList ++ rest) = (lexFrom .plain rest).map (ts ++ ·) := lexFrom_of_run h rest

private theorem lexFrom_keyColumn (history : List EpochSchema) (k : KeyDef) (rest : List Char) :
    lexFrom .plain ((keyColumn history k).toList ++ rest) =
      (lexFrom .plain rest).map (selectItem history k ++ .sym ',' :: ·) := by
  have hcomma : run .plain ",\n".toList = (.plain, [.sym ',']) := by decide
  by_cases hall : DeclaredEverywhere history k.name
  · have hspace : run .plain "  ".toList = (.plain, []) := by decide
    rw [keyColumn, if_pos (declaredEverywhere_iff.2 hall), selectItem, if_pos hall]
    simp only [String.toList_append, List.append_assoc]
    rw [lexFrom_fixed hspace, lexFrom_sqlIdent _ (by exact (by decide : some ',' ≠ some '"')),
      lexFrom_fixed hcomma, Option.map_map, Option.map_map]
    rfl
  · have hopen :
      run .plain "  coalesce(".toList = (.plain, [.word "coalesce", .sym '(']) := by decide
    have hextra : run .plain ", try_cast(extra[".toList =
        (.plain, [.sym ',', .word "try_cast", .sym '(', .word "extra", .sym '[']) := by decide
    have htype : run .plain ("] AS ".toList ++ ((duckdbType k.ty).toList ++ ")) AS ".toList)) =
        (.plain, [.sym ']', .word "AS", .word (duckdbType k.ty), .sym ')', .sym ')',
          .word "AS"]) := by
      cases k.ty <;> decide
    rw [keyColumn, if_neg (mt declaredEverywhere_iff.1 hall), selectItem, if_neg hall]
    have hcast : ∀ rest, lexFrom .plain ("] AS ".toList ++ ((duckdbType k.ty).toList ++
        (")) AS ".toList ++ rest))) = (lexFrom .plain rest).map ([.sym ']', .word "AS",
          .word (duckdbType k.ty), .sym ')', .sym ')', .word "AS"] ++ ·) := by
      intro rest
      have h := lexFrom_of_run htype rest
      rwa [List.append_assoc, List.append_assoc] at h
    simp only [String.toList_append, List.append_assoc]
    rw [lexFrom_fixed hopen, lexFrom_sqlIdent _ (by exact (by decide : some ',' ≠ some '"')),
      lexFrom_fixed hextra, lexFrom_sqlStr _ (by exact (by decide : some ']' ≠ some strQuote)),
        hcast,
      lexFrom_sqlIdent _ (by exact (by decide : some ',' ≠ some '"')), lexFrom_fixed hcomma]
    simp only [Option.map_map]
    rfl

private theorem lexFrom_keyColumns (history : List EpochSchema) (keys : List KeyDef)
    (rest : List Char) :
    lexFrom .plain ((String.join (keys.map (keyColumn history))).toList ++ rest) =
      (lexFrom .plain rest).map ((keys.flatMap fun k ↦ selectItem history k ++ [.sym ',']) ++
        ·) := by
  rw [String.toList_join]
  induction keys with
  | nil => exact (map_nil_append _).symm
  | cons k keys ih =>
    rw [List.map_cons, List.flatMap_cons, List.append_assoc, lexFrom_keyColumn, ih, Option.map_map,
      List.flatMap_cons]
    congr 1
    funext ts
    simp only [Function.comp_apply, List.append_assoc, List.cons_append, List.nil_append]

/-! ## The comments -/

private theorem endsLine_of_isControl {c : Char} (h : isControl c = false) :
    endsLine c = false := by
  rw [endsLine, Bool.or_eq_false_iff, beq_eq_false_iff_ne, beq_eq_false_iff_ne]
  constructor <;> rintro rfl <;> exact absurd h (by decide)

private theorem oneLine_of_checkSeriesName {series : String} (h : checkSeriesName series = .ok ()) :
    OneLine series.toList := by
  intro c hc
  rw [checkSeriesName] at h
  split_ifs at h with _ _ _ hcontrol
  rw [List.any_eq_true] at hcontrol
  exact endsLine_of_isControl (Bool.eq_false_iff.2 fun hctl ↦ hcontrol ⟨c, hc, hctl⟩)

private theorem oneLine_toString (n : ℕ) : OneLine (toString n).toList := by
  intro c hc
  have hlist : (toString n).toList = Nat.toDigits 10 n := Nat.toList_repr
  rw [hlist] at hc
  have hdigit := Nat.isDigit_of_mem_toDigits (by decide) (by decide) hc
  rw [endsLine, Bool.or_eq_false_iff, beq_eq_false_iff_ne, beq_eq_false_iff_ne]
  constructor <;> rintro rfl <;> exact absurd hdigit (by decide)

private theorem oneLine_epochs (history : List EpochSchema) :
    OneLine (", ".intercalate (history.map fun e ↦ toString e.epoch.toNat)).toList := by
  rw [String.toList_intercalate, List.map_map]
  induction history with
  | nil => exact fun c hc ↦ absurd hc List.not_mem_nil
  | cons e history ih =>
    cases history with
    | nil =>
      rw [List.map_singleton, List.intercalate_singleton]
      exact oneLine_toString _
    | cons next history =>
      rw [List.map_cons, List.map_cons, List.intercalate_cons_cons]
      exact ((oneLine_toString _).append (oneLine_of_all (by decide))).append ih

theorem comments_around {first last : String} {lead trail text : List Char}
    (hfirst : first.toList = '-' :: '-' :: lead) (hlast : last.toList = trail ++ ['\n'])
    (hline : OneLine (lead ++ (text ++ trail))) :
    Comments (first.toList ++ (text ++ last.toList)) := by
  have h := comments_line hline
  rwa [List.append_assoc, List.append_assoc, ← hlast, ← List.cons_append, ← List.cons_append,
    ← hfirst] at h

private theorem comments_series {series : String} (hseries : checkSeriesName series = .ok ()) :
    Comments ("--   cd <data_dir> && duckdb -c \".read series/".toList ++
      (series.toList ++ "/view.sql\"\n".toList)) := by
  have hfirst : "--   cd <data_dir> && duckdb -c \".read series/".toList =
      '-' :: '-' :: "   cd <data_dir> && duckdb -c \".read series/".toList := by decide
  have hlast : "/view.sql\"\n".toList = "/view.sql\"".toList ++ ['\n'] := by decide
  have hlead : OneLine "   cd <data_dir> && duckdb -c \".read series/".toList :=
    oneLine_of_all (by decide)
  have htrail : OneLine "/view.sql\"".toList := oneLine_of_all (by decide)
  exact comments_around hfirst hlast
    (hlead.append ((oneLine_of_checkSeriesName hseries).append htrail))

private theorem comments_epochs (history : List EpochSchema) :
    Comments (if history = [] then "-- No epochs recorded for this series yet.\n"
      else "-- Epochs unioned: " ++
        ", ".intercalate (history.map fun e ↦ toString e.epoch.toNat) ++ "\n").toList := by
  split_ifs
  · exact ⟨[" No epochs recorded for this series yet."], lexFrom_literal (by decide)⟩
  · have hfirst : "-- Epochs unioned: ".toList = '-' :: '-' :: " Epochs unioned: ".toList := by
      decide
    have hlast : "\n".toList = [] ++ ['\n'] := by decide
    have hlead : OneLine " Epochs unioned: ".toList := oneLine_of_all (by decide)
    have htrail : OneLine [] := oneLine_of_all rfl
    rw [String.toList_append, String.toList_append, List.append_assoc]
    exact comments_around hfirst hlast (hlead.append ((oneLine_epochs history).append htrail))

/-! ## The columns -/

private theorem closed_selectItem (history : List EpochSchema) (k : KeyDef) :
    Closed (selectItem history k) := by
  intro before rest
  rw [selectItem]
  split_ifs
  · simp [itemsFrom, opens, closes]
  · simp [coalescedItem, itemsFrom, opens, closes]

private theorem closed_of_mem_selectItems {history : List EpochSchema} {item : List Token}
    (h : item ∈ selectItems history) : Closed item := by
  have hword (text : String) : Closed [.word text] := by
    intro before rest
    simp [itemsFrom, opens, closes]
  simp only [selectItems, List.mem_append, List.mem_cons, List.not_mem_nil, or_false,
    List.mem_map] at h
  obtain ((rfl | rfl) | ⟨k, _, rfl⟩) | rfl | rfl := h
  · exact hword _
  · exact hword _
  · exact closed_selectItem history k
  · exact hword _
  · exact hword _

theorem outputName_selectItem (history : List EpochSchema) (k : KeyDef) :
    outputName (selectItem history k) = some k.name := by
  rw [selectItem]
  split_ifs <;> rfl

private theorem viewColumns_eq (history : List EpochSchema) :
    viewColumns history =
      ["ts", "id"] ++ (allKeys history).map KeyDef.name ++ ["extra", "data"] := by
  suffices h : ∀ (keys seen : List KeyDef) (p : List String × List String),
      (∀ name, name ∈ p.1 ↔ name ∈ seen.map KeyDef.name) → p.2 = seen.map KeyDef.name →
      (keys.foldl (fun (p : List String × List String) k ↦
        if k.name ∈ p.1 then p else (k.name :: p.1, p.2 ++ [k.name])) p).2 =
      (keys.foldl (fun seen k ↦ if seen.any (·.name == k.name) then seen else seen ++ [k]) seen).map
        KeyDef.name by
    rw [viewColumns, h _ [] ([], []) (fun _ ↦ Iff.rfl) rfl, allKeys]
  intro keys
  induction keys with
  | nil => exact fun seen p _ hcols ↦ hcols
  | cons k keys ih =>
    intro seen p hnames hcols
    have hmem : seen.any (·.name == k.name) = true ↔ k.name ∈ seen.map KeyDef.name := by simp
    rw [List.foldl_cons, List.foldl_cons]
    by_cases hseen : k.name ∈ seen.map KeyDef.name
    · rw [if_pos ((hnames _).2 hseen), if_pos (hmem.2 hseen)]
      exact ih seen p hnames hcols
    · rw [if_neg (mt (hnames _).1 hseen), if_neg (mt hmem.1 hseen)]
      refine ih _ _ (fun name ↦ ?_) ?_
      · rw [List.mem_cons, hnames, List.map_append, List.mem_append, List.map_singleton,
          List.mem_singleton, or_comm]
      · rw [List.map_append, hcols, List.map_singleton]

private theorem map_outputName_selectItems (history : List EpochSchema) :
    (selectItems history).map outputName = (viewColumns history).map some := by
  have hkeys : (allKeys history).map (outputName ∘ selectItem history) =
      (allKeys history).map (some ∘ KeyDef.name) :=
    List.map_congr_left fun k _ ↦ outputName_selectItem history k
  rw [viewColumns_eq, selectItems]
  simp only [List.map_append, List.map_map, hkeys]
  rfl

private theorem exists_mem_allKeys {history : List EpochSchema} {k : KeyDef}
    (h : k ∈ history.flatMap EpochSchema.keys) : ∃ first ∈ allKeys history,
      first.name = k.name := by
  suffices hfold : ∀ (keys seen : List KeyDef), k ∈ keys ∨ (∃ first ∈ seen, first.name = k.name) →
      ∃ first ∈ keys.foldl
        (fun seen k ↦ if seen.any (·.name == k.name) then seen else seen ++ [k]) seen,
        first.name = k.name from hfold _ [] (.inl h)
  intro keys
  induction keys with
  | nil => exact fun seen hk ↦ hk.resolve_left List.not_mem_nil
  | cons next keys ih =>
    intro seen hk
    rw [List.foldl_cons]
    refine ih _ ?_
    rw [List.mem_cons] at hk
    -- the next key is the one looked for, or it only adds to what was seen
    obtain (rfl | hk) | ⟨first, hfirst, hname⟩ := hk
    · right
      split_ifs with hany
      · rw [List.any_eq_true] at hany
        obtain ⟨first, hfirst, hname⟩ := hany
        exact ⟨first, hfirst, beq_iff_eq.1 hname⟩
      · exact ⟨k, List.mem_append_right _ (List.mem_singleton_self k), rfl⟩
    · exact .inl hk
    · right
      split_ifs
      · exact ⟨first, hfirst, hname⟩
      · exact ⟨first, List.mem_append_left _ hfirst, hname⟩

private theorem coalescedItem_mem_selectItems {history : List EpochSchema} {k : KeyDef}
    (h : k ∈ history.flatMap EpochSchema.keys) :
    (∃ ty, coalescedItem k.name ty ∈ selectItems history) ↔
      ¬ DeclaredEverywhere history k.name := by
  constructor
  · rintro ⟨ty, hmem⟩ hall
    have hword (text : String) : coalescedItem k.name ty ≠ [.word text] := by simp [coalescedItem]
    simp only [selectItems, List.mem_append, List.mem_cons, List.not_mem_nil, or_false,
      List.mem_map] at hmem
    obtain ((h | h) | ⟨k', _, hitem⟩) | h | h := hmem
    · exact hword _ h
    · exact hword _ h
    · have hname := congrArg outputName hitem
      rw [outputName_selectItem] at hname
      have hsame : k'.name = k.name := Option.some_inj.1 hname
      rw [selectItem, hsame, if_pos hall] at hitem
      cases hitem
    · exact hword _ h
    · exact hword _ h
  · intro hall
    obtain ⟨first, hfirst, hname⟩ := exists_mem_allKeys h
    have hitem : selectItem history first = coalescedItem k.name first.ty := by
      rw [selectItem, hname, if_neg hall]
    refine ⟨first.ty, List.mem_append_left _ (List.mem_append_right _ ?_)⟩
    exact List.mem_map.2 ⟨first, hfirst, hitem⟩

/-! ## The whole text -/

/-- The lines in front of the statement. -/
def headText (series : String) (history : List EpochSchema) : String :=
  "-- Generated by orc; regenerated on every flush. Do not edit.\n" ++
  "-- Paths are relative to the data directory, and DuckDB resolves them\n" ++
  "-- against the process working directory -- not this file's location:\n" ++
  "--   cd <data_dir> && duckdb -c \".read series/" ++ series ++ "/view.sql\"\n" ++
  (if history = [] then "-- No epochs recorded for this series yet.\n"
    else "-- Epochs unioned: " ++
      ", ".intercalate (history.map fun e ↦ toString e.epoch.toNat) ++ "\n")

/-- The statement. -/
def statementText (series : String) (history : List EpochSchema) : String :=
  "CREATE OR REPLACE VIEW " ++ sqlIdent series ++ " AS SELECT\n" ++
  "  ts,\n  id,\n" ++
  String.join ((allKeys history).map (keyColumn history)) ++
  "  extra,\n  data\n" ++
  "FROM read_parquet(" ++ sqlStr ("series/" ++ series ++ "/**/*.parquet") ++
    ", hive_partitioning = 1, union_by_name = 1);\n"

private theorem viewSql_eq (series : String) (history : List EpochSchema) :
    viewSql series history = headText series history ++ statementText series history := by
  unfold viewSql headText statementText
  simp only [String.append_assoc]

private theorem comments_headText {series : String} (hseries : checkSeriesName series = .ok ())
    (history : List EpochSchema) : Comments (headText series history).toList := by
  have hgenerated : Comments
      "-- Generated by orc; regenerated on every flush. Do not edit.\n".toList :=
    ⟨[" Generated by orc; regenerated on every flush. Do not edit."], lexFrom_literal (by decide)⟩
  have hpaths : Comments
      "-- Paths are relative to the data directory, and DuckDB resolves them\n".toList :=
    ⟨[" Paths are relative to the data directory, and DuckDB resolves them"],
      lexFrom_literal (by decide)⟩
  have hagainst : Comments
      "-- against the process working directory -- not this file's location:\n".toList :=
    ⟨[" against the process working directory -- not this file's location:"],
      lexFrom_literal (by decide)⟩
  have h := (((hgenerated.append hpaths).append hagainst).append (comments_series hseries)).append
    (comments_epochs history)
  unfold headText
  simp only [String.toList_append, List.append_assoc] at h ⊢
  exact h

private theorem lexFrom_statementText (series : String) (history : List EpochSchema) :
    lexFrom .plain (statementText series history).toList =
      some (viewStatement series ([.sym ','].intercalate (selectItems history))) := by
  have hcreate : run .plain "CREATE OR REPLACE VIEW ".toList =
      (.plain, [.word "CREATE", .word "OR", .word "REPLACE", .word "VIEW"]) := by decide
  have hselect : run .plain " AS SELECT\n".toList = (.plain, [.word "AS", .word "SELECT"]) := by
    decide
  have hbefore : run .plain "  ts,\n  id,\n".toList =
      (.plain, [.word "ts", .sym ',', .word "id", .sym ',']) := by decide
  have hafter : run .plain "  extra,\n  data\n".toList =
      (.plain, [.word "extra", .sym ',', .word "data"]) := by decide
  have hfrom : run .plain "FROM read_parquet(".toList =
      (.plain, [.word "FROM", .word "read_parquet", .sym '(']) := by decide
  have hoptions : lexFrom .plain ", hive_partitioning = 1, union_by_name = 1);\n".toList =
      some [.sym ',', .word "hive_partitioning", .sym '=', .word "1", .sym ',',
        .word "union_by_name", .sym '=', .word "1", .sym ')', .sym ';'] := by decide
  have hlist : [.sym ','].intercalate (selectItems history) =
      [.word "ts", .sym ',', .word "id", .sym ','] ++
        ((allKeys history).flatMap fun k ↦ selectItem history k ++ [.sym ',']) ++
        [.word "extra", .sym ',', .word "data"] := by
    rw [selectItems, intercalate_append (List.cons_ne_nil _ _), List.flatMap_append,
      List.flatMap_map]
    rfl
  unfold statementText
  simp only [String.toList_append, List.append_assoc]
  rw [lexFrom_fixed hcreate, lexFrom_sqlIdent _ (by exact (by decide : some ' ' ≠ some '"')),
    lexFrom_fixed hselect, lexFrom_fixed hbefore, lexFrom_keyColumns, lexFrom_fixed hafter,
    lexFrom_fixed hfrom, lexFrom_sqlStr _ (by exact (by decide : some ',' ≠ some strQuote)),
      hoptions,
    hlist]
  simp only [Option.map_some, viewStatement, List.append_assoc, List.cons_append, List.nil_append]

/-- **The view is one statement whatever the names contain.** Read by the rules of SQL, the text for
a series whose name the configuration admits is comments and then the statement. The columns of its
select list are those `viewColumns` names, and a key is coalesced with `extra` exactly if an epoch
does not declare it. -/
theorem view_sql_lexes {series : String} (hseries : checkSeriesName series = .ok ())
    (history : List EpochSchema) :
    ∃ (comments : List String) (list : List Token),
      lex (viewSql series history) =
        some (comments.map .comment ++ viewStatement series list) ∧
      items list = selectItems history ∧
      (items list).map outputName = (viewColumns history).map some ∧
      ∀ e ∈ history, ∀ k ∈ e.keys,
        (∃ ty, coalescedItem k.name ty ∈ items list) ↔
          ∃ e' ∈ history, ∀ k' ∈ e'.keys, k'.name ≠ k.name := by
  obtain ⟨comments, hcomments⟩ := comments_headText hseries history
  have hne : selectItems history ≠ [] := by
    rw [selectItems]
    exact List.cons_ne_nil _ _
  have hitems : items ([.sym ','].intercalate (selectItems history)) = selectItems history :=
    items_intercalate (fun _ ↦ closed_of_mem_selectItems) hne
  refine ⟨comments, [.sym ','].intercalate (selectItems history), ?_, hitems, ?_, ?_⟩
  · rw [lex, viewSql_eq, String.toList_append, hcomments, lexFrom_statementText]
    rfl
  · rw [hitems, map_outputName_selectItems]
  · intro e he k hk
    rw [hitems, coalescedItem_mem_selectItems (List.mem_flatMap.2 ⟨e, he, hk⟩)]
    simp only [DeclaredEverywhere, not_forall, not_exists, not_and, exists_prop]

/-- A series with a quote in its name, and a key with both quotes and a line break in its own. -/
theorem view_sql_lexes_quotes :
    checkSeriesName "a\"b; --" = .ok () ∧
    ∃ (comments : List String) (list : List Token),
      lex (viewSql "a\"b; --" [⟨1, [⟨"it's\n\"x", .i64, true⟩]⟩, ⟨2, []⟩]) =
        some (comments.map .comment ++ viewStatement "a\"b; --" list) ∧
      items list = selectItems [⟨1, [⟨"it's\n\"x", .i64, true⟩]⟩, ⟨2, []⟩] ∧
      (items list).map outputName =
        [some "ts", some "id", some "it's\n\"x", some "extra", some "data"] ∧
      ∃ ty, coalescedItem "it's\n\"x" ty ∈ items list := by
  have hok : checkSeriesName "a\"b; --" = .ok () := rfl
  refine ⟨hok, ?_⟩
  obtain ⟨comments, list, hlex, hitems, hnames, hkeys⟩ :=
    view_sql_lexes hok [⟨1, [⟨"it's\n\"x", .i64, true⟩]⟩, ⟨2, []⟩]
  refine ⟨comments, list, hlex, hitems, hnames, ?_⟩
  exact (hkeys _ List.mem_cons_self _ List.mem_cons_self).2
    ⟨⟨2, []⟩, List.mem_cons_of_mem _ List.mem_cons_self, fun _ h ↦ absurd h List.not_mem_nil⟩

end Orc
