import Orc.Fault.Tree
import Orc.Flush.SweepFiles

/-!
# The sweep on directory trees

A flush output stands in a partition `<series>/<hour>/`, in `tmp/` until it is committed and in
`series/` afterwards. The sweep removes the partitions it empties, so what it leaves depends on
which directories exist, and this module runs it on trees.

The files it leaves are those of `Files.Settles`, wherever earlier runs were stopped. Directories
are another matter. A partition is removed by the run that emptied it and by no other: when the
process stops in between, later runs find nothing to empty and leave it.

## Listings

Listing a directory is a call for each directory and may fail for one and not for another, and a
failed listing is skipped; so what a disturbed sweep finds is any part of what there is, and an
undisturbed one finds all of it (`readDirs_triple`, `readDirs_undisturbed`).
-/

namespace Orc.SweepTree

open Fault

variable {β : Type}

/-! ## The sweep -/

/-- `tmp/` and `series/`. -/
structure Trees (β : Type) where
  tmp : DirTree β
  series : DirTree β

/-- The files in the two trees. -/
def Trees.files (d : Trees β) : Files β := ⟨d.tmp.files, d.series.files⟩

/-- The file-system calls of the sweep. -/
inductive SweepOp where
  | runsClear | tmpList | tmpRemove | tmpRemoveDir
  | seriesMkdir | seriesRename | seriesDirSync | seriesList | seriesRemove | seriesRemoveDir
  deriving DecidableEq, Repr

/-- A program over the two trees. -/
abbrev SweepIo (β α : Type) := Prog SweepOp (Trees β) Error α

/-- A call that the file system may refuse. -/
def call (label : SweepOp) (act : Trees β → Option (Trees β)) : SweepIo β Unit :=
  Prog.op label ioError fun d ↦ ((act d).map fun d' ↦ ((), d')).elim (.error ioError) .ok

/-- A call whose error is ignored. -/
def ignore (p : SweepIo β Unit) : SweepIo β Unit := do
  let _ ← Prog.attempt p

/-- The entries of a directory that are of the wanted kind. One that cannot be listed is skipped. -/
def readDir (label : SweepOp) (tree : Trees β → DirTree β) (kind : DirTree β → Path → Bool)
    (dir : Path) : SweepIo β (List Path) := do
  match ← Prog.attempt (Prog.op label ioError fun d : Trees β ↦
    .ok (((tree d).entries [dir]).filter (kind (tree d)), d)) with
  | .ok l => return l
  | .error _ => return []

/-- The entries of some directories, each listed by itself. -/
def readDirs (label : SweepOp) (tree : Trees β → DirTree β) (kind : DirTree β → Path → Bool)
    (dirs : List Path) : SweepIo β (List Path) :=
  dirs.foldlM (fun out dir ↦ return out ++ (← readDir label tree kind dir)) []

/-- Entries of any kind, whether they can be entered or not. -/
def anyEntry (_ : DirTree β) (_ : Path) : Bool := true

def isDir (t : DirTree β) (p : Path) : Bool := p ∈ t.dirs

def isFile (t : DirTree β) (p : Path) : Bool := p ∈ t.files

/-- Change `tmp/`. -/
def onTmp (f : DirTree β → Option (DirTree β)) (d : Trees β) : Option (Trees β) :=
  (f d.tmp).map fun t ↦ { d with tmp := t }

/-- Change `series/`. -/
def onSeries (f : DirTree β → Option (DirTree β)) (d : Trees β) : Option (Trees β) :=
  (f d.series).map fun t ↦ { d with series := t }

/-- Flush output in `series/`. What has an engine's name is listed whether it is a file or not. -/
def outputFiles : SweepIo β (List (Path × (ℕ × ℕ × UInt32))) := do
  let series ← readDirs .seriesList Trees.series anyEntry [[]]
  let hours ← readDirs .seriesList Trees.series anyEntry series
  let found ← readDirs .seriesList Trees.series anyEntry hours
  return (found.insertionSort (· ≤ ·)).filterMap fun p ↦ (outputRange p).map fun r ↦ (p, r)

/-- The files in the partitions of `tmp/`, with the range of each if its name has one. -/
def stagedFiles : SweepIo β (List (Path × Option (ℕ × ℕ × UInt32))) := do
  let series ← readDirs .tmpList Trees.tmp isDir [[]]
  let hours ← readDirs .tmpList Trees.tmp isDir series
  let found ← readDirs .tmpList Trees.tmp isFile hours
  return (found.insertionSort (· ≤ ·)).map fun p ↦ (p, outputRange p)

/-- The files directly in `tmp/`. -/
def flatFiles : SweepIo β (List Path) := readDir .tmpList Trees.tmp isFile []

/-- Create a directory of `series/` and the ones above it. -/
def createDirAll (dir : Path) : SweepIo β Unit :=
  dir.inits.forM fun p ↦ call .seriesMkdir (onSeries (DirTree.mkdir p))

/-- Rename from `tmp/` to `series/`. -/
def rename (path : Path) (d : Trees β) : Option (Trees β) := do
  let b ← d.tmp.files[path]?
  let series ← d.series.put path b
  let tmp ← d.tmp.removeFile path
  return ⟨tmp, series⟩

/-- Rename a committed staged file from `tmp/` into `series/`. -/
def promote (staged : Path) : SweepIo β Unit := do
  createDirAll staged.dropLast
  call .seriesRename (rename staged)
  -- the partition, the series and `series/` itself
  call .seriesDirSync some
  call .seriesDirSync some
  call .seriesDirSync some

/-- Promote a committed staged file, remove another. -/
def settle (watermark : ℕ) (x : Path × Option (ℕ × ℕ × UInt32)) : SweepIo β Unit :=
  if x.2.any fun r ↦ r.2.1 ≤ watermark then
    promote x.1
  else
    call .tmpRemove (onTmp (DirTree.removeFile x.1))

/-- The partitions some files are in, in order and each once. -/
def partitions (paths : List Path) : List Path :=
  ((paths.map List.dropLast).dedup).insertionSort (· ≤ ·)

/-- Remove output past the watermark; what was removed is remembered. -/
def removeOrphan (watermark : ℕ) (removed : List Path) (x : Path × (ℕ × ℕ × UInt32)) :
    SweepIo β (List Path) := do
  if x.2.2.1 ≤ watermark then
    return removed
  match ← Prog.attempt (call .seriesRemove (onSeries (DirTree.removeFile x.1))) with
  | .ok _ => return removed ++ [x.1]
  | .error _ => return removed

/-- Clean up after an interrupted flush. The runs are outside of the two trees. -/
def sweepUncommitted (watermark : ℕ) : SweepIo β Unit := do
  ignore (call .runsClear some)
  let staged ← stagedFiles
  staged.forM (settle watermark)
  -- a failure has ended the sweep, so every partition of the list was worked on
  (partitions (staged.map Prod.fst)).forM fun hour ↦ do
    ignore (call .tmpRemoveDir (onTmp (DirTree.removeDir hour)))
    ignore (call .tmpRemoveDir (onTmp (DirTree.removeDir hour.dropLast)))
  let flat ← flatFiles
  flat.forM fun p ↦ ignore (call .tmpRemove (onTmp (DirTree.removeFile p)))
  let out ← outputFiles
  let removed ← out.foldlM (removeOrphan watermark) []
  (partitions removed).forM fun hour ↦
    ignore (call .seriesRemoveDir (onSeries (DirTree.removeDir hour)))

/-! ## Calls and listings -/

section Triples

variable {o : Oracle SweepOp} {P Q : Trees β → Prop} {E : Error → Trees β → Prop}
  {C : Trees β → Prop} {label : SweepOp} {act : Trees β → Option (Trees β)} {d : Trees β}

theorem call_triple (hok : ∀ d d', P d → act d = some d' → Q d')
    (hrefuse : ∀ d, P d → act d = none → E ioError d)
    (hfail : ∀ d t n, P d → o t label = .fails n → E ioError d)
    (hcrash : ∀ d t n, P d → o t label = .crashes n → C d) :
    Triple o P (call label act) (fun _ ↦ Q) E C := by
  refine .op (fun d t a d' hd _ hact ↦ ?_) (fun d t e hd _ hact ↦ ?_) hfail hcrash
  · cases hd' : act d with
    | none =>
      rw [hd'] at hact
      cases hact
    | some d₁ =>
      rw [hd'] at hact
      obtain ⟨rfl, rfl⟩ := Prod.mk.inj (Except.ok.inj hact)
      exact hok d d₁ hd hd'
  · cases hd' : act d with
    | none =>
      rw [hd'] at hact
      obtain rfl := Except.error.inj hact
      exact hrefuse d hd hd'
    | some d₁ =>
      rw [hd'] at hact
      cases hact

theorem call_keeps (h : ∀ d d', P d → act d = some d' → P d') : Keeps o P (call label act) :=
  call_triple h (fun _ hd _ ↦ hd) (fun _ _ _ hd _ ↦ hd) fun _ _ _ hd _ ↦ hd

theorem ignore_keeps {p : SweepIo β Unit} (h : Keeps o P p) :
    Triple o P (ignore p) (fun _ ↦ P) E P :=
  .bind h.attempt_triple fun _ ↦ .ret fun _ ↦ id

/-! Where every call is carried out, only what the trees refuse can fail. -/

/-- Every call is carried out. -/
def undisturbed : Oracle SweepOp := fun _ _ ↦ .done

private theorem undisturbed_eq (t : ℕ) (label : SweepOp) : undisturbed t label = .done := rfl

theorem not_crashes_undisturbed : ¬ Crashes undisturbed := by
  rintro ⟨t, label, n, h⟩
  cases h

theorem call_undisturbed (hok : ∀ d d', P d → act d = some d' → Q d')
    (hrefuse : ∀ d, P d → act d = none → E ioError d) :
    Triple undisturbed P (call label act) (fun _ ↦ Q) E C :=
  call_triple hok hrefuse (fun _ _ _ _ ho ↦ by cases ho) fun _ _ _ _ ho ↦ by cases ho

theorem ignore_undisturbed (hok : ∀ d d', P d → act d = some d' → Q d')
    (hrefuse : ∀ d, P d → act d = none → Q d) :
    Triple undisturbed P (ignore (call label act)) (fun _ ↦ Q) E C :=
  .attempt_bind (call_undisturbed hok hrefuse) (fun _ ↦ .ret fun _ ↦ id) fun _ ↦ .ret fun _ ↦ id

-- or the elaborator would run the program to see what its triple says
attribute [irreducible] undisturbed

end Triples

/-! ### What is found -/

/-- All entries of some directories that are of a kind. -/
def found (t : DirTree β) (kind : DirTree β → Path → Bool) (dirs : List Path) : List Path :=
  (t.entries dirs).filter (kind t)

/-- The flush output there is. -/
def outputIn (series : DirTree β) : List (Path × (ℕ × ℕ × UInt32)) :=
  ((found series anyEntry (found series anyEntry (found series anyEntry [[]]))).insertionSort
    (· ≤ ·)).filterMap fun p ↦ (outputRange p).map fun r ↦ (p, r)

/-- The staged files there are. -/
def stagedIn (tmp : DirTree β) : List (Path × Option (ℕ × ℕ × UInt32)) :=
  ((found tmp isFile (found tmp isDir (found tmp isDir [[]]))).insertionSort (· ≤ ·)).map
    fun p ↦ (p, outputRange p)

/-- The flat files there are. -/
def flatIn (tmp : DirTree β) : List Path := found tmp isFile [[]]

theorem mem_stagedIn {t : DirTree β} {x : Path × Option (ℕ × ℕ × UInt32)} :
    x ∈ stagedIn t ↔ x.1 ∈ t.files ∧ x.1.length = 3 ∧ x.2 = outputRange x.1 := by
  simp only [stagedIn, found, isFile, isDir, List.mem_map, List.mem_insertionSort, List.mem_filter,
    DirTree.mem_entries, decide_eq_true_eq]
  constructor
  · rintro ⟨p, ⟨⟨hour, ⟨⟨s, ⟨⟨r, hr, c, rfl, -⟩, -⟩, h, rfl, -⟩, -⟩, f, rfl, -⟩, hfile⟩, rfl⟩
    obtain rfl := List.mem_singleton.1 hr
    exact ⟨hfile, rfl, rfl⟩
  · rintro ⟨hfile, hlen, hx⟩
    obtain ⟨s, h, f, hp⟩ := List.length_eq_three.1 hlen
    rw [hp] at hfile
    obtain ⟨hroot, hs, hh⟩ := DirTree.dirs_of_file (.inl hfile)
    refine ⟨x.1, ⟨⟨[s, h], ⟨⟨[s], ⟨⟨[], List.mem_singleton_self _, s, rfl, .inr hs⟩, hs⟩, h, rfl,
      .inr hh⟩, hh⟩, f, hp, ?_⟩, hp ▸ hfile⟩, Prod.ext rfl hx.symm⟩
    exact .inl (hp ▸ hfile)

private theorem nodup_stagedIn (t : DirTree β) : ((stagedIn t).map Prod.fst).Nodup := by
  simp only [stagedIn, found, List.map_map, Function.comp_def, List.map_id']
  refine (List.perm_insertionSort _ _).nodup_iff.2 (List.Nodup.filter _ ?_)
  refine DirTree.nodup_entries
    (List.Nodup.filter _ (DirTree.nodup_entries (List.Nodup.filter _ ?_)))
  exact DirTree.nodup_entries (List.nodup_singleton _)

theorem mem_flatIn {t : DirTree β} {p : Path} : p ∈ flatIn t ↔ p ∈ t.files ∧ p.length = 1 := by
  simp only [flatIn, found, isFile, List.mem_filter, DirTree.mem_entries, List.mem_singleton,
    decide_eq_true_eq]
  constructor
  · rintro ⟨⟨dir, rfl, c, rfl, -⟩, hfile⟩
    exact ⟨hfile, rfl⟩
  · rintro ⟨hfile, hlen⟩
    obtain ⟨f, rfl⟩ := List.length_eq_one_iff.1 hlen
    exact ⟨⟨[], rfl, f, rfl, .inl hfile⟩, hfile⟩

theorem mem_outputIn {t : DirTree β} {x : Path × (ℕ × ℕ × UInt32)} :
    x ∈ outputIn t ↔
      (x.1 ∈ t.files ∨ x.1 ∈ t.dirs) ∧ x.1.length = 3 ∧ outputRange x.1 = some x.2 := by
  simp only [outputIn, found, List.mem_filterMap, List.mem_insertionSort, List.mem_filter, anyEntry,
    and_true, DirTree.mem_entries, Option.map_eq_some_iff]
  constructor
  · rintro ⟨p, ⟨hour, ⟨s, ⟨r, hr, c, rfl, -⟩, h, rfl, -⟩, f, rfl, hmem⟩, range, hrange, rfl⟩
    obtain rfl := List.mem_singleton.1 hr
    exact ⟨hmem, rfl, hrange⟩
  · rintro ⟨hmem, hlen, hrange⟩
    obtain ⟨s, h, f, hp⟩ := List.length_eq_three.1 hlen
    obtain ⟨hroot, hs, hh⟩ := DirTree.dirs_of_file (hp ▸ hmem)
    exact ⟨x.1,
      ⟨[s, h], ⟨[s], ⟨[], List.mem_singleton_self _, s, rfl, .inr hs⟩, h, rfl, .inr hh⟩, f,
      hp, hmem⟩, x.2, hrange, rfl⟩

/-! ### Listings

A directory that cannot be listed is skipped, and everything below it with it, so a listing has some
of what is there; it has all of it if every call is carried out. -/

section Listings

variable {o : Oracle SweepOp} {E : Error → Trees β → Prop} {C : Trees β → Prop} {d : Trees β}
  {label : SweepOp} {tree : Trees β → DirTree β} {kind : DirTree β → Path → Bool}

theorem found_mono (t : DirTree β) {dirs dirs' : List Path} (h : dirs ⊆ dirs') :
    found t kind dirs ⊆ found t kind dirs' := by
  intro p hp
  obtain ⟨hp, hkind⟩ := List.mem_filter.1 hp
  obtain ⟨dir, hdir, hp⟩ := DirTree.mem_entries.1 hp
  exact List.mem_filter.2 ⟨DirTree.mem_entries.2 ⟨dir, h hdir, hp⟩, hkind⟩

private theorem found_append (t : DirTree β) (dirs dirs' : List Path) :
    found t kind (dirs ++ dirs') = found t kind dirs ++ found t kind dirs' := by
  rw [found, DirTree.entries, List.flatMap_append, List.filter_append]
  rfl

theorem readDir_triple (dir : Path) :
    Triple o (· = d) (readDir label tree kind dir)
      (fun l d' ↦ d' = d ∧ l ⊆ found (tree d) kind [dir]) E (· = d) := by
  refine .attempt_bind (Q := fun l d' ↦ d' = d ∧ l = found (tree d) kind [dir])
    (E := fun _ ↦ (· = d))
    (.op ?_ (fun _ _ _ hd _ _ ↦ hd) (fun _ _ _ hd _ ↦ hd) fun _ _ _ hd _ ↦ hd)
    (fun l ↦ .ret fun d' hd ↦ ⟨hd.1, hd.2 ▸ List.Subset.refl _⟩)
    fun e ↦ .ret fun d' hd ↦ ⟨hd, List.nil_subset _⟩
  rintro _ t a d' rfl _ hact
  obtain ⟨rfl, rfl⟩ := Prod.mk.inj (Except.ok.inj hact)
  exact ⟨rfl, rfl⟩

theorem readDirs_triple (dirs : List Path) :
    Triple o (· = d) (readDirs label tree kind dirs)
      (fun l d' ↦ d' = d ∧ l ⊆ found (tree d) kind dirs) E (· = d) := by
  refine ((Triple.foldlM (I := fun left out d' ↦ d' = d ∧
    ∃ done, done ++ left = dirs ∧ out ⊆ found (tree d) kind done)
      (fun dir left out ↦ .intro ?_) dirs
      []).pre fun d' hd ↦ ⟨hd, [], rfl, List.nil_subset _⟩).post ?_
  · rintro _ ⟨rfl, done, hdone, hout⟩
    refine .bind (readDir_triple dir) fun l ↦ .ret ?_
    rintro d' ⟨hd', hl⟩
    refine ⟨hd', done ++ [dir], by rw [← hdone, List.append_assoc]; rfl, ?_⟩
    rw [found_append]
    exact List.append_subset.2 ⟨List.subset_append_of_subset_left _ hout,
      List.subset_append_of_subset_right _ hl⟩
  · rintro l d' ⟨hd', done, hdone, hl⟩
    rw [List.append_nil] at hdone
    exact ⟨hd', hdone ▸ hl⟩

theorem readDir_undisturbed (dir : Path) :
    Triple undisturbed (· = d) (readDir label tree kind dir)
      (fun l d' ↦ d' = d ∧ l = found (tree d) kind [dir]) E C := by
  refine .attempt_bind (Q := fun l d' ↦ d' = d ∧ l = found (tree d) kind [dir])
    (E := fun _ _ ↦ False)
    (.op ?_ (fun _ _ _ _ _ h ↦ by cases h) (fun _ t _ _ ho ↦ ?_) fun _ t _ _ ho ↦ ?_)
    (fun l ↦ .ret fun d' ↦ id) fun e ↦ .ret fun _ ↦ False.elim
  · rintro _ t a d' rfl _ hact
    obtain ⟨rfl, rfl⟩ := Prod.mk.inj (Except.ok.inj hact)
    exact ⟨rfl, rfl⟩
  · rw [undisturbed_eq] at ho
    cases ho
  · rw [undisturbed_eq] at ho
    cases ho

theorem readDirs_undisturbed (dirs : List Path) :
    Triple undisturbed (· = d) (readDirs label tree kind dirs)
      (fun l d' ↦ d' = d ∧ l = found (tree d) kind dirs) E C := by
  refine ((Triple.foldlM (I := fun left out d' ↦ d' = d ∧
    out ++ found (tree d) kind left = found (tree d) kind dirs) (fun dir left out ↦ .intro ?_) dirs
      []).pre fun d' hd ↦ ⟨hd, rfl⟩).post fun l d' hd' ↦
        ⟨hd'.1, (List.append_nil l).symm.trans hd'.2⟩
  rintro _ ⟨rfl, hout⟩
  refine .bind (readDir_undisturbed dir) fun l ↦ .ret ?_
  rintro d' ⟨hd', rfl⟩
  refine ⟨hd', ?_⟩
  rw [← hout, List.append_assoc, ← found_append]
  rfl

/-- Three listings, each of what the one before has found. -/
private theorem levels_triple {γ : Type} {r s t : DirTree β → Path → Bool} {g : List Path → γ}
    {Q : γ → Prop}
    (hQ : ∀ l ⊆ found (tree d) t (found (tree d) s (found (tree d) r [[]])), Q (g l)) :
    Triple o (· = d) (do
      let series ← readDirs label tree r [[]]
      let hours ← readDirs label tree s series
      let found ← readDirs label tree t hours
      return g found) (fun x d' ↦ d' = d ∧ Q x) E (· = d) := by
  refine .bind (readDirs_triple _) fun series ↦ .intro ?_
  rintro _ ⟨rfl, hseries⟩
  refine .bind (readDirs_triple _) fun hours ↦ .intro ?_
  rintro d ⟨rfl, hhours⟩
  refine .bind (readDirs_triple _) fun files ↦ .ret ?_
  rintro _ ⟨rfl, hfiles⟩
  exact ⟨rfl, hQ _ (List.Subset.trans hfiles
    (found_mono _ (List.Subset.trans hhours (found_mono _ hseries))))⟩

theorem stagedFiles_triple :
    Triple o (· = d) stagedFiles (fun l d' ↦ d' = d ∧ l ⊆ stagedIn d.tmp) E (· = d) :=
  levels_triple fun _ hl ↦ List.map_subset _ fun _ hp ↦
    (List.mem_insertionSort _).2 (hl ((List.mem_insertionSort _).1 hp))

theorem outputFiles_triple :
    Triple o (· = d) outputFiles (fun l d' ↦ d' = d ∧ l ⊆ outputIn d.series) E (· = d) :=
  levels_triple fun _ hl ↦ List.filterMap_subset _ fun _ hp ↦
    (List.mem_insertionSort _).2 (hl ((List.mem_insertionSort _).1 hp))

private theorem levels_undisturbed {γ : Type} {r s t : DirTree β → Path → Bool}
    (g : List Path → γ) :
    Triple undisturbed (· = d) (do
      let series ← readDirs label tree r [[]]
      let hours ← readDirs label tree s series
      let found ← readDirs label tree t hours
      return g found)
      (fun x d' ↦ d' = d ∧
        x = g (found (tree d) t (found (tree d) s (found (tree d) r [[]])))) E C := by
  refine .bind (readDirs_undisturbed _) fun series ↦ .intro ?_
  rintro _ ⟨rfl, rfl⟩
  refine .bind (readDirs_undisturbed _) fun hours ↦ .intro ?_
  rintro d ⟨rfl, rfl⟩
  refine .bind (readDirs_undisturbed _) fun files ↦ .ret ?_
  rintro _ ⟨rfl, rfl⟩
  exact ⟨rfl, rfl⟩

theorem stagedFiles_undisturbed :
    Triple undisturbed (· = d) stagedFiles (fun l d' ↦ d' = d ∧ l = stagedIn d.tmp) E C :=
  levels_undisturbed _

theorem outputFiles_undisturbed :
    Triple undisturbed (· = d) outputFiles (fun l d' ↦ d' = d ∧ l = outputIn d.series) E C :=
  levels_undisturbed _

end Listings

private theorem length_of_mem_partitions {paths : List Path} (h : ∀ p ∈ paths, p.length = 3)
    {hour : Path} (hh : hour ∈ partitions paths) : hour.length = 2 := by
  rw [partitions, List.mem_insertionSort, List.mem_dedup] at hh
  obtain ⟨p, hp, rfl⟩ := List.mem_map.1 hh
  rw [List.length_dropLast, h p hp]

/-! ## What a call does -/

/-- Work done on the trees. Nothing changes below a partition but files. -/
structure Works (w : ℕ) (d d' : Trees β) : Prop extends Files.Moves w d.files d'.files where
  level : ∀ p, p.length = 3 → (p ∈ d'.series.dirs ↔ p ∈ d.series.dirs)

section Works

variable {w : ℕ} {d d' d'' : Trees β} {p : Path}

theorem Works.refl : Works w d d := ⟨.refl, fun _ _ ↦ Iff.rfl⟩

theorem Works.trans (h : Works w d d') (h' : Works w d' d'') : Works w d d'' :=
  ⟨h.toMoves.trans h'.toMoves, fun p hp ↦ (h'.level p hp).trans (h.level p hp)⟩

private theorem works_mkdir (hp : p.length ≠ 3) (h : onSeries (DirTree.mkdir p) d = some d') :
    Works w d d' := by
  obtain ⟨t, ht, rfl⟩ := Option.map_eq_some_iff.1 h
  obtain ⟨-, hfiles, hdirs⟩ := DirTree.mkdir_eq_some ht
  refine ⟨?_, fun q hq ↦ (hdirs q).trans ⟨fun hor ↦ hor.resolve_left ?_, .inr⟩⟩
  · simp only [Trees.files, hfiles]
    exact .refl
  · rintro rfl
    exact hp hq

theorem works_rename (hlen : p.length = 3) (hw : committed w p = true)
    (h : rename p d = some d') : Works w d d' := by
  obtain ⟨b, hb, h⟩ := Option.bind_eq_some_iff.1 h
  obtain ⟨series, hseries, h⟩ := Option.bind_eq_some_iff.1 h
  obtain ⟨tmp, htmp, h⟩ := Option.bind_eq_some_iff.1 h
  obtain rfl := Option.some.inj h
  obtain ⟨-, hfiles, hdirs⟩ := DirTree.put_eq_some hseries
  obtain ⟨-, htmp, -⟩ := DirTree.removeFile_eq_some htmp
  refine ⟨?_, fun q _ ↦ by simp only [hdirs]⟩
  simp only [Trees.files, hfiles, htmp]
  exact Files.moves_promote (F := d.files) hb hlen hw

theorem works_discard (hp : p.length = 1 ∨ p.length = 3 ∧ ¬ committed w p = true)
    (h : onTmp (DirTree.removeFile p) d = some d') : Works w d d' := by
  obtain ⟨t, ht, rfl⟩ := Option.map_eq_some_iff.1 h
  obtain ⟨-, hfiles, -⟩ := DirTree.removeFile_eq_some ht
  refine ⟨?_, fun _ _ ↦ Iff.rfl⟩
  simp only [Trees.files, hfiles]
  exact Files.moves_discard (F := d.files) hp

private theorem works_removeDir_tmp (h : onTmp (DirTree.removeDir p) d = some d') :
    Works w d d' := by
  obtain ⟨t, ht, rfl⟩ := Option.map_eq_some_iff.1 h
  obtain ⟨hfiles, -⟩ := DirTree.removeDir_eq_some ht
  refine ⟨?_, fun _ _ ↦ Iff.rfl⟩
  simp only [Trees.files, hfiles]
  exact .refl

theorem works_orphan (hlen : p.length = 3) (hw : orphaned w p = true)
    (h : onSeries (DirTree.removeFile p) d = some d') : Works w d d' := by
  obtain ⟨t, ht, rfl⟩ := Option.map_eq_some_iff.1 h
  obtain ⟨-, hfiles, hdirs⟩ := DirTree.removeFile_eq_some ht
  refine ⟨?_, fun q _ ↦ by simp only [hdirs]⟩
  simp only [Trees.files, hfiles]
  exact Files.moves_orphan (F := d.files) hlen hw

private theorem works_removeDir_series (hp : p.length ≠ 3)
    (h : onSeries (DirTree.removeDir p) d = some d') : Works w d d' := by
  obtain ⟨t, ht, rfl⟩ := Option.map_eq_some_iff.1 h
  obtain ⟨hfiles, hdirs⟩ := DirTree.removeDir_eq_some ht
  refine ⟨?_, fun q hq ↦ (hdirs q).trans ⟨And.right, fun h ↦ ⟨?_, h⟩⟩⟩
  · simp only [Trees.files, hfiles]
    exact .refl
  · rintro rfl
    exact hp hq

end Works

/-! ## Runs that may be stopped -/

section Keeps

variable {o : Oracle SweepOp} {w : ℕ} {s : Trees β} {E : Error → Trees β → Prop}

theorem call_works {label : SweepOp} {act : Trees β → Option (Trees β)}
    (h : ∀ d d', act d = some d' → Works w d d') : Keeps o (Works w s) (call label act) :=
  call_keeps fun d d' hd hact ↦ hd.trans (h d d' hact)

theorem sync_works {label : SweepOp} : Keeps o (Works w s) (call label some) :=
  call_works fun _ _ h ↦ Option.some.inj h ▸ .refl

theorem settle_works {x : Path × Option (ℕ × ℕ × UInt32)} (hlen : x.1.length = 3)
    (hx : x.2 = outputRange x.1) : Keeps o (Works w s) (settle w x) := by
  rw [settle, hx]
  split
  · next hw =>
    refine .bind (.forM_of_mem fun q hq ↦ call_works fun _ _ ↦ works_mkdir ?_) fun _ ↦
      .bind (call_works fun _ _ ↦ works_rename hlen hw) fun _ ↦
      .bind sync_works fun _ ↦ .bind sync_works fun _ ↦ sync_works
    have hle := ((List.mem_inits _ _).1 hq).length_le
    rw [List.length_dropLast] at hle
    omega
  · next hw => exact call_works fun _ _ ↦ works_discard (.inr ⟨hlen, hw⟩)

theorem not_le_iff_orphaned {x : Path × (ℕ × ℕ × UInt32)} (hx : outputRange x.1 = some x.2) :
    ¬ x.2.2.1 ≤ w ↔ orphaned w x.1 = true := by
  simp [orphaned, hx]

theorem removeOrphan_works {x : Path × (ℕ × ℕ × UInt32)} (hlen : x.1.length = 3)
    (hx : outputRange x.1 = some x.2) {removed : List Path} (hr : ∀ p ∈ removed, p.length = 3) :
    Triple o (Works w s) (removeOrphan w removed x)
      (fun out d ↦ Works w s d ∧ ∀ p ∈ out, p.length = 3) E (Works w s) := by
  rw [removeOrphan]
  split
  · exact .ret fun d hd ↦ ⟨hd, hr⟩
  · next hw =>
    rw [not_le_iff_orphaned hx] at hw
    refine .attempt_bind (call_works fun _ _ ↦ works_orphan hlen hw)
      (fun _ ↦ .ret fun d hd ↦ ⟨hd, ?_⟩) fun _ ↦ .ret fun d hd ↦ ⟨hd, hr⟩
    intro p hp
    rcases List.mem_append.1 hp with hp | hp
    · exact hr p hp
    · exact List.mem_singleton.1 hp ▸ hlen

theorem removeOrphans_works {out : List (Path × (ℕ × ℕ × UInt32))}
    (h : ∀ x ∈ out, x.1.length = 3 ∧ outputRange x.1 = some x.2) :
    Triple o (Works w s) (out.foldlM (removeOrphan w) [])
      (fun removed d ↦ Works w s d ∧ ∀ p ∈ removed, p.length = 3) E (Works w s) := by
  -- the invariant: what has been removed were files of partitions
  refine ((Triple.foldlM (I := fun l removed d ↦ (∀ x ∈ l, x ∈ out) ∧ Works w s d ∧
    ∀ p ∈ removed, p.length = 3) (fun x l removed ↦ .intro ?_) out []).pre ?_).post
      fun removed d hd ↦ hd.2
  · rintro d ⟨hl, hd, hr⟩
    have hx := h x (hl x List.mem_cons_self)
    exact ((removeOrphan_works hx.1 hx.2 hr).pre fun d' hd' ↦ hd' ▸ hd).post fun _ d' hd' ↦
      ⟨fun y hy ↦ hl y (List.mem_cons_of_mem _ hy), hd'⟩
  · exact fun d hd ↦ ⟨fun _ ↦ id, hd, by simp⟩

theorem removeDirs_works {hours : List Path} :
    Triple o (Works w s)
      (hours.forM fun hour ↦ do
        ignore (call .tmpRemoveDir (onTmp (DirTree.removeDir hour)))
        ignore (call .tmpRemoveDir (onTmp (DirTree.removeDir hour.dropLast))))
      (fun _ ↦ Works w s) E (Works w s) :=
  .forM (I := fun _ ↦ Works w s) (fun _ _ ↦
    .bind (ignore_keeps (call_works fun _ _ ↦ works_removeDir_tmp)) fun _ ↦
      ignore_keeps (call_works fun _ _ ↦ works_removeDir_tmp)) hours

theorem removePartitions_works {removed : List Path} (h : ∀ p ∈ removed, p.length = 3) :
    Triple o (Works w s)
      ((partitions removed).forM fun hour ↦
        ignore (call .seriesRemoveDir (onSeries (DirTree.removeDir hour))))
      (fun _ ↦ Works w s) E (Works w s) := by
  have hlen : ∀ hour ∈ partitions removed, hour.length = 2 := fun hour ↦ length_of_mem_partitions h
  generalize partitions removed = hours at hlen
  induction hours with
  | nil => exact .ret fun _ ↦ id
  | cons hour hours ih =>
    refine .bind (ignore_keeps (call_works fun _ _ ↦ works_removeDir_series ?_)) fun _ ↦
      ih fun hour' hh ↦ hlen hour' (List.mem_cons_of_mem _ hh)
    rw [hlen hour List.mem_cons_self]
    decide

/-- **However the sweep ends, it has done nothing but work.** -/
theorem sweepUncommitted_works : Keeps o (Works w s) (sweepUncommitted w) := by
  have hstop : ∀ {d : Trees β}, Works w s d → ∀ d', d' = d → Works w s d' := fun hd _ heq ↦ heq ▸ hd
  refine Triple.bind (ignore_keeps sync_works) fun _ ↦ .intro fun d₁ hd₁ ↦
    .bind (stagedFiles_triple.exits (fun _ _ ↦ id) (hstop hd₁)) fun staged ↦ .intro ?_
  rintro _ ⟨rfl, hstaged⟩
  have hmem : ∀ x ∈ staged, x.1.length = 3 ∧ x.2 = outputRange x.1 := fun x hx ↦
    (mem_stagedIn.1 (hstaged hx)).2
  refine .bind (Triple.pre (Keeps.forM_of_mem fun x hx ↦ settle_works (hmem x hx).1 (hmem x hx).2)
    (hstop hd₁)) fun _ ↦ .bind removeDirs_works fun _ ↦ .intro fun d₂ hd₂ ↦
      .bind ((readDir_triple _).exits (fun _ _ ↦ id) (hstop hd₂)) fun flat ↦ .intro ?_
  rintro _ ⟨rfl, hflat⟩
  have hmem : ∀ p ∈ flat, p.length = 1 := fun p hp ↦ (mem_flatIn.1 (hflat hp)).2
  refine .bind (Triple.pre (Keeps.forM_of_mem fun p hp ↦ ignore_keeps
    (call_works fun _ _ ↦ works_discard (.inl (hmem p hp)))) (hstop hd₂)) fun _ ↦
    .intro fun d₃ hd₃ ↦ .bind (outputFiles_triple.exits (fun _ _ ↦ id) (hstop hd₃)) fun out ↦
      .intro ?_
  rintro _ ⟨rfl, hout⟩
  have hmem : ∀ x ∈ out, x.1.length = 3 ∧ outputRange x.1 = some x.2 := fun x hx ↦
    (mem_outputIn.1 (hout hx)).2
  exact .bind ((removeOrphans_works hmem).pre (hstop hd₃)) fun removed ↦ .intro fun d₄ hd₄ ↦
    (removePartitions_works hd₄.2).pre (hstop hd₄.1)

end Keeps

/-! ## Undisturbed runs -/

/-- What is in the way of a staged file: a file where its directory is to be, or a directory where
the file is to be. -/
def Blocked (d : Trees β) (p : Path) : Prop :=
  p.dropLast.dropLast ∈ d.series.files ∨ p.dropLast ∈ d.series.files ∨ p ∈ d.series.dirs

/-- Something is in the way of a committed staged file, so that the file system refuses a call. -/
def Obstructed (w : ℕ) (d : Trees β) : Prop :=
  ∃ p ∈ d.tmp.files, p.length = 3 ∧ committed w p = true ∧ Blocked d p

section Undisturbed

variable {w : ℕ} {d d' d₀ : Trees β} {p : Path} {E : Error → Trees β → Prop} {C : Trees β → Prop}

theorem Works.blocked_iff (h : Works w d d') (hp : p.length = 3) : Blocked d' p ↔ Blocked d p :=
  or_congr (h.mem_series (by simp [hp])) (or_congr (h.mem_series (by simp [hp])) (h.level p hp))

theorem Works.obstructed (h : Works w d d') (hd' : Obstructed w d') : Obstructed w d := by
  obtain ⟨p, hp, hlen, hw, hb⟩ := hd'
  exact ⟨p, h.staged p hp, hlen, hw, (h.blocked_iff hlen).1 hb⟩

theorem mkdir_undisturbed (hparent : p = [] ∨ p.dropLast ∈ d.series.dirs) :
    Triple undisturbed (· = d) (call .seriesMkdir (onSeries (DirTree.mkdir p)))
      (fun _ d' ↦ d'.tmp = d.tmp ∧ d'.series.files = d.series.files ∧
        ∀ q, q ∈ d'.series.dirs ↔ q = p ∨ q ∈ d.series.dirs)
      (fun _ _ ↦ p ∈ d.series.files) C := by
  refine call_undisturbed ?_ ?_
  · rintro _ d' rfl h
    obtain ⟨t, ht, rfl⟩ := Option.map_eq_some_iff.1 h
    exact ⟨rfl, (DirTree.mkdir_eq_some ht).2⟩
  · rintro _ rfl h
    by_contra hfile
    have hsome := DirTree.mkdir_isSome hfile hparent
    rw [Option.map_eq_none_iff.1 h] at hsome
    cases hsome

theorem createDirAll_undisturbed {s h : String} :
    Triple undisturbed (· = d) (createDirAll [s, h])
      (fun _ d' ↦ d'.tmp = d.tmp ∧ d'.series.files = d.series.files ∧
        [s] ∈ d'.series.dirs ∧ [s, h] ∈ d'.series.dirs ∧
        ∀ q, q.length = 3 → (q ∈ d'.series.dirs ↔ q ∈ d.series.dirs))
      (fun _ _ ↦ [s] ∈ d.series.files ∨ [s, h] ∈ d.series.files) C := by
  refine .bind ((mkdir_undisturbed (p := []) (.inl rfl)).exits
    (fun _ _ h ↦ absurd rfl (d.series.file_ne_nil _ h)) fun _ ↦ id) fun _ ↦ .intro ?_
  rintro d₁ ⟨htmp₁, hfiles₁, hdirs₁⟩
  refine .bind ((mkdir_undisturbed (p := [s]) (.inr ((hdirs₁ _).2 (.inl rfl)))).exits
    (fun _ _ h ↦ .inl (hfiles₁ ▸ h)) fun _ ↦ id) fun _ ↦ .intro ?_
  rintro d₂ ⟨htmp₂, hfiles₂, hdirs₂⟩
  refine .bind ((mkdir_undisturbed (p := [s, h]) (.inr ((hdirs₂ _).2 (.inl rfl)))).exits
    (fun _ _ h ↦ .inr (hfiles₁ ▸ hfiles₂ ▸ h)) fun _ ↦ id) fun _ ↦ .ret ?_
  rintro d₃ ⟨htmp₃, hfiles₃, hdirs₃⟩
  refine ⟨by rw [htmp₃, htmp₂, htmp₁], by rw [hfiles₃, hfiles₂, hfiles₁], ?_, ?_, fun q hq ↦ ?_⟩
  · exact (hdirs₃ _).2 (.inr ((hdirs₂ _).2 (.inl rfl)))
  · exact (hdirs₃ _).2 (.inl rfl)
  · have hne : ∀ r : Path, r.length ≠ 3 → q ≠ r := by
      rintro r hr rfl
      exact hr hq
    rw [hdirs₃, hdirs₂, hdirs₁]
    simp [hne]

private theorem rename_eq_none (hp : p ∈ d.tmp.files) (hdir : p.dropLast ∈ d.series.dirs)
    (h : rename p d = none) : p ∈ d.series.dirs := by
  by_contra hnot
  obtain ⟨b, hb⟩ : ∃ b, d.tmp.files[p]? = some b :=
    Option.isSome_iff_exists.1 (Std.ExtTreeMap.isSome_getElem?_iff_mem.2 hp)
  obtain ⟨series, hseries⟩ := Option.isSome_iff_exists.1
    (DirTree.put_isSome (b := b) (d.tmp.file_ne_nil p hp) hdir hnot)
  obtain ⟨tmp, htmp⟩ := Option.isSome_iff_exists.1 (DirTree.removeFile_isSome hp)
  simp [rename, hb, hseries, htmp] at h

private theorem mem_tmp_of_rename (h : rename p d = some d') (q : Path) :
    q ∈ d'.tmp.files ↔ q ≠ p ∧ q ∈ d.tmp.files := by
  obtain ⟨b, -, h⟩ := Option.bind_eq_some_iff.1 h
  obtain ⟨series, -, h⟩ := Option.bind_eq_some_iff.1 h
  obtain ⟨tmp, htmp, h⟩ := Option.bind_eq_some_iff.1 h
  obtain rfl := Option.some.inj h
  rw [(DirTree.removeFile_eq_some htmp).2.1]
  exact mem_erase_iff

theorem sync_undisturbed {label : SweepOp} {P : Trees β → Prop} :
    Triple undisturbed P (call label some) (fun _ ↦ P) E C :=
  call_undisturbed (fun _ _ hd h ↦ Option.some.inj h ▸ hd) fun _ _ h ↦ by cases h

theorem promote_undisturbed (hp : p ∈ d.tmp.files) (hlen : p.length = 3)
    (hw : committed w p = true) :
    Triple undisturbed (· = d) (promote p)
      (fun _ d' ↦ Works w d d' ∧ (∀ q, q ∈ d'.tmp.files ↔ q ≠ p ∧ q ∈ d.tmp.files) ∧ ¬ Blocked d p)
      (fun _ _ ↦ Blocked d p) C := by
  obtain ⟨s, h, f, rfl⟩ := List.length_eq_three.1 hlen
  refine .bind (createDirAll_undisturbed.exits (fun _ _ hfile ↦ hfile.imp id .inl) fun _ ↦ id)
    fun _ ↦ .intro ?_
  rintro d₁ ⟨htmp, hfiles, hs, hh, hlevel⟩
  have hworks : Works w d d₁ := ⟨by
    simp only [Trees.files, htmp, hfiles]
    exact .refl, hlevel⟩
  refine .bind (call_undisturbed ?_ ?_) fun _ ↦ .bind sync_undisturbed fun _ ↦
    .bind sync_undisturbed fun _ ↦ sync_undisturbed
  · rintro d₁ d' rfl hrename
    refine ⟨hworks.trans (works_rename hlen hw hrename), fun q ↦ ?_, ?_⟩
    · rw [mem_tmp_of_rename hrename, htmp]
    · rintro (hfile | hfile | hdir)
      · exact d₁.series.disjoint _ (hfiles ▸ hfile) hs
      · exact d₁.series.disjoint _ (hfiles ▸ hfile) hh
      · obtain ⟨b, -, hrest⟩ := Option.bind_eq_some_iff.1 hrename
        obtain ⟨series, hseries, -⟩ := Option.bind_eq_some_iff.1 hrest
        exact (DirTree.put_eq_some hseries).1.2.2 ((hlevel _ hlen).2 hdir)
  · rintro _ rfl hrename
    exact .inr (.inr ((hlevel _ hlen).1 (rename_eq_none (htmp ▸ hp) hh hrename)))

theorem settle_undisturbed {x : Path × Option (ℕ × ℕ × UInt32)} (hp : x.1 ∈ d.tmp.files)
    (hlen : x.1.length = 3) (hx : x.2 = outputRange x.1) :
    Triple undisturbed (· = d) (settle w x)
      (fun _ d' ↦ Works w d d' ∧ (∀ q, q ∈ d'.tmp.files ↔ q ≠ x.1 ∧ q ∈ d.tmp.files) ∧
        ¬ (committed w x.1 = true ∧ Blocked d x.1))
      (fun _ _ ↦ committed w x.1 = true ∧ Blocked d x.1) C := by
  rw [settle, hx]
  split
  · next hw =>
    exact (promote_undisturbed hp hlen hw).conseq (fun _ ↦ id)
      (fun _ d' hd' ↦ ⟨hd'.1, hd'.2.1, fun h ↦ hd'.2.2 h.2⟩) (fun _ _ hb ↦ ⟨hw, hb⟩) fun _ ↦ id
  · next hw =>
    refine call_undisturbed ?_ ?_
    · rintro _ d' rfl h
      refine ⟨works_discard (.inr ⟨hlen, hw⟩) h, fun q ↦ ?_, fun hb ↦ hw hb.1⟩
      obtain ⟨t, ht, rfl⟩ := Option.map_eq_some_iff.1 h
      rw [(DirTree.removeFile_eq_some ht).2.1]
      exact mem_erase_iff
    · rintro _ rfl h
      have hsome := DirTree.removeFile_isSome hp
      rw [Option.map_eq_none_iff.1 h] at hsome
      cases hsome

/-- The staged files still to be settled. -/
structure Remaining (w : ℕ) (d₀ : Trees β) (l : List (Path × Option (ℕ × ℕ × UInt32)))
    (d : Trees β) : Prop where
  works : Works w d₀ d
  nodup : (l.map Prod.fst).Nodup
  range : ∀ x ∈ l, x.2 = outputRange x.1
  mem_iff : ∀ p, p ∈ l.map Prod.fst ↔ p ∈ d.tmp.files ∧ p.length = 3
  passed : ∀ p ∈ d₀.tmp.files, p.length = 3 → committed w p = true → Blocked d₀ p →
    p ∈ l.map Prod.fst

theorem Remaining.start : Remaining w d (stagedIn d.tmp) d := by
  have hmem : ∀ p, p ∈ (stagedIn d.tmp).map Prod.fst ↔ p ∈ d.tmp.files ∧ p.length = 3 := by
    intro p
    rw [List.mem_map]
    constructor
    · rintro ⟨x, hx, rfl⟩
      exact ⟨(mem_stagedIn.1 hx).1, (mem_stagedIn.1 hx).2.1⟩
    · exact fun h ↦ ⟨(p, outputRange p), mem_stagedIn.2 ⟨h.1, h.2, rfl⟩, rfl⟩
  exact ⟨.refl, nodup_stagedIn _, fun x hx ↦ (mem_stagedIn.1 hx).2.2, hmem,
    fun p hp hlen _ _ ↦ (hmem p).2 ⟨hp, hlen⟩⟩

private theorem settle_remaining {x : Path × Option (ℕ × ℕ × UInt32)}
    {l : List (Path × Option (ℕ × ℕ × UInt32))} :
    Triple undisturbed (Remaining w d₀ (x :: l)) (settle w x) (fun _ ↦ Remaining w d₀ l)
      (fun _ _ ↦ Obstructed w d₀) C := by
  refine .intro fun d hd ↦ ?_
  obtain ⟨hp, hlen⟩ := (hd.mem_iff x.1).1 List.mem_cons_self
  have hblocked := hd.works.blocked_iff hlen
  refine (settle_undisturbed hp hlen (hd.range x List.mem_cons_self)).conseq (fun _ ↦ id) ?_
    (fun _ _ hb ↦ ⟨x.1, hd.works.staged _ hp, hlen, hb.1, hblocked.1 hb.2⟩) fun _ ↦ id
  rintro _ d' ⟨hworks, hmem, hnot⟩
  have hnodup := List.nodup_cons.1 hd.nodup
  refine ⟨hd.works.trans hworks, hnodup.2, fun y hy ↦ hd.range y (List.mem_cons_of_mem _ hy),
    fun p ↦ ?_, fun p hp₀ hlen₀ hw hb ↦ ?_⟩
  · rw [hmem p, and_assoc, ← hd.mem_iff p, List.map_cons, List.mem_cons]
    constructor
    · intro hpl
      exact ⟨fun heq ↦ hnodup.1 (heq ▸ hpl), .inr hpl⟩
    · exact fun h ↦ h.2.resolve_left h.1
  · refine (List.mem_cons.1 (hd.passed p hp₀ hlen₀ hw hb)).resolve_left fun heq ↦ ?_
    exact hnot ⟨heq ▸ hw, hblocked.2 (heq ▸ hb)⟩

/-- **The staged files** are settled, or something was in the way. -/
theorem settleAll_undisturbed {l : List (Path × Option (ℕ × ℕ × UInt32))}
    (hl : l = stagedIn d.tmp) :
    Triple undisturbed (· = d) (l.forM (settle w))
      (fun _ d' ↦ Works w d d' ∧ (∀ p ∈ d'.tmp.files, p.length ≠ 3) ∧ ¬ Obstructed w d)
      (fun _ _ ↦ Obstructed w d) C := by
  refine ((Triple.forM (I := Remaining w d) (fun x l ↦ settle_remaining) _).pre
    fun _ hd ↦ hl ▸ hd ▸ .start).post fun _ d' hd' ↦ ⟨hd'.works, fun p hp hlen ↦ ?_, ?_⟩
  · exact absurd ((hd'.mem_iff p).2 ⟨hp, hlen⟩) List.not_mem_nil
  · rintro ⟨p, hp, hlen, hw, hb⟩
    exact absurd (hd'.passed p hp hlen hw hb) List.not_mem_nil

theorem removeFlat_undisturbed {flat : List Path} (hl : flat = flatIn d.tmp) :
    Triple undisturbed (· = d)
      (flat.forM fun p ↦ ignore (call .tmpRemove (onTmp (DirTree.removeFile p))))
      (fun _ d' ↦ Works w d d' ∧ ∀ p ∈ d'.tmp.files, p.length ≠ 1) E C := by
  -- the invariant: the flat files there are, are still to come
  refine ((Triple.forM (I := fun l d' ↦ (∀ p ∈ l, p.length = 1) ∧ Works w d d' ∧
    ∀ p ∈ d'.tmp.files, p.length = 1 → p ∈ l) (fun p l ↦ ignore_undisturbed ?_ ?_) _).pre
      ?_).post fun _ d' hd' ↦ ⟨hd'.2.1, fun p hp hlen ↦ absurd (hd'.2.2 p hp hlen) List.not_mem_nil⟩
  · rintro d₁ d₂ ⟨hlen, hd₁, hall⟩ h
    refine ⟨fun q hq ↦ hlen q (List.mem_cons_of_mem _ hq),
      hd₁.trans (works_discard (.inl (hlen p List.mem_cons_self)) h), fun q hq hlq ↦ ?_⟩
    obtain ⟨t, ht, rfl⟩ := Option.map_eq_some_iff.1 h
    rw [(DirTree.removeFile_eq_some ht).2.1] at hq
    obtain ⟨hne, hq⟩ := mem_erase_iff.1 hq
    exact (List.mem_cons.1 (hall q hq hlq)).resolve_left hne
  · rintro d₁ ⟨hlen, hd₁, hall⟩ h
    refine ⟨fun q hq ↦ hlen q (List.mem_cons_of_mem _ hq), hd₁, fun q hq hlq ↦ ?_⟩
    refine (List.mem_cons.1 (hall q hq hlq)).resolve_left ?_
    rintro rfl
    have hsome := DirTree.removeFile_isSome hq
    rw [Option.map_eq_none_iff.1 h] at hsome
    cases hsome
  · rintro _ rfl
    subst hl
    exact ⟨fun p hp ↦ (mem_flatIn.1 hp).2, .refl, fun p hp hlen ↦ mem_flatIn.2 ⟨hp, hlen⟩⟩

/-- The orphans still in `series/`. -/
structure Orphans (w : ℕ) (d₀ : Trees β) (l : List (Path × (ℕ × ℕ × UInt32))) (removed : List Path)
    (d : Trees β) : Prop where
  works : Works w d₀ d
  range : ∀ x ∈ l, x.1.length = 3 ∧ outputRange x.1 = some x.2
  removed : ∀ p ∈ removed, p.length = 3
  left : ∀ p ∈ d.series.files, p.length = 3 → orphaned w p = true → p ∈ l.map Prod.fst

theorem removeOrphan_undisturbed {x : Path × (ℕ × ℕ × UInt32)} {l : List (Path × (ℕ × ℕ × UInt32))}
    {removed : List Path} :
    Triple undisturbed (Orphans w d₀ (x :: l) removed) (removeOrphan w removed x)
      (Orphans w d₀ l) E C := by
  refine .intro fun d hd ↦ ?_
  obtain ⟨hlen, hx⟩ := hd.range x List.mem_cons_self
  have hrange : ∀ y ∈ l, y.1.length = 3 ∧ outputRange y.1 = some y.2 :=
    fun y hy ↦ hd.range y (List.mem_cons_of_mem _ hy)
  -- the orphans there are now are still to come, if this one is not among them
  have hleft : ∀ d' : Trees β, (∀ p ∈ d'.series.files, p ∈ d.series.files) →
      (orphaned w x.1 = true → x.1 ∉ d'.series.files) →
      ∀ p ∈ d'.series.files, p.length = 3 → orphaned w p = true → p ∈ l.map Prod.fst := by
    intro d' hsub hgone p hp hlp ho
    refine (List.mem_cons.1 (hd.left p (hsub p hp) hlp ho)).resolve_left fun heq ↦ ?_
    exact hgone (heq ▸ ho) (heq ▸ hp)
  rw [removeOrphan]
  split
  · next hle =>
    refine .ret ?_
    rintro _ rfl
    exact ⟨hd.works, hrange, hd.removed,
      hleft _ (fun _ ↦ id) fun ho ↦ absurd hle ((not_le_iff_orphaned hx).2 ho)⟩
  · next hle =>
    have ho := (not_le_iff_orphaned hx).1 hle
    refine .attempt_bind (Q := fun _ ↦ Orphans w d₀ l (removed ++ [x.1]))
      (E := fun _ ↦ Orphans w d₀ l removed) (call_undisturbed ?_ ?_) (fun _ ↦ .ret fun _ ↦ id)
      fun _ ↦ .ret fun _ ↦ id
    · rintro _ d' rfl h
      refine ⟨hd.works.trans (works_orphan hlen ho h), hrange, fun p hp ↦ ?_, ?_⟩
      · rcases List.mem_append.1 hp with hp | hp
        · exact hd.removed p hp
        · exact List.mem_singleton.1 hp ▸ hlen
      · obtain ⟨t, ht, rfl⟩ := Option.map_eq_some_iff.1 h
        have hfiles := (DirTree.removeFile_eq_some ht).2.1
        refine hleft _ (fun p hp ↦ ?_) fun _ hp ↦ ?_
        · exact (mem_erase_iff.1 (hfiles ▸ hp)).2
        · exact (mem_erase_iff.1 (hfiles ▸ hp)).1 rfl
    · rintro _ rfl h
      refine ⟨hd.works, hrange, hd.removed, hleft _ (fun _ ↦ id) fun _ hp ↦ ?_⟩
      have hsome := DirTree.removeFile_isSome hp
      rw [Option.map_eq_none_iff.1 h] at hsome
      cases hsome

theorem removeOrphans_undisturbed {out : List (Path × (ℕ × ℕ × UInt32))}
    (hl : out = outputIn d.series) :
    Triple undisturbed (· = d) (out.foldlM (removeOrphan w) [])
      (fun removed d' ↦ Works w d d' ∧ (∀ p ∈ removed, p.length = 3) ∧
        ∀ p ∈ d'.series.files, p.length = 3 → ¬ orphaned w p = true) E C := by
  refine ((Triple.foldlM (I := Orphans w d) (fun x l removed ↦ removeOrphan_undisturbed) _ _).pre
    ?_).post fun removed d' hd' ↦ ⟨hd'.works, hd'.removed, fun p hp hlen ho ↦
      absurd (hd'.left p hp hlen ho) List.not_mem_nil⟩
  rintro _ rfl
  subst hl
  refine ⟨.refl, fun x hx ↦ (mem_outputIn.1 hx).2, by simp, fun p hp hlen ho ↦ ?_⟩
  obtain ⟨r, hr, -⟩ := (Option.any_eq_true ..).1 ho
  exact List.mem_map.2 ⟨(p, r), mem_outputIn.2 ⟨.inl hp, hlen, hr⟩, rfl⟩

theorem removeOrphans_quiet (hd : d.files.Quiet w) {out : List (Path × (ℕ × ℕ × UInt32))}
    (hl : out = outputIn d.series) :
    Triple undisturbed (· = d) (out.foldlM (removeOrphan w) [])
      (fun removed d' ↦ d' = d ∧ removed = []) E C := by
  refine ((Triple.foldlM (I := fun l removed d' ↦ (∀ x ∈ l, x ∈ outputIn d.series) ∧ d' = d ∧
    removed = []) (fun x l removed ↦ .intro ?_) _ _).pre ?_).post fun removed d' hd' ↦ hd'.2
  · rintro d' ⟨hl, rfl, rfl⟩
    have hl' := fun y hy ↦ hl y (List.mem_cons_of_mem _ hy)
    obtain ⟨-, hlen, hx⟩ := mem_outputIn.1 (hl x List.mem_cons_self)
    rw [removeOrphan]
    split
    · exact .ret fun _ h ↦ ⟨hl', h, rfl⟩
    · next hle =>
      have hnot : x.1 ∉ d'.series.files := fun hp ↦
        hd.orphans _ hp hlen ((not_le_iff_orphaned hx).1 hle)
      refine .attempt_bind (Q := fun _ _ ↦ False) (E := fun _ ↦ (· = d')) (call_undisturbed ?_ ?_)
        (fun _ ↦ .ret fun _ ↦ False.elim) fun _ ↦ .ret fun _ h ↦ ⟨hl', h, rfl⟩
      · rintro d' d'' rfl h
        rw [onSeries, DirTree.removeFile_eq_none hnot] at h
        cases h
      · exact fun _ h _ ↦ h
  · rintro _ rfl
    exact ⟨fun x hx ↦ hl ▸ hx, rfl, rfl⟩

/-- **A sweep that is not disturbed** leaves nothing to do, or something was in the way. -/
theorem sweepUncommitted_undisturbed :
    Triple undisturbed (· = d) (sweepUncommitted w)
      (fun _ d' ↦ Works w d d' ∧ d'.files.Quiet w ∧ ¬ Obstructed w d)
      (fun _ _ ↦ Obstructed w d) (fun _ ↦ True) := by
  refine .bind (ignore_undisturbed (Q := (· = d)) ?_ ?_) fun _ ↦
    .bind stagedFiles_undisturbed fun staged ↦ .intro ?_
  · rintro _ d' rfl h
    exact (Option.some.inj h).symm
  · exact fun _ hd _ ↦ hd
  rintro d ⟨rfl, hlist⟩
  refine .bind (settleAll_undisturbed hlist) fun _ ↦ .intro ?_
  rintro d₁ ⟨h₁, hstaged, hclear⟩
  refine .bind ((removeDirs_works (w := w) (s := d₁)).conseq (fun _ hd ↦ hd ▸ .refl) (fun _ _ ↦ id)
    (fun _ _ ↦ id) fun _ _ ↦ trivial) fun _ ↦ .intro fun d₂ h₂ ↦
      .bind (readDir_undisturbed _) fun flat ↦ .intro ?_
  rintro _ ⟨rfl, hlist⟩
  refine .bind (removeFlat_undisturbed (w := w) hlist) fun _ ↦ .intro ?_
  rintro d₃ ⟨h₃, hflat⟩
  refine .bind outputFiles_undisturbed fun out ↦ .intro ?_
  rintro _ ⟨rfl, hlist⟩
  refine .bind (removeOrphans_undisturbed hlist) fun removed ↦ .intro ?_
  rintro d₄ ⟨h₄, hlen, horphans⟩
  refine (removePartitions_works (w := w) (s := d₄) hlen).conseq (fun _ hd ↦ hd ▸ .refl) ?_
    (fun _ _ ↦ id) fun _ _ ↦ trivial
  intro _ d₅ h₅
  refine ⟨h₁.trans (h₂.trans (h₃.trans (h₄.trans h₅))), ⟨?_, ?_, ?_⟩, hclear⟩
  · exact fun p hp ↦ hflat p ((h₄.trans h₅).staged p hp)
  · exact fun p hp ↦ hstaged p ((h₂.trans (h₃.trans (h₄.trans h₅))).staged p hp)
  · exact fun p hp hlen ho ↦ horphans p (h₅.orphans p hp ho) hlen ho

theorem sweepUncommitted_quiet (hd : d.files.Quiet w) :
    Triple undisturbed (· = d) (sweepUncommitted w) (fun _ ↦ (· = d)) (fun _ _ ↦ False)
      (fun _ ↦ True) := by
  refine .bind (ignore_undisturbed (Q := (· = d)) ?_ ?_) fun _ ↦
    .bind stagedFiles_undisturbed fun staged ↦ .intro ?_
  · rintro _ d' rfl h
    exact (Option.some.inj h).symm
  · exact fun _ hd _ ↦ hd
  rintro d ⟨rfl, hstaged⟩
  obtain rfl : staged = [] := hstaged.trans (List.eq_nil_iff_forall_not_mem.2 fun x hx ↦
    hd.staged _ (mem_stagedIn.1 hx).1 (mem_stagedIn.1 hx).2.1)
  refine .bind (Q := fun _ ↦ (· = d)) (.ret fun _ ↦ id) fun _ ↦
    .bind (Q := fun _ ↦ (· = d)) (.ret fun _ ↦ id) fun _ ↦
      .bind (readDir_undisturbed _) fun flat ↦ .intro ?_
  rintro d ⟨rfl, hflat⟩
  obtain rfl : flat = [] := hflat.trans (List.eq_nil_iff_forall_not_mem.2 fun p hp ↦
    hd.flat _ (mem_flatIn.1 hp).1 (mem_flatIn.1 hp).2)
  refine .bind (Q := fun _ ↦ (· = d)) (.ret fun _ ↦ id) fun _ ↦
    .bind outputFiles_undisturbed fun out ↦ .intro ?_
  rintro d ⟨rfl, hlist⟩
  refine .bind (removeOrphans_quiet hd hlist) fun removed ↦ .intro ?_
  rintro d ⟨rfl, rfl⟩
  exact .ret fun _ ↦ id

end Undisturbed

/-! ## Interruptions -/

/-- How a sweep ends, and what it leaves. -/
def ends (w : ℕ) (o : Oracle SweepOp) (d : Trees β) : Outcome Error Unit × Trees β :=
  let r := sweepUncommitted w o ⟨d, 0⟩
  (r.1, r.2.disk)

/-- What sweeps leave that are started one after another, each going as its oracle says. -/
def restarts (w : ℕ) (os : List (Oracle SweepOp)) (d : Trees β) : Trees β :=
  os.foldl (fun d o ↦ (ends w o d).2) d

/-- Trees with the same files, and with the same directories but for some that hold no file. -/
def SameFiles (t t' : DirTree β) : Prop :=
  t.files = t'.files ∧
    ∀ dir, (dir ∈ t.dirs ↔ dir ∈ t'.dirs) ∨ ∀ p, p ≠ [] → dir ++ p ∉ t.files ∧ dir ++ p ∉ t'.files

section Ends

variable {w : ℕ} {d d' : Trees β}

private theorem sameFiles_of_eq {t t' : DirTree β} (h : t.files = t'.files) : SameFiles t t' := by
  refine ⟨h, fun dir ↦ ?_⟩
  by_cases hdir : dir ∈ t.dirs ∧ dir ∈ t'.dirs
  · exact .inl ⟨fun _ ↦ hdir.2, fun _ ↦ hdir.1⟩
  · refine .inr fun p hp ↦ ?_
    have hnot : dir ++ p ∉ t.files := by
      rcases not_and_or.1 hdir with hdir | hdir
      · exact DirTree.no_file_below rfl hdir hp
      · exact DirTree.no_file_below h hdir hp
    exact ⟨hnot, h ▸ hnot⟩

theorem ends_works (o : Oracle SweepOp) : Works w d (ends w o d).2 := by
  have hmeets := (sweepUncommitted_works (w := w) (s := d) (o := o)) ⟨d, 0⟩ .refl
  rw [ends]
  generalize sweepUncommitted w o ⟨d, 0⟩ = r at hmeets
  rcases r with ⟨_ | _ | _, world⟩
  · exact hmeets
  · exact hmeets
  · exact hmeets.2

theorem restarts_works (os : List (Oracle SweepOp)) : Works w d (restarts w os d) := by
  induction os generalizing d with
  | nil => exact .refl
  | cons o os ih => exact (ends_works o).trans ih

/-- A sweep that nothing is in the way of returns, and leaves nothing to do. -/
theorem ends_of_clear (h : ¬ Obstructed w d) :
    (ends w undisturbed d).1 = .ok () ∧ (ends w undisturbed d).2.files.Quiet w := by
  obtain ⟨a, world, hrun, -, hquiet, -⟩ :=
    (sweepUncommitted_undisturbed (w := w) (d := d)).returns (fun _ _ ↦ h)
      not_crashes_undisturbed (w := ⟨d, 0⟩) rfl
  rw [ends, hrun]
  exact ⟨rfl, hquiet⟩

/-- If it returns, nothing was in the way. -/
theorem clear_of_ok (h : (ends w undisturbed d).1 = .ok ()) : ¬ Obstructed w d := by
  have hrun : sweepUncommitted w undisturbed ⟨d, 0⟩ =
      (.ok (), (sweepUncommitted w undisturbed ⟨d, 0⟩).2) := Prod.ext h rfl
  exact ((sweepUncommitted_undisturbed (w := w) (d := d)).of_ok rfl hrun).2.2

theorem ends_quiet (h : d.files.Quiet w) : ends w undisturbed d = (.ok (), d) := by
  obtain ⟨a, world, hrun, hd⟩ :=
    (sweepUncommitted_quiet h).returns (fun _ _ ↦ id) not_crashes_undisturbed (w := ⟨d, 0⟩) rfl
  rw [ends, hrun]
  exact Prod.ext rfl hd

/-- **The sweep settles and converges.** If the sweep, undisturbed, meets no error, it leaves what
it is to leave, and running it again changes nothing. Sweeps that are stopped or fail anywhere, any
number of them, do not change what the next undisturbed one leaves: the same files with the same
contents, and the same directories but for some that hold no file. -/
theorem sweep_settles (w : ℕ) (d : Trees β) (h : (ends w undisturbed d).1 = .ok ()) :
    Files.Settles w d.files (ends w undisturbed d).2.files ∧
      ends w undisturbed (ends w undisturbed d).2 = (.ok (), (ends w undisturbed d).2) ∧
      ∀ os : List (Oracle SweepOp),
        (ends w undisturbed (restarts w os d)).1 = .ok () ∧
        SameFiles (ends w undisturbed (restarts w os d)).2.tmp (ends w undisturbed d).2.tmp ∧
        SameFiles (ends w undisturbed (restarts w os d)).2.series
          (ends w undisturbed d).2.series := by
  have hclear := clear_of_ok h
  obtain ⟨-, hquiet⟩ := ends_of_clear hclear
  have hmoves := (ends_works (w := w) (d := d) undisturbed).toMoves
  refine ⟨hmoves.settles hquiet, ends_quiet hquiet, fun os ↦ ?_⟩
  have hrestarts := restarts_works (w := w) (d := d) os
  obtain ⟨hok, hquiet'⟩ := ends_of_clear (mt hrestarts.obstructed hclear)
  have hmoves' := hrestarts.toMoves.trans (ends_works undisturbed).toMoves
  have hfiles := hquiet'.unique hquiet hmoves' hmoves
  exact ⟨hok, sameFiles_of_eq (congrArg Files.tmp hfiles),
    sameFiles_of_eq (congrArg Files.series hfiles)⟩

end Ends

/-- A partition of `tmp/` with one staged file, and no `series/`. -/
def onePartition : Trees (List UInt8) where
  tmp := (DirTree.empty.mkdir []).bind (DirTree.mkdir ["cpu"]) |>.bind
    (DirTree.mkdir ["cpu", "hour=0"])
    |>.bind (DirTree.put ["cpu", "hour=0", "x.tmp"] []) |>.getD .empty
  series := .empty

/-- The process stops where it would remove the first directory. -/
def stopsAtRemoveDir : Oracle SweepOp := fun _ label ↦
  if label = .tmpRemoveDir then .crashes 0 else .done

/-- Something of each kind, for a watermark of 5: a committed and an uncommitted staged file in one
partition, a flat file, and a file of `series/` past the watermark. -/
def crowded : Trees (List UInt8) where
  tmp := onePartition.tmp.put ["cpu", "hour=0", outputFileName 1 5 0] [1]
    |>.bind (DirTree.put ["cpu", "hour=0", outputFileName 6 6 0] [2])
    |>.bind (DirTree.put ["old.tmp"] []) |>.getD .empty
  series := (DirTree.empty.mkdir []).bind (DirTree.mkdir ["cpu"])
    |>.bind (DirTree.mkdir ["cpu", "hour=1"])
    |>.bind (DirTree.put ["cpu", "hour=1", outputFileName 7 7 0] [3]) |>.getD .empty

/-- The second directory of `tmp/` to be listed cannot be. -/
def skipsDirectory : Oracle SweepOp := fun t label ↦
  if label = .tmpList ∧ t = 2 then .fails 0 else .done

/-- One sweep is stopped, another skips a directory, and the next one leaves the files that one
sweep would have left: the committed file in its place and nothing else. -/
theorem sweep_settles_crowded :
    (ends 5 undisturbed crowded).1 = .ok () ∧ (ends 5 stopsAtRemoveDir crowded).1 = .crash ∧
      Files.Settles 5 crowded.files (ends 5 undisturbed crowded).2.files ∧
      (ends 5 undisturbed crowded).2.tmp.files.toList = [] ∧
      (ends 5 undisturbed crowded).2.series.files.toList =
        [(["cpu", "hour=0", outputFileName 1 5 0], [1])] ∧
      (ends 5 skipsDirectory crowded).2.tmp.files.toList ≠ [] ∧
      SameFiles
        (ends 5 undisturbed (restarts 5 [skipsDirectory, stopsAtRemoveDir] crowded)).2.series
        (ends 5 undisturbed crowded).2.series := by
  have hok : (ends 5 undisturbed crowded).1 = .ok () := by decide +kernel
  obtain ⟨hsettles, -, hrestarts⟩ := sweep_settles 5 crowded hok
  exact ⟨hok, by decide +kernel, hsettles, by decide +kernel, by decide +kernel, by decide +kernel,
    (hrestarts _).2.2⟩

/-- **Stopped before it removes an emptied partition**, the sweep leaves it to no one: the next one
ends with directories that an uninterrupted one would have removed. -/
theorem sweep_strands_directory :
    (ends 0 undisturbed onePartition).1 = .ok () ∧
      ["cpu", "hour=0"] ∉ (ends 0 undisturbed onePartition).2.tmp.dirs ∧
      (ends 0 stopsAtRemoveDir onePartition).1 = .crash ∧
      (ends 0 undisturbed (ends 0 stopsAtRemoveDir onePartition).2).1 = .ok () ∧
      ["cpu", "hour=0"] ∈
        (ends 0 undisturbed (ends 0 stopsAtRemoveDir onePartition).2).2.tmp.dirs := by
  decide +kernel

end Orc.SweepTree
