import Orc.Fault.Prog
import Orc.Flush.Columns
import Orc.Schema.Manifest

/-!
# The data directory

The files under `data_dir` that the engine's logic reads and writes, as a record of maps: segments
and quarantined segments by id, spilled runs by number, Parquet files by the path below `tmp/` or
`series/`, and the manifest with its staging file. Directories are not represented: every step that
needs one is preceded by creating it, which is an operation like any other. Where the existence of a
directory does decide what is left behind, in the sweep, there is a model with trees instead.

A segment remembers how many of its bytes have been synced. Nothing in the program can read that; it
is there to say what a crash may take away.

Programs over the directory are `Io` programs. Each file-system call is one operation with a label
of `Op`, so an assumption about which calls fail is an assumption about labels, and a theorem can
name the calls it depends on. Calls that the source makes for the same purpose share a label.

The crate that writes Parquet files is outside the model. Its calls are operations too, and their
labels say what the crate is given: it has limits of its own, which depend on that. An error of the
crate is another error than that of a file, as in the source, and `Op.onFiles` tells them apart.
-/

namespace Orc

open Bytes Fault

/-- A segment file, and how many of its bytes an fsync has covered. -/
structure SegFile where
  bytes : Bytes := []
  synced : ℕ := 0
  deriving DecidableEq

/-- The components of a path below `tmp/` or `series/`: `<series>/<hour>/<file>`, or one component
for a flat file of an older layout. -/
abbrev Path := List String

/-- A Parquet file: the row groups handed to the writer, and whether the footer has been written. -/
structure Parquet where
  series : String
  epoch : UInt32
  schema : List KeyDef
  groups : List Columns := []
  complete : Bool := false
  deriving DecidableEq

/-- The rows of a file, group after group. -/
def Parquet.rows (p : Parquet) : List FileRow := p.groups.flatMap Columns.toRows

/-- `manifest.json` or its staging file: written in whole or not. -/
inductive ManifestFile where
  | torn
  | whole (m : Manifest)
  deriving DecidableEq

/-- What one committed flush consumed and produced. -/
structure Commit where
  consumed : List (ℕ × Bytes)
  files : List (Path × Parquet)
  deriving DecidableEq

/-- The data directory. -/
structure Disk where
  wal : Std.ExtTreeMap ℕ SegFile := {}
  /-- `<id>.wal.corrupt`. -/
  corrupt : Std.ExtTreeMap ℕ Bytes := {}
  rejects : Std.ExtTreeMap ℕ Bytes := {}
  runs : Std.ExtTreeMap ℕ Bytes := {}
  tmp : Std.ExtTreeMap Path Parquet := {}
  series : Std.ExtTreeMap Path Parquet := {}
  /-- `view.sql` by series. -/
  views : Std.ExtTreeMap String String := {}
  manifest : Option ManifestFile := none
  manifestTmp : Option ManifestFile := none
  /-- History, not a file: the flushes committed so far. -/
  commits : List Commit := []
  deriving DecidableEq

/-- The calls of the Parquet crate that write a file. What it is to write, and what it has written
already, is part of the call, so what it does with a file may depend on all of it. -/
inductive CrateCall where
  | new (schema : List KeyDef)
  | nextRowGroup (schema : List KeyDef) (written : List Columns)
  | writeColumns (schema : List KeyDef) (written : List Columns) (group : Columns)
  | closeRowGroup (schema : List KeyDef) (written : List Columns) (group : Columns)
  | close (schema : List KeyDef) (written : List Columns)
  deriving DecidableEq

/-- What is reported if the crate refuses a call, or fails to write. -/
def CrateCall.error : CrateCall → Error
  | .new _ => .config (.text "opening parquet writer")
  | _ => .config (.text "writing parquet")

/-- The file-system calls, and those of the crate. -/
inductive Op where
  -- appending to the log
  | walWrite | walSync | segmentCreate | segmentHeader | segmentSync | walDirSync | segmentClone
  -- reading, amending and removing segments
  | walMkdir | dataDirSync | walList | segmentRead | segmentTruncate | segmentTruncateSync
  | segmentRemove | quarantineRename
  -- the manifest
  | manifestTmpRemove | manifestRead | manifestCreate | manifestWrite | manifestSync
  | manifestRename | manifestDirSync
  -- rejects
  | rejectsMeasure | rejectsMkdir | rejectsOpen | rejectsWrite
  -- sorted runs
  | runsClear | runsMkdir | runCreate | runWrite | runOpen | runRead | runStat | runRemove
  -- staging
  | tmpMkdir | stageMkdir | stageCreate | parquet (call : CrateCall) | stageSync | stageDirSync
  -- publishing
  | seriesMkdir | seriesRename | seriesDirSync | viewWrite
  -- sweeping
  | tmpList | tmpRemove | seriesList | seriesRemove
  deriving DecidableEq

/-- The calls of the file system. -/
def Op.onFiles : Op → Bool
  | .parquet _ => false
  | _ => true

/-- A program over the data directory. -/
abbrev Io (α : Type) := Prog Op Disk Error α

/-- Every operation is carried out. -/
def noFault : Oracle Op := fun _ _ ↦ .done

theorem not_crashes_noFault : ¬ Crashes noFault := by
  rintro ⟨t, label, n, h⟩
  cases h

theorem not_fails_noFault : ¬ Fails noFault := by
  rintro ⟨t, label, n, h⟩
  cases h

section Maps

variable {κ α : Type} {cmp : κ → κ → Ordering} [Std.TransCmp cmp] {m : Std.ExtTreeMap κ α cmp}
  {j k : κ} {a : α}

/-- What is found in a map is in it. -/
theorem mem_of_getElem? (h : m[k]? = some a) : k ∈ m := by
  rw [← Std.ExtTreeMap.isSome_getElem?_iff_mem, h]
  rfl

/-- A change at one key leaves the others. -/
theorem getElem?_insert_of_ne [Std.LawfulEqCmp cmp] (h : j ≠ k) : (m.insert j a)[k]? = m[k]? := by
  rw [Std.ExtTreeMap.getElem?_insert, if_neg (mt Std.LawfulEqCmp.eq_of_compare h)]

theorem getElem?_erase_of_ne [Std.LawfulEqCmp cmp] (h : j ≠ k) : (m.erase j)[k]? = m[k]? := by
  rw [Std.ExtTreeMap.getElem?_erase, if_neg (mt Std.LawfulEqCmp.eq_of_compare h)]

end Maps

/-- Some operation of this kind failed. -/
def Failed (o : Oracle Op) (label : Op) : Prop := ∃ t n, o t label = .fails n

theorem not_failed_noFault {label : Op} : ¬ Failed noFault label := by
  rintro ⟨t, n, h⟩
  cases h

/-- Some operation of this kind was carried out. -/
def Done (o : Oracle Op) (label : Op) : Prop := ∃ t, o t label = .done

/-- Some operation of this kind was not carried out. -/
def Interrupted (o : Oracle Op) (label : Op) : Prop := ∃ t, o t label ≠ .done

theorem interrupted_of_fails {o : Oracle Op} {label : Op} {t n : ℕ} (h : o t label = .fails n) :
    Interrupted o label := ⟨t, by simp [h]⟩

theorem interrupted_of_crashes {o : Oracle Op} {label : Op} {t n : ℕ} (h : o t label = .crashes n) :
    Interrupted o label := ⟨t, by simp [h]⟩

/-- An I/O error of no particular kind. -/
def ioError : Error := .io .other

namespace Io

/-- An operation the file system carries out unless it fails. -/
def step {δ : Type} (label : Op) (act : δ → δ) : Prog Op δ Error Unit :=
  Prog.op label ioError fun d ↦ .ok ((), act d)

/-- An operation that changes no file: creating directories, syncing. -/
def touch {δ : Type} (label : Op) : Prog Op δ Error Unit := step label id

/-- A read. -/
def read {δ α : Type} (label : Op) (f : δ → Except Error α) : Prog Op δ Error α :=
  Prog.op label ioError fun d ↦ (f d).map (·, d)

/-- A call of the Parquet crate. -/
def crate (call : CrateCall) (act : Disk → Disk) : Io Unit :=
  Prog.op (.parquet call) call.error fun d ↦ .ok ((), act d)

/-- Run a program for its effect and ignore its error. -/
def ignore {δ α : Type} (p : Prog Op δ Error α) : Prog Op δ Error Unit := do
  let _ ← Prog.attempt p

section Triples

variable {δ α : Type} {o : Oracle Op} {P : δ → Prop} {E : Error → δ → Prop} {C : δ → Prop}

theorem step_triple {label : Op} {act : δ → δ} {Q : Unit → δ → Prop}
    (hok : ∀ d t, P d → o t label = .done → Q () (act d))
    (hfail : ∀ d t n, P d → o t label = .fails n → E ioError d)
    (hcrash : ∀ d t n, P d → o t label = .crashes n → C d) :
    Triple o P (step label act) Q E C :=
  .op (fun d t a d' hd ho h ↦ by
    obtain ⟨rfl, rfl⟩ := Prod.mk.inj (Except.ok.inj h)
    exact hok d t hd ho) (fun _ _ _ _ _ h ↦ by cases h) hfail hcrash

theorem step_keeps {label : Op} {act : δ → δ} (h : ∀ d, P d → P (act d)) :
    Keeps o P (step label act) :=
  step_triple (fun d _ hd _ ↦ h d hd) (fun _ _ _ hd _ ↦ hd) (fun _ _ _ hd _ ↦ hd)

theorem touch_keeps (label : Op) : Keeps o P (touch label) := step_keeps fun _ ↦ id

theorem read_triple {label : Op} {f : δ → Except Error α} {Q : α → δ → Prop}
    (hok : ∀ d a, P d → f d = .ok a → Q a d) (hrefuse : ∀ d e, P d → f d = .error e → E e d)
    (hfail : ∀ d t n, P d → o t label = .fails n → E ioError d)
    (hcrash : ∀ d t n, P d → o t label = .crashes n → C d) :
    Triple o P (read label f) Q E C := by
  refine .op (fun d _ a d' hd _ h ↦ ?_) (fun d _ e hd _ h ↦ ?_) hfail hcrash
  · cases hf : f d with
    | error e =>
      rw [hf] at h
      cases h
    | ok x =>
      rw [hf] at h
      obtain ⟨rfl, rfl⟩ := Prod.mk.inj (Except.ok.inj h)
      exact hok d x hd hf
  · cases hf : f d with
    | error e' =>
      rw [hf] at h
      obtain rfl := Except.error.inj h
      exact hrefuse d e' hd hf
    | ok x =>
      rw [hf] at h
      cases h

theorem read_keeps {label : Op} {f : δ → Except Error α} : Keeps o P (read label f) :=
  read_triple (fun _ _ hd _ ↦ hd) (fun _ _ hd _ ↦ hd) (fun _ _ _ hd _ ↦ hd) (fun _ _ _ hd _ ↦ hd)

/-! Where every operation is carried out, only what the disk refuses can fail. -/

theorem step_noFault {label : Op} {act : δ → δ} {Q : Unit → δ → Prop}
    (h : ∀ d, P d → Q () (act d)) : Triple noFault P (step label act) Q E C :=
  step_triple (fun d _ hd _ ↦ h d hd) (fun _ _ _ _ ho ↦ by cases ho) fun _ _ _ _ ho ↦ by cases ho

theorem touch_noFault {label : Op} : Triple noFault P (touch label) (fun _ ↦ P) E C :=
  step_noFault fun _ ↦ id

theorem read_noFault {label : Op} {f : δ → Except Error α} {Q : α → δ → Prop}
    (hok : ∀ d a, P d → f d = .ok a → Q a d) (hrefuse : ∀ d e, P d → f d = .error e → E e d) :
    Triple noFault P (read label f) Q E C :=
  read_triple hok hrefuse (fun _ _ _ _ ho ↦ by cases ho) fun _ _ _ _ ho ↦ by cases ho

theorem op_noFault {label : Op} {io : Error} {act : δ → Except Error (α × δ)} {Q : α → δ → Prop}
    (hok : ∀ d a d', P d → act d = .ok (a, d') → Q a d')
    (hrefuse : ∀ d e, P d → act d = .error e → E e d) :
    Triple noFault P (Prog.op label io act) Q E C :=
  .op (fun d _ a d' hd _ ↦ hok d a d' hd) (fun d _ e hd _ ↦ hrefuse d e hd)
    (fun _ _ _ _ ho ↦ by cases ho) fun _ _ _ _ ho ↦ by cases ho

/-! Where a failed operation leaves the disk as it was before, one condition on it covers both the
error and the crash. -/

variable {J : δ → Prop}

theorem step_exits {label : Op} {act : δ → δ} {Q : Unit → δ → Prop}
    (hx : Exits Op.onFiles o J ioError E C) (hJ : ∀ d, P d → J d) (h : ∀ d, P d → Q () (act d))
    (hlabel : label.onFiles = true := by rfl) : Triple o P (step label act) Q E C :=
  step_triple (fun d _ hd _ ↦ h d hd)
    (fun d t n hd ho ↦ hx.fails ⟨t, label, n, hlabel, ho⟩ d (hJ d hd))
    fun d _ _ hd _ ↦ hx.crash d (hJ d hd)

theorem touch_exits {label : Op} (hx : Exits Op.onFiles o J ioError E C) (hJ : ∀ d, P d → J d)
    (hlabel : label.onFiles = true := by rfl) : Triple o P (touch label) (fun _ ↦ P) E C :=
  step_exits hx hJ (fun _ ↦ id) hlabel

theorem read_exits {label : Op} {f : δ → Except Error α} {Q : α → δ → Prop}
    (hx : Exits Op.onFiles o J ioError E C) (hJ : ∀ d, P d → J d)
    (hok : ∀ d a, P d → f d = .ok a → Q a d) (hrefuse : ∀ d e, P d → f d = .error e → E e d)
    (hlabel : label.onFiles = true := by rfl) : Triple o P (read label f) Q E C :=
  read_triple hok hrefuse (fun d t n hd ho ↦ hx.fails ⟨t, label, n, hlabel, ho⟩ d (hJ d hd))
    fun d _ _ hd _ ↦ hx.crash d (hJ d hd)

theorem crate_triple {o : Oracle Op} {P : Disk → Prop} {E : Error → Disk → Prop} {C : Disk → Prop}
    {call : CrateCall} {act : Disk → Disk} {Q : Unit → Disk → Prop}
    (hok : ∀ d, P d → Done o (.parquet call) → Q () (act d))
    (hfail : Failed o (.parquet call) → ∀ d, P d → E call.error d) (hcrash : ∀ d, P d → C d) :
    Triple o P (crate call act) Q E C :=
  .op (fun d t a d' hd ho h ↦ by
    obtain ⟨rfl, rfl⟩ := Prod.mk.inj (Except.ok.inj h)
    exact hok d hd ⟨t, ho⟩) (fun _ _ _ _ _ h ↦ by cases h) (fun d t n hd ho ↦ hfail ⟨t, n, ho⟩ d hd)
    fun d _ _ hd _ ↦ hcrash d hd

theorem crate_keeps {o : Oracle Op} {P : Disk → Prop} {call : CrateCall} {act : Disk → Disk}
    (h : ∀ d, P d → P (act d)) : Keeps o P (crate call act) :=
  crate_triple (fun d hd _ ↦ h d hd) (fun _ _ hd ↦ hd) fun _ hd ↦ hd

/-- A step whose failure is ignored: it is carried out or not. -/
theorem ignore_step {label : Op} {act : δ → δ} {Q : Unit → δ → Prop} (hC : ∀ d, P d → C d)
    (hdone : ∀ d, P d → Q () (act d)) (hnot : ∀ d, P d → Q () d) :
    Triple o P (ignore (step label act)) Q E C :=
  .bind (Q := fun _ ↦ Q ()) (.attempt (step_triple (fun d _ hd _ ↦ hdone d hd)
    (fun d _ _ hd _ ↦ hnot d hd) fun d _ _ hd _ ↦ hC d hd)) fun _ ↦ .ret fun _ ↦ id

theorem ignore_triple {p : Prog Op δ Error α} (h : Keeps o P p) :
    Triple o P (ignore p) (fun _ ↦ P) E P :=
  .bind h.attempt_triple fun _ ↦ .ret fun _ ↦ id

end Triples

end Io

/-! ## Segments -/

/-- Every segment id in `wal/`, ascending. -/
def listSegments : Io (List ℕ) := Io.read .walList fun d ↦ .ok d.wal.keys

/-- Delete a segment; one that is already gone is fine. -/
def removeSegment (id : ℕ) : Io Unit :=
  Io.step .segmentRemove fun d ↦ { d with wal := d.wal.erase id }

/-- The directory with a segment moved aside. -/
def Disk.quarantined (d : Disk) (id : ℕ) (bytes : Bytes) : Disk :=
  { d with wal := d.wal.erase id, corrupt := d.corrupt.insert id bytes }

/-- Rename a segment to `<id>.wal.corrupt`, keeping its bytes. -/
def quarantineSegment (id : ℕ) : Io Unit := do
  Prog.op .quarantineRename ioError fun d : Disk ↦
    match d.wal[id]? with
    | none => .error (.io .notFound)
    | some f => .ok ((), { d with wal := d.wal.erase id, corrupt := d.corrupt.insert id f.bytes })
  Io.touch .walDirSync

/-! ## The manifest file -/

/-- Read `manifest.json`; a missing file yields the default. A leftover staging file is removed. -/
def Manifest.load : Io Manifest := do
  Io.step .manifestTmpRemove fun d ↦ { d with manifestTmp := none }
  Io.read .manifestRead fun d ↦
    match d.manifest with
    | none => .ok {}
    | some (.whole m) => .ok m
    | some .torn => .error (.config (.text "manifest.json"))

/-- Is there a committed manifest? -/
def Manifest.exists : Io Bool := Prog.look fun d ↦ d.manifest.isSome

/-- What a flush commits: the segments consumed and the files staged, as they are on the disk. -/
def Disk.commitOf (d : Disk) (ids : List ℕ) (paths : List Path) : Commit where
  consumed := ids.filterMap fun id ↦ d.wal[id]?.map fun f ↦ (id, f.bytes)
  files := paths.filterMap fun path ↦ d.tmp[path]?.map fun p ↦ (path, p)

/-- Rename the staging file into place; the flush this commits, if it is one, goes on record. -/
def Disk.renameManifest (flushed : Option (List ℕ × List Path)) (d : Disk) :
    Except Error (Unit × Disk) :=
  match d.manifestTmp with
  | none => .error (.io .notFound)
  | some f => .ok ((), { d with
      manifest := some f
      manifestTmp := none
      commits := d.commits ++ (flushed.map fun (ids, paths) ↦ d.commitOf ids paths).toList })

/-- Atomically replace `manifest.json`: write the staging file, sync it, rename, sync the directory.
The rename is the commit. -/
def Manifest.commit (m : Manifest) (flushed : Option (List ℕ × List Path)) : Io Unit := do
  Io.step .manifestCreate fun d ↦ { d with manifestTmp := some .torn }
  Io.step .manifestWrite fun d ↦ { d with manifestTmp := some (.whole m) }
  Io.touch .manifestSync
  Prog.op .manifestRename ioError (Disk.renameManifest flushed)
  Io.touch .manifestDirSync

end Orc
