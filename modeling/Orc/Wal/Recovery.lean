import Orc.Order.Classes
import Orc.Wal.Reader
import Orc.Wal.Sections

/-!
# Recovery

At startup the segments that a committed flush has consumed are deleted, and the highest segment
left is scanned: its frames are checked one by one and the file is cut off where the scan stops.
Only this segment, the tail, is looked at.

The scan is the walk of `Cut` with the file's own length as the bound (`scan_eq`). The reader of the
flush walks the amended file under a smaller bound, and finds the same frames, because the bound
admits every frame of the file either way.

`Recovers` and `Refuses` say what recovery returns and leaves if nothing fails, in terms of the
directory it found (`recover_noFault`). With faults it does some of the same operations, and that is
all that results about crashes need (`Orc.Engine.Effects`).
-/

namespace Orc

open Bytes Fault

/-- A file cut off after `n` bytes. -/
def SegFile.truncate (n : ℕ) (f : SegFile) : SegFile :=
  ⟨f.bytes.take n, min f.synced n⟩

/-- A file cut off after `n` bytes and synced, if it has more. -/
def SegFile.amend (n : ℕ) (f : SegFile) : SegFile :=
  if n < f.bytes.length then (f.truncate n).sync else f

/-- The directory with one segment changed. -/
def Disk.onSegment (id : ℕ) (g : SegFile → SegFile) (d : Disk) : Disk :=
  { d with wal := updateFile id g d.wal }

/-- What the tail segment's header turned out to be. -/
inductive TailHeader where
  /-- Usable; the frames were scanned and the file amended. -/
  | scanned (frames discarded : ℕ)
  /-- Shorter than a header: nothing to keep. -/
  | absent
  /-- Present but wrong. -/
  | corrupt (reason : String)
  deriving DecidableEq, Repr

/-- What a header that does not parse is taken for. -/
def TailHeader.ofError : DecodeError → TailHeader
  | .truncated _ _ => .absent
  | .corrupt reason => .corrupt reason

/-- What recovery found and did. -/
structure Recovery where
  /-- Segments deleted as already flushed, or without a header. -/
  deleted : List ℕ := []
  /-- Segments left for the flush, ascending, including the amended tail. -/
  pending : List ℕ := []
  /-- The segment that was scanned, if there was one. -/
  tail : Option ℕ := none
  /-- Intact frames found in the tail. -/
  tailFrames : ℕ := 0
  /-- Bytes chopped off the tail. -/
  discardedBytes : ℕ := 0
  /-- Segments moved aside for a bad header. -/
  quarantined : List ℕ := []
  /-- The id the writer must open. -/
  nextSegment : ℕ
  deriving DecidableEq, Repr

section Checksum

variable (crc : Bytes → UInt32)

/-- The loop of the scan: how far it got, and over how many frames. Every turn consumes a frame or
stops, so the length of the file is enough fuel. -/
def scanFrames (bytes : Bytes) : ℕ → ℕ → ℕ → ℕ × ℕ
  | 0, pos, frames => (pos, frames)
  | fuel + 1, pos, frames =>
    if bytes.length ≤ pos then
      (pos, frames)
    else
      match validatePrefix crc (bytes.drop pos) bytes.length with
      | .error _ => (pos, frames)
      | .ok p => scanFrames bytes fuel (pos + p.frameLen) (frames + 1)

/-- Where the frames stand that the loop of the scan steps over. -/
def scanOffsets (bytes : Bytes) : ℕ → ℕ → List ℕ
  | 0, _ => []
  | fuel + 1, pos =>
    if bytes.length ≤ pos then
      []
    else
      match validatePrefix crc (bytes.drop pos) bytes.length with
      | .error _ => []
      | .ok p => pos :: scanOffsets bytes fuel (pos + p.frameLen)

/-- Check the tail's frames and truncate it at the last good offset. -/
def scanTail (id : ℕ) : Io TailHeader := do
  let bytes ← Io.read .segmentRead fun d : Disk ↦
    match d.wal[id]? with
    | none => .error (.io .notFound)
    | some f => .ok f.bytes
  match parseSegmentHeader bytes with
  | .error err => return .ofError err
  | .ok _ => do
    let (pos, frames) := scanFrames crc bytes bytes.length segmentHeaderBytes 0
    if pos < bytes.length then do
      Io.step .segmentTruncate (Disk.onSegment id (SegFile.truncate pos))
      Io.step .segmentTruncateSync (Disk.onSegment id SegFile.sync)
      return .scanned frames (bytes.length - pos)
    else
      return .scanned frames 0

/-- Amend the tail, the last of the segments `ids` left; `out` is what was done before. -/
def recoverTail (out : Recovery) (ids : List ℕ) : Io Recovery :=
  match ids.getLast? with
  | none => return { out with pending := ids }
  | some tail => do
    match ← scanTail crc tail with
    | .scanned frames discarded =>
      return { out with
        tail := some tail, tailFrames := frames, discardedBytes := discarded, pending := ids }
    | .absent => do
      let size ← Prog.look fun d : Disk ↦ (d.wal[tail]?.map fun f ↦ f.bytes.length).getD 0
      removeSegment tail
      Io.touch .walDirSync
      return { out with
        deleted := out.deleted ++ [tail], discardedBytes := out.discardedBytes + size
        pending := ids.dropLast }
    | .corrupt reason =>
      -- a mismatch means the wrong binary, not damage
      if reason = unsupportedVersion then
        Prog.fail (.config (.unsupportedSegment tail))
      else do
        quarantineSegment tail
        return { out with quarantined := out.quarantined ++ [tail], pending := ids.dropLast }

/-- Delete the segments that are already in Parquet. -/
def deleteFlushed (flushed : List ℕ) : Io Unit := do
  flushed.forM removeSegment
  if flushed = [] then pure () else Io.touch .walDirSync

/-- Bring `wal/` into a state the flush can read. -/
def recover (lastFlushedSegment : ℕ) : Io Recovery := do
  Io.touch .walMkdir
  Io.touch .dataDirSync
  let ids ← listSegments
  let flushed := ids.takeWhile (· ≤ lastFlushedSegment)
  deleteFlushed flushed
  recoverTail crc
    { deleted := flushed, nextSegment := max (ids.getLast?.getD 0) lastFlushedSegment + 1 }
    (ids.dropWhile (· ≤ lastFlushedSegment))

end Checksum

variable {crc : Bytes → UInt32}

/-! ## The scan -/

/-- **The scan** is the walk over the bytes behind the header. -/
theorem scan_eq {bytes buf rest : Bytes} {fs : List Bytes} {pos frames fuel : ℕ}
    (hbuf : bytes.drop pos = buf) (hcut : Cut crc bytes.length buf fs rest)
    (hfuel : buf.length ≤ fuel) :
    scanFrames crc bytes fuel pos frames = (pos + fs.flatten.length, frames + fs.length) ∧
      scanOffsets crc bytes fuel pos = frameOffsets pos fs := by
  induction hcut generalizing pos frames fuel with
  | done =>
    cases fuel with
    | zero => exact ⟨rfl, rfl⟩
    | succ fuel =>
      rw [scanFrames, scanOffsets, if_pos (List.drop_eq_nil_iff.1 hbuf),
        if_pos (List.drop_eq_nil_iff.1 hbuf)]
      exact ⟨rfl, rfl⟩
  | @stop buf e hne herr =>
    obtain ⟨fuel, rfl⟩ : ∃ n, fuel = n + 1 := ⟨fuel - 1, by
      have := List.length_pos_of_ne_nil hne
      omega⟩
    have hlt : ¬ bytes.length ≤ pos := fun hle ↦ hne (by rw [← hbuf, List.drop_eq_nil_of_le hle])
    rw [scanFrames, scanOffsets, if_neg hlt, if_neg hlt, hbuf, herr]
    exact ⟨rfl, rfl⟩
  | @frame f buf fs rest hf h ih =>
    have hpos := hf.length_pos
    unfold frameHeaderBytes at hpos
    rw [List.length_append] at hfuel
    obtain ⟨fuel, rfl⟩ : ∃ n, fuel = n + 1 := ⟨fuel - 1, by omega⟩
    have hlt : ¬ bytes.length ≤ pos := fun hle ↦ by
      have := congrArg List.length hbuf
      rw [List.drop_eq_nil_of_le hle, List.length_append, List.length_nil] at this
      omega
    obtain ⟨p, hp, hlen⟩ := id hf
    have hbehind : bytes.drop (pos + f.length) = buf := by
      rw [← List.drop_drop, hbuf, List.drop_left]
    obtain ⟨hframes, hoffsets⟩ : scanFrames crc bytes fuel (pos + f.length) (frames + 1) = _ ∧ _ :=
      ih hbehind (by omega)
    rw [scanFrames, scanOffsets, if_neg hlt, if_neg hlt, hbuf, hf.validatePrefix_append, hp]
    dsimp only
    rw [hlen, hframes, hoffsets]
    refine ⟨?_, rfl⟩
    simp only [List.flatten_cons, List.length_append, List.length_cons]
    congr 1
    · omega
    · omega

/-! ## What recovery does to the directory -/

namespace Disk

theorem sorted_keys (d : Disk) : d.wal.keys.Pairwise (· < ·) :=
  Std.ExtTreeMap.ordered_keys.imp fun h ↦ Nat.compare_eq_lt.1 h

/-- The segment recovery scans: the highest, if it is above the watermark. -/
structure IsTail (d : Disk) (watermark tail : ℕ) : Prop where
  mem : tail ∈ d.wal
  above : watermark < tail
  highest : ∀ id ∈ d.wal, id ≤ tail

/-- The segments that are already in Parquet. -/
def flushed (d : Disk) (watermark : ℕ) : List ℕ := d.wal.keys.takeWhile (· ≤ watermark)

/-- The segments that are not. -/
def unflushed (d : Disk) (watermark : ℕ) : List ℕ := d.wal.keys.dropWhile (· ≤ watermark)

/-- The directory without some segments. -/
def without (d : Disk) (ids : List ℕ) : Disk :=
  { d with wal := ids.foldl (fun m id ↦ m.erase id) d.wal }

/-- The directory with a segment cut off after `n` bytes, and synced if that changed it. -/
def amended (d : Disk) (id n : ℕ) : Disk := d.onSegment id (SegFile.amend n)

private theorem onSegment_onSegment (id : ℕ) {g h k : SegFile → SegFile} {d : Disk}
    (hfile : ∀ f, d.wal[id]? = some f → g (h f) = k f) :
    (d.onSegment id h).onSegment id g = d.onSegment id k := by
  refine congrArg (fun wal ↦ { d with wal }) (Std.ExtTreeMap.ext_getElem? fun j ↦ ?_)
  rw [getElem?_updateFile, getElem?_updateFile]
  by_cases hj : id = j
  · subst hj
    rw [if_pos rfl, if_pos rfl, onSegment, getElem?_updateFile, if_pos rfl, Option.map_map]
    cases hf : d.wal[id]? with
    | none => rfl
    | some f => exact congrArg some (hfile f hf)
  · rw [if_neg hj, if_neg hj, onSegment, getElem?_updateFile, if_neg hj]

theorem onSegment_self {id : ℕ} {g : SegFile → SegFile} {d : Disk}
    (h : ∀ f, d.wal[id]? = some f → g f = f) : d.onSegment id g = d := by
  rw [onSegment, updateFile_self id h]

theorem mem_flushed {d : Disk} {watermark id : ℕ} :
    id ∈ d.flushed watermark ↔ id ∈ d.wal ∧ id ≤ watermark := by
  rw [flushed, Order.mem_takeWhile_le d.sorted_keys, Std.ExtTreeMap.mem_keys]

private theorem mem_unflushed {d : Disk} {watermark id : ℕ} :
    id ∈ d.unflushed watermark ↔ id ∈ d.wal ∧ watermark < id := by
  rw [unflushed, Order.mem_dropWhile_le d.sorted_keys, Std.ExtTreeMap.mem_keys]

theorem getLast?_unflushed {d : Disk} {watermark tail : ℕ} :
    (d.unflushed watermark).getLast? = some tail ↔ d.IsTail watermark tail := by
  have hsorted : (d.unflushed watermark).Pairwise (· < ·) :=
    d.sorted_keys.sublist (List.dropWhile_sublist _)
  rw [Order.getLast?_eq_some_iff hsorted, mem_unflushed]
  constructor
  · rintro ⟨⟨hmem, hlt⟩, hmax⟩
    refine ⟨hmem, hlt, fun id hid ↦ ?_⟩
    by_cases hle : id ≤ watermark
    · omega
    · exact hmax id (mem_unflushed.2 ⟨hid, by omega⟩)
  · rintro ⟨hmem, hlt, hmax⟩
    exact ⟨⟨hmem, hlt⟩, fun id hid ↦ hmax id (mem_unflushed.1 hid).1⟩

theorem getElem?_without (d : Disk) (ids : List ℕ) (k : ℕ) :
    (d.without ids).wal[k]? = if k ∈ ids then none else d.wal[k]? := by
  rw [without]
  generalize d.wal = m
  induction ids generalizing m with
  | nil => simp
  | cons id ids ih =>
    rw [List.foldl_cons, ih]
    by_cases hk : k ∈ ids
    · simp [hk]
    · by_cases heq : k = id
      · simp [heq]
      · have hne : compare id k ≠ .eq := fun h ↦ heq (Nat.compare_eq_eq.1 h).symm
        simp [hk, heq, Std.ExtTreeMap.getElem?_erase, hne]

theorem without_concat (d : Disk) (ids : List ℕ) (id : ℕ) :
    d.without (ids ++ [id]) = { d.without ids with wal := (d.without ids).wal.erase id } := by
  simp [without]

theorem mem_without_flushed {d : Disk} {watermark id : ℕ} :
    id ∈ (d.without (d.flushed watermark)).wal ↔ id ∈ d.wal ∧ watermark < id := by
  rw [← Std.ExtTreeMap.isSome_getElem?_iff_mem, getElem?_without]
  by_cases hid : id ∈ d.flushed watermark
  · have := mem_flushed.1 hid
    simp only [if_pos hid, Option.isSome_none, Bool.false_eq_true, false_iff]
    omega
  · rw [if_neg hid, Std.ExtTreeMap.isSome_getElem?_iff_mem]
    rw [mem_flushed] at hid
    constructor
    · intro hwal
      exact ⟨hwal, by by_contra hle; exact hid ⟨hwal, by omega⟩⟩
    · exact And.left

/-- A segment above the watermark is still there once the flushed ones are deleted. -/
theorem getElem?_without_flushed {d : Disk} {watermark id : ℕ} (h : watermark < id) :
    (d.without (d.flushed watermark)).wal[id]? = d.wal[id]? := by
  rw [getElem?_without, if_neg]
  intro hmem
  have := (mem_flushed.1 hmem).2
  omega

end Disk

variable {E : Error → Disk → Prop} {C : Disk → Prop}

theorem removeSegment_noFault {d : Disk} (id : ℕ) :
    Triple noFault (· = d) (removeSegment id)
      (fun _ d' ↦ d' = { d with wal := d.wal.erase id }) E C :=
  Io.step_noFault fun _ hd ↦ by rw [hd]

theorem deleteFlushed_noFault {d : Disk} (ids : List ℕ) :
    Triple noFault (· = d) (deleteFlushed ids) (fun _ d' ↦ d' = d.without ids) E C := by
  have hloop : Triple noFault (fun d' ↦ ∃ done, ids = done ++ ids ∧ d' = d.without done)
      (ids.forM removeSegment) (fun _ d' ↦ ∃ done, ids = done ++ [] ∧ d' = d.without done) E C := by
    refine Triple.forM (I := fun l d' ↦ ∃ done, ids = done ++ l ∧ d' = d.without done)
      (fun id l ↦ ?_) ids
    refine Io.step_noFault ?_
    rintro d' ⟨done, hids, rfl⟩
    exact ⟨done ++ [id], by simp [hids], (d.without_concat done id).symm⟩
  refine .bind (hloop.pre fun d' hd ↦ ⟨[], rfl, hd⟩) fun _ ↦ ?_
  have hpost : ∀ d', (∃ done, ids = done ++ [] ∧ d' = d.without done) → d' = d.without ids := by
    rintro d' ⟨done, hids, rfl⟩
    rw [hids, List.append_nil]
  by_cases hnil : ids = []
  · rw [if_pos hnil]
    exact .ret hpost
  · rw [if_neg hnil]
    exact Io.step_noFault hpost

theorem readTail_noFault {d : Disk} {id : ℕ} {f : SegFile} (hf : d.wal[id]? = some f) :
    Triple noFault (· = d) (Io.read .segmentRead fun d : Disk ↦
        match d.wal[id]? with
        | none => .error (.io .notFound)
        | some f => .ok f.bytes)
      (fun bytes d' ↦ bytes = f.bytes ∧ d' = d) E C := by
  refine Io.read_noFault ?_ ?_
  · rintro d' bytes rfl hread
    rw [hf] at hread
    exact ⟨(Except.ok.inj hread).symm, rfl⟩
  · rintro d' e rfl hread
    rw [hf] at hread
    cases hread

/-- The scan of a segment whose header parses cuts it off behind the frames of the walk. -/
theorem scanTail_scanned {d : Disk} {id hid : ℕ} {f : SegFile} {fs : List Bytes} {rest : Bytes}
    (hf : d.wal[id]? = some f) (hheader : parseSegmentHeader f.bytes = .ok hid)
    (hcut : Cut crc f.bytes.length (f.bytes.drop segmentHeaderBytes) fs rest) :
    Triple noFault (· = d) (scanTail crc id)
      (fun r d' ↦ r = .scanned fs.length rest.length ∧
        d' = d.amended id (segmentHeaderBytes + fs.flatten.length)) E C := by
  have hlen := segmentHeaderBytes_le_length hheader
  have hsum := congrArg List.length hcut.eq_append
  rw [List.length_drop, List.length_append] at hsum
  refine .bind (readTail_noFault hf) fun bytes ↦ .intro ?_
  rintro d' ⟨rfl, rfl⟩
  rw [hheader]
  simp only [(scan_eq rfl hcut (List.length_drop.trans_le (Nat.sub_le _ _))).1, Nat.zero_add]
  by_cases hshort : segmentHeaderBytes + fs.flatten.length < f.bytes.length
  · rw [if_pos hshort]
    refine .bind (Io.step_noFault (Q := fun _ d'' ↦
        d'' = d'.onSegment id (SegFile.truncate (segmentHeaderBytes + fs.flatten.length)))
        fun _ hd ↦ by rw [hd])
      fun _ ↦ .bind (Io.step_noFault (Q := fun _ d'' ↦
        d'' = d'.amended id (segmentHeaderBytes + fs.flatten.length)) ?_) fun _ ↦ .ret ?_
    · rintro d'' rfl
      refine Disk.onSegment_onSegment id fun g hg ↦ ?_
      rw [hf, Option.some.injEq] at hg
      rw [SegFile.amend, ← hg, if_pos hshort]
    · rintro d'' rfl
      exact ⟨by congr 1; omega, rfl⟩
  · rw [if_neg hshort]
    refine .ret ?_
    rintro d'' rfl
    have hrest : rest.length = 0 := by omega
    refine ⟨by rw [hrest], (Disk.onSegment_self fun g hg ↦ ?_).symm⟩
    rw [hf, Option.some.injEq] at hg
    rw [SegFile.amend, ← hg, if_neg hshort]

private theorem scanTail_unparsed {d : Disk} {id : ℕ} {f : SegFile} {err : DecodeError}
    (hf : d.wal[id]? = some f) (hheader : parseSegmentHeader f.bytes = .error err) :
    Triple noFault (· = d) (scanTail crc id)
      (fun r d' ↦ r = .ofError err ∧ d' = d) E C := by
  refine .bind (readTail_noFault hf) fun bytes ↦ .intro ?_
  rintro d' ⟨rfl, rfl⟩
  rw [hheader]
  exact .ret fun d'' hd ↦ ⟨rfl, hd⟩

/-- What recovery reports before it looks at the tail. -/
def Disk.recovery (d : Disk) (watermark : ℕ) : Recovery where
  deleted := d.flushed watermark
  nextSegment := max (d.wal.keys.getLast?.getD 0) watermark + 1

/-- What recovery does without faults, by what the tail's header turns out to be. -/
inductive Recovers (crc : Bytes → UInt32) (watermark : ℕ) (d : Disk) : Recovery → Disk → Prop
  | empty (h : ∀ tail, ¬ d.IsTail watermark tail) :
      Recovers crc watermark d
        { d.recovery watermark with pending := d.unflushed watermark }
        (d.without (d.flushed watermark))
  | scanned {tail hid : ℕ} {f : SegFile} {fs : List Bytes} {rest : Bytes}
      (htail : d.IsTail watermark tail) (hf : d.wal[tail]? = some f)
      (hheader : parseSegmentHeader f.bytes = .ok hid)
      (hcut : Cut crc f.bytes.length (f.bytes.drop segmentHeaderBytes) fs rest) :
      Recovers crc watermark d
        { d.recovery watermark with
          tail := some tail, tailFrames := fs.length, discardedBytes := rest.length
          pending := d.unflushed watermark }
        ((d.without (d.flushed watermark)).amended tail (segmentHeaderBytes + fs.flatten.length))
  | absent {tail needed got : ℕ} {f : SegFile} (htail : d.IsTail watermark tail)
      (hf : d.wal[tail]? = some f)
      (hheader : parseSegmentHeader f.bytes = .error (.truncated needed got)) :
      Recovers crc watermark d
        { d.recovery watermark with
          deleted := d.flushed watermark ++ [tail], discardedBytes := f.bytes.length
          pending := (d.unflushed watermark).dropLast }
        (d.without (d.flushed watermark ++ [tail]))
  | corrupt {tail : ℕ} {f : SegFile} {reason : String} (htail : d.IsTail watermark tail)
      (hf : d.wal[tail]? = some f)
      (hheader : parseSegmentHeader f.bytes = .error (.corrupt reason))
      (hreason : reason ≠ unsupportedVersion) :
      Recovers crc watermark d
        { d.recovery watermark with
          quarantined := [tail], pending := (d.unflushed watermark).dropLast }
        ((d.without (d.flushed watermark)).quarantined tail f.bytes)

/-- Recovery refuses the directory: the tail is of another format version. -/
def Refuses (watermark : ℕ) (d : Disk) (e : Error) (d' : Disk) : Prop :=
  ∃ tail f, d.IsTail watermark tail ∧ d.wal[tail]? = some f ∧
    parseSegmentHeader f.bytes = .error (.corrupt unsupportedVersion) ∧
    e = .config (.unsupportedSegment tail) ∧ d' = d.without (d.flushed watermark)

theorem quarantineSegment_noFault {d : Disk} {id : ℕ} {f : SegFile} (hf : d.wal[id]? = some f) :
    Triple noFault (· = d) (quarantineSegment id) (fun _ d' ↦ d' = d.quarantined id f.bytes)
      E C := by
  refine .bind (Io.op_noFault (Q := fun _ d' ↦ d' = d.quarantined id f.bytes) ?_ ?_)
    fun _ ↦ Io.touch_noFault
  · rintro d' a d'' rfl hact
    rw [hf] at hact
    exact (Prod.mk.inj (Except.ok.inj hact)).2.symm
  · rintro d' e rfl hact
    rw [hf] at hact
    cases hact

/-- **Recovery without faults.** -/
theorem recover_noFault (crc : Bytes → UInt32) (watermark : ℕ) (d : Disk) :
    Triple noFault (· = d) (recover crc watermark) (Recovers crc watermark d) (Refuses watermark d)
      fun _ ↦ False := by
  refine .bind Io.touch_noFault fun _ ↦ .bind Io.touch_noFault fun _ ↦
    .bind (Q := fun ids d' ↦ ids = d.wal.keys ∧ d' = d) (Io.read_noFault ?_ ?_) fun ids ↦ .intro ?_
  · rintro d' ids rfl hread
    exact ⟨(Except.ok.inj hread).symm, rfl⟩
  · rintro d' e - hread
    cases hread
  rintro d' ⟨rfl, rfl⟩
  refine .bind (deleteFlushed_noFault _) fun _ ↦ ?_
  change Triple noFault (· = d'.without (d'.flushed watermark))
    (recoverTail crc (d'.recovery watermark) (d'.unflushed watermark)) _ _ _
  rw [recoverTail]
  cases htail : (d'.unflushed watermark).getLast? with
  | none =>
    refine .ret ?_
    rintro d'' rfl
    refine .empty fun tail ht ↦ ?_
    rw [Disk.getLast?_unflushed.2 ht] at htail
    cases htail
  | some tail =>
    rw [Disk.getLast?_unflushed] at htail
    obtain ⟨f, hf⟩ :=
      Option.isSome_iff_exists.1 (Std.ExtTreeMap.isSome_getElem?_iff_mem.2 htail.mem)
    have hleft : (d'.without (d'.flushed watermark)).wal[tail]? = some f :=
      (Disk.getElem?_without_flushed htail.above).trans hf
    dsimp only
    cases hheader : parseSegmentHeader f.bytes with
    | ok hid =>
      obtain ⟨fs, rest, hcut⟩ := exists_cut crc f.bytes.length (f.bytes.drop segmentHeaderBytes)
      refine .bind (scanTail_scanned hleft hheader hcut) fun r ↦ .intro ?_
      rintro d'' ⟨rfl, rfl⟩
      refine .ret ?_
      rintro d'' rfl
      exact .scanned htail hf hheader hcut
    | error err =>
      refine .bind (scanTail_unparsed hleft hheader) fun r ↦ .intro ?_
      rintro d'' ⟨rfl, rfl⟩
      cases err with
      | truncated needed got =>
        refine .look_bind (.bind (removeSegment_noFault tail) fun _ ↦
          .bind Io.touch_noFault fun _ ↦ .ret ?_)
        rintro d'' rfl
        rw [← Disk.without_concat, hleft]
        have hrecovers : Recovers crc watermark d' _ _ := .absent htail hf hheader
        simpa [Disk.recovery] using hrecovers
      | corrupt reason =>
        simp only [TailHeader.ofError]
        by_cases hreason : reason = unsupportedVersion
        · rw [if_pos hreason]
          refine .fail ?_
          rintro d'' rfl
          exact ⟨tail, f, htail, hf, hreason ▸ hheader, rfl, rfl⟩
        · rw [if_neg hreason]
          refine .bind (quarantineSegment_noFault hleft) fun _ ↦ .ret ?_
          rintro d'' rfl
          exact .corrupt htail hf hheader hreason

end Orc
