import Mathlib.Algebra.Order.BigOperators.Group.List
import Orc.Codec.RoundTrip
import Orc.Disk
import Orc.Flush.Batch
import Orc.Order.Heap

/-!
# Sorted runs and their merge

A batch over the memory budget is spilled to `runs/`: one file per group, sorted, with the arrival
of each record ahead of its frame. The merge reads any number of sorted sources through a heap and
passes each record to a sink, skipping a record with the timestamp and id of the one before. If
there are more runs than may be open at once, the smallest are merged into new ones first.

The heap holds the sources themselves, where the source code has their indices.

## What the merge computes

`Source.contents` lists the records a source has left. The sink sees the records of all sources in
normal form (`merge_triple`): in order, and of each timestamp and id the one that arrived first. The
loop takes a number of turns; the lemmas show that it suffices.
-/

namespace Orc

open Bytes Fault Order

/-- Bytes ahead of each frame: the arrival pair. -/
def arrivalBytes : ℕ := 16

/-- A run file that does not read as one. -/
def corruptRun : Error := .io .invalidData

/-! ## Run files -/

/-- One entry of a run. -/
def runEntry (arrival : ℕ × ℕ) (frame : Bytes) : Bytes :=
  leBytes 8 arrival.1 ++ leBytes 8 arrival.2 ++ frame

namespace RunWriter

def create (run : ℕ) : Io Unit :=
  Io.step .runCreate fun d ↦ { d with runs := d.runs.insert run [] }

def push (run : ℕ) (arrival : ℕ × ℕ) (frame : Bytes) : Io Unit := do
  let (_, whole) ← Prog.write .runWrite (runEntry arrival frame).length fun n (d : Disk) ↦
    { d with runs := d.runs.insert run (d.runs.getD run [] ++ (runEntry arrival frame).take n) }
  if whole then pure () else Prog.fail ioError

/-- Flush the buffer; no fsync. -/
def finish : Io Unit := Io.touch .runWrite

end RunWriter

/-- Read one entry: `none` at a clean end of the file. A truncated entry is an error. The frame is
checked for its structure only, not for its checksum. -/
def readEntry (input : Bytes) : Except Error (Option (Head × Bytes)) :=
  if input = [] then
    .ok none
  else if input.length < arrivalBytes + frameHeaderBytes then
    .error corruptRun
  else
    let seg := leNat (input.take 8)
    let off := leNat ((input.drop 8).take 8)
    let len := leNat ((input.drop arrivalBytes).take 4)
    let rest := input.drop arrivalBytes
    if rest.length < frameHeaderBytes + len then
      .error corruptRun
    else
      match verifiedSortKey (rest.take (frameHeaderBytes + len)) with
      | .error _ => .error corruptRun
      | .ok (ts, id, _) =>
        .ok (some (⟨ts, id, (seg, off), rest.take (frameHeaderBytes + len)⟩,
          rest.drop (frameHeaderBytes + len)))

/-! ## Sources -/

/-- A sorted stream of records, positioned on one: what is left of a group of the batch in memory,
or of a run. -/
inductive Source where
  | mem (head : Head) (rest : List Head)
  | run (head : Head) (input : Bytes)
  deriving DecidableEq

namespace Source

def head : Source → Head
  | mem h _ => h
  | run h _ => h

/-- Position a reader on the next entry of its input. -/
def readNext (input : Bytes) : Io (Option Source) := do
  let entry ← Io.read .runRead fun _ ↦ readEntry input
  return entry.map fun (h, rest) ↦ run h rest

/-- Move to the next record; `none` once there is none. -/
def advance : Source → Io (Option Source)
  | mem _ [] => pure none
  | mem _ (h :: rest) => pure (some (mem h rest))
  | run _ input => readNext input

/-- A run, positioned on its first entry, or `none` if it is empty. -/
def openRun (path : ℕ) : Io (Option Source) := do
  let input ← Io.read .runOpen fun d : Disk ↦
    match d.runs[path]? with
    | none => .error (.io .notFound)
    | some input => .ok input
  readNext input

/-- A source for the records of a group, if there are any. -/
def ofHeads : List Head → Option Source
  | [] => none
  | h :: rest => some (mem h rest)

/-- The order of the merge: by timestamp and id, then by arrival. -/
def key (s : Source) : (ℕ ×ₗ Bytes) ×ₗ (ℕ ×ₗ ℕ) := toLex (s.head.key, s.head.rank)

/-- At least the number of records left. -/
def size : Source → ℕ
  | mem _ rest => rest.length + 1
  | run _ input => input.length + 1

end Source

/-- The runs that are not empty. -/
def openRuns (runs : List ℕ) : Io (List Source) :=
  runs.foldlM (fun out path ↦ do return out ++ (← Source.openRun path).toList) []

/-! ## The merge -/

structure MergeStats where
  emitted : ℕ := 0
  /-- Dropped because an earlier arrival had the same timestamp and id. -/
  deduplicated : ℕ := 0
  deriving DecidableEq, Repr

/-- The sink, the counts, and the timestamp and id emitted last. -/
structure MergeState (σ : Type) where
  out : σ
  stats : MergeStats := {}
  last : Option (UInt64 × Bytes) := none

section Merge

variable {σ : Type}

/-- Pass a record on, unless it has the timestamp and id of the last one. -/
def MergeState.emit (sink : σ → Head → Io σ) (s : MergeState σ) (h : Head) : Io (MergeState σ) :=
  if s.last = some (h.ts, h.id) then
    return { s with stats.deduplicated := s.stats.deduplicated + 1 }
  else do
    let out ← sink s.out h
    return ⟨out, { s.stats with emitted := s.stats.emitted + 1 }, some (h.ts, h.id)⟩

/-- The heap once its first source has moved on. -/
def reheap (heap : List Source) : Option Source → List Source
  | some next => replaceTop Source.key heap next
  | none => removeTop Source.key heap

/-- The loop of the merge, for a number of turns. -/
def mergeLoop (sink : σ → Head → Io σ) : ℕ → List Source → MergeState σ → Io (MergeState σ)
  | 0, _, s => pure s
  | _ + 1, [], s => pure s
  | fuel + 1, top :: rest, s => do
    let s ← s.emit sink top.head
    let next ← top.advance
    mergeLoop sink fuel (reheap (top :: rest) next) s

/-- Stream sorted sources to a sink, keeping only the first arrival of each timestamp and id. -/
def merge (sources : List Source) (sink : σ → Head → Io σ) (init : σ) : Io (σ × MergeStats) := do
  let heap := build Source.key (sources.length / 2) sources
  let s ← mergeLoop sink (sources.map Source.size).sum heap { out := init }
  return (s.out, s.stats)

/-! ## Bounded fan-in -/

/-- The size of a run; 0 if it cannot be told. -/
def runSize (path : ℕ) : Io ℕ := do
  match ← Prog.attempt (Io.read .runStat fun d : Disk ↦
    match d.runs[path]? with
    | none => .error (.io .notFound)
    | some input => .ok input.length) with
  | .ok n => return n
  | .error _ => return 0

/-- Runs by size, the smallest first; the sort is stable. -/
def sortBySize (runs : List ℕ) : Io (List ℕ) := do
  let sizes ← runs.foldlM (fun out path ↦ do return out ++ [(← runSize path, path)]) []
  return (sizes.insertionSort fun a b : ℕ × ℕ ↦ a.1 ≤ b.1).map Prod.snd

/-- The runs of a group between two intermediate merges, the number of the last run created, and the
records dropped so far. -/
structure Pool where
  runs : List ℕ
  next : ℕ
  deduplicated : ℕ := 0
  deriving DecidableEq, Repr

/-- Merge the smallest runs into a new one, only as many as needed, and delete them. -/
def Pool.shrink (p : Pool) (fanIn inMemory : ℕ) : Io Pool := do
  let n := min (p.runs.length + inMemory - fanIn + 1) fanIn
  let runs ← sortBySize p.runs
  let batch := runs.take n
  let path := p.next + 1
  RunWriter.create path
  let sources ← openRuns batch
  let (_, stats) ← merge sources (fun _ h ↦ RunWriter.push path h.arrival h.frame) ()
  RunWriter.finish
  batch.forM fun run ↦ Io.ignore
    (Io.step .runRemove fun d : Disk ↦ { d with runs := d.runs.erase run })
  return ⟨runs.drop n ++ [path], path, p.deduplicated + stats.deduplicated⟩

/-- Merge runs until no more than `fanIn` sources are left, for a number of turns. -/
def shrinkLoop (fanIn inMemory : ℕ) : ℕ → Pool → Io Pool
  | 0, p => pure p
  | fuel + 1, p =>
    if fanIn < p.runs.length + inMemory then do
      let p ← p.shrink fanIn inMemory
      shrinkLoop fanIn inMemory fuel p
    else
      pure p

/-- `merge` over runs and a source in memory, with at most `fanIn` sources open. Returns also the
number of the last run created. -/
def mergeBounded (runs : List ℕ) (memory : Option Source) (fanIn next : ℕ) (sink : σ → Head → Io σ)
    (init : σ) : Io (σ × MergeStats × ℕ) := do
  let fanIn := max fanIn 2
  let p ← shrinkLoop fanIn memory.toList.length runs.length { runs, next }
  let sources ← openRuns p.runs
  let (out, stats) ← merge (sources ++ memory.toList) sink init
  return (out, { stats with deduplicated := stats.deduplicated + p.deduplicated }, p.next)

end Merge

/-! ## What a source holds -/

/-- A record that is read back from a run as it was written. -/
def Head.Stored (h : Head) : Prop :=
  ∀ rest, readEntry (runEntry h.arrival h.frame ++ rest) = .ok (some (h, rest))

/-- The length field of a frame that has a sort key. -/
theorem leNat_take_of_sortKey {frame : Bytes} {ts : UInt64} {id : Bytes}
    (hkey : verifiedSortKey frame = .ok (ts, id, frame.length)) (rest : Bytes) :
    frameHeaderBytes + leNat ((frame ++ rest).take 4) = frame.length := by
  simp only [verifiedSortKey, Except.bind_eq_ok] at hkey
  obtain ⟨⟨payload, n⟩, hextent, ⟨⟨ts', id'⟩, more⟩, -, hret⟩ := hkey
  obtain ⟨sum, tail, hsum, hframe, hadm, rfl⟩ := frameExtent_eq_ok.1 hextent
  have hlen : frameHeaderBytes + payload.length = frame.length :=
    congrArg (fun k : UInt64 × Bytes × ℕ ↦ k.2.2) (Except.ok.inj hret)
  rw [← hlen, hframe, List.append_assoc, List.take_left' (length_leBytes 4 _),
    leNat_leBytes_of_lt (Nat.lt_succ_of_le hadm.u32)]

/-- A record is read back, if its key is that of its frame and its arrival fits the width it is
stored in. -/
theorem stored_of_sortKey {h : Head}
    (hkey : verifiedSortKey h.frame = .ok (h.ts, h.id, h.frame.length))
    (hseg : h.arrival.1 < 2 ^ 64) (hoff : h.arrival.2 < 2 ^ 64) : h.Stored := by
  obtain ⟨ts, id, arrival, frame⟩ := h
  dsimp only at hkey hseg hoff
  intro rest
  have hfield := leNat_take_of_sortKey hkey rest
  have h8 : (leBytes 8 arrival.1).length = 8 := length_leBytes 8 _
  have h8' : (leBytes 8 arrival.2).length = 8 := length_leBytes 8 _
  have hdrop : (runEntry arrival frame ++ rest).drop arrivalBytes = frame ++ rest := by
    rw [runEntry, List.append_assoc, List.drop_left']
    rw [List.length_append, h8, h8']
    rfl
  have hne : runEntry arrival frame ++ rest ≠ [] := by
    intro h
    have := congrArg List.length h
    simp [runEntry] at this
  have hlong : ¬ (runEntry arrival frame ++ rest).length < arrivalBytes + frameHeaderBytes := by
    simp only [runEntry, List.length_append, h8, h8', arrivalBytes]
    omega
  rw [readEntry, if_neg hne, if_neg hlong]
  dsimp only
  rw [hdrop, hfield, if_neg (by rw [List.length_append]; omega), List.take_left, hkey,
    List.drop_left]
  simp only [runEntry, List.append_assoc, List.take_left' h8, List.drop_left' h8,
    List.take_left' h8', leNat_leBytes_of_lt (show arrival.1 < 256 ^ 8 by omega),
    leNat_leBytes_of_lt (show arrival.2 < 256 ^ 8 by omega)]

/-- The record of a frame is read back, if its arrival fits the width it is stored in. -/
theorem stored_frameBytes {crc : Bytes → UInt32} {r : RecordRef} {arrival : ℕ × ℕ} (hfits : r.Fits)
    (hlen : (payloadBytes r).length ≤ u32Max) (hseg : arrival.1 < 2 ^ 64)
    (hoff : arrival.2 < 2 ^ 64) :
    Head.Stored ⟨r.ts, utf8 r.id, arrival, frameBytes crc (payloadBytes r)⟩ := by
  have hkey := verifiedSortKey_frameBytes crc hfits hlen []
  rw [List.append_nil, ← length_frameBytes crc] at hkey
  exact stored_of_sortKey hkey hseg hoff

/-- The bytes of a run with these records. -/
def runBytes (hs : List Head) : Bytes := hs.flatMap fun h ↦ runEntry h.arrival h.frame

/-- The records of a run, up to a number of them. -/
def readEntries : ℕ → Bytes → List Head
  | 0, _ => []
  | fuel + 1, input =>
    match readEntry input with
    | .ok (some (h, rest)) => h :: readEntries fuel rest
    | _ => []

theorem length_le_length_runBytes (hs : List Head) : hs.length ≤ (runBytes hs).length := by
  induction hs with
  | nil => exact Nat.zero_le _
  | cons h hs ih =>
    rw [runBytes, List.flatMap_cons, List.length_append, runEntry]
    simp only [List.length_append, length_leBytes, List.length_cons]
    change hs.length ≤ (hs.flatMap _).length at ih
    omega

private theorem readEntries_runBytes {hs : List Head} (h : ∀ x ∈ hs, x.Stored) {fuel : ℕ}
    (hfuel : hs.length ≤ fuel) : readEntries fuel (runBytes hs) = hs := by
  induction hs generalizing fuel with
  | nil => cases fuel <;> rfl
  | cons x hs ih =>
    rw [List.forall_mem_cons] at h
    obtain ⟨fuel, rfl⟩ : ∃ n, fuel = n + 1 := Nat.exists_eq_add_one.2 (by simp at hfuel; omega)
    have hread : readEntry (runBytes (x :: hs)) = .ok (some (x, runBytes hs)) := h.1 _
    rw [readEntries, hread]
    dsimp only
    rw [ih h.2 (Nat.le_of_succ_le_succ hfuel)]

/-- The order of records. -/
abbrev headLE : Head → Head → Prop := rankLE Head.key Head.rank

namespace Source

/-- The records a source has left. -/
def contents : Source → List Head
  | mem h rest => h :: rest
  | run h input => h :: readEntries input.length input

/-- What a source is positioned over reads as sorted records. -/
structure Ok (s : Source) : Prop where
  reads : ∀ h input, s = run h input → ∃ hs : List Head, (∀ x ∈ hs, x.Stored) ∧ input = runBytes hs
  sorted : s.contents.Pairwise headLE

theorem contents_run {h : Head} {hs : List Head} (hstored : ∀ x ∈ hs, x.Stored) :
    (run h (runBytes hs)).contents = h :: hs := by
  rw [contents, readEntries_runBytes hstored (length_le_length_runBytes hs)]

private theorem length_contents_le {s : Source} (hok : s.Ok) : s.contents.length ≤ s.size := by
  cases s with
  | mem h rest => exact le_rfl
  | run h input =>
    obtain ⟨hs, hstored, rfl⟩ := hok.reads h input rfl
    rw [contents_run hstored]
    exact Nat.succ_le_succ (length_le_length_runBytes hs)

private theorem head_le {s : Source} (hs : s.Ok) {x : Head} (hx : x ∈ s.contents) :
    headLE s.head x := by
  have hsorted := hs.sorted
  cases s with
  | mem h rest =>
    rcases List.mem_cons.1 hx with rfl | hx
    · exact le_rfl
    · exact (List.pairwise_cons.1 hsorted).1 x hx
  | run h input =>
    rcases List.mem_cons.1 hx with rfl | hx
    · exact le_rfl
    · exact (List.pairwise_cons.1 hsorted).1 x hx

end Source

/-! ## Moving on -/

/-- A source for the records `hs`, or none if there are no records. -/
structure Yields (r : Option Source) (hs : List Head) : Prop where
  contents : r.elim [] Source.contents = hs
  ok : ∀ s, r = some s → s.Ok

theorem Yields.flatMap_contents {r : Option Source} {hs : List Head} (h : Yields r hs) :
    r.toList.flatMap Source.contents = hs := by
  rw [← h.contents]
  cases r <;> simp

theorem yields_ofHeads {hs : List Head} (hsorted : hs.Pairwise headLE) :
    Yields (Source.ofHeads hs) hs := by
  cases hs with
  | nil => exact ⟨rfl, nofun⟩
  | cons h hs =>
    refine ⟨rfl, ?_⟩
    rintro s ⟨⟩
    exact ⟨nofun, hsorted⟩

section Triples

variable {o : Oracle Op} {J P : Disk → Prop} {E : Error → Disk → Prop} {C : Disk → Prop}

namespace Source

/-- Reading an entry of a run that reads as sorted records. -/
theorem readNext_triple {hs : List Head} (hx : Exits Op.onFiles o J ioError E C)
    (hJ : ∀ d, P d → J d) (hstored : ∀ x ∈ hs, x.Stored) (hsorted : hs.Pairwise headLE) :
    Triple o P (readNext (runBytes hs)) (fun r d ↦ P d ∧ Yields r hs) E C := by
  cases hs with
  | nil =>
    refine .bind (Q := fun r d ↦ P d ∧ r = none) (Io.read_exits hx hJ ?_ ?_) fun r ↦ .ret ?_
    · rintro d r hd hread
      exact ⟨hd, (Except.ok.inj hread).symm⟩
    · rintro d e - hread
      cases hread
    · rintro d ⟨hd, rfl⟩
      exact ⟨hd, rfl, by simp⟩
  | cons h hs =>
    rw [List.forall_mem_cons] at hstored
    have hentry : readEntry (runBytes (h :: hs)) = .ok (some (h, runBytes hs)) := hstored.1 _
    refine .bind (Q := fun r d ↦ P d ∧ r = some (h, runBytes hs)) (Io.read_exits hx hJ ?_ ?_)
      fun r ↦ .ret ?_
    · rintro d r hd hread
      rw [hentry] at hread
      exact ⟨hd, (Except.ok.inj hread).symm⟩
    · rintro d e - hread
      rw [hentry] at hread
      cases hread
    · rintro d ⟨hd, rfl⟩
      refine ⟨hd, contents_run hstored.2, ?_⟩
      rintro s ⟨⟩
      refine ⟨?_, by rwa [contents_run hstored.2]⟩
      rintro x input ⟨⟩
      exact ⟨hs, hstored.2, rfl⟩

theorem advance_triple {s : Source} (hs : s.Ok) (hx : Exits Op.onFiles o J ioError E C)
    (hJ : ∀ d, P d → J d) :
    Triple o P s.advance (fun r d ↦ P d ∧ Yields r s.contents.tail) E C := by
  cases s with
  | mem h rest =>
    cases rest with
    | nil => exact .ret fun d hd ↦ ⟨hd, rfl, by simp⟩
    | cons x rest =>
      refine .ret fun d hd ↦ ⟨hd, rfl, ?_⟩
      rintro s ⟨⟩
      exact ⟨by simp, (List.pairwise_cons.1 hs.sorted).2⟩
  | run h input =>
    obtain ⟨hrest, hstored, rfl⟩ := hs.reads h input rfl
    have hsorted := hs.sorted
    rw [contents_run hstored] at hsorted
    rw [contents_run hstored]
    exact readNext_triple hx hJ hstored (List.pairwise_cons.1 hsorted).2

theorem contents_eq (s : Source) : s.contents = s.head :: s.contents.tail := by
  cases s <;> rfl

theorem key_le_iff {s t : Source} : s.key ≤ t.key ↔ headLE s.head t.head := Iff.rfl

end Source

private theorem perm_flatMap_reheap (top : Source) (rest : List Source) (next : Option Source) :
    ((reheap (top :: rest) next).flatMap Source.contents).Perm
      (next.elim [] Source.contents ++ rest.flatMap Source.contents) := by
  cases next with
  | none => exact (perm_removeTop top rest).flatMap_right _
  | some s => exact (perm_replaceTop top s rest).flatMap_right _

private theorem mem_reheap {top : Source} {rest : List Source} {next : Option Source} {s : Source}
    (h : s ∈ reheap (top :: rest) next) : next = some s ∨ s ∈ rest := by
  cases next with
  | none => exact .inr ((perm_removeTop top rest).mem_iff.1 h)
  | some t =>
    rcases List.mem_cons.1 ((perm_replaceTop top t rest).mem_iff.1 h) with rfl | h
    · exact .inl rfl
    · exact .inr h

private theorem reheap_ordered {heap : List Source} (h : Ordered Source.key 0 heap)
    (next : Option Source) : Ordered Source.key 0 (reheap heap next) := by
  cases next with
  | none => exact removeTop_ordered h
  | some s => exact replaceTop_ordered h s

private theorem head_le_of_ordered {top : Source} {rest : List Source}
    (hord : Ordered Source.key 0 (top :: rest)) (hok : ∀ s ∈ top :: rest, s.Ok) {x : Head}
    (hx : x ∈ (top :: rest).flatMap Source.contents) : headLE top.head x := by
  obtain ⟨s, hs, hxs⟩ := List.mem_flatMap.1 hx
  exact le_trans (Source.key_le_iff.1 (le_of_ordered hord rfl hs)) (Source.head_le (hok s hs) hxs)

/-! ## The loop -/

/-- The key of what was emitted last. -/
def lastKey (last : UInt64 × Bytes) : ℕ ×ₗ Bytes := toLex (last.1.toNat, last.2)

private theorem map_lastKey_eq {last : Option (UInt64 × Bytes)} {h : Head} :
    last.map lastKey = some h.key ↔ last = some (h.ts, h.id) := by
  constructor
  · intro hmap
    obtain ⟨⟨ts, id⟩, rfl, hkey⟩ := Option.map_eq_some_iff.1 hmap
    obtain ⟨hts, hid⟩ := Prod.mk.inj (toLex.injective hkey)
    exact congrArg some (Prod.ext (UInt64.toNat_inj.1 hts) hid)
  · rintro rfl
    rfl

private theorem sorted_eq_cons {top : Source} {rest : List Source} {sorted : List Head}
    (hok : ∀ s ∈ top :: rest, s.Ok) (hord : Ordered Source.key 0 (top :: rest))
    (hperm : sorted.Perm ((top :: rest).flatMap Source.contents))
    (hsorted : sorted.Pairwise headLE) (hranked : Ranked Head.key Head.rank sorted) :
    ∃ more, sorted = top.head :: more ∧
      more.Perm (top.contents.tail ++ rest.flatMap Source.contents) := by
  have hcontents : (top :: rest).flatMap Source.contents =
      top.head :: (top.contents.tail ++ rest.flatMap Source.contents) := by
    rw [List.flatMap_cons, top.contents_eq]
    rfl
  have htop : top.head ∈ sorted := hperm.mem_iff.2 (hcontents ▸ List.mem_cons_self)
  obtain ⟨y, more, rfl⟩ := List.exists_cons_of_ne_nil (List.ne_nil_of_mem htop)
  -- the first of the sorted records and the record on top are in front of each other
  have hle : headLE top.head y :=
    head_le_of_ordered hord hok (hperm.subset List.mem_cons_self)
  have hge : headLE y top.head := by
    rcases List.mem_cons.1 htop with heq | hmem
    · exact heq ▸ le_rfl
    · exact (List.pairwise_cons.1 hsorted).1 _ hmem
  obtain ⟨hkey, hrank⟩ := Prod.mk.inj (toLex.injective (le_antisymm hle hge))
  obtain rfl := hranked _ htop _ List.mem_cons_self hkey hrank
  exact ⟨more, rfl, (List.perm_cons _).1 (hcontents ▸ hperm)⟩

section Loop

variable {σ : Type} {sink : σ → Head → Io σ} {I : List Head → σ → Disk → Prop} {all : List Head}

theorem MergeState.emit_triple
    (hsink : ∀ done h rest s, all = done ++ h :: rest →
      Triple o (I done s) (sink s h) (fun s' ↦ I (done ++ [h]) s') E C)
    {h : Head} {more : List Head} {s : MergeState σ} {done : List Head}
    (hall : all = done ++ keepFirstFrom Head.key (s.last.map lastKey) (h :: more)) :
    Triple o (I done s.out) (s.emit sink h)
      (fun s' d ↦ ∃ done', I done' s'.out d ∧
        all = done' ++ keepFirstFrom Head.key (s'.last.map lastKey) more ∧
        s'.stats.emitted + (keepFirstFrom Head.key (s'.last.map lastKey) more).length =
          s.stats.emitted + (keepFirstFrom Head.key (s.last.map lastKey) (h :: more)).length ∧
        s'.stats.emitted + s'.stats.deduplicated =
          s.stats.emitted + s.stats.deduplicated + 1) E C := by
  -- one record of the sorted ones left: it is passed on, or is a duplicate of the last
  rw [MergeState.emit]
  by_cases hdup : s.last = some (h.ts, h.id)
  · have hskip : keepFirstFrom Head.key (s.last.map lastKey) (h :: more) =
        keepFirstFrom Head.key (s.last.map lastKey) more := by
      rw [keepFirstFrom, if_pos (map_lastKey_eq.2 hdup)]
    rw [hskip] at hall ⊢
    rw [if_pos hdup]
    exact .ret fun d hd ↦ ⟨done, hd, hall, rfl, (Nat.add_assoc ..).symm⟩
  · have hkeep : keepFirstFrom Head.key (s.last.map lastKey) (h :: more) =
        h :: keepFirstFrom Head.key (some h.key) more := by
      rw [keepFirstFrom, if_neg (mt map_lastKey_eq.1 hdup)]
    rw [hkeep] at hall ⊢
    rw [if_neg hdup]
    refine .bind (hsink done h _ s.out hall) fun out ↦ .ret fun d hd ↦
      ⟨done ++ [h], hd, ?_, Nat.add_right_comm .., Nat.add_right_comm ..⟩
    rw [hall, List.append_assoc]
    rfl

/-- **The loop of the merge** passes the records left on to the sink in order, each timestamp and id
once. The sink is described by an invariant on the records it has seen; `all` are the records it
sees in the end. -/
theorem mergeLoop_triple (hx : Exits Op.onFiles o J ioError E C)
    (hIJ : ∀ done s d, I done s d → J d) (hsink : ∀ done h rest s, all = done ++ h :: rest →
      Triple o (I done s) (sink s h) (fun s' ↦ I (done ++ [h]) s') E C)
    {sorted : List Head} {fuel : ℕ} {heap : List Source} {s : MergeState σ} {done : List Head}
    (hok : ∀ x ∈ heap, x.Ok) (hord : Ordered Source.key 0 heap)
    (hperm : sorted.Perm (heap.flatMap Source.contents)) (hsorted : sorted.Pairwise headLE)
    (hranked : Ranked Head.key Head.rank sorted)
    (hall : all = done ++ keepFirstFrom Head.key (s.last.map lastKey) sorted)
    (hfuel : sorted.length ≤ fuel) :
    Triple o (I done s.out) (mergeLoop sink fuel heap s)
      (fun s' d ↦ I all s'.out d ∧
        s'.stats.emitted = s.stats.emitted +
          (keepFirstFrom Head.key (s.last.map lastKey) sorted).length ∧
        s'.stats.emitted + s'.stats.deduplicated =
          s.stats.emitted + s.stats.deduplicated + sorted.length) E C := by
  -- the induction is on the sorted records left; the heap holds them in some arrangement
  induction sorted generalizing fuel heap s done with
  | nil =>
    have hheap : heap = [] := by
      cases heap with
      | nil => rfl
      | cons top rest =>
        rw [List.flatMap_cons, top.contents_eq] at hperm
        cases hperm.symm.eq_nil
    rw [keepFirstFrom, List.append_nil] at hall
    subst hheap hall
    have hret : mergeLoop sink fuel [] s = pure s := by cases fuel <;> rfl
    rw [hret]
    exact .ret fun d hd ↦ ⟨hd, rfl, rfl⟩
  | cons h more ih =>
    obtain ⟨fuel, rfl⟩ : ∃ n, fuel = n + 1 := Nat.exists_eq_add_one.2 (by simp at hfuel; omega)
    cases heap with
    | nil => cases hperm.eq_nil
    | cons top rest =>
      obtain ⟨more', heq, hmore⟩ := sorted_eq_cons hok hord hperm hsorted hranked
      obtain ⟨rfl, rfl⟩ := List.cons.inj heq
      have hranked' : Ranked Head.key Head.rank more :=
        hranked.mono fun x hx ↦ List.mem_cons_of_mem _ hx
      rw [mergeLoop]
      refine .bind (MergeState.emit_triple hsink hall) fun s₁ ↦ .intro ?_
      rintro d₁ ⟨done₁, hd₁, hall₁, hemitted₁, hcount₁⟩
      refine .bind
        ((Source.advance_triple (hok top List.mem_cons_self) hx (hIJ done₁ s₁.out)).pre ?_)
        fun next ↦ .intro ?_
      · rintro d rfl
        exact hd₁
      rintro d₂ ⟨hd₂, hnext⟩
      refine (ih ?_ (reheap_ordered hord next) ?_ (List.pairwise_cons.1 hsorted).2 hranked' hall₁
        (Nat.le_of_succ_le_succ hfuel)).conseq ?_ ?_ (fun _ _ ↦ id) (fun _ ↦ id)
      · intro x hmem
        rcases mem_reheap hmem with hx | hx
        · exact hnext.ok x hx
        · exact hok x (List.mem_cons_of_mem _ hx)
      · rw [← hnext.contents] at hmore
        exact hmore.trans (perm_flatMap_reheap top rest next).symm
      · rintro d rfl
        exact hd₂
      · rintro s' d ⟨hd, hemitted, hcount⟩
        rw [List.length_cons]
        exact ⟨hd, hemitted.trans hemitted₁, by omega⟩

/-- **The merge** passes to its sink the records of all sources, in normal form. -/
theorem merge_triple {sources : List Source} {init : σ} (hx : Exits Op.onFiles o J ioError E C)
    (hIJ : ∀ done s d, I done s d → J d) (hok : ∀ x ∈ sources, x.Ok)
    (hranked : Ranked Head.key Head.rank (sources.flatMap Source.contents))
    (hall : all = canon Head.key Head.rank (sources.flatMap Source.contents))
    (hsink : ∀ done h rest s, all = done ++ h :: rest →
      Triple o (I done s) (sink s h) (fun s' ↦ I (done ++ [h]) s') E C) :
    Triple o (I [] init) (merge sources sink init)
      (fun r d ↦ I all r.1 d ∧ r.2.emitted = all.length ∧
        r.2.emitted + r.2.deduplicated = (sources.flatMap Source.contents).length) E C := by
  have hbuild := perm_build (k := Source.key) (sources.length / 2) sources
  have hsort := List.perm_insertionSort headLE (sources.flatMap Source.contents)
  have hranked' := hranked.mono (l := (sources.flatMap Source.contents).insertionSort headLE)
    fun x hx ↦ hsort.subset hx
  have hkeep : all = [] ++ keepFirstFrom Head.key none
      ((sources.flatMap Source.contents).insertionSort headLE) := by
    rw [hall, ← keepFirst_eq_canon hranked hsort (List.pairwise_insertionSort _ _), List.nil_append]
    unfold keepFirst
    congr
  have hfuel : ((sources.flatMap Source.contents).insertionSort headLE).length ≤
      (sources.map Source.size).sum := by
    rw [List.length_insertionSort, List.length_flatMap]
    exact List.sum_le_sum fun s hs ↦ Source.length_contents_le (hok s hs)
  refine .bind (mergeLoop_triple hx hIJ hsink (s := { out := init })
    (fun x hmem ↦ hok x (hbuild.mem_iff.1 hmem)) (build_half_ordered sources)
    (hsort.trans (hbuild.flatMap_right _).symm) (List.pairwise_insertionSort _ _) hranked'
      hkeep hfuel)
    fun s ↦ .ret ?_
  rintro d ⟨hd, hemitted, hcount⟩
  refine ⟨hd, ?_, ?_⟩
  · rw [hkeep, hemitted]
    exact Nat.zero_add _
  · rw [hcount, List.length_insertionSort]
    exact Nat.zero_add _

end Loop

end Triples

end Orc
