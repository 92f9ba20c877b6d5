import Mathlib.Data.List.Sort
import Orc.Disk
import Orc.Names

/-!
# Listing the log directory

The segments of `wal/` are what their file names say they are. A name is read as an id exactly when
it is the name the engine gives to that id, so no two files claim one id and the ids of a listing
are strictly increasing, whatever else lies in the directory.

In the data directory segments are a map by id. Its keys are what listing the directory returns,
when the files with an engine's name are the segments.

The one thing that listing adds to the map is the parser of names, and so the theorem is about
names. A directory may hold the lock file, files moved aside and whatever an operator has put there.
-/

namespace Orc

open Bytes Text

/-- **A segment's name** has one spelling. -/
theorem parseSegmentName_eq_some_iff {name : String} {id : ℕ} :
    parseSegmentName name = some id ↔ id ≤ u64Max ∧ name = segmentName id := by
  simp only [parseSegmentName, Option.bind_eq_bind, Option.bind_eq_some_iff, stripSuffix_eq_some,
    parseSegmentField_eq_some_iff]
  constructor
  · rintro ⟨digits, htext, hle, rfl⟩
    exact ⟨hle, String.toList_inj.1 (htext.trans String.toList_ofList.symm)⟩
  · rintro ⟨hle, rfl⟩
    exact ⟨_, String.toList_ofList, hle, rfl⟩

/-- The id of a directory entry, by the bytes of its name. -/
def entryId (name : Bytes) : Option ℕ := (fromUtf8 name).bind parseSegmentName

/-- Every segment id in a directory, ascending, from what reading the directory and each of its
entries returned. A missing directory is empty, and other files are ignored. -/
def readSegmentIds (dir : Except IoKind (List (Except IoKind Bytes))) : Except Error (List ℕ) :=
  match dir with
  | .error .notFound => .ok []
  | .error e => .error (.io e)
  | .ok entries => do
    let names ← entries.mapM (Except.mapError Error.io)
    return (names.filterMap entryId).insertionSort (· ≤ ·)

theorem entryId_eq_some_iff {name : Bytes} {id : ℕ} :
    entryId name = some id ↔ id ≤ u64Max ∧ name = utf8 (segmentName id) := by
  simp only [entryId, Option.bind_eq_some_iff, fromUtf8_eq_some, parseSegmentName_eq_some_iff]
  constructor
  · rintro ⟨s, rfl, hle, rfl⟩
    exact ⟨hle, rfl⟩
  · rintro ⟨hle, rfl⟩
    exact ⟨_, rfl, hle, rfl⟩

theorem entryId_injective {a b : Bytes} {id : ℕ} (ha : entryId a = some id)
    (hb : entryId b = some id) : a = b := by
  rw [(entryId_eq_some_iff.1 ha).2, (entryId_eq_some_iff.1 hb).2]

theorem pairwise_lt_sorted_ids {names : List Bytes} (h : names.Nodup) :
    ((names.filterMap entryId).insertionSort (· ≤ ·)).Pairwise (· < ·) := by
  have hnodup : (names.filterMap entryId).Nodup :=
    h.filterMap fun a b id ha hb ↦ entryId_injective ha hb
  have hsorted := List.pairwise_insertionSort (· ≤ ·) (names.filterMap entryId)
  have hdistinct := (List.perm_insertionSort (· ≤ ·) (names.filterMap entryId)).nodup_iff.2 hnodup
  exact (hsorted.and hdistinct).imp fun hab ↦ lt_of_le_of_ne hab.1 hab.2

private theorem names_of_mapM_ok {entries : List (Except IoKind Bytes)} {names : List Bytes}
    (h : entries.mapM (Except.mapError Error.io) = .ok names) : entries = names.map .ok := by
  induction entries generalizing names with
  | nil =>
    cases h
    rfl
  | cons entry entries ih =>
    rw [List.mapM_cons] at h
    cases entry with
    | error e => cases h
    | ok name =>
      cases hrest : entries.mapM (Except.mapError Error.io) with
      | error e =>
        rw [hrest] at h
        cases h
      | ok rest =>
        rw [hrest] at h
        cases h
        rw [ih hrest]
        rfl

private theorem mapM_map_ok (names : List Bytes) :
    (names.map Except.ok).mapM (Except.mapError Error.io) = .ok names := by
  induction names with
  | nil => rfl
  | cons name names ih =>
    rw [List.map_cons, List.mapM_cons, ih]
    rfl

/-- The data directory's list of segments is what listing `wal/` returns, if the files there with
an engine's name are the segments. -/
theorem readSegmentIds_eq_keys (d : Disk) (names : List Bytes) (hnodup : names.Nodup)
    (hwal : ∀ id, id ∈ d.wal ↔ ∃ name ∈ names, entryId name = some id) :
    readSegmentIds (.ok (names.map .ok)) = .ok d.wal.keys := by
  have hread : readSegmentIds (.ok (names.map .ok)) =
      .ok ((names.filterMap entryId).insertionSort (· ≤ ·)) := by
    simp only [readSegmentIds, mapM_map_ok]
    rfl
  rw [hread]
  have hkeys : d.wal.keys.Pairwise (· < ·) := d.wal.ordered_keys.imp fun h ↦ Nat.compare_eq_lt.1 h
  refine congrArg Except.ok ((pairwise_lt_sorted_ids hnodup).eq_of_mem_iff hkeys fun id ↦ ?_)
  rw [List.mem_insertionSort, List.mem_filterMap, Std.ExtTreeMap.mem_keys, hwal]

/-- **Segment names and ids correspond one to one.** A name is read as an id exactly when it is the
name of that id, no two names are read as one id, and a listing of distinct names gives strictly
increasing ids. -/
theorem segment_names_bijective :
    (∀ (name : String) (id : UInt64),
        parseSegmentName name = some id.toNat ↔ name = segmentName id.toNat) ∧
      (∀ (a b : Bytes) (id : ℕ), entryId a = some id → entryId b = some id → a = b) ∧
      ∀ (entries : List (Except IoKind Bytes)) (ids : List ℕ),
        (entries.filterMap Except.toOption).Nodup → readSegmentIds (.ok entries) = .ok ids →
          ids.Pairwise (· < ·) := by
  refine ⟨fun name id ↦ ?_, fun a b id ↦ entryId_injective, fun entries ids hnodup hread ↦ ?_⟩
  · rw [parseSegmentName_eq_some_iff]
    exact ⟨And.right, fun h ↦ ⟨Nat.le_of_lt_succ id.toNat_lt, h⟩⟩
  · simp only [readSegmentIds] at hread
    cases hmap : entries.mapM (Except.mapError Error.io) with
    | error e =>
      rw [hmap] at hread
      cases hread
    | ok names =>
      rw [hmap] at hread
      cases hread
      rw [names_of_mapM_ok hmap] at hnodup
      refine pairwise_lt_sorted_ids ?_
      rw [List.filterMap_map] at hnodup
      simpa [Function.comp_def, Except.toOption] using hnodup

/-- Two segments and another file. -/
def sampleEntries : List (Except IoKind Bytes) :=
  ["0000000002.wal", "00000000001.wal", "0000000001.wal"].map fun name ↦ .ok (utf8 name)

theorem segment_names_bijective_sample :
    readSegmentIds (.ok sampleEntries) = .ok [1, 2] ∧ [1, 2].Pairwise (· < ·) := by
  have hread : readSegmentIds (.ok sampleEntries) = .ok [1, 2] := by decide +kernel
  exact ⟨hread, segment_names_bijective.2.2 sampleEntries [1, 2] (by decide +kernel) hread⟩

end Orc
