import Orc.Flush.Account

/-!
# The sort key of a record in memory

A batch keeps a record as its frame in the arena, with its timestamp and the place of its id in the
frame. The merge of spilled runs reads the key from the frame itself, with `verified_sort_key`. The
two agree as long as the place is stored without loss (`batch_key_exact_iff`): the offset of the id
has 16 bits, and behind a series name of more than 65511 bytes it needs more, though a name may have
65535 (`batch_key_wrapped`).

A record is merged by its key in memory if its batch was never spilled, and by the key in its frame
if it was. Were the two different, the budget would decide the order of rows. The correctness of a
flush therefore has the condition as a hypothesis, and here it is shown to be exact.
-/

namespace Orc

open Bytes Fault

/-- An entry of a batch is keyed as its frame is: nothing was cut off of the place of the id and the
length of the frame, and the key read through them is that of the frame. -/
structure MemEntry.Exact (b : Batch) (a : Accepted) (e : MemEntry) : Prop where
  idOff : e.idOff = idOffset a.record.series
  idLen : e.idLen = (utf8 a.record.id).length
  frameLen : e.frameLen = a.frame.length
  frame : (b.arena.drop e.frame).take e.frameLen = a.frame
  key : verifiedSortKey a.frame = .ok (e.ts, b.id e, e.frameLen)

/-- Both slices of an entry lie in the arena. -/
def MemEntry.InArena (b : Batch) (e : MemEntry) : Prop :=
  e.frame + e.idOff + e.idLen ≤ b.arena.length ∧ e.frame + e.frameLen ≤ b.arena.length

/-- The id of a record lies behind the fixed fields of its frame. -/
theorem drop_idOffset (crc : Bytes → UInt32) (r : RecordRef) :
    ∃ rest, (frameBytes crc (payloadBytes r)).drop (idOffset r.series) = utf8 r.id ++ rest := by
  obtain ⟨front, rest, hsplit, hlen⟩ : ∃ front rest,
      frameBytes crc (payloadBytes r) = front ++ (utf8 r.id ++ rest) ∧
        front.length = idOffset r.series := by
    refine ⟨leBytes 4 (payloadBytes r).length ++
      (leBytes 4 (crc (leBytes 4 (payloadBytes r).length ++ payloadBytes r)).toNat ++
        (leBytes 8 r.ts.toNat ++ (leBytes 4 r.epoch.toNat ++ (str16 r.series ++
          leBytes 2 (utf8 r.id).length)))), r.keys.flatMap valueBytes ++
      (leBytes 2 r.extra.length ++ (r.extra.flatMap pairBytes ++ str32 r.data)), ?_, ?_⟩
    · simp only [frameBytes, payloadBytes, startBytes, RecordRef.start, str16, List.append_assoc]
    · simp only [List.length_append, length_leBytes, length_str16, idOffset, frameHeaderBytes]
      omega
  exact ⟨rest, by rw [hsplit, ← hlen, List.drop_left]⟩

/-! ## Where entries point -/

/-- The entry a push makes for a frame that lies at an offset of the arena. -/
def entryAt (a : Accepted) (frame group : ℕ) : MemEntry where
  ts := a.record.ts
  arrival := a.arrival
  frame := frame
  frameLen := a.frame.length % 2 ^ 32
  group := group
  idOff := idOffset a.record.series % 2 ^ 16
  idLen := (utf8 a.record.id).length % 2 ^ 16

/-- An entry made for a frame, which lies where it points. -/
def Placed (arena : Bytes) (a : Accepted) (e : MemEntry) : Prop :=
  ∃ front back group, arena = front ++ (a.frame ++ back) ∧ e = entryAt a front.length group

private theorem foldl_accept (as : List Accepted) (b : Batch) :
    (as.foldl Batch.accept b).arena = b.arena ++ (as.map Accepted.frame).flatten ∧
      ∃ es, (as.foldl Batch.accept b).entries = b.entries ++ es ∧
        List.Forall₂ (Placed (as.foldl Batch.accept b).arena) as es := by
  induction as generalizing b with
  | nil => exact ⟨(List.append_nil _).symm, [], (List.append_nil _).symm, .nil⟩
  | cons a as ih =>
    obtain ⟨harena, es, hentries, hplaced⟩ := ih (b.accept a)
    have hpushed : (b.accept a).arena = b.arena ++ a.frame := rfl
    rw [hpushed, List.append_assoc] at harena
    refine ⟨harena, entryAt a b.arena.length (b.intern a.group).1 :: es, ?_,
      .cons ⟨b.arena, _, _, harena, rfl⟩ hplaced⟩
    rw [List.foldl_cons, hentries, List.append_cons]
    rfl

section Placed

variable {crc : Bytes → UInt32} {m : Manifest} {b : Batch} {a : Accepted} {e : MemEntry}

theorem Placed.inArena (he : Placed b.arena a e) (ha : a.Sound crc m) : e.InArena b := by
  obtain ⟨front, back, group, harena, rfl⟩ := he
  have hid := id_le_length_frameBytes crc a.record
  have hmod := Nat.mod_le a.frame.length (2 ^ 32)
  rw [← ha.frame_eq] at hid
  rw [MemEntry.InArena, harena, List.length_append, List.length_append]
  simp only [entryAt]
  omega

/-- **The key of an entry** is that of its frame exactly when the offset of the id and the length of
the frame fit their fields. -/
theorem Placed.exact_iff (he : Placed b.arena a e) (ha : a.Sound crc m) :
    e.Exact b a ↔ idOffset a.record.series < 2 ^ 16 ∧ a.frame.length < 2 ^ 32 := by
  obtain ⟨front, back, group, harena, rfl⟩ := he
  constructor
  · intro h
    have hoff : idOffset a.record.series % 2 ^ 16 = _ := h.idOff
    have hlen : a.frame.length % 2 ^ 32 = _ := h.frameLen
    exact ⟨Nat.mod_eq_iff_lt (by decide) |>.1 hoff, Nat.mod_eq_iff_lt (by decide) |>.1 hlen⟩
  · rintro ⟨hoff, hlen⟩
    have hid : (utf8 a.record.id).length % 2 ^ 16 = (utf8 a.record.id).length :=
      Nat.mod_eq_of_lt (Nat.lt_succ_of_le ha.fits.start.id)
    have hframe : (b.arena.drop front.length).take a.frame.length = a.frame := by
      rw [harena, List.drop_left, List.take_left]
    obtain ⟨rest, hrest⟩ := drop_idOffset crc a.record
    rw [← ha.frame_eq] at hrest
    have hkey := verifiedSortKey_frameBytes crc ha.fits ha.size []
    rw [List.append_nil, ← length_frameBytes crc, ← ha.frame_eq] at hkey
    refine ⟨Nat.mod_eq_of_lt hoff, hid, Nat.mod_eq_of_lt hlen, ?_, ?_⟩
    · rwa [entryAt, Nat.mod_eq_of_lt hlen]
    · have hslice : b.id (entryAt a front.length group) = utf8 a.record.id := by
        rw [Batch.id, entryAt, harena, ← List.drop_drop, List.drop_left, Nat.mod_eq_of_lt hoff, hid,
          List.drop_append, hrest, List.append_assoc, List.take_left]
      rw [hkey, hslice, entryAt, Nat.mod_eq_of_lt hlen]

end Placed

/-! ## The entries of a segment -/

/-- **The key in memory is the key of the frame** exactly when the offset of the id and the length
of the frame are stored without loss: for every frame a segment contributes to a batch, whatever
else goes wrong, its entry is exact if and only if the id begins before 64 KiB and the frame is
shorter than 4 GiB. The slices of an entry always lie in the arena. -/
theorem batch_key_exact_iff (crc : Bytes → UInt32) (m : Manifest) (segment : ℕ) {buf : Bytes}
    {id : ℕ} (hheader : parseSegmentHeader buf = .ok id) (rejects : RejectSink) (batch : Batch)
    {o : Oracle Op} {w w' : World Disk} {s : DecodeState}
    (hrun : decodeSegment crc segment buf m rejects batch o w = (.ok s, w')) :
    ∃ es, s.batch.entries = batch.entries ++ es ∧
      List.Forall₂ (fun a e ↦ e.InArena s.batch ∧
        (e.Exact s.batch a ↔ idOffset a.record.series < 2 ^ 16 ∧ a.frame.length < 2 ^ 32))
        (accepted crc m segment buf) es := by
  obtain ⟨schemas, touched, hdecode⟩ := decodeSegment_eq crc m segment hheader
  rw [hdecode, Prog.bind_eq_ok] at hrun
  obtain ⟨rejects', w₁, -, hret⟩ := hrun
  obtain rfl : _ = s := by
    cases hret
    rfl
  obtain ⟨-, es, hentries, hplaced⟩ := foldl_accept (accepted crc m segment buf) batch
  exact ⟨es, hentries, ((List.forall₂_and_left _ _).2 ⟨fun a ha ↦ accepted_sound ha, hplaced⟩).imp
    fun a e ⟨ha, he⟩ ↦ ⟨he.inArena ha, he.exact_iff ha⟩⟩

private theorem decodeSegment_returns (crc : Bytes → UInt32) (m : Manifest) (segment : ℕ)
    {buf : Bytes}
    {id : ℕ} (hheader : parseSegmentHeader buf = .ok id) (rejects : RejectSink) {batch : Batch}
    (hbatch : batch.Ok) (w : World Disk) :
    ∃ s w', decodeSegment crc segment buf m rejects batch noFault w = (.ok s, w') := by
  have hread : SegmentReader.new buf buf.length =
      .ok ⟨id, buf, segmentHeaderBytes, buf.length, false⟩ := by
    rw [SegmentReader.new, hheader]
    rfl
  have htriple : Triple noFault (fun _ ↦ True) (decodeSegment crc segment buf m rejects batch)
      _ _ _ := decodeSegment_triple (fun _ _ _ ↦ trivial) hbatch hread
  obtain ⟨s, w', hrun, -⟩ := htriple.returns (fun _ _ ↦ not_false) not_crashes_noFault trivial
  exact ⟨s, w', hrun⟩

/-! ## A name that is too long -/

/-- A name of `n` bytes. -/
def repeated (n : ℕ) : String := String.ofList (List.replicate n 'a')

theorem utf8_repeated (n : ℕ) : utf8 (repeated n) = List.replicate n 97 := by
  have hascii : ∀ c ∈ List.replicate n 'a', c.toNat < 128 := by
    intro c hc
    rw [List.eq_of_mem_replicate hc]
    decide
  rw [repeated, utf8_ofList_ascii hascii, List.map_replicate]
  rfl

private theorem checkSeriesName_repeated {n : ℕ} (hpos : 0 < n) (hle : n ≤ u16Max) :
    checkSeriesName (repeated n) = .ok () := by
  have hlist : (repeated n).toList = List.replicate n 'a' := String.toList_ofList
  have hmem : ∀ c ∈ (repeated n).toList, c = 'a' := fun c hc ↦
    List.eq_of_mem_replicate (hlist ▸ hc)
  have hdot : '.' ∉ (repeated n).toList := fun h ↦ by cases hmem _ h
  rw [checkSeriesName, if_neg, if_neg, if_neg, if_neg]
  · rw [List.any_eq_true]
    rintro ⟨c, hc, hcontrol⟩
    rw [hmem c hc] at hcontrol
    cases hcontrol
  · rintro (h | h | h | h)
    · exact hdot (h ▸ by decide)
    · exact hdot (h ▸ by decide)
    · cases hmem _ h
    · cases hmem _ h
  · rwa [utf8_repeated, List.length_replicate, not_lt]
  · rw [hlist, List.replicate_eq_nil_iff]
    exact hpos.ne'

/-- A record of a series with such a name. -/
def repeatedRecord (n : ℕ) : RecordRef :=
  { ts := 1, epoch := 0, series := repeated n, id := "b", keys := [], extra := [], data := "" }

/-- A manifest that knows the series, without keys. -/
def repeatedManifest (n : ℕ) : Manifest := { series := {(repeated n, [⟨0, []⟩])} }

theorem length_payloadBytes_repeated (n : ℕ) :
    (payloadBytes (repeatedRecord n)).length = n + 23 := by
  have hid : (utf8 "b").length = 1 := by decide
  have hdata : (utf8 "").length = 0 := by decide
  simp only [payloadBytes, startBytes, RecordRef.start, repeatedRecord, List.length_append,
    length_leBytes, length_str16, length_str32, utf8_repeated, List.length_replicate, hid, hdata,
    List.flatMap_nil, List.length_nil]
  omega

theorem fits_repeatedRecord {n : ℕ} (h : n ≤ u16Max) : (repeatedRecord n).Fits := by
  have hid : Fits16 "b" := by unfold Fits16; decide
  have hdata : Fits32 "" := by unfold Fits32; decide
  refine ⟨⟨?_, hid⟩, nofun, Nat.zero_le _, nofun, hdata⟩
  change (utf8 (repeated n)).length ≤ u16Max
  rwa [utf8_repeated, List.length_replicate]

private theorem repeatedRecord_accepted {n : ℕ} (h : n ≤ u16Max) :
    ⟨repeatedRecord n, (1, segmentHeaderBytes),
      frameBytes crc32 (payloadBytes (repeatedRecord n))⟩ ∈ accepted crc32 (repeatedManifest n) 1
        (encodeSegmentHeader 1 ++ frameBytes crc32 (payloadBytes (repeatedRecord n))) := by
  have hbuf : (encodeSegmentHeader 1 ++ frameBytes crc32 (payloadBytes (repeatedRecord n))).drop
      segmentHeaderBytes = ([] : List Bytes).flatten ++
        (frameBytes crc32 (payloadBytes (repeatedRecord n)) ++ []) := by
    rw [List.append_nil, List.drop_left' (length_encodeSegmentHeader 1)]
    rfl
  have hsize : (payloadBytes (repeatedRecord n)).length ≤ u32Max := by
    rw [length_payloadBytes_repeated]
    exact (Nat.add_le_add_right h 23).trans (by decide)
  have hschema : (repeatedManifest n).schema (repeatedRecord n).series (repeatedRecord n).epoch =
      some [] := by
    have hget : (repeatedManifest n).series[repeated n]? = some [(⟨0, []⟩ : EpochSchema)] :=
      Std.ExtTreeMap.getElem?_insert_self
    change (repeatedManifest n).schema (repeated n) 0 = some []
    rw [Manifest.schema, hget]
    rfl
  exact mem_accepted (parseSegmentHeader_append 1 _) hbuf (fun _ h ↦ absurd h List.not_mem_nil)
    (fits_repeatedRecord h) hsize hschema
    .nil

private def shortSegment : Bytes :=
  encodeSegmentHeader 1 ++ frameBytes crc32 (payloadBytes (repeatedRecord 3))

/-- A segment of one record with a name of three bytes. -/
theorem batch_key_exact_iff_short :
    ∃ s w' es, decodeSegment crc32 1 shortSegment (repeatedManifest 3) ⟨0, none⟩ {} noFault
      ⟨{}, 0⟩ = (.ok s, w') ∧ s.batch.entries = [] ++ es ∧
      List.Forall₂ (fun a e ↦ e.InArena s.batch ∧
        (e.Exact s.batch a ↔ idOffset a.record.series < 2 ^ 16 ∧ a.frame.length < 2 ^ 32))
        (accepted crc32 (repeatedManifest 3) 1 shortSegment) es := by
  have hheader : parseSegmentHeader shortSegment = .ok 1 := parseSegmentHeader_append 1 _
  obtain ⟨s, w', hrun⟩ := decodeSegment_returns crc32 (repeatedManifest 3) 1 hheader ⟨0, none⟩
    Batch.ok_empty ⟨{}, 0⟩
  obtain ⟨es, hes⟩ := batch_key_exact_iff crc32 _ 1 hheader _ _ hrun
  exact ⟨s, w', es, hrun, hes⟩

/-- **An offset that wraps around.** The name is taken for a series, and the record decodes; but its
id begins 65536 bytes into the frame, so the entry in memory is keyed by the first byte of the
frame, which belongs to its length. -/
theorem batch_key_wrapped :
    ∃ m buf a e, checkSeriesName a.record.series = .ok () ∧ parseSegmentHeader buf = .ok 1 ∧
      a ∈ accepted crc32 m 1 buf ∧ (({} : Batch).accept a).entries = [e] ∧
      verifiedSortKey a.frame = .ok (e.ts, utf8 "b", a.frame.length) ∧
      (({} : Batch).accept a).id e = [255] := by
  obtain ⟨n, hn⟩ : ∃ n, n = 65512 := ⟨_, rfl⟩
  have hle : n ≤ u16Max := by
    rw [hn]
    decide
  have hoff : idOffset (repeated n) % 2 ^ 16 = 0 := by
    rw [idOffset, utf8_repeated, List.length_replicate, hn]
    rfl
  have hkey := verifiedSortKey_frameBytes crc32 (fits_repeatedRecord hle)
    (by rw [length_payloadBytes_repeated, hn]; decide) []
  rw [List.append_nil, ← length_frameBytes crc32] at hkey
  have hheader : parseSegmentHeader (encodeSegmentHeader 1 ++ frameBytes crc32
      (payloadBytes (repeatedRecord n))) = .ok 1 := parseSegmentHeader_append 1 _
  have hentries : ∀ a, (({} : Batch).accept a).entries = [entryAt a 0 0] := fun _ ↦ rfl
  have hid : ∀ a, (({} : Batch).accept a).id (entryAt a 0 0) =
      (a.frame.drop (0 + idOffset a.record.series % 2 ^ 16)).take
        ((utf8 a.record.id).length % 2 ^ 16) := fun _ ↦ rfl
  refine ⟨_, _, ⟨repeatedRecord n, (1, segmentHeaderBytes),
    frameBytes crc32 (payloadBytes (repeatedRecord n))⟩, _,
    checkSeriesName_repeated (by omega) hle, hheader, repeatedRecord_accepted hle, hentries _,
      hkey, ?_⟩
  rw [hid]
  change ((frameBytes crc32 (payloadBytes (repeatedRecord n))).drop
    (0 + idOffset (repeated n) % 2 ^ 16)).take 1 = [255]
  rw [hoff, frameBytes, length_payloadBytes_repeated, hn]
  rfl

end Orc
