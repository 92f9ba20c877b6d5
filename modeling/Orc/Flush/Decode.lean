import Orc.Disk
import Orc.Flush.Batch
import Orc.Wal.Reader

/-!
# Decoding a segment into the batch

Every frame of a segment is pushed into the batch, or counted and copied to `rejects/`. Nothing a
segment holds makes decoding fail: a header that cannot be parsed is reported to the caller, and the
copies to `rejects/` are best effort.

`accepted` is the list of records a segment contributes, a function of its bytes and of the
manifest. `decodeSegment_triple` says that decoding pushes exactly these, whatever faults occur.

## The walk

The walk is under the bound of the segment's own length, not of the configured record limit, so that
a limit lowered later does not cut off what a segment holds. A frame is refused if it cannot be
decoded, if its series and epoch are not in the manifest, or if its keys do not fit the schema; the
walk goes on behind it. It ends at the first frame that cannot be delimited, since there is no
telling where the next would begin, and what is left is one tail.

`accepted` is what later modules use: they say what a flush does with the frames accepted, and have
no need of segments. Two facts about it connect it to the encoder. An accepted frame is the encoding
of its record (`accepted_sound`), and a frame of a record that fits its schema is accepted wherever
the walk reaches it (`mem_accepted`).
-/

namespace Orc

open Bytes Fault Order

/-- Arity and types match the schema; a null matches any type. -/
def matchesSchema (keys : List KeyDef) (values : List Value) : Bool :=
  keys.length == values.length &&
    (keys.zip values).all fun (k, v) ↦
      match v.keyType with
      | none => true
      | some ty => ty == k.ty

/-! ## Rejected frames -/

/-- The `rejects/` sink: bad frames verbatim, best effort, capped in total bytes. -/
structure RejectSink where
  cap : ℕ
  /-- Measured on the first reject. -/
  used : Option ℕ := none
  deriving DecidableEq

namespace RejectSink

/-- Total size of the files in `rejects/`; 0 if it cannot be listed. -/
def dirBytes : Io ℕ := do
  match ← Prog.attempt (Io.read .rejectsMeasure fun d : Disk ↦
    .ok ((d.rejects.toList.map fun f ↦ f.2.length).sum)) with
  | .ok n => return n
  | .error _ => return 0

/-- The bytes recorded so far, measured if they have not been yet. -/
def measured (s : RejectSink) : Io ℕ :=
  match s.used with
  | some used => pure used
  | none => dirBytes

/-- Append one frame to the file of its segment. -/
def write (segment : ℕ) (frame : Bytes) : Io Unit := do
  Io.touch .rejectsMkdir
  Io.step .rejectsOpen fun d ↦
    { d with rejects := d.rejects.insert segment (d.rejects.getD segment []) }
  let (_, whole) ← Prog.write .rejectsWrite frame.length fun n (d : Disk) ↦
    { d with rejects := d.rejects.insert segment (d.rejects.getD segment [] ++ frame.take n) }
  if whole then pure () else Prog.fail ioError

/-- Record a rejected frame unless the cap is reached. -/
def append (s : RejectSink) (segment : ℕ) (frame : Bytes) : Io RejectSink := do
  let used ← s.measured
  if s.cap < min (used + frame.length) u64Max then
    return { s with used := some used }
  else
    match ← Prog.attempt (write segment frame) with
    | .error _ => return { s with used := some used }
    | .ok () => return { s with used := some (used + frame.length) }

end RejectSink

/-! ## One segment -/

/-- What decoding one segment produced, besides the batched records. -/
structure Decoded where
  schemas : List (GroupKey × List KeyDef) := []
  /-- Series seen, even if all rows were rejected. -/
  touched : List String := []
  rows : ℕ := 0
  framesRejected : ℕ := 0
  bytesSkipped : ℕ := 0
  /-- Header unparseable: never consumed or deleted. -/
  unreadable : Bool := false
  /-- Moved out of `wal/`. -/
  quarantined : Bool := false
  deriving DecidableEq

/-- Look the keys of a series up at an epoch, remembering what was found. -/
def cachedKeys (cache : List (GroupKey × List KeyDef)) (m : Manifest) (series : String)
    (epoch : UInt32) : List KeyDef × List (GroupKey × List KeyDef) :=
  match cache.lookup (series, epoch) with
  | some keys => (keys, cache)
  | none =>
    let keys := (m.schema series epoch).getD []
    (keys, cache ++ [((series, epoch), keys)])

/-- Where in its frame the id of a record of a series begins. -/
def idOffset (series : String) : ℕ := frameHeaderBytes + 8 + 4 + (2 + (utf8 series).length) + 2

/-- The key counts of the schemas a manifest knows. -/
def Manifest.keyCount (m : Manifest) : KeyCount := fun series epoch ↦
  (m.schema series epoch).map List.length

/-- The state of the loop over the frames of a segment. -/
structure DecodeState where
  rejects : RejectSink
  batch : Batch
  out : Decoded := {}
  deriving DecidableEq

/-- Count a frame as rejected and copy its bytes. -/
def DecodeState.reject (s : DecodeState) (segment : ℕ) (bytes : Bytes) : Io DecodeState := do
  let rejects ← s.rejects.append segment bytes
  return { s with rejects, out := { s.out with framesRejected := s.out.framesRejected + 1 } }

/-- One turn of the loop: push the frame, or reject it. -/
def decodeItem (segment : ℕ) (buf : Bytes) (m : Manifest) (s : DecodeState) :
    Except FrameFault Frame → Io DecodeState
  | .error (.badRecord offset len _) => s.reject segment ((buf.drop offset).take len)
  | .error (.unknownSchema offset len _ _) => s.reject segment ((buf.drop offset).take len)
  | .error (.undecodable offset _) =>
    let tail := buf.drop offset
    { s with out := { s.out with bytesSkipped := s.out.bytesSkipped + tail.length } }.reject
      segment tail
  | .ok frame => do
    let record := frame.record
    let bytes := (buf.drop frame.offset).take frame.len
    let touched := if record.series ∈ s.out.touched then s.out.touched
      else s.out.touched ++ [record.series]
    let (keys, cache) := cachedKeys s.out.schemas m record.series record.epoch
    let s := { s with out := { s.out with touched, schemas := cache } }
    if !matchesSchema keys record.keys then
      s.reject segment bytes
    else
      return { s with
        batch := s.batch.push (record.series, record.epoch) record.ts record.id
          (idOffset record.series) (segment, frame.offset) bytes
        out := { s.out with rows := s.out.rows + 1 } }

/-- Decode one segment into the batch. The cap on frames is the segment size. The lookups of key
counts are a function of the manifest, which the source caches too. -/
def decodeSegment (crc : Bytes → UInt32) (segment : ℕ) (buf : Bytes) (m : Manifest)
    (rejects : RejectSink) (batch : Batch) : Io DecodeState :=
  match SegmentReader.new buf buf.length with
  | .error _ => do
    -- the frames may be intact: never deleted, whether or not the rename succeeds
    let quarantined ← Prog.attempt (quarantineSegment segment)
    return { rejects, batch, out :=
      { unreadable := true, quarantined := quarantined.isOk, bytesSkipped := buf.length } }
  | .ok reader =>
    (reader.frames crc m.keyCount (buf.length + 1)).foldlM (decodeItem segment buf m)
      { rejects, batch }

/-! ## What a segment contributes -/

/-- A frame the flush accepts: its record, where it arrived, and its bytes. -/
structure Accepted where
  record : RecordRef
  arrival : ℕ × ℕ
  frame : Bytes
  deriving DecidableEq

namespace Accepted

def group (a : Accepted) : GroupKey := (a.record.series, a.record.epoch)

/-- The record as the batch holds it. -/
def head (a : Accepted) : Head :=
  Batch.pushed a.record.ts a.record.id (idOffset a.record.series) a.arrival a.frame

end Accepted

/-- The accepted frame an item of the reader is, if it is one. -/
def acceptItem (segment : ℕ) (buf : Bytes) (m : Manifest) :
    Except FrameFault Frame → Option Accepted
  | .error _ => none
  | .ok f =>
    if matchesSchema ((m.schema f.record.series f.record.epoch).getD []) f.record.keys then
      some ⟨f.record, (segment, f.offset), (buf.drop f.offset).take f.len⟩
    else
      none

/-- What the reader yields for a segment with a parseable header. -/
def segmentItems (crc : Bytes → UInt32) (m : Manifest) (buf : Bytes) :
    List (Except FrameFault Frame) :=
  match SegmentReader.new buf buf.length with
  | .error _ => []
  | .ok reader => reader.frames crc m.keyCount (buf.length + 1)

/-- The frames of a segment that are accepted. -/
def accepted (crc : Bytes → UInt32) (m : Manifest) (segment : ℕ) (buf : Bytes) : List Accepted :=
  (segmentItems crc m buf).filterMap (acceptItem segment buf m)

/-- An accepted frame is the encoding of its record, and the record fits the schema of its epoch. -/
structure Accepted.Sound (crc : Bytes → UInt32) (m : Manifest) (a : Accepted) : Prop where
  frame_eq : a.frame = frameBytes crc (payloadBytes a.record)
  fits : a.record.Fits
  size : (payloadBytes a.record).length ≤ u32Max
  schema : ∃ keys, m.schema a.record.series a.record.epoch = some keys ∧ KeysFit keys a.record.keys

theorem matchesSchema_iff {keys : List KeyDef} {values : List Value} :
    matchesSchema keys values = true ↔ KeysFit keys values := by
  unfold matchesSchema KeysFit
  induction keys generalizing values with
  | nil => cases values <;> simp
  | cons k ks ih =>
    cases values with
    | nil => simp
    | cons v vs =>
      have hv : (match v.keyType with
          | none => true
          | some ty => ty == k.ty) = true ↔ v.FitsType k.ty := by
        cases v <;> simp [Value.keyType, Value.FitsType]
      rw [List.forall₂_cons, ← ih, ← hv]
      simp only [List.length_cons, List.zip_cons_cons, List.all_cons, Bool.and_eq_true, beq_iff_eq,
        Nat.add_right_cancel_iff]
      tauto

section Frames

variable {crc : Bytes → UInt32} {keyCount : KeyCount}

/-- A decoded item of the reader is the frame of its record at its offset. -/
structure ItemSound (crc : Bytes → UInt32) (keyCount : KeyCount) (buf : Bytes) (f : Frame) :
    Prop where
  bytes_eq : (buf.drop f.offset).take f.len = frameBytes crc (payloadBytes f.record)
  fits : f.record.Fits
  size : (payloadBytes f.record).length ≤ u32Max
  arity : keyCount f.record.series f.record.epoch = some f.record.keys.length

/-- One step of the reader stays in the buffer and does not go back; over a decoded frame it goes
forward. -/
theorem SegmentReader.nextFrame_moves {r r' : SegmentReader} {item : Except FrameFault Frame}
    (h : r.nextFrame crc keyCount = some (item, r')) :
    r'.buf = r.buf ∧ r.pos ≤ r'.pos ∧ ∀ f, item = .ok f →
      ItemSound crc keyCount r.buf f ∧ f.offset = r.pos ∧ r.pos < r'.pos := by
  unfold SegmentReader.nextFrame at h
  split_ifs at h with hend
  dsimp only at h
  split at h
  next =>
    obtain ⟨rfl, rfl⟩ := Prod.mk.inj (Option.some.inj h)
    exact ⟨rfl, le_rfl, by simp⟩
  next p hp =>
    split at h
    next =>
      obtain ⟨rfl, rfl⟩ := Prod.mk.inj (Option.some.inj h)
      exact ⟨rfl, Nat.le_add_right _ _, by simp⟩
    next n hn =>
      split at h
      next record len hd =>
        obtain ⟨rfl, rfl⟩ := Prod.mk.inj (Option.some.inj h)
        refine ⟨rfl, Nat.le_add_right _ _, fun f hf ↦ ?_⟩
        obtain rfl := Except.ok.inj hf
        have hsame := (validatePrefix_of_decode hd).symm.trans hp
        rw [Except.ok.injEq] at hsame
        subst hsame
        obtain ⟨rest, hbuf, hfits, hkeys, hadm, rfl⟩ := decode_eq_ok.1 hd
        refine ⟨⟨?_, hfits, hadm.u32, hkeys ▸ hn⟩, rfl, ?_⟩
        · dsimp only
          rw [hbuf, List.take_left' (length_frameBytes crc (payloadBytes record))]
        · change r.pos < r.pos + (frameHeaderBytes + _)
          unfold frameHeaderBytes
          omega
      next =>
        obtain ⟨rfl, rfl⟩ := Prod.mk.inj (Option.some.inj h)
        exact ⟨rfl, Nat.le_add_right _ _, by simp⟩

theorem SegmentReader.frames_sound (crc : Bytes → UInt32) (keyCount : KeyCount) (r : SegmentReader)
    (fuel : ℕ) :
    (∀ f, .ok f ∈ r.frames crc keyCount fuel → ItemSound crc keyCount r.buf f ∧ r.pos ≤ f.offset) ∧
      (r.frames crc keyCount fuel).Pairwise fun x y ↦
        ∀ f g, x = .ok f → y = .ok g → f.offset < g.offset := by
  induction fuel generalizing r with
  | zero => exact ⟨by simp [SegmentReader.frames], .nil⟩
  | succ fuel ih =>
    rw [SegmentReader.frames]
    split
    next => exact ⟨by simp, .nil⟩
    next item r' h =>
      obtain ⟨hbuf, hpos, hok⟩ := SegmentReader.nextFrame_moves h
      obtain ⟨hsound, hpw⟩ := ih r'
      rw [hbuf] at hsound
      refine ⟨fun f hf ↦ ?_, List.pairwise_cons.2 ⟨fun y hy f g hf hg ↦ ?_, hpw⟩⟩
      · rcases List.mem_cons.1 hf with rfl | hf
        · exact ⟨(hok f rfl).1, (hok f rfl).2.1.ge⟩
        · exact ⟨(hsound f hf).1, hpos.trans (hsound f hf).2⟩
      · obtain ⟨-, hoff, hlt⟩ := hok f hf
        subst hg
        exact hoff ▸ hlt.trans_le (hsound g hy).2

end Frames

variable {crc : Bytes → UInt32} {m : Manifest} {segment : ℕ} {buf : Bytes}

theorem segmentItems_sound :
    (∀ f, .ok f ∈ segmentItems crc m buf → ItemSound crc m.keyCount buf f) ∧
      (segmentItems crc m buf).Pairwise fun x y ↦
        ∀ f g, x = .ok f → y = .ok g → f.offset < g.offset := by
  unfold segmentItems
  split
  next => exact ⟨by simp, .nil⟩
  next reader hr =>
    have hbuf : reader.buf = buf := by
      rw [SegmentReader.new, Except.bind_eq_ok] at hr
      obtain ⟨id, -, hr⟩ := hr
      rw [← Except.ok.inj hr]
    obtain ⟨hsound, hpw⟩ := reader.frames_sound crc m.keyCount (buf.length + 1)
    rw [hbuf] at hsound
    exact ⟨fun f hf ↦ (hsound f hf).1, hpw⟩

/-- What the reader yields, by the walk over the bytes after the header. -/
theorem segmentItems_eq {fs : List Bytes} {rest : Bytes} {id : ℕ}
    (hheader : parseSegmentHeader buf = .ok id)
    (hcut : Cut crc buf.length (buf.drop segmentHeaderBytes) fs rest) :
    segmentItems crc m buf =
      judgeAll crc m.keyCount buf.length segmentHeaderBytes fs ++
        tailFault crc buf.length (segmentHeaderBytes + fs.flatten.length) rest := by
  have hnew : SegmentReader.new buf buf.length =
      .ok ⟨id, buf, segmentHeaderBytes, buf.length, false⟩ := by
    rw [SegmentReader.new, hheader]
    rfl
  rw [segmentItems, hnew]
  refine SegmentReader.frames_eq rfl hcut ?_
  change (buf.drop segmentHeaderBytes).length < buf.length + 1
  rw [List.length_drop]
  omega

theorem acceptItem_eq_some {item : Except FrameFault Frame} {a : Accepted} :
    acceptItem segment buf m item = some a ↔ ∃ f, item = .ok f ∧
      KeysFit ((m.schema f.record.series f.record.epoch).getD []) f.record.keys ∧
      a = ⟨f.record, (segment, f.offset), (buf.drop f.offset).take f.len⟩ := by
  cases item with
  | error e => simp [acceptItem]
  | ok f =>
    simp only [acceptItem, Except.ok.injEq, exists_eq_left', ← matchesSchema_iff]
    split_ifs with h
    · simp [h, eq_comm]
    · simp [h]

/-- **Accepted frames** are encodings of their records, and the records fit their schemas. -/
theorem accepted_sound {a : Accepted} (ha : a ∈ accepted crc m segment buf) : a.Sound crc m := by
  obtain ⟨item, hitem, hacc⟩ := List.mem_filterMap.1 ha
  obtain ⟨f, rfl, hkeys, rfl⟩ := acceptItem_eq_some.1 hacc
  obtain ⟨hbytes, hfits, hsize, harity⟩ := segmentItems_sound.1 f hitem
  obtain ⟨keys, hschema, -⟩ := Option.map_eq_some_iff.1 harity
  rw [hschema, Option.getD_some] at hkeys
  exact ⟨hbytes, hfits, hsize, keys, hschema, hkeys⟩

/-- Accepted frames of one segment arrive one after the other. -/
theorem accepted_arrivals :
    (∀ a ∈ accepted crc m segment buf, a.arrival.1 = segment) ∧
      (accepted crc m segment buf).Pairwise fun a b ↦ a.arrival.2 < b.arrival.2 := by
  refine ⟨fun a ha ↦ ?_, ?_⟩
  · obtain ⟨item, -, hacc⟩ := List.mem_filterMap.1 ha
    obtain ⟨f, -, -, rfl⟩ := acceptItem_eq_some.1 hacc
    rfl
  · refine segmentItems_sound.2.filterMap _ fun x y hxy a ha b hb ↦ ?_
    obtain ⟨f, hf, -, rfl⟩ := acceptItem_eq_some.1 ha
    obtain ⟨g, hg, -, rfl⟩ := acceptItem_eq_some.1 hb
    exact hxy f g hf hg

/-- An accepted frame begins inside its segment. -/
theorem accepted_offset_le {a : Accepted} (ha : a ∈ accepted crc m segment buf) :
    a.arrival.2 ≤ buf.length := by
  have hframe := (accepted_sound ha).frame_eq
  obtain ⟨item, -, hacc⟩ := List.mem_filterMap.1 ha
  obtain ⟨f, -, -, rfl⟩ := acceptItem_eq_some.1 hacc
  by_contra hlt
  have hlen := congrArg List.length hframe
  rw [List.drop_eq_nil_of_le (Nat.le_of_not_le hlt), List.take_nil, length_frameBytes] at hlen
  change 0 = frameHeaderBytes + _ at hlen
  simp only [frameHeaderBytes] at hlen
  omega

/-- The id of a frame lies inside it, also where its stored offset is cut to 16 bits. -/
theorem id_le_length_frameBytes (crc : Bytes → UInt32) (r : RecordRef) :
    idOffset r.series % 2 ^ 16 + (utf8 r.id).length % 2 ^ 16 ≤
      (frameBytes crc (payloadBytes r)).length := by
  have hoff := Nat.mod_le (idOffset r.series) (2 ^ 16)
  have hlen := Nat.mod_le (utf8 r.id).length (2 ^ 16)
  have : idOffset r.series + (utf8 r.id).length ≤ (frameBytes crc (payloadBytes r)).length := by
    rw [length_frameBytes]
    simp only [idOffset, payloadBytes, startBytes, RecordRef.start, List.length_append,
      length_leBytes, length_str16]
    omega
  omega

/-- **A frame the reader reaches is accepted** if it encodes a record that fits its schema. -/
theorem mem_accepted {fs : List Bytes} {rest : Bytes} {r : RecordRef} {id : ℕ} {keys : List KeyDef}
    (hheader : parseSegmentHeader buf = .ok id)
    (hbuf : buf.drop segmentHeaderBytes =
      fs.flatten ++ (frameBytes crc (payloadBytes r) ++ rest))
    (hfs : ∀ f ∈ fs, IsFrame crc buf.length f) (hfits : r.Fits)
    (hsize : (payloadBytes r).length ≤ u32Max)
    (hschema : m.schema r.series r.epoch = some keys) (hkeys : KeysFit keys r.keys) :
    ⟨r, (segment, segmentHeaderBytes + fs.flatten.length), frameBytes crc (payloadBytes r)⟩ ∈
      accepted crc m segment buf := by
  have hlen := congrArg List.length hbuf
  simp only [List.length_drop, List.length_append, length_frameBytes] at hlen
  have hcap : (payloadBytes r).length ≤ buf.length := by
    unfold frameHeaderBytes at hlen
    omega
  obtain ⟨more, tail, hmore⟩ := exists_cut crc buf.length rest
  have hcut := Cut.append hfs (.frame (isFrame_frameBytes hfits hsize hcap) hmore)
  rw [← hbuf] at hcut
  -- the item of the frame among the verdicts
  have hdecode : decode crc (frameBytes crc (payloadBytes r)) keys.length buf.length =
      .ok (r, (frameBytes crc (payloadBytes r)).length) :=
    decode_eq_ok.2 ⟨[], (List.append_nil _).symm, hfits, hkeys.length_eq.symm,
      ⟨minPayloadBytes_le_length r, hcap, hsize⟩, length_frameBytes _ _⟩
  have hjudge : judge crc m.keyCount buf.length (segmentHeaderBytes + fs.flatten.length)
      (frameBytes crc (payloadBytes r)) =
        .ok ⟨r, segmentHeaderBytes + fs.flatten.length,
          (frameBytes crc (payloadBytes r)).length⟩ := by
    have hcount : m.keyCount r.start.series r.start.epoch = some keys.length := by
      rw [Manifest.keyCount, RecordRef.start, hschema]
      rfl
    rw [judge, validatePrefix_of_decode hdecode]
    simp only [hcount, hdecode]
  refine List.mem_filterMap.2 ⟨.ok ⟨r, segmentHeaderBytes + fs.flatten.length,
    (frameBytes crc (payloadBytes r)).length⟩, ?_, acceptItem_eq_some.2 ⟨_, rfl, ?_, ?_⟩⟩
  · rw [segmentItems_eq hheader hcut, judgeAll_append, judgeAll, hjudge]
    simp
  · rw [hschema]
    exact hkeys
  · dsimp only
    rw [← List.drop_drop, hbuf, List.drop_left, List.take_left]

/-! ## What decoding does -/

/-- A predicate that does not look at `rejects/`. -/
def IgnoresRejects (P : Disk → Prop) : Prop := ∀ d r, P d → P { d with rejects := r }

section Triples

variable {o : Oracle Op} {P : Disk → Prop}

/-- Recording a reject cannot fail, and touches nothing but `rejects/`. -/
theorem RejectSink.append_triple (hP : IgnoresRejects P) (s : RejectSink) (frame : Bytes) :
    Triple o P (s.append segment frame) (fun _ ↦ P) (fun _ _ ↦ False) P := by
  have hwrite : Keeps o P (RejectSink.write segment frame) := by
    refine (Io.touch_keeps _).bind fun _ ↦ (Io.step_keeps fun d hd ↦ hP d _ hd).bind fun _ ↦
      (Keeps.write fun n d hd ↦ hP d _ hd).bind fun r ↦ ?_
    obtain ⟨n, whole⟩ := r
    cases whole with
    | true => exact .ret ()
    | false => exact .fail _
  have hused : Triple o P s.measured (fun _ ↦ P) (fun _ _ ↦ False) P := by
    unfold RejectSink.measured
    cases s.used with
    | some used => exact .ret fun _ ↦ id
    | none =>
      refine .bind Io.read_keeps.attempt_triple fun r ↦ ?_
      cases r <;> exact .ret fun _ ↦ id
  refine .bind hused fun used ↦ ?_
  split_ifs
  · exact .ret fun _ ↦ id
  · refine .bind hwrite.attempt_triple fun r ↦ ?_
    cases r <;> exact .ret fun _ ↦ id

theorem DecodeState.reject_triple (hP : IgnoresRejects P) (s : DecodeState) (bytes : Bytes) :
    Triple o P (s.reject segment bytes)
      (fun s' d ↦ P d ∧ s'.batch = s.batch ∧
        s'.out = { s.out with framesRejected := s.out.framesRejected + 1 })
      (fun _ _ ↦ False) P :=
  .bind (s.rejects.append_triple hP bytes) fun _ ↦ .ret fun _ hd ↦ ⟨hd, rfl, rfl⟩

/-- What the loop over the items of a segment has done after some of them. -/
structure DecodesTo (m : Manifest) (segment : ℕ) (buf : Bytes) (batch : Batch)
    (items : List (Except FrameFault Frame)) (s : DecodeState) : Prop where
  ok : s.batch.Ok
  heads : s.batch.heads = batch.heads ++
    (items.filterMap (acceptItem segment buf m)).map fun a ↦ (a.group, a.head)
  deduplicated : s.batch.deduplicated = batch.deduplicated
  rows : s.out.rows = (items.filterMap (acceptItem segment buf m)).length
  rejected : s.out.framesRejected + s.out.rows = items.length
  readable : s.out.unreadable = false
  /-- The schemas on record are the manifest's. -/
  schemas : ∀ g keys, s.out.schemas.lookup g = some keys → keys = (m.schema g.1 g.2).getD []
  /-- The schema of every accepted frame is on record. -/
  covered : ∀ a ∈ items.filterMap (acceptItem segment buf m), (s.out.schemas.lookup a.group).isSome

/-- Remembering a lookup answers it and keeps the answers given before. -/
theorem cachedKeys_spec (series : String) (epoch : UInt32) {cache : List (GroupKey × List KeyDef)}
    (hc : ∀ g keys, cache.lookup g = some keys → keys = (m.schema g.1 g.2).getD []) :
    (cachedKeys cache m series epoch).1 = (m.schema series epoch).getD [] ∧
      (∀ g keys, (cachedKeys cache m series epoch).2.lookup g = some keys →
        keys = (m.schema g.1 g.2).getD []) ∧
      ∀ g, g = (series, epoch) ∨ (cache.lookup g).isSome →
        ((cachedKeys cache m series epoch).2.lookup g).isSome := by
  unfold cachedKeys
  cases hlook : cache.lookup (series, epoch) with
  | some keys =>
    refine ⟨hc _ _ hlook, hc, ?_⟩
    rintro g (rfl | hg)
    · rw [hlook]
      rfl
    · exact hg
  | none =>
    have hnew : ∀ g, (cache ++ [((series, epoch), (m.schema series epoch).getD [])]).lookup g =
        (cache.lookup g).or (if g = (series, epoch) then some ((m.schema series epoch).getD [])
          else none) := by
      intro g
      rw [List.lookup_append]
      congr 1
      by_cases hg : g = (series, epoch)
      · simp [hg]
      · rw [List.lookup_cons, beq_false_of_ne hg, if_neg hg]
        rfl
    refine ⟨rfl, fun g keys hg ↦ ?_, fun g hg ↦ ?_⟩
    · rw [hnew, Option.or_eq_some_iff] at hg
      rcases hg with hg | ⟨-, hg⟩
      · exact hc g keys hg
      · split_ifs at hg with heq
        subst heq
        exact (Option.some.inj hg).symm
    · rw [hnew, Option.isSome_or]
      rcases hg with rfl | hg
      · simp
      · rw [hg]
        rfl

theorem DecodesTo.rejected_step {batch : Batch} {done : List (Except FrameFault Frame)}
    {item : Except FrameFault Frame} {s s' : DecodeState}
    (hs : DecodesTo m segment buf batch done s) (hnone : acceptItem segment buf m item = none)
    (hbatch : s'.batch = s.batch) (hrows : s'.out.rows = s.out.rows)
    (hrej : s'.out.framesRejected = s.out.framesRejected + 1)
    (hread : s'.out.unreadable = s.out.unreadable)
    (hschemas : ∀ g keys, s'.out.schemas.lookup g = some keys → keys = (m.schema g.1 g.2).getD [])
    (hcov : ∀ g, (s.out.schemas.lookup g).isSome → (s'.out.schemas.lookup g).isSome) :
    DecodesTo m segment buf batch (done ++ [item]) s' := by
  have hsame : (done ++ [item]).filterMap (acceptItem segment buf m) =
      done.filterMap (acceptItem segment buf m) := by
    rw [List.filterMap_append, List.filterMap_cons_none hnone, List.filterMap_nil, List.append_nil]
  refine ⟨hbatch ▸ hs.ok, ?_, ?_, ?_, ?_, hread.trans hs.readable, hschemas, ?_⟩
  · rw [hsame, hbatch, hs.heads]
  · rw [hbatch, hs.deduplicated]
  · rw [hsame, hrows, hs.rows]
  · have := hs.rejected
    rw [hrej, hrows, List.length_append, List.length_singleton]
    omega
  · rw [hsame]
    exact fun a ha ↦ hcov _ (hs.covered a ha)

theorem DecodesTo.accepted_step {batch : Batch} {done : List (Except FrameFault Frame)}
    {item : Except FrameFault Frame} {s s' : DecodeState} {a : Accepted}
    (hs : DecodesTo m segment buf batch done s) (hsome : acceptItem segment buf m item = some a)
    (hid : idOffset a.record.series % 2 ^ 16 + (utf8 a.record.id).length % 2 ^ 16 ≤ a.frame.length)
    (hbatch : s'.batch = s.batch.push a.group a.record.ts a.record.id (idOffset a.record.series)
      a.arrival a.frame)
    (hrows : s'.out.rows = s.out.rows + 1)
    (hrej : s'.out.framesRejected = s.out.framesRejected)
    (hread : s'.out.unreadable = s.out.unreadable)
    (hschemas : ∀ g keys, s'.out.schemas.lookup g = some keys → keys = (m.schema g.1 g.2).getD [])
    (hcov : ∀ g, g = a.group ∨ (s.out.schemas.lookup g).isSome →
      (s'.out.schemas.lookup g).isSome) :
    DecodesTo m segment buf batch (done ++ [item]) s' := by
  have hmore : (done ++ [item]).filterMap (acceptItem segment buf m) =
      done.filterMap (acceptItem segment buf m) ++ [a] := by
    rw [List.filterMap_append, List.filterMap_cons_some hsome, List.filterMap_nil]
  refine ⟨hbatch ▸ Batch.ok_push hs.ok hid, ?_, ?_, ?_, ?_, hread.trans hs.readable, hschemas, ?_⟩
  · rw [hmore, hbatch, Batch.heads_push hs.ok, hs.heads, List.map_append, List.append_assoc]
    rfl
  · rw [hbatch]
    exact hs.deduplicated
  · rw [hmore, hrows, hs.rows, List.length_append, List.length_singleton]
  · have := hs.rejected
    rw [hrej, hrows, List.length_append, List.length_singleton]
    omega
  · rw [hmore]
    intro x hx
    rcases List.mem_append.1 hx with hx | hx
    · exact hcov _ (.inr (hs.covered x hx))
    · exact hcov _ (.inl (congrArg Accepted.group (List.mem_singleton.1 hx)))

theorem decodeItem_triple (hP : IgnoresRejects P) {batch : Batch}
    {done : List (Except FrameFault Frame)} {item : Except FrameFault Frame} {s : DecodeState}
    (hs : DecodesTo m segment buf batch done s)
    (hitem : ∀ f, item = .ok f → ItemSound crc m.keyCount buf f) :
    Triple o P (decodeItem segment buf m s item)
      (fun s' d ↦ P d ∧ DecodesTo m segment buf batch (done ++ [item]) s') (fun _ _ ↦ False) P := by
  have hreject : ∀ (s₁ : DecodeState) (bytes : Bytes), s₁.batch = s.batch →
      s₁.out.rows = s.out.rows → s₁.out.framesRejected = s.out.framesRejected →
      s₁.out.unreadable = s.out.unreadable →
      (∀ g keys, s₁.out.schemas.lookup g = some keys → keys = (m.schema g.1 g.2).getD []) →
      (∀ g, (s.out.schemas.lookup g).isSome → (s₁.out.schemas.lookup g).isSome) →
      acceptItem segment buf m item = none →
      Triple o P (s₁.reject segment bytes)
        (fun s' d ↦ P d ∧ DecodesTo m segment buf batch (done ++ [item]) s')
          (fun _ _ ↦ False) P := by
    intro s₁ bytes hb hr hf hu hsch hcov hnone
    refine (s₁.reject_triple hP bytes).post fun s' d ⟨hd, hbatch, hout⟩ ↦ ⟨hd, ?_⟩
    refine hs.rejected_step hnone (hbatch.trans hb) ?_ ?_ ?_ ?_ ?_
    · rw [hout, hr]
    · rw [hout, hf]
    · rw [hout, hu]
    · rw [hout]
      exact hsch
    · rw [hout]
      exact hcov
  cases item with
  | error fault =>
    cases fault with
    | badRecord offset len err =>
      exact hreject s _ rfl rfl rfl rfl hs.schemas (fun _ ↦ id) rfl
    | unknownSchema offset len series epoch =>
      exact hreject s _ rfl rfl rfl rfl hs.schemas (fun _ ↦ id) rfl
    | undecodable offset err =>
      exact hreject _ _ rfl rfl rfl rfl hs.schemas (fun _ ↦ id) rfl
  | ok f =>
    obtain ⟨hkeys, hsch, hcov⟩ :=
      cachedKeys_spec f.record.series f.record.epoch hs.schemas
    rw [decodeItem]
    simp only [hkeys]
    by_cases hmatch : matchesSchema ((m.schema f.record.series f.record.epoch).getD [])
        f.record.keys = true
    · have hsome : acceptItem segment buf m (.ok f) =
          some ⟨f.record, (segment, f.offset), (buf.drop f.offset).take f.len⟩ := by
        rw [acceptItem, if_pos hmatch]
      have hbytes := (hitem f rfl).bytes_eq
      rw [hmatch, if_neg (by simp)]
      refine .ret fun d hd ↦ ⟨hd, hs.accepted_step hsome ?_ rfl rfl rfl rfl hsch hcov⟩
      dsimp only
      rw [hbytes]
      exact id_le_length_frameBytes crc f.record
    · rw [Bool.not_eq_true] at hmatch
      rw [hmatch, if_pos (by simp)]
      refine hreject _ _ rfl rfl rfl rfl hsch (fun g hg ↦ hcov g (.inr hg)) ?_
      rw [acceptItem, hmatch, if_neg (by simp)]

/-- **Decoding a readable segment** never fails. It pushes the accepted frames into the batch,
counts the others, and touches nothing on the disk but `rejects/`. -/
theorem decodeSegment_triple (hP : IgnoresRejects P) {rejects : RejectSink} {batch : Batch}
    {reader : SegmentReader} (hbatch : batch.Ok)
    (hread : SegmentReader.new buf buf.length = .ok reader) :
    Triple o P (decodeSegment crc segment buf m rejects batch)
      (fun s d ↦ P d ∧ DecodesTo m segment buf batch (segmentItems crc m buf) s)
      (fun _ _ ↦ False) P := by
  have hitems : segmentItems crc m buf = reader.frames crc m.keyCount (buf.length + 1) := by
    rw [segmentItems, hread]
  rw [decodeSegment, hread]
  dsimp only
  rw [← hitems]
  -- the invariant: the items done so far, and those left, make up all of them
  have hloop := Triple.foldlM (o := o) (E := fun _ _ ↦ False) (C := P)
    (f := decodeItem segment buf m)
    (I := fun left s d ↦ P d ∧ ∃ done, done ++ left = segmentItems crc m buf ∧
      DecodesTo m segment buf batch done s)
    (fun item left s ↦ by
      rintro w ⟨hd, done, hsplit, hs⟩
      have hmem : item ∈ segmentItems crc m buf := by
        rw [← hsplit]
        exact List.mem_append_right _ List.mem_cons_self
      refine ((decodeItem_triple hP hs fun f hf ↦
        segmentItems_sound.1 f (hf ▸ hmem)).post fun s' d hd ↦ ?_) w hd
      exact ⟨hd.1, done ++ [item], by rw [List.append_assoc]; exact hsplit, hd.2⟩)
    (segmentItems crc m buf) { rejects, batch }
  refine hloop.conseq (fun d hd ↦ ⟨hd, [], rfl, ?_⟩) ?_ (fun _ _ ↦ id) (fun _ ↦ id)
  · exact ⟨hbatch, by simp, rfl, rfl, rfl, rfl, by simp, by simp⟩
  · rintro s d ⟨hd, done, hdone, hs⟩
    rw [List.append_nil] at hdone
    exact ⟨hd, hdone ▸ hs⟩

end Triples

end Orc
