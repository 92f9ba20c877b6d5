import Orc.Codec.Cut

/-!
# Reading a segment, one frame at a time

A bad record is a yielded value, never an error that ends the scan: a frame whose checksum agrees is
skipped, and only a frame that cannot be delimited stops the reader. The reader looks the key count
of a frame up by series and epoch.

`frames` runs the reader to the end. What it yields is the walk of `Cut` over the bytes after the
header, each frame judged on its own bytes (`judge`) at its own offset.

The bound is an argument of the reader, because its callers differ in it. The key count is looked up
by a function that may have no answer; such a frame is yielded as a fault (`FrameFault`), with its
place, so that the caller can set its bytes aside.
-/

namespace Orc

open Bytes

/-- One decoded frame and where it sits in the segment. -/
structure Frame where
  record : RecordRef
  offset : ℕ
  len : ℕ
  deriving DecidableEq, Repr

/-- A frame that could not be turned into a record. -/
inductive FrameFault where
  /-- Intact frame whose contents do not decode under its epoch's schema. -/
  | badRecord (offset len : ℕ) (err : DecodeError)
  /-- Epoch absent from the manifest history. -/
  | unknownSchema (offset len : ℕ) (series : String) (epoch : UInt32)
  /-- Not a delimitable frame: the scan stops. -/
  | undecodable (offset : ℕ) (err : DecodeError)
  deriving DecidableEq, Repr

/-- The key count of a series at an epoch, if the schema is known. -/
abbrev KeyCount := String → UInt32 → Option ℕ

/-- A forward cursor over the frames of one segment. -/
structure SegmentReader where
  id : ℕ
  buf : Bytes
  pos : ℕ
  maxRecordBytes : ℕ
  stopped : Bool

/-- Parse the segment header and stand at the first frame. -/
def SegmentReader.new (buf : Bytes) (maxRecordBytes : ℕ) : Except DecodeError SegmentReader := do
  let id ← parseSegmentHeader buf
  return ⟨id, buf, segmentHeaderBytes, maxRecordBytes, false⟩

variable (crc : Bytes → UInt32) (keyCount : KeyCount)

/-- The next frame or the fault in its place, and the reader after it. -/
def SegmentReader.nextFrame (r : SegmentReader) :
    Option (Except FrameFault Frame × SegmentReader) :=
  if r.stopped ∨ r.buf.length ≤ r.pos then
    none
  else
    let rest := r.buf.drop r.pos
    match validatePrefix crc rest r.maxRecordBytes with
    | .error err => some (.error (.undecodable r.pos err), { r with stopped := true })
    | .ok p =>
      match keyCount p.series p.epoch with
      | none =>
        some (.error (.unknownSchema r.pos p.frameLen p.series p.epoch),
          { r with pos := r.pos + p.frameLen })
      | some n =>
        match decode crc rest n r.maxRecordBytes with
        | .ok (record, len) => some (.ok ⟨record, r.pos, len⟩, { r with pos := r.pos + len })
        | .error err =>
          some (.error (.badRecord r.pos p.frameLen err), { r with pos := r.pos + p.frameLen })

/-- Run the reader to its end. Every step consumes bytes or stops, so the length of the buffer is
enough fuel (`frames_eq`). -/
def SegmentReader.frames (r : SegmentReader) : ℕ → List (Except FrameFault Frame)
  | 0 => []
  | fuel + 1 =>
    match r.nextFrame crc keyCount with
    | none => []
    | some (item, r') => item :: r'.frames fuel

/-- The verdict on one frame at an offset: decoded under its schema, or the fault it has. -/
def judge (cap offset : ℕ) (f : Bytes) : Except FrameFault Frame :=
  match validatePrefix crc f cap with
  | .error err => .error (.undecodable offset err)
  | .ok p =>
    match keyCount p.series p.epoch with
    | none => .error (.unknownSchema offset f.length p.series p.epoch)
    | some n =>
      match decode crc f n cap with
      | .ok (record, len) => .ok ⟨record, offset, len⟩
      | .error err => .error (.badRecord offset f.length err)

/-- The verdicts on consecutive frames from an offset on. -/
def judgeAll (cap : ℕ) : ℕ → List Bytes → List (Except FrameFault Frame)
  | _, [] => []
  | offset, f :: fs => judge crc keyCount cap offset f :: judgeAll cap (offset + f.length) fs

/-- The fault that ends a scan which could not reach the end of the segment. -/
def tailFault (cap offset : ℕ) (rest : Bytes) : List (Except FrameFault Frame) :=
  match rest with
  | [] => []
  | _ => match validatePrefix crc rest cap with
    | .error err => [.error (.undecodable offset err)]
    | .ok _ => []

variable {crc keyCount}

theorem judgeAll_append {cap offset : ℕ} (fs gs : List Bytes) :
    judgeAll crc keyCount cap offset (fs ++ gs) =
      judgeAll crc keyCount cap offset fs ++
        judgeAll crc keyCount cap (offset + fs.flatten.length) gs := by
  induction fs generalizing offset with
  | nil => rfl
  | cons f fs ih =>
    rw [List.cons_append, judgeAll, judgeAll, ih, List.flatten_cons, List.length_append,
      List.cons_append, Nat.add_assoc]

theorem SegmentReader.nextFrame_frame {r : SegmentReader} {f rest : Bytes}
    (hstop : r.stopped = false) (hbuf : r.buf.drop r.pos = f ++ rest)
    (hf : IsFrame crc r.maxRecordBytes f) :
    r.nextFrame crc keyCount =
      some (judge crc keyCount r.maxRecordBytes r.pos f, { r with pos := r.pos + f.length }) := by
  -- one step over a frame: the verdict on the frame, and the reader behind it
  have hlt : ¬ r.buf.length ≤ r.pos := fun hle ↦ by
    rw [List.drop_eq_nil_of_le hle] at hbuf
    have := hf.length_pos
    rw [(List.append_eq_nil_iff.1 hbuf.symm).1] at this
    simp [frameHeaderBytes] at this
  have hframe := hf
  obtain ⟨p, hp, hlen⟩ := hframe
  rw [SegmentReader.nextFrame, if_neg (by simp [hstop, hlt])]
  simp only [hbuf, hf.validatePrefix_append, hf.decode_append, hp, judge]
  cases hk : keyCount p.series p.epoch with
  | none => simp [hlen]
  | some n =>
    dsimp only
    cases hd : decode crc f n r.maxRecordBytes with
    | error err => simp only [hlen]
    | ok res =>
      obtain ⟨record, len⟩ := res
      have hsame := (validatePrefix_of_decode hd).symm.trans hp
      rw [Except.ok.injEq] at hsame
      subst hsame
      simp only [← hlen]

/-- **What the reader yields**: the verdicts on the frames of the walk over the rest of the buffer,
then the fault that stopped it, if any. -/
theorem SegmentReader.frames_eq {r : SegmentReader} {rest : Bytes} {fs : List Bytes} {fuel : ℕ}
    (hstop : r.stopped = false) (hcut : Cut crc r.maxRecordBytes (r.buf.drop r.pos) fs rest)
    (hfuel : (r.buf.drop r.pos).length < fuel) :
    r.frames crc keyCount fuel = judgeAll crc keyCount r.maxRecordBytes r.pos fs ++
      tailFault crc r.maxRecordBytes (r.pos + fs.flatten.length) rest := by
  obtain ⟨id, buf, pos, cap, stopped⟩ := r
  dsimp only at hstop hcut hfuel ⊢
  subst hstop
  generalize hb : buf.drop pos = b at hcut hfuel
  -- the induction follows the walk; the position and the fuel move along
  induction hcut generalizing pos fuel with
  | done =>
    obtain ⟨fuel, rfl⟩ : ∃ k, fuel = k + 1 := ⟨fuel - 1, by omega⟩
    have hle : buf.length ≤ pos := List.drop_eq_nil_iff.1 hb
    rw [SegmentReader.frames, SegmentReader.nextFrame, if_pos (.inr hle)]
    rfl
  | @stop b e hne herr =>
    obtain ⟨fuel, rfl⟩ : ∃ k, fuel = k + 1 := ⟨fuel - 1, by omega⟩
    have hlt : ¬ buf.length ≤ pos := fun hle ↦ hne (by rw [← hb, List.drop_eq_nil_of_le hle])
    have hend : ∀ k, (⟨id, buf, pos, cap, true⟩ : SegmentReader).frames crc keyCount k = [] := by
      intro k
      cases k with
      | zero => rfl
      | succ k => rw [SegmentReader.frames, SegmentReader.nextFrame, if_pos (.inl rfl)]
    rw [SegmentReader.frames, SegmentReader.nextFrame, if_neg (by simp [hlt])]
    simp only [hb, herr, hend, judgeAll, List.flatten_nil, List.length_nil, Nat.add_zero,
      List.nil_append]
    cases b with
    | nil => exact absurd rfl hne
    | cons c cs => simp only [tailFault, herr]
  | @frame f b fs rest hf h ih =>
    obtain ⟨fuel, rfl⟩ : ∃ k, fuel = k + 1 := ⟨fuel - 1, by omega⟩
    have hpos := hf.length_pos
    rw [List.length_append] at hfuel
    have hdrop : buf.drop (pos + f.length) = b := by
      rw [← List.drop_drop, hb, List.drop_left]
    have hih := ih (pos + f.length) hdrop (show b.length < fuel by
      unfold frameHeaderBytes at hpos
      omega)
    rw [SegmentReader.frames, SegmentReader.nextFrame_frame rfl hb hf]
    dsimp only
    rw [hih, judgeAll, List.flatten_cons, List.length_append, List.cons_append, Nat.add_assoc]

/-! ## Segments of whole frames -/

private theorem judge_ne_undecodable {cap offset off : ℕ} {f : Bytes} {err : DecodeError}
    (hf : IsFrame crc cap f) : judge crc keyCount cap offset f ≠ .error (.undecodable off err) := by
  obtain ⟨p, hp, -⟩ := hf
  intro h
  simp only [judge, hp] at h
  cases hk : keyCount p.series p.epoch with
  | none =>
    rw [hk] at h
    cases h
  | some n =>
    rw [hk] at h
    dsimp only at h
    cases hd : decode crc f n cap with
    | ok r =>
      rw [hd] at h
      cases h
    | error e =>
      rw [hd] at h
      cases h

/-- Where an item stood in the segment. -/
def offsetOf : Except FrameFault Frame → ℕ
  | .ok frame => frame.offset
  | .error (.badRecord offset _ _) => offset
  | .error (.unknownSchema offset _ _ _) => offset
  | .error (.undecodable offset _) => offset

/-- Where consecutive frames stand, from an offset on. -/
def frameOffsets : ℕ → List Bytes → List ℕ
  | _, [] => []
  | offset, f :: fs => offset :: frameOffsets (offset + f.length) fs

private theorem offsetOf_judge (cap offset : ℕ) (f : Bytes) :
    offsetOf (judge crc keyCount cap offset f) = offset := by
  rw [judge]
  cases validatePrefix crc f cap with
  | error err => rfl
  | ok p =>
    dsimp only
    cases keyCount p.series p.epoch with
    | none => rfl
    | some n =>
      dsimp only
      cases decode crc f n cap with
      | ok r => rfl
      | error err => rfl

theorem map_offsetOf_judgeAll (cap offset : ℕ) (fs : List Bytes) :
    (judgeAll crc keyCount cap offset fs).map offsetOf = frameOffsets offset fs := by
  induction fs generalizing offset with
  | nil => rfl
  | cons f fs ih => rw [judgeAll, List.map_cons, offsetOf_judge, ih, frameOffsets]

private theorem judgeAll_ne_undecodable {cap offset off : ℕ} {fs : List Bytes} {err : DecodeError}
    (hfs : ∀ f ∈ fs, IsFrame crc cap f) :
    ∀ item ∈ judgeAll crc keyCount cap offset fs, item ≠ .error (.undecodable off err) := by
  induction fs generalizing offset with
  | nil => simp [judgeAll]
  | cons f fs ih =>
    rw [List.forall_mem_cons] at hfs
    rw [judgeAll, List.forall_mem_cons]
    exact ⟨judge_ne_undecodable hfs.1, ih hfs.2⟩

variable (crc) in
/-- The segment `b` is its header and the frames `fs`: read under the bound of its own length, with
any schemas, it yields one item for each frame, at the frame's place, and no fault that stops the
reader before its end. -/
structure ReadsWhole (b : Bytes) (fs : List Bytes) : Prop where
  length : segmentHeaderBytes + fs.flatten.length = b.length
  drop : b.drop segmentHeaderBytes = fs.flatten
  reads : ∀ keyCount : KeyCount, ∃ r, SegmentReader.new b b.length = .ok r ∧
    r.frames crc keyCount (b.length + 1) = judgeAll crc keyCount b.length segmentHeaderBytes fs ∧
    ∀ item ∈ r.frames crc keyCount (b.length + 1), ∀ off err, item ≠ .error (.undecodable off err)

/-- A frame that is part of a segment is delimited under the segment's length. -/
theorem IsFrame.of_length_le {cap cap' : ℕ} {f : Bytes} (hf : IsFrame crc cap f)
    (hle : f.length ≤ frameHeaderBytes + cap') : IsFrame crc cap' f := by
  obtain ⟨p, hp, hlen⟩ := id hf
  exact ⟨p, by rw [hf.validatePrefix_cap hle, hp], hlen⟩

/-- The frames of a segment are walked to the end of it under the segment's length. -/
theorem cut_segment {b : Bytes} {fs : List Bytes} {cap : ℕ}
    (hlen : segmentHeaderBytes + fs.flatten.length = b.length)
    (hdrop : b.drop segmentHeaderBytes = fs.flatten) (hfs : ∀ f ∈ fs, IsFrame crc cap f) :
    Cut crc b.length (b.drop segmentHeaderBytes) fs [] := by
  rw [hdrop]
  refine cut_flatten fun f hf ↦ (hfs f hf).of_length_le ?_
  have hle : f.length ≤ fs.flatten.length := (List.sublist_flatten_of_mem hf).length_le
  omega

/-- **Whole frames** behind a header that parses are read as they are. -/
theorem readsWhole_of_frames {b : Bytes} {fs : List Bytes} {id cap : ℕ}
    (hheader : parseSegmentHeader b = .ok id)
    (hlen : segmentHeaderBytes + fs.flatten.length = b.length)
    (hdrop : b.drop segmentHeaderBytes = fs.flatten) (hfs : ∀ f ∈ fs, IsFrame crc cap f) :
    ReadsWhole crc b fs := by
  refine ⟨hlen, hdrop, fun keyCount ↦ ?_⟩
  have hcut := cut_segment hlen hdrop hfs
  have hframes : (⟨id, b, segmentHeaderBytes, b.length, false⟩ : SegmentReader).frames crc keyCount
      (b.length + 1) = judgeAll crc keyCount b.length segmentHeaderBytes fs := by
    rw [SegmentReader.frames_eq rfl hcut (by simp only [List.length_drop]; omega)]
    exact List.append_nil _
  refine ⟨_, by rw [SegmentReader.new, hheader]; rfl, hframes, fun item hitem off err ↦ ?_⟩
  rw [hframes] at hitem
  exact judgeAll_ne_undecodable hcut.isFrame item hitem

end Orc
