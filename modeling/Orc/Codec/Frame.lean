import Orc.Bytes.Cursor
import Orc.Order.Canon
import Orc.Record

/-!
# The frame codec

The byte layout shared by the write-ahead log and the wire. A frame is

  `len u32 | crc32 u32 | ts u64 | epoch u32 | series | id | keys | extra | data`

with `len` the payload length and the checksum taken over `len` and the payload. The key section
carries no count: the caller supplies the arity of the frame's epoch.

The checksum is a parameter `crc` throughout, a fixed function of the bytes. That the program uses
CRC-32 matters to two results only, and there `Bytes.crc32` is put in.

The encoder appends to a buffer and backfills the header once the payload is known; the decoder
checks `len`, then the checksum, then walks the sections. Both are translated in that order, with
the error each check gives, because the order decides which error a buffer gets that fails several
checks, and callers act on the error: a buffer that is too short is waited for or cut off, one that
is corrupt is rejected.

Four functions look at a frame from the outside, with less and less work: `decode`,
`decodeVerified`, which leaves the checksum out, `validatePrefix`, which reads the fixed part only,
and `verifiedSortKey`, which reads the two fields a merge sorts by.
-/

namespace Orc

open Bytes

/-- `orc\0` read as a little-endian number. -/
def magic : ℕ := 0x0063726f

/-- Format version in every segment and batch header. -/
def formatVersion : ℕ := 1

/-- `magic | format_version | segment_id`. -/
def segmentHeaderBytes : ℕ := 4 + 2 + 8

/-- `magic | format_version | count`. -/
def batchHeaderBytes : ℕ := 4 + 2 + 4

/-- The `len` and `crc32` fields. -/
def frameHeaderBytes : ℕ := 4 + 4

/-- Smallest possible payload: zero keys, all strings empty. -/
def minPayloadBytes : ℕ := 8 + 4 + 2 + 2 + 2 + 4

/-- The reason recovery matches on to refuse a segment of another version. -/
def unsupportedVersion : String := "unsupported format version"

/-! ## Headers -/

/-- The bytes of a WAL segment header. -/
def encodeSegmentHeader (segmentId : ℕ) : Bytes :=
  leBytes 4 magic ++ leBytes 2 formatVersion ++ leBytes 8 segmentId

@[simp] theorem length_encodeSegmentHeader (id : ℕ) :
    (encodeSegmentHeader id).length = segmentHeaderBytes := by
  simp only [encodeSegmentHeader, List.length_append, length_leBytes]
  rfl

/-- The bytes of a batch header; `count` is how many frames follow, as a `u32`. -/
def encodeBatchHeader (count : ℕ) : Bytes :=
  leBytes 4 magic ++ leBytes 2 formatVersion ++ leBytes 4 count

/-- The `magic | format_version` shared by both headers; returns the bytes after it. -/
def parseCommonHeader (buf : Bytes) (needed : ℕ) : Except DecodeError Bytes :=
  if buf.length < needed then
    .error (.truncated needed buf.length)
  else if leNat (buf.take 4) ≠ magic then
    .error (.corrupt "bad magic; not an orc segment or batch")
  else if leNat ((buf.drop 4).take 2) ≠ formatVersion then
    .error (.corrupt unsupportedVersion)
  else
    .ok ((buf.take needed).drop 6)

/-- Parse a WAL segment header, returning its segment id. -/
def parseSegmentHeader (buf : Bytes) : Except DecodeError ℕ := do
  let after ← parseCommonHeader buf segmentHeaderBytes
  return leNat (after.take 8)

/-- Parse a batch header, returning its frame count. -/
def parseBatchHeader (buf : Bytes) : Except DecodeError ℕ := do
  let after ← parseCommonHeader buf batchHeaderBytes
  return leNat (after.take 4)

/-! ## Encoding -/

/-- A string whose length the layout carries in a `u16`. -/
def putStr16 (s : String) : Emitter Error Unit := do
  Emitter.guard ((utf8 s).length ≤ u16Max) (.recordTooLarge (utf8 s).length u16Max)
  Emitter.put (leBytes 2 (utf8 s).length)
  Emitter.put (utf8 s)

/-- A string whose length the layout carries in a `u32`. -/
def putStr32 (s : String) : Emitter Error Unit := do
  Emitter.guard ((utf8 s).length ≤ u32Max) (.recordTooLarge (utf8 s).length u32Max)
  Emitter.put (leBytes 4 (utf8 s).length)
  Emitter.put (utf8 s)

/-- One positional key: tag byte, then value. -/
def putValue (v : Value) : Emitter Error Unit := do
  Emitter.put [v.tag]
  match v with
  | .null => pure ()
  | .bool b => Emitter.put [if b then 1 else 0]
  | .i64 i => Emitter.put (leBytes 8 i.toUInt64.toNat)
  | .f64 bits => Emitter.put (leBytes 8 bits.toNat)
  | .str s => putStr32 s

/-- One `extra` pair. -/
def putPair (p : String × String) : Emitter Error Unit := do
  putStr16 p.1
  putStr16 p.2

/-- Already canonical: names strictly increasing, so sorted and without duplicates. -/
def isCanonical (extra : List (String × String)) : Bool :=
  decide (extra.IsChain fun a b ↦ utf8 a.1 < utf8 b.1)

/-- Sort the pairs by name and value and collapse each run of equal names to its first member. The
source sorts an array of indices by the pairs they point at; pairs that compare equal are equal, so
the pairs written are these. -/
def canonicalExtra (extra : List (String × String)) : List (String × String) :=
  Order.canon (fun p ↦ utf8 p.1) (fun p ↦ utf8 p.2) extra

/-- The `extra` section: the count is checked before duplicates collapse, and a list already
canonical is written as it is. -/
def putExtra (extra : List (String × String)) : Emitter Error Unit := do
  Emitter.guard (extra.length ≤ u16Max) (.recordTooLarge extra.length u16Max)
  if isCanonical extra then
    Emitter.put (leBytes 2 extra.length)
    Emitter.each putPair extra
  else
    Emitter.put (leBytes 2 (canonicalExtra extra).length)
    Emitter.each putPair (canonicalExtra extra)

/-- The sections of a frame, from `ts` to `data`. -/
def putPayload (series : String) (epoch : UInt32) (row : Row) : Emitter Error Unit := do
  Emitter.put (leBytes 8 row.ts.toNat)
  Emitter.put (leBytes 4 epoch.toNat)
  putStr16 series
  putStr16 row.id
  Emitter.each putValue row.keys
  putExtra row.extra
  putStr32 row.data

/-- Overwrite the bytes of `out` from `pos` on by `b`. -/
def overwrite (out : Bytes) (pos : ℕ) (b : Bytes) : Bytes :=
  out.take pos ++ b ++ out.drop (pos + b.length)

variable (crc : Bytes → UInt32)

/-- Write `len` and the checksum over `len` and the payload into the blank header at `start`. -/
def backfill (start : ℕ) : Emitter Error Unit := do
  let payloadLen := (← get).length - start - frameHeaderBytes
  Emitter.guard (payloadLen ≤ u32Max) (.recordTooLarge payloadLen u32Max)
  modify fun out ↦ overwrite out start (leBytes 4 payloadLen)
  modify fun out ↦ overwrite out (start + 4)
    (leBytes 4 (crc ((out.drop start).take 4 ++ out.drop (start + frameHeaderBytes))).toNat)

/-- Append one frame: a blank header, the sections, then the header backfilled. -/
def encodeInner (series : String) (epoch : UInt32) (row : Row) : Emitter Error Unit := do
  let start := (← get).length
  Emitter.put (List.replicate frameHeaderBytes 0)
  putPayload series epoch row
  backfill crc start

/-- `encodeInner`, with the buffer restored to its entry length on an error. -/
def encode (series : String) (epoch : UInt32) (row : Row) : Emitter Error Unit := fun out ↦
  match encodeInner crc series epoch row out with
  | .ok () out' => .ok () out'
  | .error e out' => .error e (out'.take out.length)

/-! ## Decoding -/

/-- A reader over one payload: overruns are corrupt, since the payload length is known. -/
abbrev PayloadReader (α : Type) := Cursor DecodeError α

/-- The error of a section that runs past the end of the payload. -/
def overrun : DecodeError := .corrupt "section runs past the end of the frame"

/-- `n` bytes that must be valid UTF-8. -/
def readUtf8 (n : ℕ) : PayloadReader String := do
  let bytes ← Cursor.take overrun n
  match fromUtf8 bytes with
  | some s => pure s
  | none => throw (.corrupt "string is not valid UTF-8")

/-- A string with a `u16` length. -/
def readStr16 : PayloadReader String := do
  let n ← Cursor.le overrun 2
  readUtf8 n

/-- A string with a `u32` length. -/
def readStr32 : PayloadReader String := do
  let n ← Cursor.le overrun 4
  readUtf8 n

/-- A tagged value. -/
def readValue : PayloadReader Value := do
  let t ← Cursor.le overrun 1
  match t with
  | 0 => pure .null
  | 1 =>
    match ← Cursor.le overrun 1 with
    | 0 => pure (.bool false)
    | 1 => pure (.bool true)
    | _ => throw (.corrupt "bool value is neither 0 nor 1")
  | 2 => (fun n ↦ .i64 (UInt64.ofNat n).toInt64) <$> Cursor.le overrun 8
  | 3 => (fun n ↦ .f64 (UInt64.ofNat n)) <$> Cursor.le overrun 8
  | 4 => .str <$> readStr32
  | _ => throw (.corrupt "unknown value tag")

/-- An `extra` pair. -/
def readPair : PayloadReader (String × String) := do
  let name ← readStr16
  let value ← readStr16
  return (name, value)

/-- The fixed part every frame starts with. -/
structure FrameStart where
  ts : UInt64
  epoch : UInt32
  series : String
  id : String
  deriving DecidableEq, Repr

/-- `ts`, `epoch`, `series` and `id`. -/
def readStart : PayloadReader FrameStart := do
  let ts ← Cursor.le overrun 8
  let epoch ← Cursor.le overrun 4
  let series ← readStr16
  let id ← readStr16
  return ⟨UInt64.ofNat ts, UInt32.ofNat epoch, series, id⟩

/-- All sections of a payload. -/
def readPayload (keyCount : ℕ) : PayloadReader RecordRef := do
  let s ← readStart
  let keys ← Cursor.many readValue keyCount
  let n ← Cursor.le overrun 2
  let extra ← Cursor.many readPair n
  let data ← readStr32
  return ⟨s.ts, s.epoch, s.series, s.id, keys, extra, data⟩

/-- The shared body of `decode` and `decodeVerified`: leftover bytes mean the sections disagree with
`len`. -/
def decodePayload (payload : Bytes) (frameLen keyCount : ℕ) :
    Except DecodeError (RecordRef × ℕ) := do
  let (r, rest) ← readPayload keyCount payload
  if rest.isEmpty then
    return (r, frameLen)
  else
    throw (.corrupt "trailing bytes after data section")

/-- The length checks of a frame: `len` is bounded before the buffer is consulted. -/
def frameExtent (buf : Bytes) (maxRecordBytes : ℕ) : Except DecodeError (Bytes × ℕ) :=
  let len := leNat (buf.take 4)
  if buf.length < frameHeaderBytes then
    .error (.truncated frameHeaderBytes buf.length)
  else if len < minPayloadBytes then
    .error (.corrupt "length below the smallest possible frame")
  else if len > maxRecordBytes then
    .error (.corrupt "length over max_record_bytes")
  else if buf.length < frameHeaderBytes + len then
    .error (.truncated (frameHeaderBytes + len) buf.length)
  else
    .ok ((buf.drop frameHeaderBytes).take len, frameHeaderBytes + len)

/-- `frameExtent`, with the checksum verified. -/
def framePayload (buf : Bytes) (maxRecordBytes : ℕ) : Except DecodeError (Bytes × ℕ) := do
  let (payload, frameLen) ← frameExtent buf maxRecordBytes
  if (crc (buf.take 4 ++ payload)).toNat ≠ leNat ((buf.drop 4).take 4) then
    throw (.corrupt "crc32 mismatch")
  else
    return (payload, frameLen)

/-- The fixed part of a frame, and how far the frame extends. -/
structure FramePrefix extends FrameStart where
  frameLen : ℕ
  deriving DecidableEq, Repr

/-- Check `len` and the checksum, then read only the fixed part. -/
def validatePrefix (buf : Bytes) (maxRecordBytes : ℕ) : Except DecodeError FramePrefix := do
  let (payload, frameLen) ← framePayload crc buf maxRecordBytes
  let (s, _) ← readStart payload
  return ⟨s, frameLen⟩

/-- Decode one checksummed frame from the front of `buf`; returns it and its length. -/
def decode (buf : Bytes) (keyCount maxRecordBytes : ℕ) : Except DecodeError (RecordRef × ℕ) := do
  let (payload, frameLen) ← framePayload crc buf maxRecordBytes
  decodePayload payload frameLen keyCount

/-- `decode` without the checksum or a length bound, for frames already verified. The bound is
`usize::MAX`, which no `u32` length exceeds. -/
def decodeVerified (buf : Bytes) (keyCount : ℕ) : Except DecodeError (RecordRef × ℕ) := do
  let (payload, frameLen) ← frameExtent buf u32Max
  decodePayload payload frameLen keyCount

/-- `ts` and the raw id bytes: no UTF-8 check. -/
def readSortKey : PayloadReader (UInt64 × Bytes) := do
  let ts ← Cursor.le overrun 8
  let _ ← Cursor.le overrun 4
  let seriesLen ← Cursor.le overrun 2
  let _ ← Cursor.take overrun seriesLen
  let idLen ← Cursor.le overrun 2
  let id ← Cursor.take overrun idLen
  return (UInt64.ofNat ts, id)

/-- The flush merge's sort key: `(ts, raw id bytes, frame length)`. -/
def verifiedSortKey (buf : Bytes) : Except DecodeError (UInt64 × Bytes × ℕ) := do
  let (payload, frameLen) ← frameExtent buf u32Max
  let ((ts, id), _) ← readSortKey payload
  return (ts, id, frameLen)

end Orc
