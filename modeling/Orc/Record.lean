import Mathlib.Data.String.Basic
import Orc.Bytes.Basic

/-!
# Records and errors

The record model shared by ingest, the codec and the flush, and the engine's error type.

Floating-point values are carried by their bits, which is how the codec stores and compares them.
Messages that name data (a series, a key, a file) are constructors carrying that data; messages that
are a fixed text are the text.

The types are the source's own. Strings are Lean strings, which are valid Unicode as the source's
are, and their bytes are taken where a length or an order is meant (`utf8`). `Row` is what a caller
hands in and `RecordRef` what a frame decodes to; the second also names its series and epoch.
-/

namespace Orc

open Bytes

/-- A typed value for a declared key column. -/
inductive Value where
  | null
  | bool (b : Bool)
  | i64 (i : Int64)
  /-- An `f64`, as its bit pattern. -/
  | f64 (bits : UInt64)
  | str (s : String)
  deriving DecidableEq, Repr

/-- The declared type of a key column. -/
inductive KeyType where
  | bool
  | i64
  | f64
  | str
  deriving DecidableEq, Repr

namespace Value

/-- The wire type tag: one byte on disk. -/
def tag : Value → UInt8
  | null => 0
  | bool _ => 1
  | i64 _ => 2
  | f64 _ => 3
  | str _ => 4

/-- The declared type, or `none` for a null, which fits any nullable column. -/
def keyType : Value → Option KeyType
  | null => none
  | bool _ => some .bool
  | i64 _ => some .i64
  | f64 _ => some .f64
  | str _ => some .str

end Value

/-- A record as supplied to `append`: `keys` are positional, `extra` holds the undeclared
name/value pairs. -/
structure Row where
  ts : UInt64
  id : String
  keys : List Value
  extra : List (String × String)
  data : String
  deriving DecidableEq, Repr

/-- A decoded frame: the fixed part, with the keys and extra pairs the caller's scratch receives. -/
structure RecordRef where
  ts : UInt64
  epoch : UInt32
  series : String
  id : String
  keys : List Value
  extra : List (String × String)
  data : String
  deriving DecidableEq, Repr

/-- The row a decoded frame describes. -/
def RecordRef.row (r : RecordRef) : Row := ⟨r.ts, r.id, r.keys, r.extra, r.data⟩

/-! ## Errors -/

/-- Why a frame could not be decoded: the buffer ends mid-frame, or its bytes contradict each
other. -/
inductive DecodeError where
  | truncated (needed got : ℕ)
  | corrupt (reason : String)
  deriving DecidableEq, Repr

/-- The kinds of I/O error the engine tells apart. -/
inductive IoKind where
  | notFound
  | alreadyExists
  /-- Refused by the torn-frame guard of the WAL writer. -/
  | torn
  /-- Refused because the writer is closed. -/
  | closed
  | invalidData
  | other
  deriving DecidableEq, Repr

/-- The contents of an `Error::Config`: a fixed text, or a text about the data it names. -/
inductive ConfigError where
  | text (msg : String)
  | timestamp (whole why : String)
  /-- A field of a timestamp that is not a number. -/
  | notANumber (whole what raw : String)
  | seriesName (name why : String)
  | duplicateSeries (name : String)
  | caseCollision (name : String)
  | emptyKey (series : String)
  | reservedKey (series key : String)
  | duplicateKey (series key : String)
  | intervalOutOfRange (interval : UInt64)
  | segmentTooSmall (segmentMax maxRecord : UInt64)
  | batchNotPositive (maxBatch : Int64)
  | batchTooSmall (maxBatch : Int64) (maxRecord : UInt64)
  | compression (codec : String)
  /-- A declared key changed its type: it was `was` at `epoch`. -/
  | retyped (series key : String) (was : KeyType) (epoch : UInt32) (now : KeyType)
  | epochsExhausted (series : String)
  /-- A timestamp past the largest instant a signed `TIMESTAMP(MICROS)` can hold. -/
  | tsTooLarge (ts : UInt64)
  /-- No manifest, but this many Parquet files of the engine, the first of them by path. -/
  | manifestLost (files : ℕ) (first : List String)
  /-- The tail segment is in a format this build cannot read. -/
  | unsupportedSegment (segment : ℕ)
  | zeromq
  deriving DecidableEq, Repr

/-- The engine's error type. -/
inductive Error where
  | unknownSeries (name : String)
  | keyArity (series : String) (expected got : ℕ)
  | typeMismatch (series key : String) (expected : KeyType) (got : Option KeyType)
  | tsOutOfRange (ts min max : UInt64)
  | recordTooLarge (size limit : ℕ)
  | batchTooLarge (size limit : ℕ)
  | config (e : ConfigError)
  | locked (dir : String)
  | io (kind : IoKind)
  | json
  deriving DecidableEq, Repr

/-- `u16::MAX`. -/
def u16Max : ℕ := 65535

/-- `u32::MAX`. -/
def u32Max : ℕ := 4294967295

/-- `u64::MAX`. -/
def u64Max : ℕ := 18446744073709551615

end Orc
