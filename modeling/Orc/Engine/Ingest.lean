import Orc.Codec.Cut
import Orc.Flush.Columns
import Orc.Schema.Manifest

/-!
# Ingest

What the engine checks before bytes reach the log: the accept window of timestamps, the arity and
types of a row, its encoded size, and for raw frames the fixed part of each. `appendFrame`,
`appendFrames` and `appendRaw` return the bytes handed to the log writer.

## The clock

The clock is an argument. Raw ingest reads it once per frame, so there it is a function of the
number of frames judged so far; a batch of rows reads it once per row in the same way.

## Sizes

The size of a row is checked twice. `checkSize` adds up the lengths of its strings before anything
is encoded, so that a row far over the limit does not cost an allocation; the frame is measured
again when it has been written. The sum saturates, as in the source. Both checks fail with the same
error, though not with the same size in it, and the first never refuses what the second would accept
(`checkSize_of_frame_le`).

Raw ingest neither decodes keys nor looks at their types. It trusts the client with them, and the
flush rejects what does not decode. What it does check is what the log needs in order to be read
again: the frame's length, its checksum, the series and epoch, and the timestamp. `appendRaw_eq`
states the loop as a map over the delimited pieces of the input, and it is what the rest of the
development uses.
-/

namespace Orc

open Bytes

/-- `u64` addition that stops at the largest value. -/
def satAdd (a b : ℕ) : ℕ := min (a + b) u64Max

/-- The parts of the engine that ingest reads. -/
structure Engine where
  config : Config
  handles : Std.ExtTreeMap String SeriesHandle
  tsMin : ℕ
  tsMaxSkewUs : ℕ
  deriving DecidableEq

/-- Resolve every declared series at its current epoch. -/
def openHandles (m : Manifest) (handles : Std.ExtTreeMap String SeriesHandle) :
    List SeriesConfig → Except Error (Std.ExtTreeMap String SeriesHandle)
  | [] => .ok handles
  | s :: rest => do
    let handle ← SeriesHandle.new s ((m.currentEpoch s.name).getD 0)
    openHandles m (handles.insert s.name handle) rest

/-- The ingest state of an engine opened with a reconciled manifest. -/
def Engine.new (config : Config) (m : Manifest) : Except Error Engine := do
  let handles ← openHandles m {} config.series
  let tsMin ← config.limits.tsMinUs
  return ⟨config, handles, tsMin, min (config.limits.tsMaxSkewMs.toNat * 1000) u64Max⟩

namespace Engine

/-- The limit on encoded records. -/
def limit (e : Engine) : ℕ := e.config.limits.maxRecordBytes.toNat

/-- The accept window's upper bound; `none` while the clock reads before `tsMin`. -/
def tsUpperBound (e : Engine) (now : ℕ) : Option ℕ :=
  if now < e.tsMin then none else some (satAdd now e.tsMaxSkewUs)

def checkTs (e : Engine) (now : ℕ) (ts : UInt64) : Except Error Unit :=
  let max := e.tsUpperBound now
  if ts.toNat < e.tsMin ∨ max.any (· < ts.toNat) then
    .error (.tsOutOfRange ts (UInt64.ofNat e.tsMin) (UInt64.ofNat (max.getD u64Max)))
  else
    .ok ()

/-- Each value against its declared key, in order. -/
def checkValues (series : String) : List KeyDef → List Value → Except Error Unit
  | k :: ks, v :: vs =>
    match v.keyType with
    | none =>
      if k.nullable then checkValues series ks vs
      else .error (.typeMismatch series k.name k.ty none)
    | some got =>
      if got = k.ty then checkValues series ks vs
      else .error (.typeMismatch series k.name k.ty (some got))
  | _, _ => .ok ()

def checkRow (e : Engine) (now : ℕ) (h : SeriesHandle) (row : Row) : Except Error Unit := do
  e.checkTs now row.ts
  if row.keys.length ≠ h.keys.length then
    .error (.keyArity h.name h.keys.length row.keys.length)
  else
    checkValues h.name h.keys row.keys

/-- A cheap lower bound on the encoded size, if it is over the limit. -/
def oversize (row : Row) (limit : ℕ) : Option ℕ :=
  let n := row.keys.foldl (fun n v ↦
    match v with
    | .str s => satAdd n (utf8 s).length
    | _ => n) (satAdd (utf8 row.id).length (utf8 row.data).length)
  if limit < n then some n else none

/-- The size check before a row is encoded. -/
def checkSize (row : Row) (limit : ℕ) : Except Error Unit :=
  match oversize row limit with
  | some size => .error (.recordTooLarge size limit)
  | none => .ok ()

section Checksum

variable (crc : Bytes → UInt32)

/-- Encode a row behind the frames already in the buffer; the exact size is checked afterwards. -/
def encodeRow (e : Engine) (h : SeriesHandle) (buf : Bytes) (row : Row) : Except Error Bytes :=
  match encode crc h.name h.epoch row buf with
  | .error err _ => .error err
  | .ok () buf' =>
    if e.limit < buf'.length - buf.length then
      .error (.recordTooLarge (buf'.length - buf.length) e.limit)
    else
      .ok buf'

/-- `Engine::append` up to the log: the frame handed to the writer. -/
def appendFrame (e : Engine) (now : ℕ) (h : SeriesHandle) (row : Row) : Except Error Bytes := do
  e.checkRow now h row
  checkSize row e.limit
  e.encodeRow crc h [] row

/-- The first loop of `append_batch`: every row is checked before any is encoded. -/
def checkRows (e : Engine) (clock : ℕ → ℕ) (h : SeriesHandle) :
    ℕ → List Row → Except Error Unit
  | _, [] => .ok ()
  | i, row :: rows => do
    e.checkRow (clock i) h row
    checkSize row e.limit
    checkRows e clock h (i + 1) rows

/-- `Engine::append_batch` up to the log: the frames handed to the writer. -/
def appendFrames (e : Engine) (clock : ℕ → ℕ) (h : SeriesHandle) (rows : List Row) :
    Except Error Bytes := do
  e.checkRows clock h 0 rows
  rows.foldlM (e.encodeRow crc h) []

/-- How many frames raw ingest took and dropped. -/
structure RawIngest where
  accepted : ℕ := 0
  rejected : ℕ := 0
  /-- Batch tail dropped after an undecodable frame. -/
  discardedBytes : ℕ := 0
  deriving DecidableEq, Repr

/-- A series of this engine, at an epoch it has reached. -/
def known (e : Engine) (p : FramePrefix) : Bool := e.handles[p.series]?.any (p.epoch ≤ ·.epoch)

/-- The loop of raw ingest; `good` are the frames taken so far. Every turn consumes a frame or
stops, so the length of the input is enough fuel. -/
def appendRawLoop (e : Engine) (clock : ℕ → ℕ) :
    ℕ → Bytes → RawIngest → List Bytes → RawIngest × List Bytes
  | 0, _, out, good => (out, good)
  | fuel + 1, bytes, out, good =>
    if bytes.isEmpty then
      (out, good)
    else
      match validatePrefix crc bytes e.limit with
      | .error _ =>
        -- the length is not to be trusted, so the next frame cannot be located
        ({ out with
            rejected := out.rejected + 1
            discardedBytes := out.discardedBytes + bytes.length }, good)
      | .ok p =>
        let frame := bytes.take p.frameLen
        let rest := bytes.drop p.frameLen
        if (e.checkTs (clock (out.accepted + out.rejected)) p.ts).toBool ∧ e.known p then
          appendRawLoop e clock fuel rest { out with accepted := out.accepted + 1 }
            (good ++ [frame])
        else
          appendRawLoop e clock fuel rest { out with rejected := out.rejected + 1 } good

/-- `Engine::append_raw` up to the log: the counts, and the frames handed to the writer back to
back. -/
def appendRaw (e : Engine) (clock : ℕ → ℕ) (bytes : Bytes) : RawIngest × List Bytes :=
  e.appendRawLoop crc clock bytes.length bytes {} []

/-- The frame would be taken with the clock reading `now`. -/
def admits (e : Engine) (now : ℕ) (f : Bytes) : Bool :=
  match validatePrefix crc f e.limit with
  | .error _ => false
  | .ok p => (e.checkTs now p.ts).toBool && e.known p

/-- The frames taken of those delimited, the first one judged at reading `i` of the clock. -/
def admitted (e : Engine) (clock : ℕ → ℕ) : ℕ → List Bytes → List Bytes
  | _, [] => []
  | i, f :: fs =>
    if e.admits crc (clock i) f then f :: admitted e clock (i + 1) fs
    else admitted e clock (i + 1) fs

end Checksum

/-! ## What is taken -/

private theorem keysFit_of_checkValues {series : String} {keys : List KeyDef} {values : List Value}
    (hlen : values.length = keys.length) (h : checkValues series keys values = .ok ()) :
    KeysFit keys values := by
  induction keys generalizing values with
  | nil =>
    rw [List.eq_nil_of_length_eq_zero hlen]
    exact .nil
  | cons k ks ih =>
    obtain ⟨v, vs, rfl⟩ := List.exists_cons_of_length_eq_add_one hlen
    rw [List.length_cons, List.length_cons, Nat.add_right_cancel_iff] at hlen
    rw [checkValues] at h
    split at h
    next hnull =>
      split_ifs at h
      refine .cons (.inl ?_) (ih hlen h)
      cases v <;> simp_all [Value.keyType]
    next got hgot =>
      split_ifs at h with hty
      exact .cons (.inr (hty ▸ hgot)) (ih hlen h)

variable {crc : Bytes → UInt32} {e : Engine}

/-- A row taken through a handle: its frame is the encoding of the row at the handle's epoch, and
its values fit the handle's keys. -/
structure Takes (crc : Bytes → UInt32) (e : Engine) (h : SeriesHandle) (row : Row) : Prop where
  encodable : Encodable h.name h.epoch row
  size : (payloadBytes (stamped h.name h.epoch row)).length ≤ u32Max
  limit : (frameOf crc h.name h.epoch row).length ≤ e.limit
  keys : KeysFit h.keys row.keys

theorem checkRow_eq_ok {now : ℕ} {h : SeriesHandle} {row : Row}
    (hok : e.checkRow now h row = .ok ()) : KeysFit h.keys row.keys := by
  rw [checkRow, Except.bind_eq_ok] at hok
  obtain ⟨⟨⟩, -, hok⟩ := hok
  split_ifs at hok with hlen
  exact keysFit_of_checkValues (not_ne_iff.1 hlen) hok

theorem encodeRow_eq_ok {h : SeriesHandle} {row : Row} {buf buf' : Bytes}
    (hok : e.encodeRow crc h buf row = .ok buf') :
    buf' = buf ++ frameOf crc h.name h.epoch row ∧ (Encodable h.name h.epoch row ∧
      (payloadBytes (stamped h.name h.epoch row)).length ≤ u32Max) ∧
      (frameOf crc h.name h.epoch row).length ≤ e.limit := by
  unfold encodeRow at hok
  split at hok
  next => cases hok
  next hd =>
    split_ifs at hok with hlim
    obtain rfl := Except.ok.inj hok
    obtain ⟨henc, rfl⟩ := (encode_eq_ok crc h.name h.epoch row).1 hd
    rw [List.length_append, Nat.add_sub_cancel_left] at hlim
    exact ⟨rfl, henc, not_lt.1 hlim⟩

theorem appendFrame_eq_ok {now : ℕ} {h : SeriesHandle} {row : Row} {f : Bytes}
    (hok : e.appendFrame crc now h row = .ok f) :
    f = frameOf crc h.name h.epoch row ∧ Takes crc e h row := by
  simp only [appendFrame, Except.bind_eq_ok] at hok
  obtain ⟨⟨⟩, hrow, ⟨⟩, -, henc⟩ := hok
  obtain ⟨hf, ⟨henc, hsize⟩, hlim⟩ := encodeRow_eq_ok henc
  exact ⟨hf, henc, hsize, hlim, checkRow_eq_ok hrow⟩

private theorem checkRows_eq_ok {clock : ℕ → ℕ} {h : SeriesHandle} {i : ℕ} {rows : List Row}
    (hok : e.checkRows clock h i rows = .ok ()) : ∀ row ∈ rows, KeysFit h.keys row.keys := by
  induction rows generalizing i with
  | nil => simp
  | cons row rows ih =>
    simp only [checkRows, Except.bind_eq_ok] at hok
    obtain ⟨⟨⟩, hrow, ⟨⟩, -, hok⟩ := hok
    exact List.forall_mem_cons.2 ⟨checkRow_eq_ok hrow, ih hok⟩

/-- A batch taken through a handle: the frames of its rows, back to back. -/
theorem appendFrames_eq_ok {clock : ℕ → ℕ} {h : SeriesHandle} {rows : List Row} {bytes : Bytes}
    (hok : e.appendFrames crc clock h rows = .ok bytes) :
    bytes = (rows.map (frameOf crc h.name h.epoch)).flatten ∧
      ∀ row ∈ rows, Takes crc e h row := by
  rw [appendFrames, Except.bind_eq_ok] at hok
  obtain ⟨⟨⟩, hcheck, hfold⟩ := hok
  have hkeys := checkRows_eq_ok hcheck
  clear hcheck
  rw [← List.nil_append (rows.map _).flatten]
  generalize ([] : Bytes) = buf at hfold ⊢
  induction rows generalizing buf with
  | nil =>
    obtain rfl := Except.ok.inj hfold
    simp
  | cons row rows ih =>
    rw [List.foldlM_cons, Except.bind_eq_ok] at hfold
    obtain ⟨buf', henc, hfold⟩ := hfold
    rw [List.forall_mem_cons] at hkeys
    obtain ⟨rfl, ⟨henc, hsize⟩, hlim⟩ := encodeRow_eq_ok henc
    obtain ⟨rfl, hrows⟩ := ih hkeys.2 _ hfold
    refine ⟨?_, List.forall_mem_cons.2 ⟨⟨henc, hsize, hlim, hkeys.1⟩, hrows⟩⟩
    rw [List.map_cons, List.flatten_cons, List.append_assoc]

/-- Of the frames taken, every one is known by its series and epoch. -/
theorem of_mem_admitted {clock : ℕ → ℕ} {i : ℕ} {fs : List Bytes} {f : Bytes}
    (hf : f ∈ e.admitted crc clock i fs) :
    f ∈ fs ∧ ∃ p, validatePrefix crc f e.limit = .ok p ∧ e.known p = true := by
  induction fs generalizing i with
  | nil => cases hf
  | cons g fs ih =>
    rw [admitted] at hf
    split_ifs at hf with hadm
    · rcases List.mem_cons.1 hf with rfl | hf
      · refine ⟨List.mem_cons_self, ?_⟩
        unfold admits at hadm
        split at hadm
        next => cases hadm
        next p hp => exact ⟨p, hp, (Bool.and_eq_true _ _ ▸ hadm).2⟩
      · exact ⟨List.mem_cons_of_mem g (ih hf).1, (ih hf).2⟩
    · exact ⟨List.mem_cons_of_mem g (ih hf).1, (ih hf).2⟩

theorem length_admitted_le (clock : ℕ → ℕ) (i : ℕ) (fs : List Bytes) :
    (e.admitted crc clock i fs).length ≤ fs.length := by
  induction fs generalizing i with
  | nil => exact le_rfl
  | cons f fs ih =>
    rw [admitted]
    split_ifs
    · exact Nat.succ_le_succ (ih (i + 1))
    · exact (ih (i + 1)).trans (Nat.le_succ _)

private theorem appendRawLoop_eq {clock : ℕ → ℕ} {bytes rest : Bytes} {fs : List Bytes}
    (hcut : Cut crc e.limit bytes fs rest) {fuel : ℕ} (hfuel : bytes.length ≤ fuel)
    (out : RawIngest) (good : List Bytes) :
    e.appendRawLoop crc clock fuel bytes out good =
      let taken := e.admitted crc clock (out.accepted + out.rejected) fs
      ({ accepted := out.accepted + taken.length
         rejected := out.rejected + (fs.length - taken.length) + if rest = [] then 0 else 1
         discardedBytes := out.discardedBytes + rest.length }, good ++ taken) := by
  induction hcut generalizing fuel out good with
  | done => cases fuel <;> simp [appendRawLoop, admitted]
  | @stop buf err hne herr =>
    obtain ⟨fuel, rfl⟩ : ∃ n, fuel = n + 1 := ⟨fuel - 1, by
      have := List.length_pos_of_ne_nil hne
      omega⟩
    rw [appendRawLoop, if_neg (by simpa using hne), herr]
    simp [admitted, hne]
  | @frame f buf fs rest hf h ih =>
    have hpos := hf.length_pos
    rw [List.length_append] at hfuel
    unfold frameHeaderBytes at hpos
    obtain ⟨fuel, rfl⟩ : ∃ n, fuel = n + 1 := ⟨fuel - 1, by omega⟩
    have hne : (f ++ buf).isEmpty = false := by
      rw [List.isEmpty_eq_false_iff]
      intro heq
      rw [(List.append_eq_nil_iff.1 heq).1] at hpos
      simp at hpos
    obtain ⟨p, hp, hlen⟩ := id hf
    have hle : ∀ i fs, (e.admitted crc clock i fs).length ≤ fs.length := length_admitted_le clock
    have hadm : e.admits crc (clock (out.accepted + out.rejected)) f = true ↔
        (e.checkTs (clock (out.accepted + out.rejected)) p.ts).toBool ∧ e.known p := by
      rw [admits, hp, Bool.and_eq_true]
    rw [appendRawLoop, hne, if_neg (by simp), hf.validatePrefix_append, hp]
    dsimp only
    rw [hlen, List.take_left, List.drop_left, admitted]
    by_cases hcheck : (e.checkTs (clock (out.accepted + out.rejected)) p.ts).toBool ∧ e.known p
    · have hsum : out.accepted + 1 + out.rejected = out.accepted + out.rejected + 1 := by omega
      rw [if_pos hcheck, if_pos (hadm.2 hcheck), ih (by omega)]
      simp only [hsum, List.length_cons, List.append_assoc, List.singleton_append,
        Nat.add_sub_add_right]
      congr 2
      omega
    · have hsum : out.accepted + (out.rejected + 1) = out.accepted + out.rejected + 1 := by omega
      rw [if_neg hcheck, if_neg (fun h ↦ hcheck (hadm.1 h)), ih (by omega)]
      have := hle (out.accepted + out.rejected + 1) fs
      simp only [hsum, List.length_cons]
      congr 2
      omega

/-- **Raw ingest** walks the input frame by frame: what is delimited is taken or rejected on its
own, and what cannot be delimited is discarded and counts as one reject. -/
theorem appendRaw_eq {clock : ℕ → ℕ} {bytes rest : Bytes} {fs : List Bytes}
    (hcut : Cut crc e.limit bytes fs rest) :
    e.appendRaw crc clock bytes =
      ({ accepted := (e.admitted crc clock 0 fs).length
         rejected := (fs.length - (e.admitted crc clock 0 fs).length) + if rest = [] then 0 else 1
         discardedBytes := rest.length }, e.admitted crc clock 0 fs) := by
  rw [appendRaw, appendRawLoop_eq hcut le_rfl]
  simp

end Engine

end Orc
