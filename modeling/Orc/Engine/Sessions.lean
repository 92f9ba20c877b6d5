import Mathlib.Logic.Relation
import Orc.Engine.Ingest
import Orc.Flush.Decode

/-!
# Sessions

The life of a data directory as far as schemas are concerned: engines are opened on it one after the
other, each with a config of its own, rows and raw frames are appended, and flushes move the
watermark. A `Ledger` is the manifest, the engine that is open, and the frames accepted so far.

The manifest of a reachable ledger is well formed and only grows, the handles of the open engine
stand at the newest entries of their histories, and every accepted frame has its schema on record.
So a frame is decoded against the layout it was encoded with, in whatever later session it is
flushed (`frames_keep_their_layout`).

## Why an epoch is enough

A frame carries the name of its series and an epoch, and nothing else of its schema. That this is
enough rests on facts about the manifest that do not mention frames: no entry of a history is
dropped, an entry keeps its layout, though not which of its keys are nullable, and a new layout gets
the next epoch. They are proved where the manifest is reconciled, and here they are put together.

The files are left out. Which frames survive is a question of the log and the flush, and a frame
that does not survive needs no layout; so the ledger keeps every frame that was accepted, and the
result covers any of them that is found later. Of raw frames less is shown: their series and epoch
are on record, and their keys may not decode.
-/

namespace Orc

open Bytes Fault

/-- A row appended through a handle, and its frame. -/
structure Appended where
  handle : SeriesHandle
  row : Row
  frame : Bytes

/-- A data directory and the engine open on it, if any, with the frames accepted so far. -/
structure Ledger where
  manifest : Manifest := {}
  engine : Option Engine := none
  appended : List Appended := []
  raw : List Bytes := []

/-- All frames accepted. -/
def Ledger.frames (l : Ledger) : List Bytes := l.appended.map Appended.frame ++ l.raw

variable (crc : Bytes → UInt32) (lower : String → String)

/-- One step in the life of a data directory. -/
inductive Ledger.Step : Ledger → Ledger → Prop
  /-- An engine is opened; the reconciled manifest is committed if it changed. -/
  | opens {l : Ledger} {config : Config} {m : Manifest} {changed : Bool} {e : Engine}
      (hvalid : config.validate lower = .ok ())
      (hrec : l.manifest.reconcile config = .ok (m, changed)) (hnew : Engine.new config m = .ok e) :
      Step l { l with manifest := if changed then m else l.manifest, engine := some e }
  /-- Opening fails or is cut short after the reconciled manifest was committed. -/
  | opensNot {l : Ledger} {config : Config} {m : Manifest} {changed : Bool}
      (hvalid : config.validate lower = .ok ())
      (hrec : l.manifest.reconcile config = .ok (m, changed)) :
      Step l { l with manifest := m, engine := none }
  | append {l : Ledger} {e : Engine} {now : ℕ} {name : String} {h : SeriesHandle} {row : Row}
      {f : Bytes} (he : l.engine = some e) (hh : e.handles[name]? = some h)
      (hf : e.appendFrame crc now h row = .ok f) :
      Step l { l with appended := l.appended ++ [⟨h, row, f⟩] }
  | appendBatch {l : Ledger} {e : Engine} {clock : ℕ → ℕ} {name : String} {h : SeriesHandle}
      {rows : List Row} {bytes : Bytes} (he : l.engine = some e) (hh : e.handles[name]? = some h)
      (hf : e.appendFrames crc clock h rows = .ok bytes) :
      Step l { l with
        appended := l.appended ++ rows.map fun row ↦ ⟨h, row, frameOf crc h.name h.epoch row⟩ }
  | appendRaw {l : Ledger} {e : Engine} (clock : ℕ → ℕ) (bytes : Bytes) (he : l.engine = some e) :
      Step l { l with raw := l.raw ++ (e.appendRaw crc clock bytes).2 }
  /-- A flush moves the watermark. -/
  | flush {l : Ledger} (segment : ℕ) (at_ : Option ℕ) :
      Step l { l with manifest :=
        { l.manifest with lastFlushedSegment := segment, lastFlushAt := at_ } }
  | closes {l : Ledger} : Step l { l with engine := none }

/-- Any number of steps. -/
abbrev Ledger.Steps : Ledger → Ledger → Prop := Relation.ReflTransGen (Ledger.Step crc lower)

/-- A ledger that some run from the empty directory leads to. -/
abbrev Ledger.Reachable (l : Ledger) : Prop := Ledger.Steps crc lower {} l

/-! ## The invariant -/

/-- A later manifest: every history is a later one. -/
def Manifest.Grows (m m' : Manifest) : Prop := ∀ name, Frozen (m.history name) (m'.history name)

/-- A frame on record: it validates, and its series has a schema at its epoch. -/
def Manifest.Knows (m : Manifest) (f : Bytes) : Prop :=
  ∃ p keys, validatePrefix crc f f.length = .ok p ∧ m.schema p.series p.epoch = some keys

/-- What an appended row keeps: its frame is the encoding of the row, and the row fits the schema of
the epoch it is stamped with. -/
structure Appended.Ok (m : Manifest) (a : Appended) : Prop where
  frame_eq : a.frame = frameOf crc a.handle.name a.handle.epoch a.row
  fits : (stamped a.handle.name a.handle.epoch a.row).Fits
  size : (payloadBytes (stamped a.handle.name a.handle.epoch a.row)).length ≤ u32Max
  schema : ∃ keys, m.schema a.handle.name a.handle.epoch = some keys ∧ KeysFit keys a.row.keys

/-- A handle at the newest epoch of its series. -/
def SeriesHandle.Current (m : Manifest) (h : SeriesHandle) : Prop :=
  (m.history h.name).getLast? = some ⟨h.epoch, h.keys⟩

/-- What holds of every reachable ledger. -/
structure Ledger.Ok (l : Ledger) : Prop where
  manifest : l.manifest.Ok
  handles : ∀ e, l.engine = some e → ∀ name (h : SeriesHandle), e.handles[name]? = some h →
    h.name = name ∧ h.Current l.manifest
  appended : ∀ a ∈ l.appended, a.Ok crc l.manifest
  raw : ∀ f ∈ l.raw, l.manifest.Knows crc f

variable {crc lower}

theorem KeysFit.of_layout {keys keys' : List KeyDef} {values : List Value}
    (h : KeysFit keys values) (hlay : layout keys' = layout keys) : KeysFit keys' values := by
  -- whether values fit a key list depends on its layout only, not on what is nullable
  have hiff : ∀ ks : List KeyDef, KeysFit ks values ↔
      List.Forall₂ (fun k v ↦ Value.FitsType v k.2) (layout ks) values := by
    intro ks
    rw [layout, List.forall₂_map_left_iff]
    rfl
  rw [hiff, hlay, ← hiff]
  exact h

section Growth

variable {m m' : Manifest}

theorem Manifest.Grows.refl (m : Manifest) : m.Grows m := fun _ ↦ .refl _

theorem Manifest.Knows.mono (hok : m.Ok) (hok' : m'.Ok) (hg : m.Grows m') {f : Bytes}
    (h : m.Knows crc f) : m'.Knows crc f := by
  obtain ⟨p, keys, hp, hkeys⟩ := h
  obtain ⟨keys', hkeys', -⟩ := hok.schema_frozen hok' (hg p.series) hkeys
  exact ⟨p, keys', hp, hkeys'⟩

theorem Appended.Ok.mono (hok : m.Ok) (hok' : m'.Ok) (hg : m.Grows m') {a : Appended}
    (h : a.Ok crc m) : a.Ok crc m' := by
  obtain ⟨keys, hkeys, hfit⟩ := h.schema
  obtain ⟨keys', hkeys', hlay⟩ := hok.schema_frozen hok' (hg a.handle.name) hkeys
  exact ⟨h.frame_eq, h.fits, h.size, keys', hkeys', hfit.of_layout hlay⟩

theorem SeriesHandle.Current.schema {h : SeriesHandle} (hok : m.Ok) (hcur : h.Current m) :
    m.currentEpoch h.name = some h.epoch ∧ m.schema h.name h.epoch = some h.keys := by
  have hlen := (hok h.name).getLast?_epoch hcur
  rw [Manifest.currentEpoch_eq, hok.schema_eq, hcur]
  rw [SeriesHandle.Current, List.getLast?_eq_getElem?, ← hlen, Nat.add_sub_cancel] at hcur
  rw [hcur]
  exact ⟨rfl, rfl⟩

end Growth

/-! ## One step -/

private theorem openHandles_current {m : Manifest} {series : List SeriesConfig}
    {handles handles' : Std.ExtTreeMap String SeriesHandle}
    (hcur : ∀ s ∈ series, ∃ e, (m.history s.name).getLast? = some ⟨e, s.keys⟩)
    (hold : ∀ name (h : SeriesHandle), handles[name]? = some h → h.name = name ∧ h.Current m)
    (hopen : openHandles m handles series = .ok handles') :
    ∀ name (h : SeriesHandle), handles'[name]? = some h → h.name = name ∧ h.Current m := by
  induction series generalizing handles with
  | nil =>
    obtain rfl := Except.ok.inj hopen
    exact hold
  | cons s rest ih =>
    rw [openHandles, Except.bind_eq_ok] at hopen
    obtain ⟨handle, hnew, hopen⟩ := hopen
    rw [SeriesHandle.new, Except.bind_eq_ok] at hnew
    obtain ⟨⟨⟩, -, hnew⟩ := hnew
    obtain rfl := Except.ok.inj hnew
    rw [List.forall_mem_cons] at hcur
    refine ih hcur.2 (fun name h hget ↦ ?_) hopen
    rw [Std.ExtTreeMap.getElem?_insert] at hget
    split_ifs at hget with hname
    · obtain rfl := Std.LawfulEqCmp.eq_of_compare hname
      obtain rfl := Option.some.inj hget
      refine ⟨rfl, ?_⟩
      obtain ⟨e, he⟩ := hcur.1
      rw [SeriesHandle.Current, Manifest.currentEpoch_eq]
      simp only [he, Option.map_some, Option.getD_some]
    · exact hold name h hget

theorem Engine.new_current {m : Manifest} {config : Config} {e : Engine}
    (hcur : ∀ s ∈ config.series, ∃ e, (m.history s.name).getLast? = some ⟨e, s.keys⟩)
    (hnew : Engine.new config m = .ok e) :
    ∀ name (h : SeriesHandle), e.handles[name]? = some h → h.name = name ∧ h.Current m := by
  simp only [Engine.new, Except.bind_eq_ok] at hnew
  obtain ⟨handles, hopen, tsMin, -, hnew⟩ := hnew
  obtain rfl := Except.ok.inj hnew
  refine openHandles_current hcur (fun name h hget ↦ ?_) hopen
  simp at hget

theorem Engine.Takes.appended {m : Manifest} {e : Engine} {h : SeriesHandle} {row : Row}
    (hok : m.Ok) (hcur : h.Current m) (ht : e.Takes crc h row) :
    Appended.Ok crc m ⟨h, row, frameOf crc h.name h.epoch row⟩ :=
  ⟨rfl, ht.encodable.1, ht.size, h.keys, (hcur.schema hok).2, ht.keys⟩

theorem Engine.knows_of_mem_appendRaw {m : Manifest} {e : Engine} (hok : m.Ok)
    (hcur : ∀ name (h : SeriesHandle), e.handles[name]? = some h → h.name = name ∧ h.Current m)
    {clock : ℕ → ℕ}
    {bytes f : Bytes} (hf : f ∈ (e.appendRaw crc clock bytes).2) : m.Knows crc f := by
  -- a raw frame taken is on record: its epoch is at most the current one of its series
  obtain ⟨fs, rest, hcut⟩ := exists_cut crc e.limit bytes
  rw [Engine.appendRaw_eq hcut] at hf
  obtain ⟨hmem, p, hp, hknown⟩ := Engine.of_mem_admitted hf
  rw [Engine.known, Option.any_eq_true] at hknown
  obtain ⟨h, hget, hle⟩ := hknown
  obtain ⟨hname, hcurrent⟩ := hcur _ _ hget
  have hepoch := (hcurrent.schema hok).1
  rw [hname] at hepoch
  obtain ⟨keys, hkeys⟩ := hok.exists_schema hepoch (of_decide_eq_true hle)
  refine ⟨p, keys, ?_, hkeys⟩
  rw [(hcut.isFrame f hmem).validatePrefix_cap (Nat.le_add_left _ _), hp]

theorem Ledger.Ok.reconciled {l : Ledger} {config : Config} {m : Manifest} {changed : Bool}
    (hok : l.Ok crc) (hvalid : config.validate lower = .ok ())
    (hrec : l.manifest.reconcile config = .ok (m, changed)) :
    l.manifest.Grows m ∧ m.Ok ∧ (∀ a ∈ l.appended, a.Ok crc m) ∧ ∀ f ∈ l.raw, m.Knows crc f := by
  have h := Manifest.reconcile_spec hok.manifest (Config.validate_series hvalid) hrec
  exact ⟨h.frozen, h.ok, fun a ha ↦ (hok.appended a ha).mono hok.manifest h.ok h.frozen,
    fun f hf ↦ (hok.raw f hf).mono hok.manifest h.ok h.frozen⟩

/-- **One step** keeps the ledger in order, and the manifest grows. -/
theorem Ledger.Ok.step {l l' : Ledger} (hok : l.Ok crc) (h : Ledger.Step crc lower l l') :
    l'.Ok crc ∧ l.manifest.Grows l'.manifest := by
  cases h with
  | @opens config m changed e hvalid hrec hnew =>
    obtain ⟨hg, hm, ha, hr⟩ := hok.reconciled hvalid hrec
    have hsame : (if changed then m else l.manifest) = m := by
      cases changed with
      | true => rfl
      | false => exact (Manifest.reconcile_unchanged hrec).symm
    have hcur := (Manifest.reconcile_spec hok.manifest (Config.validate_series hvalid) hrec).current
    rw [hsame]
    refine ⟨⟨hm, fun e' he' ↦ ?_, ha, hr⟩, hg⟩
    obtain rfl := Option.some.inj he'
    exact Engine.new_current hcur hnew
  | opensNot hvalid hrec =>
    obtain ⟨hg, hm, ha, hr⟩ := hok.reconciled hvalid hrec
    exact ⟨⟨hm, by simp, ha, hr⟩, hg⟩
  | @append e now name h row f he hh hf =>
    obtain ⟨rfl, ht⟩ := Engine.appendFrame_eq_ok hf
    refine ⟨⟨hok.manifest, hok.handles, fun a ha ↦ ?_, hok.raw⟩, .refl _⟩
    rcases List.mem_append.1 ha with ha | ha
    · exact hok.appended a ha
    · obtain rfl := List.mem_singleton.1 ha
      exact ht.appended hok.manifest (hok.handles e he name h hh).2
  | @appendBatch e clock name h rows bytes he hh hf =>
    obtain ⟨-, ht⟩ := Engine.appendFrames_eq_ok hf
    refine ⟨⟨hok.manifest, hok.handles, fun a ha ↦ ?_, hok.raw⟩, .refl _⟩
    rcases List.mem_append.1 ha with ha | ha
    · exact hok.appended a ha
    · obtain ⟨row, hrow, rfl⟩ := List.mem_map.1 ha
      exact (ht row hrow).appended hok.manifest (hok.handles e he name h hh).2
  | @appendRaw e clock bytes he =>
    refine ⟨⟨hok.manifest, hok.handles, hok.appended, fun f hf ↦ ?_⟩, .refl _⟩
    rcases List.mem_append.1 hf with hf | hf
    · exact hok.raw f hf
    · exact Engine.knows_of_mem_appendRaw hok.manifest (hok.handles e he) hf
  | flush segment at_ =>
    -- the histories do not look at the watermark
    have hm : Manifest.Ok { l.manifest with lastFlushedSegment := segment, lastFlushAt := at_ } :=
      hok.manifest
    have hg : l.manifest.Grows
        { l.manifest with lastFlushedSegment := segment, lastFlushAt := at_ } := fun _ ↦ .refl _
    exact ⟨⟨hm, hok.handles, fun a ha ↦ (hok.appended a ha).mono hok.manifest hm hg,
      fun f hf ↦ (hok.raw f hf).mono hok.manifest hm hg⟩, hg⟩
  | closes => exact ⟨⟨hok.manifest, by simp, hok.appended, hok.raw⟩, .refl _⟩

theorem Ledger.ok_default : Ledger.Ok crc {} := ⟨manifest_default_ok, by simp, by simp, by simp⟩

/-- **Whole runs** keep the ledger in order, and the manifest grows. -/
theorem Ledger.Ok.steps {l l' : Ledger} (hok : l.Ok crc) (h : Ledger.Steps crc lower l l') :
    l'.Ok crc ∧ l.manifest.Grows l'.manifest := by
  induction h with
  | refl => exact ⟨hok, .refl _⟩
  | tail _ hstep ih =>
    obtain ⟨hok', hg⟩ := ih.1.step hstep
    exact ⟨hok', fun name ↦ (ih.2 name).trans (hg name)⟩

/-! ## Decoding what was accepted -/

theorem Ledger.Ok.knows {l : Ledger} (hok : l.Ok crc) {f : Bytes} (hf : f ∈ l.frames) :
    l.manifest.Knows crc f := by
  rcases List.mem_append.1 hf with hf | hf
  · obtain ⟨a, ha, rfl⟩ := List.mem_map.1 hf
    have h := hok.appended a ha
    obtain ⟨keys, hkeys, -⟩ := h.schema
    have hle : (payloadBytes (stamped a.handle.name a.handle.epoch a.row)).length ≤
        a.frame.length := by
      rw [h.frame_eq, frameOf, length_frameBytes]
      exact Nat.le_add_left _ _
    refine ⟨⟨(stamped a.handle.name a.handle.epoch a.row).start, a.frame.length⟩, keys, ?_, hkeys⟩
    rw [h.frame_eq] at hle ⊢
    exact validatePrefix_frameBytes h.fits h.size hle
  · exact hok.raw f hf

theorem Appended.Ok.decodeSegment_triple {m : Manifest} {a : Appended} (h : a.Ok crc m)
    {buf rest : Bytes} {fs : List Bytes} {id : ℕ} (hheader : parseSegmentHeader buf = .ok id)
    (hbuf : buf.drop segmentHeaderBytes = fs.flatten ++ (a.frame ++ rest))
    (hfs : ∀ f ∈ fs, IsFrame crc buf.length f) (o : Oracle Op) (segment : ℕ) (rejects : RejectSink)
    {batch : Batch} (hbatch : batch.Ok) :
    Triple o (fun _ ↦ True) (decodeSegment crc segment buf m rejects batch)
      (fun s _ ↦ ((a.handle.name, a.handle.epoch), Batch.pushed a.row.ts a.row.id
        (idOffset a.handle.name) (segment, segmentHeaderBytes + fs.flatten.length) a.frame) ∈
          s.batch.heads) (fun _ _ ↦ False) (fun _ ↦ True) := by
  -- an appended row that the reader reaches is pushed into the batch, not rejected
  obtain ⟨keys, hkeys, hfit⟩ := h.schema
  have hnew : SegmentReader.new buf buf.length =
      .ok ⟨id, buf, segmentHeaderBytes, buf.length, false⟩ := by
    rw [SegmentReader.new, hheader]
    rfl
  rw [h.frame_eq] at hbuf ⊢
  have hmem : _ ∈ accepted crc m segment buf :=
    mem_accepted hheader hbuf hfs h.fits h.size hkeys hfit
  refine (Orc.decodeSegment_triple (fun _ _ hd ↦ hd) hbatch hnew).post fun s _ hs ↦ ?_
  rw [hs.2.heads]
  exact List.mem_append_right _ (List.mem_map_of_mem hmem)

/-- **Frames are decoded against the layout they were encoded with.** Of a run from the empty
directory to `l` and on to `l'`: the epochs of every history are `0, 1, …` up to the current one,
the layouts recorded in `l` are kept, a key name has one type, every frame accepted has a schema
whose layout is the one in force when its epoch was current, and an appended row is never rejected
by the decoder of a flush, whatever faults occur. -/
theorem frames_keep_their_layout {l l' : Ledger} (hl : Ledger.Reachable crc lower l)
    (hsteps : Ledger.Steps crc lower l l') :
    (∀ series, (l'.manifest.history series).map (fun e ↦ e.epoch.toNat) =
      List.range ((l'.manifest.currentEpoch series).elim 0 fun e ↦ e.toNat + 1)) ∧
    (∀ series, Frozen (l.manifest.history series) (l'.manifest.history series)) ∧
    (∀ series, ∀ e ∈ l'.manifest.history series, ∀ e' ∈ l'.manifest.history series,
      ∀ k ∈ e.keys, ∀ k' ∈ e'.keys, k.name = k'.name → k.ty = k'.ty) ∧
    (∀ f ∈ l'.frames, ∃ p keys, validatePrefix crc f f.length = .ok p ∧
      l'.manifest.schema p.series p.epoch = some keys ∧
      (l.manifest.currentEpoch p.series = some p.epoch → ∃ current,
        l.manifest.schema p.series p.epoch = some current ∧ layout keys = layout current)) ∧
    ∀ a ∈ l'.appended, ∀ (o : Oracle Op) (segment id : ℕ) (buf rest : Bytes) (fs : List Bytes)
      (rejects : RejectSink) (batch : Batch), parseSegmentHeader buf = .ok id →
      buf.drop segmentHeaderBytes = fs.flatten ++ (a.frame ++ rest) →
      (∀ f ∈ fs, IsFrame crc buf.length f) → batch.Ok →
      Triple o (fun _ ↦ True) (decodeSegment crc segment buf l'.manifest rejects batch)
        (fun s _ ↦ ((a.handle.name, a.handle.epoch), Batch.pushed a.row.ts a.row.id
          (idOffset a.handle.name) (segment, segmentHeaderBytes + fs.flatten.length) a.frame) ∈
            s.batch.heads) (fun _ _ ↦ False) (fun _ ↦ True) := by
  have hok : l.Ok crc := (Ledger.ok_default.steps hl).1
  obtain ⟨hok', hg⟩ := hok.steps hsteps
  refine ⟨fun series ↦ ?_, hg, fun series ↦ (hok'.manifest series).types, fun f hf ↦ ?_,
    fun a ha o segment id buf rest fs rejects batch hheader hbuf hfs hbatch ↦
      (hok'.appended a ha).decodeSegment_triple hheader hbuf hfs o segment rejects hbatch⟩
  · rw [(hok'.manifest series).epochs, Manifest.currentEpoch_eq]
    cases hlast : (l'.manifest.history series).getLast? with
    | none =>
      rw [List.getLast?_eq_none_iff] at hlast
      rw [hlast]
      rfl
    | some last =>
      rw [← (hok'.manifest series).getLast?_epoch hlast]
      rfl
  · obtain ⟨p, keys, hp, hkeys⟩ := hok'.knows hf
    refine ⟨p, keys, hp, hkeys, fun hcur ↦ ?_⟩
    obtain ⟨current, hcurrent⟩ := hok.manifest.exists_schema hcur (UInt32.le_refl _)
    obtain ⟨keys', hkeys', hlay⟩ := hok.manifest.schema_frozen hok'.manifest (hg p.series) hcurrent
    rw [hkeys, Option.some.injEq] at hkeys'
    exact ⟨current, hcurrent, by rw [hkeys', hlay]⟩

/-- A series with one key, and with another one added. -/
private def firstConfig : Config := { series := [⟨"t", [⟨"a", .i64, true⟩]⟩] }

private def secondConfig : Config :=
  { series := [⟨"t", [⟨"b", .bool, false⟩, ⟨"a", .i64, true⟩]⟩] }

private def firstManifest : Manifest := { series := {("t", [⟨0, [⟨"a", .i64, true⟩]⟩])} }

private def secondManifest : Manifest :=
  { series := {("t", [⟨0, [⟨"a", .i64, true⟩]⟩, ⟨1, [⟨"b", .bool, false⟩, ⟨"a", .i64, true⟩]⟩])} }

private def firstHandle : SeriesHandle := ⟨"t", [⟨"a", .i64, true⟩], 0⟩

private def firstEngine : Engine :=
  ⟨firstConfig, {("t", firstHandle)}, 946684800000000, 86400000000⟩

private def firstRow : Row := ⟨946684800000001, "x", [.i64 5], [], ""⟩

private def firstLedger : Ledger :=
  { manifest := firstManifest, engine := some firstEngine,
    appended := [⟨firstHandle, firstRow, frameOf crc32 "t" 0 firstRow⟩] }

private def secondLedger : Ledger := { firstLedger with manifest := secondManifest, engine := none }

/-- A row appended before a key is added keeps the layout of its epoch. -/
theorem frames_keep_their_layout_two_sessions :
    Ledger.Reachable crc32 id firstLedger ∧ Ledger.Steps crc32 id firstLedger secondLedger ∧
      Frozen (firstManifest.history "t") (secondManifest.history "t") := by
  have hrec : Manifest.reconcile {} firstConfig = .ok (firstManifest, true) := by decide +kernel
  have hopen : Ledger.Step crc32 id {} { manifest := firstManifest, engine := some firstEngine } :=
    .opens (l := {}) (show firstConfig.validate id = .ok () by decide +kernel) hrec
      (show Engine.new firstConfig firstManifest = .ok firstEngine by decide +kernel)
  have happend : Ledger.Step crc32 id
      { manifest := firstManifest, engine := some firstEngine } firstLedger :=
    .append (l := { manifest := firstManifest, engine := some firstEngine }) rfl
      (show firstEngine.handles["t"]? = some firstHandle by decide +kernel)
      (show firstEngine.appendFrame crc32 946684800000001 firstHandle firstRow =
        .ok (frameOf crc32 "t" 0 firstRow) by decide +kernel)
  have hreach : Ledger.Reachable crc32 id firstLedger :=
    (Relation.ReflTransGen.single hopen).tail happend
  have hsecond : Ledger.Steps crc32 id firstLedger secondLedger :=
    .single (.opensNot (show secondConfig.validate id = .ok () by decide +kernel)
      (show firstManifest.reconcile secondConfig = .ok (secondManifest, true) by decide +kernel))
  exact ⟨hreach, hsecond, (frames_keep_their_layout hreach hsecond).2.1 "t"⟩

end Orc
