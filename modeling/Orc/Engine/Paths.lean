import Orc.Engine.Ingest

/-!
# The embedded path and the raw path

A record enters the engine as a row, which `append` checks and encodes, or as a frame that a client
encoded, of which `append_raw` checks the fixed part. Both end at the log with the same bytes, and
both check the same window and the same limit, but the limit is on two sizes: `append` compares it
with the whole frame, `append_raw` with the payload behind the eight bytes of its header. The two
paths disagree on the rows between (`append_iff_appendRaw_iff`).

The comparison needs a row and a frame to be about the same thing. The frame is the one the row
encodes to under the handle's series and epoch (`frameOf`), and the row is assumed to have the arity
and types of the handle; for other rows there is no frame to compare with, and `append` refuses them
before it looks at anything else.

Each path is first characterised on its own, with the conditions spelled out
(`appendFrame_eq_ok_iff`, `appendRaw_frameOf_iff`), and the equivalence follows by comparing the two
lists. On the embedded side this takes some care with the order of the checks. The cheap check of
the size comes before the encoder, and it must not refuse what the exact check accepts
(`checkSize_of_frame_le`), or there would be a second gap between the paths.
-/

namespace Orc

open Bytes

namespace Engine

/-! ## The size checks -/

private theorem satAdd_le (a b : ℕ) : satAdd a b ≤ a + b := min_le_left _ _

private theorem foldl_keys_le {count : ℕ → Value → ℕ}
    (hcount : ∀ n v, count n v ≤ n + (valueBytes v).length) (keys : List Value) (n : ℕ) :
    keys.foldl count n ≤ n + (keys.flatMap valueBytes).length := by
  induction keys generalizing n with
  | nil => exact Nat.le_add_right n 0
  | cons v keys ih =>
    rw [List.foldl_cons, List.flatMap_cons, List.length_append]
    have hhead := hcount n v
    have htail := ih (count n v)
    omega

/-- **The cheap check** never refuses a row that the exact check would accept. -/
theorem checkSize_of_frame_le {crc : Bytes → UInt32} {series : String} {epoch : UInt32} {row : Row}
    {limit : ℕ} (h : (frameOf crc series epoch row).length ≤ limit) :
    checkSize row limit = .ok () := by
  have hsum := satAdd_le (utf8 row.id).length (utf8 row.data).length
  rw [frameOf, length_frameBytes] at h
  simp only [payloadBytes, startBytes, List.length_append, length_leBytes, length_str16,
    length_str32, RecordRef.start, stamped] at h
  rw [checkSize, oversize, if_neg]
  refine not_lt.2 ((foldl_keys_le (fun n v ↦ ?_) row.keys _).trans (by omega))
  cases v with
  | str s =>
    have hsat := satAdd_le n (utf8 s).length
    simp only [valueBytes, List.length_cons, length_str32]
    omega
  | _ => exact Nat.le_add_right n _

/-! ## What each path accepts -/

variable {crc : Bytes → UInt32} {e : Engine} {h : SeriesHandle} {row : Row} {now : ℕ}

private theorem checkRow_of_checkTs (harity : row.keys.length = h.keys.length)
    (htypes : checkValues h.name h.keys row.keys = .ok ()) :
    e.checkRow now h row = e.checkTs now row.ts := by
  rw [checkRow, if_neg (not_ne_iff.2 harity), htypes]
  cases e.checkTs now row.ts with
  | ok u => rfl
  | error err => rfl

private theorem encodeRow_of_frame_le (henc : Encodable h.name h.epoch row)
    (hsize : (payloadBytes (stamped h.name h.epoch row)).length ≤ u32Max)
    (hlimit : (frameOf crc h.name h.epoch row).length ≤ e.limit) :
    e.encodeRow crc h [] row = .ok (frameOf crc h.name h.epoch row) := by
  rw [encodeRow, (encode_eq_ok crc h.name h.epoch row).2 ⟨⟨henc, hsize⟩, rfl⟩]
  dsimp only
  rw [List.nil_append, if_neg (by simpa using hlimit)]

/-- **The embedded path** takes a row of the handle's arity and types if its timestamp is in the
window, it encodes, and its frame is within the limit. -/
theorem appendFrame_eq_ok_iff (harity : row.keys.length = h.keys.length)
    (htypes : checkValues h.name h.keys row.keys = .ok ()) {f : Bytes} :
    e.appendFrame crc now h row = .ok f ↔
      e.checkTs now row.ts = .ok () ∧
        (encode crc h.name h.epoch row [] = .ok () f ∧ f.length ≤ e.limit) := by
  constructor
  · intro hok
    obtain ⟨rfl, htakes⟩ := appendFrame_eq_ok hok
    rw [appendFrame, checkRow_of_checkTs harity htypes, Except.bind_eq_ok] at hok
    obtain ⟨⟨⟩, hts, -⟩ := hok
    exact ⟨hts, (encode_eq_ok crc h.name h.epoch row).2 ⟨⟨htakes.encodable, htakes.size⟩, rfl⟩,
      htakes.limit⟩
  · rintro ⟨hts, hencode, hlimit⟩
    obtain ⟨⟨henc, hsize⟩, rfl⟩ := (encode_eq_ok crc h.name h.epoch row).1 hencode
    rw [List.nil_append] at hlimit ⊢
    rw [appendFrame, checkRow_of_checkTs harity htypes, hts]
    change (do checkSize row e.limit; e.encodeRow crc h [] row) = _
    rw [checkSize_of_frame_le hlimit]
    exact encodeRow_of_frame_le henc hsize hlimit

private theorem admits_frameOf (hhandle : e.handles[h.name]? = some h)
    (hfits : (stamped h.name h.epoch row).Fits)
    (hsize : (payloadBytes (stamped h.name h.epoch row)).length ≤ u32Max)
    (hcap : (payloadBytes (stamped h.name h.epoch row)).length ≤ e.limit) :
    e.admits crc now (frameOf crc h.name h.epoch row) = (e.checkTs now row.ts).toBool := by
  -- a frame of a handle of the engine is known, so only its timestamp is judged
  have hknown : e.known ⟨(stamped h.name h.epoch row).start,
      (frameOf crc h.name h.epoch row).length⟩ = true := by
    change (e.handles[h.name]?.any fun h' ↦ decide (h.epoch ≤ h'.epoch)) = true
    rw [hhandle, Option.any_some, decide_eq_true_iff]
    exact UInt32.le_refl _
  rw [admits, frameOf, validatePrefix_frameBytes hfits hsize hcap]
  change (_ && e.known _) = _
  rw [← frameOf, hknown, Bool.and_true]
  rfl

/-- **The raw path** takes the frame of a row of a handle of the engine if its timestamp is in the
window and its payload is within the limit. -/
theorem appendRaw_frameOf_iff (hhandle : e.handles[h.name]? = some h)
    (hfits : (stamped h.name h.epoch row).Fits)
    (hsize : (payloadBytes (stamped h.name h.epoch row)).length ≤ u32Max) :
    e.appendRaw crc (fun _ ↦ now) (frameOf crc h.name h.epoch row) =
        ({ accepted := 1 }, [frameOf crc h.name h.epoch row]) ↔
      e.checkTs now row.ts = .ok () ∧
        (frameOf crc h.name h.epoch row).length ≤ frameHeaderBytes + e.limit := by
  have hframe : IsFrame crc u32Max (frameOf crc h.name h.epoch row) :=
    isFrame_frameBytes hfits hsize hsize
  have hlen : (frameOf crc h.name h.epoch row).length =
    frameHeaderBytes + (payloadBytes (stamped h.name h.epoch row)).length := length_frameBytes _ _
  by_cases hcap : (frameOf crc h.name h.epoch row).length ≤ frameHeaderBytes + e.limit
  · have hcut : Cut crc e.limit (frameOf crc h.name h.epoch row)
        [frameOf crc h.name h.epoch row] [] := by
      have hself : IsFrame crc e.limit (frameOf crc h.name h.epoch row) :=
        isFrame_frameBytes hfits hsize (by omega)
      have hcut := Cut.frame hself .done
      rw [List.append_nil] at hcut
      exact hcut
    rw [appendRaw_eq hcut, admitted, admits_frameOf hhandle hfits hsize (by omega), admitted]
    cases e.checkTs now row.ts with
    | ok u => simp [Except.toBool, hcap]
    | error err => simp [Except.toBool]
  · obtain ⟨err, herr⟩ := hframe.exists_error (not_le.1 hcap) []
    rw [List.append_nil] at herr
    have hne : frameOf crc h.name h.epoch row ≠ [] := by
      intro hnil
      rw [hnil] at hcap
      exact hcap (Nat.zero_le _)
    rw [appendRaw_eq (.stop hne herr)]
    simp [hcap, admitted]

end Engine

/-- **The two paths.** For a row of the arity and types of a handle of the engine, the embedded path
accepts the row exactly when the row encodes and the raw path accepts its frame, unless the row
encodes, its timestamp is in the window, and its frame is over the limit by at most the eight bytes
of a frame header: such a row only the raw path accepts. A row that the embedded path accepts goes
to the log as the same bytes on both, and the cheap check refuses no row that the exact one
accepts. -/
theorem append_iff_appendRaw_iff (crc : Bytes → UInt32) {e : Engine} {h : SeriesHandle} {row : Row}
    (hhandle : e.handles[h.name]? = some h) (harity : row.keys.length = h.keys.length)
    (htypes : Engine.checkValues h.name h.keys row.keys = .ok ()) (now : ℕ) :
    (((∃ f, e.appendFrame crc now h row = .ok f) ↔
        ∃ f, encode crc h.name h.epoch row [] = .ok () f ∧
          e.appendRaw crc (fun _ ↦ now) f = ({ accepted := 1 }, [f])) ↔
      ¬ (e.checkTs now row.ts = .ok () ∧ ∃ f, encode crc h.name h.epoch row [] = .ok () f ∧
          e.limit < f.length ∧ f.length ≤ frameHeaderBytes + e.limit)) ∧
    (∀ f, e.appendFrame crc now h row = .ok f →
      encode crc h.name h.epoch row [] = .ok () f ∧
        e.appendRaw crc (fun _ ↦ now) f = ({ accepted := 1 }, [f])) ∧
    (∀ f, encode crc h.name h.epoch row [] = .ok () f → f.length ≤ e.limit →
      Engine.checkSize row e.limit = .ok ()) := by
  have hraw : ∀ f, encode crc h.name h.epoch row [] = .ok () f →
      (e.appendRaw crc (fun _ ↦ now) f = ({ accepted := 1 }, [f]) ↔
        e.checkTs now row.ts = .ok () ∧ f.length ≤ frameHeaderBytes + e.limit) := by
    intro f hf
    obtain ⟨⟨⟨hfits, -⟩, hsize⟩, rfl⟩ := (encode_eq_ok crc h.name h.epoch row).1 hf
    exact Engine.appendRaw_frameOf_iff hhandle hfits hsize
  have hsame : ∀ f, e.appendFrame crc now h row = .ok f →
      encode crc h.name h.epoch row [] = .ok () f ∧
        e.appendRaw crc (fun _ ↦ now) f = ({ accepted := 1 }, [f]) := by
    intro f hf
    obtain ⟨hts, hencode, hlimit⟩ := (Engine.appendFrame_eq_ok_iff harity htypes).1 hf
    exact ⟨hencode, (hraw f hencode).2 ⟨hts, by omega⟩⟩
  refine ⟨⟨fun hagree ↦ ?_, fun hband ↦ ?_⟩, hsame, fun f hf hlimit ↦ ?_⟩
  · rintro ⟨hts, f, hencode, hover, hle⟩
    obtain ⟨g, hg⟩ := hagree.2 ⟨f, hencode, (hraw f hencode).2 ⟨hts, hle⟩⟩
    obtain ⟨-, hencode', hlimit⟩ := (Engine.appendFrame_eq_ok_iff harity htypes).1 hg
    rw [hencode] at hencode'
    cases hencode'
    omega
  · constructor
    · rintro ⟨f, hf⟩
      exact ⟨f, hsame f hf⟩
    · rintro ⟨f, hencode, htaken⟩
      obtain ⟨hts, hle⟩ := (hraw f hencode).1 htaken
      have hlimit : f.length ≤ e.limit :=
        not_lt.1 fun hover ↦ hband ⟨hts, f, hencode, hover, hle⟩
      exact ⟨f, (Engine.appendFrame_eq_ok_iff harity htypes).2 ⟨hts, hencode, hlimit⟩⟩
  · obtain ⟨-, rfl⟩ := (encode_eq_ok crc h.name h.epoch row).1 hf
    exact Engine.checkSize_of_frame_le hlimit

/-! An engine whose records may have 24 bytes, and a row whose payload has 24. -/

private def tightConfig : Config := { limits := { maxRecordBytes := 24 }, series := [⟨"t", []⟩] }

private def tightManifest : Manifest := { series := {("t", [⟨0, []⟩])} }

private def tightEngine : Engine :=
  ⟨tightConfig, {("t", ⟨"t", [], 0⟩)}, 946684800000000, 86400000000⟩

private def tightRow : Row := ⟨946684800000001, "", [], [], "x"⟩

/-- The raw path accepts the row's frame and the embedded path refuses the row for its size. -/
theorem raw_accepts_what_append_refuses :
    tightConfig.validate id = .ok () ∧ Engine.new tightConfig tightManifest = .ok tightEngine ∧
    encode crc32 "t" 0 tightRow [] = .ok () (frameOf crc32 "t" 0 tightRow) ∧
    tightEngine.appendFrame crc32 946684800000001 ⟨"t", [], 0⟩ tightRow =
      .error (.recordTooLarge 32 24) ∧
    tightEngine.appendRaw crc32 (fun _ ↦ 946684800000001) (frameOf crc32 "t" 0 tightRow) =
      ({ accepted := 1 }, [frameOf crc32 "t" 0 tightRow]) := by
  decide +kernel

theorem append_iff_appendRaw_iff_tight :
    ¬ ((∃ f, tightEngine.appendFrame crc32 946684800000001 ⟨"t", [], 0⟩ tightRow = .ok f) ↔
      ∃ f, encode crc32 "t" 0 tightRow [] = .ok () f ∧
        tightEngine.appendRaw crc32 (fun _ ↦ 946684800000001) f = ({ accepted := 1 }, [f])) := by
  have hpaths := append_iff_appendRaw_iff crc32 (h := ⟨"t", [], 0⟩)
    (show tightEngine.handles["t"]? = some ⟨"t", [], 0⟩ by decide +kernel)
    (show tightRow.keys.length = 0 from rfl) rfl 946684800000001
  have hband : tightEngine.limit < (frameOf crc32 "t" 0 tightRow).length ∧
      (frameOf crc32 "t" 0 tightRow).length ≤ frameHeaderBytes + tightEngine.limit := by
    decide +kernel
  intro hagree
  refine hpaths.1.1 hagree ⟨by decide +kernel, _, ?_, hband⟩
  decide +kernel

end Orc
