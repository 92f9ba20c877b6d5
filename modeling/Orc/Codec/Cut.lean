import Orc.Codec.RoundTrip

/-!
# Cutting a buffer into frames

Ingest, recovery and the flush all walk a buffer the same way: validate the fixed part of the frame
in front, step over the frame, and stop where no frame can be delimited. `Cut` is that walk as a
relation between a buffer, the frames delimited and the bytes left over. It exists and is unique for
every buffer, and each of the three loops is related to it by induction on it.

It is a relation and not a fourth loop because the three differ in what they carry along: ingest
counts and admits, recovery looks for the last offset, and the flush goes on behind a frame that it
rejects. What they agree on is where the frames are, and that is all that `Cut` says.

A frame is delimited by its own bytes: what follows it does not matter (`IsFrame.append`). The bound
on the length of a frame is a parameter, because the three walk under different bounds, the
configured one at the door and the length of the file later; `cut_takeWhile` says what a smaller
bound does to a walk.
-/

namespace Orc

open Bytes

variable (crc : Bytes → UInt32)

/-- A byte string that is exactly one frame whose fixed part validates. -/
def IsFrame (cap : ℕ) (f : Bytes) : Prop :=
  ∃ p, validatePrefix crc f cap = .ok p ∧ p.frameLen = f.length

variable {crc}

theorem IsFrame.exists_payload {cap : ℕ} {f : Bytes} (h : IsFrame crc cap f) :
    ∃ payload, f = frameBytes crc payload ∧ Admissible cap payload := by
  obtain ⟨p, hp, hlen⟩ := h
  obtain ⟨more, rest, hf, -, hadm, hn⟩ := validatePrefix_eq_ok.1 hp
  refine ⟨_, ?_, hadm⟩
  have hrest : rest.length = 0 := by
    have := congrArg List.length hf
    rw [List.length_append, length_frameBytes] at this
    omega
  rw [hf, List.eq_nil_of_length_eq_zero hrest, List.append_nil]

theorem IsFrame.length_pos {cap : ℕ} {f : Bytes} (h : IsFrame crc cap f) :
    frameHeaderBytes + minPayloadBytes ≤ f.length := by
  obtain ⟨payload, rfl, hadm⟩ := h.exists_payload
  have := hadm.min
  rw [length_frameBytes]
  omega

theorem framePayload_append {cap : ℕ} {payload : Bytes} (h : Admissible cap payload)
    (rest : Bytes) :
    framePayload crc (frameBytes crc payload ++ rest) cap =
      .ok (payload, frameHeaderBytes + payload.length) :=
  framePayload_eq_ok.2 ⟨rest, rfl, h, rfl⟩

theorem IsFrame.framePayload_append {cap : ℕ} {f : Bytes} (h : IsFrame crc cap f) (rest : Bytes) :
    framePayload crc (f ++ rest) cap = framePayload crc f cap := by
  obtain ⟨payload, rfl, hadm⟩ := h.exists_payload
  have hself : framePayload crc (frameBytes crc payload ++ []) cap = _ :=
    Orc.framePayload_append hadm []
  rw [List.append_nil] at hself
  rw [Orc.framePayload_append hadm, hself]

theorem IsFrame.validatePrefix_append {cap : ℕ} {f : Bytes} (h : IsFrame crc cap f)
    (rest : Bytes) : validatePrefix crc (f ++ rest) cap = validatePrefix crc f cap := by
  rw [validatePrefix, h.framePayload_append, validatePrefix]

theorem IsFrame.decode_append {cap keyCount : ℕ} {f : Bytes} (h : IsFrame crc cap f)
    (rest : Bytes) : decode crc (f ++ rest) keyCount cap = decode crc f keyCount cap := by
  rw [decode, h.framePayload_append, decode]

/-- A frame validates alike under every bound that admits it. -/
theorem IsFrame.validatePrefix_cap {cap cap' : ℕ} {f : Bytes} (h : IsFrame crc cap f)
    (hcap : f.length ≤ frameHeaderBytes + cap') :
    validatePrefix crc f cap' = validatePrefix crc f cap := by
  obtain ⟨p, hp, -⟩ := h
  obtain ⟨more, rest, rfl, hfits, hadm, hn⟩ := validatePrefix_eq_ok.1 hp
  rw [hp, validatePrefix_eq_ok]
  refine ⟨more, rest, rfl, hfits, ⟨hadm.min, ?_, hadm.u32⟩, hn⟩
  rw [List.length_append, length_frameBytes] at hcap
  omega

theorem IsFrame.mono {cap cap' : ℕ} {f : Bytes} (h : IsFrame crc cap f) (hcap : cap ≤ cap') :
    IsFrame crc cap' f := by
  obtain ⟨p, hp, hlen⟩ := h
  obtain ⟨more, rest, hf, hfits, hadm, hn⟩ := validatePrefix_eq_ok.1 hp
  exact ⟨p, validatePrefix_eq_ok.2 ⟨more, rest, hf, hfits, hadm.mono hcap, hn⟩, hlen⟩

/-- A validated buffer starts with a frame of the length reported. -/
theorem exists_frame_of_validatePrefix {cap : ℕ} {buf : Bytes} {p : FramePrefix}
    (h : validatePrefix crc buf cap = .ok p) :
    ∃ f rest, buf = f ++ rest ∧ p.frameLen = f.length ∧ IsFrame crc cap f ∧
      validatePrefix crc f cap = .ok p := by
  obtain ⟨more, rest, rfl, hfits, hadm, hn⟩ := validatePrefix_eq_ok.1 h
  have hlen : p.frameLen =
      (frameBytes crc (startBytes p.toFrameStart ++ more)).length := by rw [length_frameBytes, hn]
  have hself : validatePrefix crc (frameBytes crc (startBytes p.toFrameStart ++ more)) cap =
    .ok p :=
    validatePrefix_eq_ok.2 ⟨more, [], (List.append_nil _).symm, hfits, hadm, hn⟩
  exact ⟨_, rest, rfl, hlen, ⟨p, hself, hlen⟩, hself⟩

/-- The frame of a record validates, with the fixed part of the record. -/
theorem validatePrefix_frameBytes {cap : ℕ} {r : RecordRef} (hfits : r.Fits)
    (hsize : (payloadBytes r).length ≤ u32Max) (hcap : (payloadBytes r).length ≤ cap) :
    validatePrefix crc (frameBytes crc (payloadBytes r)) cap =
      .ok ⟨r.start, (frameBytes crc (payloadBytes r)).length⟩ := by
  rw [length_frameBytes]
  exact validatePrefix_of_decode <| decode_eq_ok.2
    ⟨[], (List.append_nil _).symm, hfits, rfl, ⟨minPayloadBytes_le_length r, hcap, hsize⟩, rfl⟩

theorem isFrame_frameBytes {cap : ℕ} {r : RecordRef} (hfits : r.Fits)
    (hsize : (payloadBytes r).length ≤ u32Max) (hcap : (payloadBytes r).length ≤ cap) :
    IsFrame crc cap (frameBytes crc (payloadBytes r)) :=
  ⟨_, validatePrefix_frameBytes hfits hsize hcap, rfl⟩

variable (crc)

/-- The walk over a buffer: the frames delimited, and the bytes left where it stops. -/
inductive Cut (cap : ℕ) : Bytes → List Bytes → Bytes → Prop
  | done : Cut cap [] [] []
  | stop {buf : Bytes} {e : DecodeError} (hne : buf ≠ [])
      (h : validatePrefix crc buf cap = .error e) : Cut cap buf [] buf
  | frame {f buf : Bytes} {fs : List Bytes} {rest : Bytes} (hf : IsFrame crc cap f)
      (h : Cut cap buf fs rest) : Cut cap (f ++ buf) (f :: fs) rest

variable {crc}

theorem Cut.eq_append {cap : ℕ} {buf rest : Bytes} {fs : List Bytes} (h : Cut crc cap buf fs rest) :
    buf = fs.flatten ++ rest := by
  induction h with
  | done => rfl
  | stop => rfl
  | frame hf h ih => rw [ih, List.flatten_cons, List.append_assoc]

theorem Cut.isFrame {cap : ℕ} {buf rest : Bytes} {fs : List Bytes} (h : Cut crc cap buf fs rest) :
    ∀ f ∈ fs, IsFrame crc cap f := by
  induction h with
  | done => simp
  | stop => simp
  | frame hf h ih => exact List.forall_mem_cons.2 ⟨hf, ih⟩

/-- The walk stops at the end of the buffer or at bytes that are no frame. -/
theorem Cut.rest_eq {cap : ℕ} {buf rest : Bytes} {fs : List Bytes} (h : Cut crc cap buf fs rest) :
    rest = [] ∨ ∃ e, validatePrefix crc rest cap = .error e := by
  induction h with
  | done => exact .inl rfl
  | stop hne h => exact .inr ⟨_, h⟩
  | frame hf h ih => exact ih

/-- Every buffer can be walked. -/
theorem exists_cut (crc : Bytes → UInt32) (cap : ℕ) (buf : Bytes) :
    ∃ fs rest, Cut crc cap buf fs rest := by
  induction hn : buf.length using Nat.strong_induction_on generalizing buf with
  | _ n ih =>
    by_cases hbuf : buf = []
    · subst hbuf
      exact ⟨[], [], .done⟩
    · cases hp : validatePrefix crc buf cap with
      | error e => exact ⟨[], buf, .stop hbuf hp⟩
      | ok p =>
        obtain ⟨f, rest, rfl, -, hf, -⟩ := exists_frame_of_validatePrefix hp
        have hlen := hf.length_pos
        rw [List.length_append] at hn
        obtain ⟨fs, tail, htail⟩ := ih rest.length (by unfold frameHeaderBytes at hlen; omega)
          rest rfl
        exact ⟨f :: fs, tail, .frame hf htail⟩

/-- Frames in front of a buffer are walked over first. -/
theorem Cut.append {cap : ℕ} {fs gs : List Bytes} {buf rest : Bytes}
    (hfs : ∀ f ∈ fs, IsFrame crc cap f) (h : Cut crc cap buf gs rest) :
    Cut crc cap (fs.flatten ++ buf) (fs ++ gs) rest := by
  induction fs with
  | nil => exact h
  | cons f fs ih =>
    rw [List.forall_mem_cons] at hfs
    rw [List.flatten_cons, List.append_assoc]
    exact .frame hfs.1 (ih hfs.2)

/-- A buffer made of frames is walked to its end. -/
theorem cut_flatten {cap : ℕ} {fs : List Bytes} (h : ∀ f ∈ fs, IsFrame crc cap f) :
    Cut crc cap fs.flatten fs [] := by
  have := Cut.append h .done
  rwa [List.append_nil, List.append_nil] at this

/-- Two frames in front of the same buffer are the same frame. -/
theorem IsFrame.eq_of_append_eq {cap : ℕ} {f f' rest rest' : Bytes} (h : IsFrame crc cap f)
    (h' : IsFrame crc cap f') (heq : f ++ rest = f' ++ rest') : f = f' ∧ rest = rest' := by
  obtain ⟨p, hp, hlen⟩ := h
  obtain ⟨p', hp', hlen'⟩ := h'
  have h1 := IsFrame.validatePrefix_append ⟨p, hp, hlen⟩ rest
  have h2 := IsFrame.validatePrefix_append ⟨p', hp', hlen'⟩ rest'
  rw [heq, h2, hp, hp', Except.ok.injEq] at h1
  exact List.append_inj heq (by rw [← hlen, ← hlen', h1])

/-- A frame longer than the bound admits is not delimited under it. -/
theorem IsFrame.exists_error {cap cap' : ℕ} {f : Bytes} (h : IsFrame crc cap f)
    (hlong : frameHeaderBytes + cap' < f.length) (rest : Bytes) :
    ∃ e, validatePrefix crc (f ++ rest) cap' = .error e := by
  cases hp : validatePrefix crc (f ++ rest) cap' with
  | error e => exact ⟨e, rfl⟩
  | ok p =>
    -- a frame delimited under the smaller bound would be `f` itself
    obtain ⟨g, tail, heq, -, hg, -⟩ := exists_frame_of_validatePrefix hp
    obtain ⟨payload, rfl, hadm⟩ := hg.exists_payload
    obtain ⟨rfl, -⟩ := (h.mono (Nat.le_max_left cap cap')).eq_of_append_eq
      (hg.mono (Nat.le_max_right cap cap')) heq
    have := hadm.max
    rw [length_frameBytes] at hlong
    omega

/-- Frames walked under a smaller bound: the walk ends before the first one that is too long. -/
theorem cut_takeWhile {cap cap' : ℕ} {fs : List Bytes} (h : ∀ f ∈ fs, IsFrame crc cap f) :
    Cut crc cap' fs.flatten (fs.takeWhile fun f ↦ f.length ≤ frameHeaderBytes + cap')
      (fs.dropWhile fun f ↦ f.length ≤ frameHeaderBytes + cap').flatten := by
  induction fs with
  | nil => exact .done
  | cons f fs ih =>
    rw [List.forall_mem_cons] at h
    by_cases hf : f.length ≤ frameHeaderBytes + cap'
    · obtain ⟨p, hp, hlen⟩ := id h.1
      rw [List.takeWhile_cons_of_pos (by simpa using hf),
        List.dropWhile_cons_of_pos (by simpa using hf), List.flatten_cons]
      exact .frame ⟨p, by rw [h.1.validatePrefix_cap hf, hp], hlen⟩ (ih h.2)
    · obtain ⟨e, he⟩ := h.1.exists_error (not_le.1 hf) fs.flatten
      have hpos := h.1.length_pos
      rw [List.takeWhile_cons_of_neg (by simpa using hf),
        List.dropWhile_cons_of_neg (by simpa using hf), List.flatten_cons]
      refine .stop (fun hnil ↦ ?_) he
      rw [(List.append_eq_nil_iff.1 hnil).1] at hpos
      simp [frameHeaderBytes] at hpos

/-- The walk is determined by the buffer. -/
theorem Cut.unique {cap : ℕ} {buf rest rest' : Bytes} {fs fs' : List Bytes}
    (h : Cut crc cap buf fs rest) (h' : Cut crc cap buf fs' rest') : fs = fs' ∧ rest = rest' := by
  induction h generalizing fs' rest' with
  | done =>
    generalize hb : ([] : Bytes) = b at h'
    cases h' with
    | done => exact ⟨rfl, rfl⟩
    | stop hne => exact absurd hb.symm hne
    | frame hf =>
      have := hf.length_pos
      rw [(List.append_eq_nil_iff.1 hb.symm).1] at this
      simp [frameHeaderBytes] at this
  | @stop buf e hne herr =>
    cases h' with
    | done => exact absurd rfl hne
    | stop => exact ⟨rfl, rfl⟩
    | frame hf =>
      obtain ⟨p, hp, -⟩ := id hf
      rw [hf.validatePrefix_append, hp] at herr
      cases herr
  | @frame f buf fs rest hf h ih =>
    generalize hb : f ++ buf = b at h'
    cases h' with
    | done =>
      have := hf.length_pos
      rw [(List.append_eq_nil_iff.1 hb).1] at this
      simp [frameHeaderBytes] at this
    | stop hne herr =>
      obtain ⟨p, hp, -⟩ := id hf
      rw [← hb, hf.validatePrefix_append, hp] at herr
      cases herr
    | frame hf' h' =>
      obtain ⟨rfl, rfl⟩ := hf.eq_of_append_eq hf' hb
      obtain ⟨rfl, rfl⟩ := ih h'
      exact ⟨rfl, rfl⟩

end Orc
