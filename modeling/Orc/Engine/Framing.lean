import Orc.Engine.Paths
import Orc.Order.Classes
import Orc.Wal.Integrity
import Orc.Wal.Reader

/-!
# What ingest leaves in the segments

Ingest hands byte strings to the log writer, and the flush later finds the frames in the segments
again, with another bound on their length. The byte strings are whole frames, however they came
(`Intake.handed_eq`), so without faults every segment is a header and whole frames at all times, and
the frames of all segments in order are the frames accepted (`Ingesting.Framed`).

## Two bounds

Two bounds meet here. Raw ingest delimits a frame under the configured record limit; the flush
delimits it under the length of the file, so that lowering the limit does not strand what was
accepted before. A frame that was taken under one must be found under the other, and it is because a
file is longer than any frame in it. That a frame cannot be torn by rotation is the other half: the
writer rotates between calls and a call is appended as one group (`Ingesting.Framed.take`).

An ingest state is the writer with the frames accepted so far, a list that the engine does not keep.
The invariant compares the two, so it speaks of what is buffered as well as of what is written.
Segment ids are natural numbers in the model and 64-bit numbers in the source; a run stays within
them by hypothesis (`Ingesting.Fits`), which every state that takes a step has to meet.
-/

namespace Orc

open Bytes Fault

/-! ## Calls -/

/-- A call that takes records in. -/
inductive Intake where
  | append (h : SeriesHandle) (row : Row)
  | appendBatch (h : SeriesHandle) (rows : List Row)
  | appendRaw (bytes : Bytes)

/-- A call is answered while the clock reads `clock`; raw ingest and a batch read it once a
record. -/
abbrev Clock := ℕ → ℕ

namespace Intake

variable (crc : Bytes → UInt32) (e : Engine) (clock : Clock)

/-- What a call hands to the log writer, if it gets that far. -/
def handed : Intake → Option Bytes
  | .append h row => (e.appendFrame crc (clock 0) h row).toOption
  | .appendBatch h rows => (e.appendFrames crc clock h rows).toOption
  | .appendRaw bytes =>
    let good := (e.appendRaw crc clock bytes).2.flatten
    if good.isEmpty then none else some good

/-- The frames a call accepts if the log writer takes them. -/
def frames : Intake → List Bytes
  | .append h row =>
    match e.appendFrame crc (clock 0) h row with
    | .ok f => [f]
    | .error _ => []
  | .appendBatch h rows =>
    match e.appendFrames crc clock h rows with
    | .ok _ => rows.map (frameOf crc h.name h.epoch)
    | .error _ => []
  | .appendRaw bytes => (e.appendRaw crc clock bytes).2

end Intake

/-- The log writer behind the engine, and the frames accepted so far. -/
structure Ingesting where
  sys : Sys
  accepted : List Bytes := []

/-- A call, with every file-system operation carried out. Its frames are accepted if the writer
acknowledges them. -/
def Ingesting.take (crc : Bytes → UInt32) (e : Engine) (clock : Clock) (call : Intake)
    (s : Ingesting) : Ingesting :=
  match call.handed crc e clock with
  | none => s
  | some bytes =>
    match appendBytes bytes noFault ⟨s.sys.log, 0⟩ with
    | (.ok (), w) => ⟨{ s.sys with log := w.disk }, s.accepted ++ call.frames crc e clock⟩
    | (_, w) => ⟨{ s.sys with log := w.disk }, s.accepted⟩

/-- A step of a run without faults: a call, or any step of the writer that is no append: the
committer's sections, a seal, a stop or a close. -/
inductive Ingesting.Next (crc : Bytes → UInt32) (e : Engine) (limits : WalLimits) (s : Ingesting) :
    Ingesting → Prop
  | take (clock : Clock) (call : Intake) : Next crc e limits s (s.take crc e clock call)
  | other {act : Action} (h : ∀ bytes, act ≠ .append bytes) :
      Next crc e limits s { s with sys := s.sys.after limits noFault act }

/-- The id of the segment that a roll would create is a 64-bit number. -/
def Ingesting.Fits (s : Ingesting) : Prop :=
  ∀ a, s.sys.log.state.active = some a → a.id < u64Max

/-- The states that runs without faults lead to, from a writer just opened, while ids are 64-bit
numbers. -/
def Ingesting.Reachable (crc : Bytes → UInt32) (e : Engine) (limits : WalLimits) (first : ℕ)
    (s : Ingesting) : Prop :=
  ∃ s₀, Opened first s₀ ∧
    Relation.ReflTransGen (fun s s' ↦ s.Fits ∧ Ingesting.Next crc e limits s s') ⟨s₀, []⟩ s

variable {crc : Bytes → UInt32} {e : Engine} {limits : WalLimits} {clock : Clock}

/-! ## What is handed over -/

theorem Engine.Takes.isFrame {h : SeriesHandle} {row : Row} (htakes : e.Takes crc h row) :
    IsFrame crc u32Max (frameOf crc h.name h.epoch row) :=
  isFrame_frameBytes htakes.encodable.1 htakes.size htakes.size

theorem IsFrame.u32 {cap : ℕ} {f : Bytes} (hf : IsFrame crc cap f) : IsFrame crc u32Max f := by
  obtain ⟨payload, rfl, hadm⟩ := hf.exists_payload
  refine hf.of_length_le ?_
  have hu32 := hadm.u32
  rw [length_frameBytes]
  omega

theorem Intake.isFrame_of_mem_frames {call : Intake} {f : Bytes}
    (hf : f ∈ call.frames crc e clock) : IsFrame crc u32Max f := by
  cases call with
  | append h row =>
    rw [Intake.frames] at hf
    split at hf
    next g hg =>
      obtain ⟨rfl, htakes⟩ := Engine.appendFrame_eq_ok hg
      rw [List.mem_singleton.1 hf]
      exact htakes.isFrame
    next => cases hf
  | appendBatch h rows =>
    rw [Intake.frames] at hf
    split at hf
    next bytes hbytes =>
      obtain ⟨row, hrow, rfl⟩ := List.mem_map.1 hf
      exact ((Engine.appendFrames_eq_ok hbytes).2 row hrow).isFrame
    next => cases hf
  | appendRaw bytes =>
    obtain ⟨fs, rest, hcut⟩ := exists_cut crc e.limit bytes
    rw [Intake.frames, Engine.appendRaw_eq hcut] at hf
    exact (hcut.isFrame f (Engine.of_mem_admitted hf).1).u32

/-- **What the log writer is handed** are the frames of the call, back to back. -/
theorem Intake.handed_eq {call : Intake} {bytes : Bytes}
    (h : call.handed crc e clock = some bytes) : bytes = (call.frames crc e clock).flatten := by
  cases call with
  | append handle row =>
    rw [Intake.handed] at h
    rw [Intake.frames]
    cases hrow : e.appendFrame crc (clock 0) handle row with
    | ok f =>
      rw [hrow] at h
      obtain rfl := Option.some.inj h
      simp
    | error err =>
      rw [hrow] at h
      cases h
  | appendBatch handle rows =>
    rw [Intake.handed] at h
    rw [Intake.frames]
    cases hrows : e.appendFrames crc clock handle rows with
    | ok b =>
      rw [hrows] at h
      obtain rfl := Option.some.inj h
      exact (Engine.appendFrames_eq_ok hrows).1
    | error err =>
      rw [hrows] at h
      cases h
  | appendRaw input =>
    simp only [Intake.handed] at h
    split_ifs at h
    exact (Option.some.inj h).symm

/-! ## The invariant -/

/-- The segments hold what was accepted: every append acknowledged is a group of whole frames, and
the groups in order are the frames accepted. -/
structure Ingesting.Framed (crc : Bytes → UInt32) (first : ℕ) (s : Ingesting) : Prop where
  inv : s.sys.log.Inv first
  failed : s.sys.log.failed = []
  lost : s.sys.log.lost = []
  groups : ∃ gs : List (ℕ × List Bytes), s.sys.log.acked = gs.map (fun g ↦ (g.1, g.2.flatten)) ∧
    s.accepted = gs.flatMap Prod.snd ∧ (gs.Pairwise fun g g' ↦ g.1 ≤ g'.1) ∧
    ∀ g ∈ gs, ∀ f ∈ g.2, IsFrame crc u32Max f

theorem RollFails.history {o : Oracle Op} {a : Active} {log log' : Log}
    (h : RollFails o a log log') :
    log'.acked = log.acked ∧ log'.failed = log.failed ∧ log'.lost = log.lost := by
  cases h with
  | drain => exact ⟨rfl, rfl, rfl⟩
  | sync => exact ⟨rfl, rfl, rfl⟩
  | create => exact ⟨rfl, rfl, rfl⟩
  | late => exact ⟨rfl, rfl, rfl⟩

theorem AppendFails.eq_self {bytes : Bytes} {log log' : Log}
    (h : AppendFails noFault bytes log log') : log' = log := by
  cases h with
  | refused => rfl
  | sealed hfault => exact absurd hfault not_failed_noFault
  | stuck hfault => exact absurd hfault not_failed_noFault

theorem Change.history {act : Action} {log log' : Log} (h : Change noFault act log log')
    (hact : ∀ bytes, act ≠ .append bytes) :
    log'.acked = log.acked ∧ log'.failed = log.failed ∧ (log.lost = [] → log'.lost = []) := by
  cases h with
  | same => exact ⟨rfl, rfl, id⟩
  | stopped => exact ⟨rfl, rfl, id⟩
  | drained => exact ⟨rfl, rfl, id⟩
  | synced => exact ⟨rfl, rfl, id⟩
  | noted => exact ⟨rfl, rfl, id⟩
  | acked hact' => exact absurd hact' (hact _)
  | failed h =>
    obtain rfl := h.eq_self
    exact ⟨rfl, rfl, id⟩
  | rolled => exact ⟨rfl, rfl, id⟩
  | rollFailed _ _ h => exact ⟨h.history.1, h.history.2.1, fun hlost ↦ h.history.2.2.trans hlost⟩
  | closed _ hlost h =>
    have hempty := hlost.resolve_right (not_or.2 ⟨not_failed_noFault, not_failed_noFault⟩)
    rcases h.log_eq with rfl | rfl
    · exact ⟨rfl, rfl, fun _ ↦ hempty⟩
    · exact ⟨rfl, rfl, fun _ ↦ hempty⟩

theorem Ingesting.Framed.other {first : ℕ} {s : Ingesting} (h : s.Framed crc first) {act : Action}
    (hact : ∀ bytes, act ≠ .append bytes) :
    Ingesting.Framed crc first { s with sys := s.sys.after limits noFault act } := by
  rcases s.sys.after_cases limits noFault act with ⟨-, hchange⟩ | ⟨-, hcrash, -⟩
  · obtain ⟨hacked, hfailed, hlost⟩ := hchange.history hact
    obtain ⟨gs, hgroups, haccepted, hsorted, hframes⟩ := h.groups
    exact ⟨hchange.inv h.inv, hfailed.trans h.failed, hlost h.lost,
      gs, hacked.trans hgroups, haccepted, hsorted, hframes⟩
  · exact absurd hcrash not_crashes_noFault

/-- **A call** adds its frames as one group, or changes nothing. -/
theorem Ingesting.Framed.take {first : ℕ} {s : Ingesting} (h : s.Framed crc first) (clock : Clock)
    (call : Intake) : (s.take crc e clock call).Framed crc first := by
  rw [Ingesting.take]
  cases hhanded : call.handed crc e clock with
  | none => exact h
  | some bytes =>
    have htriple : Triple noFault (· = s.sys.log) (appendBytes bytes) _ _ _ :=
      appendBytes_triple bytes
    have hmeets := htriple ⟨s.sys.log, 0⟩ rfl
    dsimp only
    generalize appendBytes bytes noFault ⟨s.sys.log, 0⟩ = r at hmeets ⊢
    obtain ⟨gs, hgroups, haccepted, hsorted, hframes⟩ := h.groups
    rcases r with ⟨⟨⟩ | err | _, w⟩
    · obtain ⟨a, x, buf, hacks⟩ := hmeets
      have hchange : Change noFault (.append bytes) s.sys.log w.disk := .acked rfl hacks
      obtain ⟨hok, -⟩ := h.inv.ok hacks.active
      have hhistory : w.disk.acked = s.sys.log.acked ++ [(a.id, bytes)] ∧
          w.disk.failed = s.sys.log.failed ∧ w.disk.lost = s.sys.log.lost := by
        rw [hacks.log_eq]
        exact ⟨rfl, rfl, rfl⟩
      refine ⟨hchange.inv h.inv, hhistory.2.1.trans h.failed, hhistory.2.2.trans h.lost,
        gs ++ [(a.id, call.frames crc e clock)], ?_, ?_, ?_, ?_⟩
      · rw [hhistory.1, hgroups, List.map_append, Intake.handed_eq hhanded]
        rfl
      · simp [haccepted]
      · refine List.pairwise_append.2 ⟨hsorted, List.pairwise_singleton _ _, fun g hg g' hg' ↦ ?_⟩
        have hmem : (g.1, g.2.flatten) ∈ s.sys.log.acked := by
          rw [hgroups]
          exact List.mem_map_of_mem hg
        rw [List.mem_singleton.1 hg']
        exact (hok.acked _ hmem).2
      · intro g hg f hf
        rcases List.mem_append.1 hg with hg | hg
        · exact hframes g hg f hf
        · rw [List.mem_singleton.1 hg] at hf
          exact Intake.isFrame_of_mem_frames hf
    · have hsame : w.disk = s.sys.log := AppendFails.eq_self hmeets
      change Ingesting.Framed crc first ⟨{ s.sys with log := w.disk }, s.accepted⟩
      rw [hsame]
      exact h
    · exact absurd hmeets.1 not_crashes_noFault

theorem Ingesting.framed_of_opened {first : ℕ} {s : Sys} (h : Opened first s) :
    Ingesting.Framed crc first ⟨s, []⟩ := by
  have hinv := h.inv.2
  obtain ⟨dir, o, t, w, -, hrun, rfl⟩ := h.fresh
  have hlog := (openWriter_triple first).of_ok rfl hrun
  have hhistory : w.disk.acked = [] ∧ w.disk.failed = [] ∧ w.disk.lost = [] := by
    rw [hlog]
    exact ⟨rfl, rfl, rfl⟩
  exact ⟨hinv, hhistory.2.1, hhistory.2.2, [], hhistory.1, rfl, .nil, by simp⟩

/-- **Whole runs** keep the segments framed. -/
theorem Ingesting.Reachable.framed {first : ℕ} {s : Ingesting}
    (h : s.Reachable crc e limits first) : s.Framed crc first := by
  obtain ⟨s₀, hopen, hrun⟩ := h
  induction hrun with
  | refl => exact Ingesting.framed_of_opened hopen
  | tail _ hstep ih =>
    cases hstep.2 with
    | take clock call => exact ih.take clock call
    | other hact => exact ih.other hact

theorem Ingesting.Framed.readsWhole {first last : ℕ} {tail : Bytes} {s : Ingesting}
    {gs : List (ℕ × List Bytes)} (h : s.Framed crc first) (hok : s.sys.log.Ok first last tail)
    (hgroups : s.sys.log.acked = gs.map fun g ↦ (g.1, g.2.flatten))
    (hframes : ∀ g ∈ gs, ∀ f ∈ g.2, IsFrame crc u32Max f) {id : ℕ} (hfirst : first ≤ id)
    (hlast : id ≤ last) :
    ∃ b, s.sys.log.content last tail id = some b ∧
      ReadsWhole crc b ((gs.filter (·.1 = id)).flatMap Prod.snd) := by
  -- the frames that are in a segment: those of the groups acknowledged into it
  obtain ⟨t, hcontent, htorn, -⟩ := hok.holds id hfirst hlast
  have ht : t = [] := by
    rcases htorn with ht | ⟨bytes, hmem, -⟩
    · exact ht
    · rw [h.failed] at hmem
      cases hmem
  have hacked : s.sys.log.ackedOf id = ((gs.filter (·.1 = id)).flatMap Prod.snd).flatten := by
    rw [Log.ackedOf, hgroups, List.filter_map, List.map_map]
    simp only [List.flatMap, List.flatten_flatten, List.map_map]
    rfl
  rw [ht, List.append_nil, Log.segmentBytes, hacked] at hcontent
  have hall : ∀ f ∈ (gs.filter (·.1 = id)).flatMap Prod.snd, IsFrame crc u32Max f := by
    intro f hf
    obtain ⟨g, hg, hf⟩ := List.mem_flatMap.1 hf
    exact hframes g (List.mem_of_mem_filter hg) f hf
  refine ⟨_, hcontent, readsWhole_of_frames (parseSegmentHeader_append id _) ?_ ?_ hall⟩
  · rw [List.length_append, length_encodeSegmentHeader]
  · exact List.drop_left' (length_encodeSegmentHeader id)

/-! ## Raw ingest -/

/-- The frames rejected of those delimited, the first one judged at reading `i` of the clock. -/
def Engine.refused (crc : Bytes → UInt32) (e : Engine) (clock : Clock) : ℕ → List Bytes → List Bytes
  | _, [] => []
  | i, f :: fs =>
    if e.admits crc (clock i) f then refused crc e clock (i + 1) fs
    else f :: refused crc e clock (i + 1) fs

theorem Engine.admitted_append_refused_perm (clock : Clock) (i : ℕ) (fs : List Bytes) :
    (e.admitted crc clock i fs ++ e.refused crc clock i fs).Perm fs := by
  induction fs generalizing i with
  | nil => exact .refl []
  | cons f fs ih =>
    rw [Engine.admitted, Engine.refused]
    by_cases hadmits : e.admits crc (clock i) f
    · rw [if_pos hadmits, if_pos hadmits]
      exact (ih (i + 1)).cons f
    · rw [if_neg hadmits, if_neg hadmits]
      exact List.perm_middle.trans ((ih (i + 1)).cons f)

/-- **Ingest keeps framing.** In every state of a run without faults and with 64-bit ids, of calls
with any rows and bytes and any steps of the writer between them: each segment, with what is
buffered for it, read under the bound of its own length, yields its frames and no fault that stops
the reader, and the frames of all segments in order are the frames accepted, in the order of their
acceptance. Of any input, raw ingest hands over the frames delimited by successive validations that
it admits, in order; it counts those and the rest, where the bytes that it cannot delimit count as
one reject and are discarded; and all bytes of the input are in one of the three. -/
theorem ingest_keeps_framing {crc : Bytes → UInt32} {e : Engine} {limits : WalLimits} {first : ℕ}
    {s : Ingesting} (hs : s.Reachable crc e limits first) :
    (∃ last tail, ∃ parts : ℕ → List Bytes, first ≤ last ∧
      (∀ a, s.sys.log.state.active = some a → a.id = last ∧ a.buf = tail) ∧
      (s.sys.log.state.active = none → tail = []) ∧
      (∀ id, first ≤ id → id ≤ last →
        ∃ b, s.sys.log.content last tail id = some b ∧ ReadsWhole crc b (parts id)) ∧
      s.accepted = (List.range' first (last + 1 - first)).flatMap parts) ∧
    ∀ clock bytes, ∃ fs rest, Cut crc e.limit bytes fs rest ∧
      (let taken := e.admitted crc clock 0 fs
       let refused := e.refused crc clock 0 fs
       (Intake.appendRaw bytes).handed crc e clock =
         (if taken = [] then none else some taken.flatten) ∧
       (e.appendRaw crc clock bytes).1 =
        { accepted := taken.length
          rejected := refused.length + if rest = [] then 0 else 1
          discardedBytes := rest.length } ∧
       taken.flatten.length + refused.flatten.length + rest.length = bytes.length) := by
  constructor
  · have hframed := hs.framed
    obtain ⟨gs, hgroups, haccepted, hsorted, hframes⟩ := hframed.groups
    have hmain : ∀ {last tail}, s.sys.log.Ok first last tail →
        (∀ id, first ≤ id → id ≤ last → ∃ b, s.sys.log.content last tail id = some b ∧
          ReadsWhole crc b ((gs.filter (·.1 = id)).flatMap Prod.snd)) ∧
        s.accepted = (List.range' first (last + 1 - first)).flatMap
          fun id ↦ (gs.filter (·.1 = id)).flatMap Prod.snd := by
      intro last tail hok
      refine ⟨fun id ↦ hframed.readsWhole hok hgroups hframes, ?_⟩
      have hrange : ∀ g ∈ gs, first ≤ g.1 ∧ g.1 < first + (last + 1 - first) := by
        intro g hg
        have hmem : (g.1, g.2.flatten) ∈ s.sys.log.acked := by
          rw [hgroups]
          exact List.mem_map_of_mem hg
        have := hok.acked _ hmem
        omega
      rw [haccepted]
      conv_lhs => rw [← Order.flatMap_filter_range' hsorted hrange]
      exact List.flatMap_assoc
    rcases hframed.inv with ⟨a, ha, hok, -⟩ | ⟨hnone, last, hok⟩
    · refine ⟨a.id, a.buf, _, hok.first_le, fun a' ha' ↦ ?_, fun hnone ↦ ?_, hmain hok⟩
      · rw [ha, Option.some.injEq] at ha'
        exact ha' ▸ ⟨rfl, rfl⟩
      · rw [ha] at hnone
        cases hnone
    · refine ⟨last, s.sys.log.lost, _, hok.first_le, fun a ha ↦ ?_, fun _ ↦ hframed.lost, hmain hok⟩
      rw [ha] at hnone
      cases hnone
  · intro clock bytes
    obtain ⟨fs, rest, hcut⟩ := exists_cut crc e.limit bytes
    have hperm : (e.admitted crc clock 0 fs ++ e.refused crc clock 0 fs).Perm fs :=
      Engine.admitted_append_refused_perm clock 0 fs
    have hlen := hperm.length_eq
    have hbytes := hperm.flatten.length_eq
    have hinput := congrArg List.length hcut.eq_append
    rw [List.length_append] at hlen hinput
    rw [List.flatten_append, List.length_append] at hbytes
    refine ⟨fs, rest, hcut, ?_, ?_, by omega⟩
    · rw [Intake.handed, Engine.appendRaw_eq hcut]
      by_cases hnone : e.admitted crc clock 0 fs = []
      · simp [hnone]
      · have hne : (e.admitted crc clock 0 fs).flatten ≠ [] := by
          obtain ⟨f, hf⟩ := List.exists_mem_of_ne_nil _ hnone
          have hpos := (hcut.isFrame f (Engine.of_mem_admitted hf).1).length_pos
          intro hnil
          rw [List.flatten_eq_nil_iff.1 hnil f hf] at hpos
          simp [frameHeaderBytes] at hpos
        dsimp only
        rw [if_neg (by simpa using hne), if_neg hnone]
    · have hrejected : fs.length - (e.admitted crc clock 0 fs).length =
          (e.refused crc clock 0 fs).length := by omega
      rw [Engine.appendRaw_eq hcut, hrejected]

/-! A writer opened on an empty directory, and a batch of two rows. -/

private def plainEngine : Engine :=
  ⟨{ series := [⟨"t", []⟩] }, {("t", ⟨"t", [], 0⟩)}, 946684800000000, 86400000000⟩

private def plainRow : Row := ⟨946684800000001, "", [], [], "x"⟩

private def twoRows : Ingesting :=
  Ingesting.take crc32 plainEngine (fun _ ↦ 946684800000001)
    (.appendBatch ⟨"t", [], 0⟩ [plainRow, plainRow]) ⟨Sys.fresh, []⟩

theorem ingest_keeps_framing_twoRows :
    twoRows.accepted = [frameOf crc32 "t" 0 plainRow, frameOf crc32 "t" 0 plainRow] ∧
      ∃ last tail, ∃ parts : ℕ → List Bytes, 1 ≤ last ∧
        ∃ b, twoRows.sys.log.content last tail last = some b ∧ ReadsWhole crc32 b (parts last) := by
  have hreach : twoRows.Reachable crc32 plainEngine {} 1 :=
    ⟨_, opened_fresh, .tail .refl ⟨idsFit_of_all noFault .stop (by decide +kernel),
      .take (fun _ ↦ 946684800000001) _⟩⟩
  obtain ⟨⟨last, tail, parts, hle, -, -, hreads, -⟩, -⟩ := ingest_keeps_framing hreach
  exact ⟨by decide +kernel, last, tail, parts, hle, hreads last hle le_rfl⟩

end Orc
