import Orc.Codec.Damage
import Orc.Fault.Reader
import Orc.Flush.Gather

/-!
# Run files, read piece by piece

A run is written as one byte string and read back through calls of `read` that may return less than
they ask for. An entry has no length of its own: the reader takes a head of fixed size, which is the
arrival pair and the header of the frame, and the length field in it says how much follows.

`readEntry` reads an entry from the whole rest of the file, and the merge is built on it.
`RunReader.readNext` is the reader as it makes its calls. The two agree whatever pieces the calls
return (`readNext_eq`), so a run file is read back as it was written, and one that was cut within an
entry is an error after the entries before the cut (`run_file_read_back`).
-/

namespace Orc

open Bytes Fault Order

/-! ## The reader -/

/-- Why a buffer could not be filled. -/
inductive ReadError where
  | unexpectedEof
  | failed
  deriving DecidableEq, Repr

/-- Exactly so many bytes. -/
def readExact (want : ℕ) (r : Reader UInt8) : Except ReadError Bytes × Reader UInt8 :=
  match r.fill want [] with
  | (.full bs, r') => (.ok bs, r')
  | (.short _, r') => (.error .unexpectedEof, r')
  | (.failed, r') => (.error .failed, r')

/-- `readExact`, but `none` if the file ends before the first byte. -/
def readExactOrEof (want : ℕ) (r : Reader UInt8) : Except ReadError (Option Bytes) × Reader UInt8 :=
  match r.fill want [] with
  | (.full bs, r') => (.ok (some bs), r')
  | (.short [], r') => (.ok none, r')
  | (.short (_ :: _), r') => (.error .unexpectedEof, r')
  | (.failed, r') => (.error .failed, r')

/-- A cursor over a run file, positioned on an entry. -/
structure RunReader where
  input : Reader UInt8
  head : Head

namespace RunReader

/-- Read one entry: `none` at a clean end; a truncated entry is an error. -/
def readNext (input : Reader UInt8) : Except Error (Option RunReader) :=
  match readExactOrEof (arrivalBytes + frameHeaderBytes) input with
  | (.error _, _) => .error corruptRun
  | (.ok none, _) => .ok none
  | (.ok (some head), input) =>
    let seg := leNat (head.take 8)
    let off := leNat ((head.drop 8).take 8)
    let len := leNat ((head.drop arrivalBytes).take 4)
    match readExact len input with
    | (.error _, _) => .error corruptRun
    | (.ok body, input) =>
      let frame := head.drop arrivalBytes ++ body
      -- the structure only: no checksum and no UTF-8
      match verifiedSortKey frame with
      | .error _ => .error corruptRun
      | .ok (ts, id, _) => .ok (some ⟨input, ts, id, (seg, off), frame⟩)

/-- A reader on the first entry, or `none` if there is none. -/
def openFile (input : Reader UInt8) : Except Error (Option RunReader) := readNext input

def advance (r : RunReader) : Except Error (Option RunReader) := readNext r.input

/-- What opening and then advancing as long as there is an entry gives: the entries, and how it
ends. -/
inductive Reads : Except Error (Option RunReader) → List Head → Except Error Unit → Prop where
  | done : Reads (.ok none) [] (.ok ())
  | failed (e : Error) : Reads (.error e) [] (.error e)
  | entry {r : RunReader} {hs : List Head} {e : Except Error Unit} :
      Reads r.advance hs e → Reads (.ok (some r)) (r.head :: hs) e

end RunReader

/-! ## Pieces do not matter -/

section Pieces

variable {r : Reader UInt8} {want : ℕ}

private theorem readExact_eq (hr : r.Sound) :
    ∃ r', r'.Sound ∧ r'.input = r.input.drop want ∧
      readExact want r = (if want ≤ r.input.length then .ok (r.input.take want)
        else .error .unexpectedEof, r') := by
  obtain ⟨r', hsound, hinput, hfill⟩ := @Reader.fill_eq _ want [] r (Nat.zero_le _) hr
  rw [List.nil_append] at hinput hfill
  refine ⟨r', hsound, hinput, ?_⟩
  rw [readExact, hfill]
  split_ifs <;> rfl

private theorem readExactOrEof_eq (hr : r.Sound) :
    ∃ r', r'.Sound ∧ r'.input = r.input.drop want ∧
      readExactOrEof want r = (if want ≤ r.input.length then .ok (some (r.input.take want))
        else if r.input = [] then .ok none else .error .unexpectedEof, r') := by
  obtain ⟨r', hsound, hinput, hfill⟩ := @Reader.fill_eq _ want [] r (Nat.zero_le _) hr
  rw [List.nil_append] at hinput hfill
  refine ⟨r', hsound, hinput, ?_⟩
  rw [readExactOrEof, hfill]
  split_ifs with hle hnil
  · rfl
  · rw [hnil]
  · obtain ⟨b, bs, hcons⟩ := List.exists_cons_of_ne_nil hnil
    rw [hcons]

/-- What one step of the reader should give. -/
def Agrees (entry : Except Error (Option (Head × Bytes))) (x : Except Error (Option RunReader)) :
    Prop :=
  match entry with
  | .error e => x = .error e
  | .ok none => x = .ok none
  | .ok (some (h, rest)) =>
    ∃ r, x = .ok (some r) ∧ r.head = h ∧ r.input.input = rest ∧ r.input.Sound

private theorem take_drop_take {l : Bytes} {n i j : ℕ} (h : i + j ≤ n) :
    ((l.take n).drop i).take j = (l.drop i).take j := by
  rw [List.drop_take, List.take_take, Nat.min_eq_left (by omega)]

/-- **The reader agrees with the whole file**, however its calls cut it. -/
theorem readNext_eq (hr : r.Sound) : Agrees (readEntry r.input) (RunReader.readNext r) := by
  obtain ⟨r₁, hr₁, hinput₁, hhead⟩ := @readExactOrEof_eq r (arrivalBytes + frameHeaderBytes) hr
  rw [RunReader.readNext, hhead, readEntry]
  by_cases hnil : r.input = []
  · rw [if_pos hnil, if_pos hnil, if_neg (by rw [hnil]; decide)]
    rfl
  by_cases hle : arrivalBytes + frameHeaderBytes ≤ r.input.length
  · rw [if_pos hle, if_neg hnil, if_neg (Nat.not_lt_of_le hle)]
    dsimp only
    have hseg : (r.input.take (arrivalBytes + frameHeaderBytes)).take 8 = r.input.take 8 := by
      rw [List.take_take]
      rfl
    rw [hseg, take_drop_take (by decide), take_drop_take (by decide)]
    set len := leNat ((r.input.drop arrivalBytes).take 4)
    obtain ⟨r₂, hr₂, hinput₂, hbody⟩ := @readExact_eq r₁ len hr₁
    rw [hinput₁, List.drop_drop] at hinput₂
    rw [hinput₁] at hbody
    have hiff : len ≤ (r.input.drop (arrivalBytes + frameHeaderBytes)).length ↔
        ¬ (r.input.drop arrivalBytes).length < frameHeaderBytes + len := by
      rw [List.length_drop, List.length_drop]
      omega
    have hframe : (r.input.take (arrivalBytes + frameHeaderBytes)).drop arrivalBytes ++
        (r.input.drop (arrivalBytes + frameHeaderBytes)).take len =
          (r.input.drop arrivalBytes).take (frameHeaderBytes + len) := by
      rw [List.drop_take, Nat.add_sub_cancel_left, List.take_add, List.drop_drop]
    rw [hbody]
    by_cases hshort : (r.input.drop arrivalBytes).length < frameHeaderBytes + len
    · rw [if_pos hshort, if_neg (mt hiff.1 (not_not_intro hshort))]
      rfl
    · rw [if_neg hshort, if_pos (hiff.2 hshort)]
      dsimp only
      rw [hframe]
      cases verifiedSortKey ((r.input.drop arrivalBytes).take (frameHeaderBytes + len)) with
      | error e => rfl
      | ok key =>
        obtain ⟨ts, id, n⟩ := key
        refine ⟨_, rfl, rfl, ?_, hr₂⟩
        rw [hinput₂, List.drop_drop, Nat.add_assoc]
  · rw [if_neg hle, if_neg hnil, if_neg hnil, if_pos (Nat.lt_of_not_le hle)]
    rfl

end Pieces

/-! ## Reading back -/

/-- An entry of a run: an encoded frame with its key, and an arrival pair of 64-bit numbers. -/
structure Head.Encoded (crc : Bytes → UInt32) (h : Head) : Prop where
  frame : ∃ series epoch row, encode crc series epoch row [] = .ok () h.frame ∧ h.ts = row.ts ∧
    h.id = utf8 row.id
  segment : h.arrival.1 < 2 ^ 64
  offset : h.arrival.2 < 2 ^ 64

variable {crc : Bytes → UInt32}

theorem Head.Encoded.sortKey {h : Head} (henc : h.Encoded crc) :
    verifiedSortKey h.frame = .ok (h.ts, h.id, h.frame.length) := by
  obtain ⟨series, epoch, row, hencode, hts, hid⟩ := henc.frame
  obtain ⟨hframe, hfits, hadm⟩ := encode_nil_eq_ok hencode le_rfl
  have hkey := verifiedSortKey_frameBytes crc hfits hadm.u32 []
  rw [List.append_nil, ← length_frameBytes crc, ← hframe] at hkey
  rw [hkey, hts, hid]
  rfl

theorem Head.Encoded.stored {h : Head} (henc : h.Encoded crc) : h.Stored :=
  stored_of_sortKey henc.sortKey henc.segment henc.offset

private theorem length_runEntry (arrival : ℕ × ℕ) (frame : Bytes) :
    (runEntry arrival frame).length = arrivalBytes + frame.length := by
  rw [runEntry, List.length_append, List.length_append, length_leBytes, length_leBytes]
  rfl

private theorem drop_runEntry (arrival : ℕ × ℕ) (frame : Bytes) :
    (runEntry arrival frame).drop arrivalBytes = frame := by
  refine List.drop_left' ?_
  rw [List.length_append, length_leBytes, length_leBytes]
  rfl

/-- **An entry cut short** is an error. -/
theorem readEntry_take {h : Head} (henc : h.Encoded crc) {n : ℕ} (hpos : 0 < n)
    (hlt : n < (runEntry h.arrival h.frame).length) :
    readEntry ((runEntry h.arrival h.frame).take n) = .error corruptRun := by
  have hlen : ((runEntry h.arrival h.frame).take n).length = n := List.length_take_of_le hlt.le
  have hne : (runEntry h.arrival h.frame).take n ≠ [] := by
    intro hnil
    rw [hnil, List.length_nil] at hlen
    omega
  rw [length_runEntry] at hlt
  rw [readEntry, if_neg hne, hlen]
  by_cases hhead : n < arrivalBytes + frameHeaderBytes
  · rw [if_pos hhead]
  · -- the length field is there, and says more than is left
    have hfield : ((runEntry h.arrival h.frame).take n).drop arrivalBytes =
        h.frame.take (n - arrivalBytes) := by
      rw [List.drop_take, drop_runEntry]
    have hsize : frameHeaderBytes + leNat (h.frame.take 4) = h.frame.length := by
      have := leNat_take_of_sortKey henc.sortKey []
      rwa [List.append_nil] at this
    have hfour : (h.frame.take (n - arrivalBytes)).take 4 = h.frame.take 4 := by
      rw [List.take_take, Nat.min_eq_left]
      unfold arrivalBytes frameHeaderBytes at hhead
      unfold arrivalBytes
      omega
    rw [if_neg hhead]
    dsimp only
    rw [hfield, hfour, hsize, if_pos]
    rw [List.length_take]
    omega

namespace RunReader

theorem reads_append {hs : List Head} (henc : ∀ h ∈ hs, h.Encoded crc) {rest : Bytes}
    {e : Except Error Unit} (hend : ∀ r : Reader UInt8, r.Sound → r.input = rest →
      Reads (readNext r) [] e) {r : Reader UInt8} (hr : r.Sound)
    (hinput : r.input = runBytes hs ++ rest) : Reads (readNext r) hs e := by
  induction hs generalizing r with
  | nil => exact hend r hr hinput
  | cons h hs ih =>
    rw [List.forall_mem_cons] at henc
    have hstep := readNext_eq hr
    rw [hinput, show runBytes (h :: hs) = runEntry h.arrival h.frame ++ runBytes hs from rfl,
      List.append_assoc, henc.1.stored] at hstep
    obtain ⟨r', hnext, rfl, hrest, hr'⟩ := hstep
    rw [hnext]
    exact .entry (ih henc.2 hr' hrest)

private theorem reads_runBytes {hs : List Head} (henc : ∀ h ∈ hs, h.Encoded crc) {r : Reader UInt8}
    (hr : r.Sound) (hinput : r.input = runBytes hs) : Reads (readNext r) hs (.ok ()) := by
  refine reads_append henc (fun r hr hnil ↦ ?_) hr (hinput.trans (List.append_nil _).symm)
  have hstep := readNext_eq hr
  rw [hnil] at hstep
  have hend : readNext r = .ok none := hstep
  rw [hend]
  exact .done

private theorem reads_cut {hs : List Head} (hencs : ∀ x ∈ hs, x.Encoded crc) {h : Head}
    (henc : h.Encoded crc) {n : ℕ} (hpos : 0 < n) (hlt : n < (runEntry h.arrival h.frame).length)
    {r : Reader UInt8} (hr : r.Sound)
    (hinput : r.input = runBytes hs ++ (runEntry h.arrival h.frame).take n) :
    Reads (readNext r) hs (.error corruptRun) := by
  refine reads_append hencs (fun r hr hrest ↦ ?_) hr hinput
  have hstep := readNext_eq hr
  rw [hrest, readEntry_take henc hpos hlt] at hstep
  have herror : readNext r = .error corruptRun := hstep
  rw [herror]
  exact .failed _

end RunReader

private theorem exists_cut_entry {hs : List Head} {n : ℕ} (hn : n < (runBytes hs).length)
    (hbetween : ∀ before after, hs = before ++ after → n ≠ (runBytes before).length) :
    ∃ before h after m, hs = before ++ h :: after ∧ n = (runBytes before).length + m ∧ 0 < m ∧
      m < (runEntry h.arrival h.frame).length := by
  induction hs generalizing n with
  | nil => exact absurd hn (Nat.not_lt_zero n)
  | cons h hs ih =>
    have hpos : 0 < n := Nat.pos_of_ne_zero (hbetween [] (h :: hs) rfl)
    have hcons : ∀ l, (runBytes (h :: l)).length =
        (runEntry h.arrival h.frame).length + (runBytes l).length := fun l ↦ List.length_append
    by_cases hlt : n < (runEntry h.arrival h.frame).length
    · exact ⟨[], h, hs, n, rfl, (Nat.zero_add n).symm, hpos, hlt⟩
    · obtain ⟨before, x, after, m, rfl, heq, hm⟩ :=
        @ih (n - (runEntry h.arrival h.frame).length) (by rw [hcons] at hn; omega)
          (fun before after hsplit heq ↦ hbetween (h :: before) after (hsplit ▸ rfl)
            (by rw [hcons]; omega))
      refine ⟨h :: before, x, after, m, rfl, ?_, hm⟩
      rw [hcons]
      omega

theorem writeRun_file {o : Oracle Op} {run : ℕ} {hs : List Head} {w w' : World Disk}
    (h : Spill.writeRun run hs o w = (.ok (), w')) : w'.disk.runs[run]? = some (runBytes hs) := by
  have htriple : Triple o (fun d ↦ True ∧ d.runs = w.disk.runs) (Spill.writeRun run hs)
      (fun _ d ↦ True ∧ WritesRun w.disk.runs run hs d.runs) (fun _ _ ↦ True) (fun _ ↦ True) :=
    Spill.writeRun_triple (fun _ _ ↦ id) ⟨fun _ _ _ ↦ trivial, fun _ _ ↦ trivial⟩ (fun _ ↦ id)
      _ run hs
  exact (htriple.of_ok ⟨trivial, rfl⟩ h).2.file

/-- **A run file is read back.** Whatever pieces its calls return, as long as none fails, a reader
gives the entries that were written, in order and with the keys of their frames, and then a clean
end. Cut anywhere but between two entries, the file gives the entries before the cut and then an
error. -/
theorem run_file_read_back {o : Oracle Op} {run : ℕ} {hs : List Head} {w w' : World Disk}
    (henc : ∀ h ∈ hs, h.Encoded crc) (hwritten : Spill.writeRun run hs o w = (.ok (), w')) :
    ∃ bytes, w'.disk.runs[run]? = some bytes ∧
      (∀ replies : List Reply, (∀ reply ∈ replies, reply ≠ .fails) →
        RunReader.Reads (RunReader.openFile ⟨bytes, replies⟩) hs (.ok ())) ∧
      ∀ n < bytes.length,
        (∀ before after, hs = before ++ after → n ≠ (runBytes before).length) →
        ∃ before h after, hs = before ++ h :: after ∧ (runBytes before).length < n ∧
          n < (runBytes (before ++ [h])).length ∧
          ∀ replies : List Reply, (∀ reply ∈ replies, reply ≠ .fails) →
            RunReader.Reads (RunReader.openFile ⟨bytes.take n, replies⟩) before
              (.error corruptRun) := by
  refine ⟨runBytes hs, writeRun_file hwritten, fun replies hsound ↦ ?_, fun n hn hbetween ↦ ?_⟩
  · exact RunReader.reads_runBytes henc hsound rfl
  · obtain ⟨before, h, after, m, rfl, rfl, hpos, hlt⟩ := exists_cut_entry hn hbetween
    rw [List.forall_mem_append, List.forall_mem_cons] at henc
    refine ⟨before, h, after, rfl, Nat.lt_add_of_pos_right hpos, ?_, fun replies hsound ↦ ?_⟩
    · rw [runBytes_append, List.length_append]
      simpa [runBytes] using hlt
    · refine RunReader.reads_cut henc.1 henc.2.1 hpos hlt hsound ?_
      change (runBytes (before ++ h :: after)).take _ = _
      rw [runBytes_append, List.take_length_add_append]
      congr 1
      exact List.take_append_of_le_length hlt.le

private def storedHead : Head where
  ts := 7
  id := utf8 "a"
  arrival := (1, 14)
  frame := frameBytes crc32 (payloadBytes ⟨7, 0, "t", "a", [], [], ""⟩)

private def laterHead : Head where
  ts := 9
  id := utf8 "bc"
  arrival := (2, 80)
  frame := frameBytes crc32 (payloadBytes ⟨9, 0, "t", "bc", [], [], "x"⟩)

private def storedLength : ℕ := (runBytes [storedHead]).length

/-- Two entries, read byte by byte with an interruption; and cut in the second of them, in its head
and in its frame. -/
theorem run_file_read_back_pair :
    ∃ bytes w', Spill.writeRun 1 [storedHead, laterHead] noFault ⟨{}, 0⟩ = (.ok (), w') ∧
      w'.disk.runs[1]? = some bytes ∧
      RunReader.Reads (RunReader.openFile ⟨bytes, .interrupted :: List.replicate 120 (.upTo 0)⟩)
        [storedHead, laterHead] (.ok ()) ∧
      ∀ n ∈ [5, 40], RunReader.Reads
        (RunReader.openFile ⟨bytes.take (storedLength + n), [.upTo 2, .interrupted]⟩) [storedHead]
        (.error corruptRun) := by
  have henc : ∀ h ∈ [storedHead, laterHead], h.Encoded crc32 := by
    rw [List.forall_mem_cons, List.forall_mem_singleton]
    exact ⟨⟨⟨"t", 0, ⟨7, "a", [], [], ""⟩, by decide +kernel, rfl, rfl⟩, by decide, by decide⟩,
      ⟨⟨"t", 0, ⟨9, "bc", [], [], "x"⟩, by decide +kernel, rfl, rfl⟩, by decide, by decide⟩⟩
  have hwritten : Spill.writeRun 1 [storedHead, laterHead] noFault ⟨{}, 0⟩ =
      (.ok (), (Spill.writeRun 1 [storedHead, laterHead] noFault ⟨{}, 0⟩).2) := rfl
  obtain ⟨bytes, hfile, hread, hcut⟩ := run_file_read_back henc hwritten
  obtain rfl : runBytes [storedHead, laterHead] = bytes :=
    Option.some.inj ((writeRun_file hwritten).symm.trans hfile)
  -- the entries before a split of the file are none, the first, or both
  have hsplits : ∀ before after, [storedHead, laterHead] = before ++ after →
      before ∈ [[], [storedHead], [storedHead, laterHead]] := by
    intro before after hsplit
    have hinits : before ∈ [storedHead, laterHead].inits :=
      (List.mem_inits _ _).2 ⟨after, hsplit.symm⟩
    simpa using hinits
  refine ⟨_, _, hwritten, hfile, hread _ (by decide), fun n hn ↦ ?_⟩
  have hlengths : ∀ n ∈ [5, 40], storedLength + n < (runBytes [storedHead, laterHead]).length ∧
      ∀ before ∈ [[], [storedHead], [storedHead, laterHead]],
        storedLength + n ≠ (runBytes before).length := by decide +kernel
  obtain ⟨hlt, hne⟩ := hlengths n hn
  obtain ⟨before, h, after, hsplit, hbefore, hafter, hshort⟩ := hcut (storedLength + n) hlt
    fun before after hsplit ↦ hne before (hsplits before after hsplit)
  obtain rfl : before = [storedHead] := by
    have hmem := hsplits before _ hsplit
    simp only [List.mem_cons, List.not_mem_nil, or_false] at hmem
    rcases hmem with rfl | rfl | rfl
    · obtain ⟨rfl, -⟩ := List.cons.inj hsplit
      exact absurd hafter (Nat.not_lt.2 (Nat.le_add_right _ _))
    · rfl
    · cases hsplit
  exact hshort _ (by decide)

end Orc
