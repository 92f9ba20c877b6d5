import Orc.Engine.Steps
import Orc.Wal.TornTail

/-!
# Segments of another format version

A segment with the right magic and another version is the work of another binary, not damage, and
must stay where it is. Recovery reads the header of the tail only: it refuses to start if that has
another version, unless the file is too short for a header, in which case it removes it. A segment
of another version below the tail is found by the next flush, which moves aside whatever it cannot
read.

So the guarantee holds exactly where no segment above the watermark is of another version, or the
tail is and has its whole header (`foreign_segments_stay`).

## What can be told from a file

Magic and version are the first six bytes of a file (`Foreign`), and the header goes on with the
segment's id. A file that has the six bytes and not the whole header is known to be of another
version, but the source measures it first, and takes any tail shorter than a header for one that a
crash left behind. `Disk.Discernible` says where recovery gets as far as the version.

The statement about one start is an equivalence. The statement about runs is an invariant: in a
directory where recovery can tell, no start gets past it, so nothing is ever moved or removed, and
in one without foreign segments the engine itself never makes one. `foreign_segment_moved` shows
both ways in which the other directories lose theirs, in starts that succeed.
-/

namespace Orc

open Bytes Fault

/-- The right magic, and a version that is not this one. -/
def Foreign (b : Bytes) : Prop :=
  6 ≤ b.length ∧ leNat (b.take 4) = magic ∧ leNat ((b.drop 4).take 2) ≠ formatVersion

instance : DecidablePred Foreign := fun b ↦
  inferInstanceAs (Decidable (6 ≤ b.length ∧ leNat (b.take 4) = magic ∧
    leNat ((b.drop 4).take 2) ≠ formatVersion))

/-! ## Headers -/

section Headers

variable {b : Bytes}

theorem parseSegmentHeader_foreign (h : Foreign b) (hlen : segmentHeaderBytes ≤ b.length) :
    parseSegmentHeader b = .error (.corrupt unsupportedVersion) := by
  rw [parseSegmentHeader, parseCommonHeader, if_neg (not_lt.2 hlen), if_neg (not_not.2 h.2.1),
    if_pos h.2.2]
  rfl

private theorem foreign_of_unsupported
    (h : parseSegmentHeader b = .error (.corrupt unsupportedVersion)) :
    Foreign b ∧ segmentHeaderBytes ≤ b.length := by
  rw [parseSegmentHeader, parseCommonHeader] at h
  split_ifs at h with hshort hmagic hversion
  · cases h
  · have hreason := DecodeError.corrupt.inj (Except.error.inj h)
    exact absurd hreason (by decide)
  · have hlen := not_lt.1 hshort
    refine ⟨⟨?_, not_not.1 hmagic, hversion⟩, hlen⟩
    unfold segmentHeaderBytes at hlen
    omega
  · cases h

theorem not_foreign_of_ok {hid : ℕ} (h : parseSegmentHeader b = .ok hid) :
    ¬ Foreign b := fun hb ↦ by
  rw [parseSegmentHeader_foreign hb (segmentHeaderBytes_le_length h)] at h
  cases h

private theorem not_foreign_of_corrupt {reason : String}
    (h : parseSegmentHeader b = .error (.corrupt reason))
    (hreason : reason ≠ unsupportedVersion) : ¬ Foreign b := fun hb ↦ by
  by_cases hlen : segmentHeaderBytes ≤ b.length
  · rw [parseSegmentHeader_foreign hb hlen] at h
    exact hreason (DecodeError.corrupt.inj (Except.error.inj h)).symm
  · rw [parseSegmentHeader, parseCommonHeader, if_pos (not_le.1 hlen)] at h
    cases h

theorem not_foreign_header (id n : ℕ) : ¬ Foreign ((encodeSegmentHeader id).take n) := by
  rintro ⟨hlen, -, hversion⟩
  rw [List.length_take] at hlen
  refine hversion ?_
  have hrest : (encodeSegmentHeader id).drop 4 = leBytes 2 formatVersion ++ leBytes 8 id := by
    rw [encodeSegmentHeader, List.append_assoc, List.drop_left' (length_leBytes 4 _)]
  rw [List.drop_take, hrest, List.take_take, Nat.min_eq_left (by omega),
    List.take_left' (length_leBytes 2 _), leNat_leBytes_of_lt (by decide)]

private theorem parseSegmentHeader_append_of_ok {hid : ℕ} (h : parseSegmentHeader b = .ok hid)
    (x : Bytes) : parseSegmentHeader (b ++ x) = .ok hid := by
  have htake := parseSegmentHeader_take (b ++ x) (segmentHeaderBytes_le_length h)
  rw [List.take_left, h] at htake
  exact htake.symm

end Headers

/-! ## Recovery -/

/-- There is nothing of another version above the watermark, or recovery can tell from the tail. -/
def Disk.Discernible (d : Disk) (w : ℕ) : Prop :=
  (∀ id b, d.bytesAt id = some b → w < id → ¬ Foreign b) ∨
    ∃ tail b, d.IsTail w tail ∧ d.bytesAt tail = some b ∧ Foreign b ∧ segmentHeaderBytes ≤ b.length

/-- With any faults, recovery does not return if there is a segment of another version above the
watermark, and leaves it in place. -/
def RefusesForeign (crc : Bytes → UInt32) (w : ℕ) (d : Disk) : Prop :=
  ∀ id b, d.bytesAt id = some b → w < id → Foreign b → ∀ o t r z,
    recover crc w o ⟨d, t⟩ = (r, z) → (∀ a, r ≠ .ok a) ∧ z.disk.bytesAt id = some b

section Recovery

variable {crc : Bytes → UInt32} {o : Oracle Op} {w : ℕ} {d : Disk}

private theorem recover_foreign (crc : Bytes → UInt32) (o : Oracle Op) {tail : ℕ} {b : Bytes}
    (htail : d.IsTail w tail)
    (hb : d.bytesAt tail = some b) (hforeign : Foreign b) (hlen : segmentHeaderBytes ≤ b.length) :
    Triple o (· = d) (recover crc w) (fun _ _ ↦ False)
      (fun _ d' ↦ ∀ k, w < k → d'.bytesAt k = d.bytesAt k)
      (fun d' ↦ ∀ k, w < k → d'.bytesAt k = d.bytesAt k) := by
  -- nothing above the watermark is touched, on any way out
  have hx := Exits.of_keeps Op.onFiles o (fun d' : Disk ↦ ∀ k, w < k →
    d'.bytesAt k = d.bytesAt k) ioError
  have hself : ∀ d', d' = d → ∀ k, w < k → d'.bytesAt k = d.bytesAt k := by
    rintro d' rfl k -
    rfl
  have hdelete : Keeps o (fun d' : Disk ↦ ∀ k, w < k → d'.bytesAt k = d.bytesAt k)
      (deleteFlushed (d.flushed w)) := by
    refine (Keeps.forM_of_mem fun id hid ↦ Io.step_keeps fun d' hd' k hk ↦ ?_).bind fun _ ↦ ?_
    · have hle := (Disk.mem_flushed.1 hid).2
      rw [Disk.bytesAt_erase rfl, if_neg (by omega), hd' k hk]
    · split_ifs
      · exact .ret _
      · exact Io.touch_keeps _
  refine .bind (Io.touch_exits hx hself) fun _ ↦ .bind (Io.touch_exits hx hself) fun _ ↦
    .bind (Q := fun ids d' ↦ d' = d ∧ ids = d.wal.keys) (Io.read_exits hx hself ?_ ?_) fun ids ↦
    .intro ?_
  · rintro d' ids rfl hread
    exact ⟨rfl, (Except.ok.inj hread).symm⟩
  · exact fun _ _ _ hread ↦ nomatch hread
  rintro d ⟨rfl, rfl⟩
  refine .bind (hdelete.pre hself) fun _ ↦ ?_
  change Triple o _ (recoverTail crc _ (d.unflushed w)) _ _ _
  rw [recoverTail, Disk.getLast?_unflushed.2 htail]
  refine .bind (Q := fun r d' ↦ r = .corrupt unsupportedVersion ∧
    ∀ k, w < k → d'.bytesAt k = d.bytesAt k) (.bind (readSegment_keeps tail) fun bytes ↦ .intro ?_)
    fun r ↦
    .intro ?_
  · rintro d' ⟨hd', f, hf, rfl⟩
    have hbytes : f.bytes = b := by
      have h := hd' tail htail.above
      rw [Disk.bytesAt_of_mem hf, hb] at h
      exact Option.some.inj h
    rw [hbytes, parseSegmentHeader_foreign hforeign hlen]
    refine .ret ?_
    rintro d'' rfl
    exact ⟨rfl, hd'⟩
  · rintro d' ⟨rfl, hd'⟩
    simp only [if_true]
    refine .fail ?_
    rintro d'' rfl
    exact hd'

/-- **What recovery can tell.** -/
theorem refusesForeign_iff : RefusesForeign crc w d ↔ d.Discernible w := by
  constructor
  · intro h
    by_contra hnot
    rw [Disk.Discernible, not_or] at hnot
    obtain ⟨hsome, hnone⟩ := hnot
    push Not at hsome
    obtain ⟨id, b, hb, hid, hforeign⟩ := hsome
    -- without faults it refuses only for the tail
    have hrun := recover_noFault crc w d ⟨d, 0⟩ rfl
    generalize hr : recover crc w noFault ⟨d, 0⟩ = r at hrun
    rcases r with ⟨a | e | _, z⟩
    · exact (h id b hb hid hforeign noFault 0 _ z hr).1 a rfl
    · obtain ⟨tail, f, htail, hf, hheader, -⟩ := hrun
      obtain ⟨hf', hlen⟩ := foreign_of_unsupported hheader
      exact hnone ⟨tail, f.bytes, htail, Disk.bytesAt_of_mem hf, hf', hlen⟩
    · exact hrun.2
  · rintro (hnone | ⟨tail, b', htail, hb', hforeign', hlen⟩) id b hb hid hforeign o t r z hrun
    · exact absurd hforeign (hnone id b hb hid)
    · have h := recover_foreign crc o htail hb' hforeign' hlen ⟨d, t⟩ rfl
      rw [hrun] at h
      rcases r with a | e | _
      · exact h.elim
      · exact ⟨nofun, (h id hid).trans hb⟩
      · exact ⟨nofun, (h.2 id hid).trans hb⟩

end Recovery

/-! ## Runs -/

/-- Every segment of another version is within the watermark, and so far none has been moved aside;
the active segment has a header of this version. -/
structure Versions (d₀ : Disk) (x : ℕ × Site) : Prop where
  within : ∀ id b, x.2.disk.bytesAt id = some b → Foreign b → id ≤ x.2.disk.watermark
  aside : ∀ (id : ℕ) (b : Bytes), x.2.disk.corrupt[id]? = some b → Foreign b →
    d₀.corrupt[id]? = some b
  header : ∀ a, x.2.log.state.active = some a →
    ∃ b hid, x.2.disk.bytesAt a.id = some b ∧ parseSegmentHeader b = .ok hid

/-- The tail is of another version, so no engine ever gets past recovery. -/
structure Stuck (d₀ : Disk) (tail : ℕ) (b : Bytes) (x : ℕ × Site) : Prop where
  idle : x.2.log.state.active = none
  isTail : x.2.disk.IsTail x.2.disk.watermark tail
  bytes : x.2.disk.bytesAt tail = some b
  aside : x.2.disk.corrupt = d₀.corrupt

section Steps

variable {crc : Bytes → UInt32} {o : Oracle Op} {clean : Prop} {d₀ d d' : Disk} {w w' : ℕ}

theorem aside_quarantined {id : ℕ} {b : Bytes} (hb : ¬ Foreign b)
    (h : ∀ (k : ℕ) (c : Bytes), d.corrupt[k]? = some c → Foreign c → d₀.corrupt[k]? = some c)
    (k : ℕ) (c : Bytes) (hc : (d.quarantined id b).corrupt[k]? = some c) (hforeign : Foreign c) :
    d₀.corrupt[k]? = some c := by
  rw [Disk.quarantined, Std.ExtTreeMap.getElem?_insert] at hc
  split_ifs at hc with hk
  · exact absurd (Option.some.inj hc ▸ hforeign) hb
  · exact h k c hc hforeign

theorem WalEffect.foreign {active : ℕ} (h : WalEffect crc active w d d') {id : ℕ} {b : Bytes}
    (hb : d'.bytesAt id = some b) (hforeign : Foreign b) : d.bytesAt id = some b := by
  -- a segment has the version it had: only those with a header of this version are cut off
  cases h with
  | same hbytes => rwa [← hbytes]
  | setAside _ _ _ _ heq =>
    subst heq
    rw [Disk.bytesAt_erase rfl] at hb
    split_ifs at hb
    exact hb
  | delete _ heq =>
    subst heq
    rw [Disk.bytesAt_erase rfl] at hb
    split_ifs at hb
    exact hb
  | @truncate _ hid f fs _ hf hok _ heq =>
    subst heq
    rw [Disk.bytesAt_onSegment] at hb
    split_ifs at hb with hk
    · subst hk
      rw [hf, Option.map_some, Option.some.injEq] at hb
      have hheader : parseSegmentHeader b = .ok hid := by
        rw [← hb, SegFile.truncate, parseSegmentHeader_take _ (Nat.le_add_right _ _), hok]
      exact absurd hforeign (not_foreign_of_ok hheader)
    · exact hb

theorem WalEffect.header {active hid : ℕ} (h : WalEffect crc active w d d') {b : Bytes}
    (hw : d.watermark < active) (hb : d.bytesAt active = some b)
    (hheader : parseSegmentHeader b = .ok hid) :
    ∃ b' hid', d'.bytesAt active = some b' ∧ parseSegmentHeader b' = .ok hid' := by
  cases h with
  | same hbytes => exact ⟨b, hid, hbytes ▸ hb, hheader⟩
  | setAside _ _ _ hnext heq =>
    refine ⟨b, hid, ?_, hheader⟩
    rw [heq, Disk.bytesAt_erase rfl, if_neg hnext.ne', hb]
  | delete hle heq =>
    refine ⟨b, hid, ?_, hheader⟩
    rw [heq, Disk.bytesAt_erase rfl, if_neg (hle.trans_lt hw).ne', hb]
  | @truncate id _ f fs _ hf _ _ heq =>
    by_cases hk : active = id
    · subst hk
      refine ⟨(f.truncate (segmentHeaderBytes + fs.flatten.length)).bytes, hid, ?_, ?_⟩
      · rw [heq, Disk.bytesAt_onSegment, if_pos rfl, hf]
        rfl
      · rw [Disk.bytesAt_of_mem hf, Option.some.injEq] at hb
        rw [SegFile.truncate, parseSegmentHeader_take _ (Nat.le_add_right _ _), hb, hheader]
    · exact ⟨b, hid, by rw [heq, Disk.bytesAt_onSegment, if_neg hk, hb], hheader⟩

theorem Versions.effect {s : Site} (h : Versions d₀ (w, s)) (hs : Sound (w, s))
    (heffect : Effect crc o clean s.active (w, s.disk) (w', d)) :
    Versions d₀ (w', { s with disk := d }) := by
  have hwal := heffect.onWal
  refine ⟨fun id b hb hforeign ↦ ?_, fun id b hb hforeign ↦ ?_, fun a ha ↦ ?_⟩
  · exact (h.within id b (hwal.foreign hb hforeign) hforeign).trans (heffect.watermark_le hs.low)
  · cases hwal with
    | same _ hcorrupt => exact h.aside id b (hcorrupt ▸ hb) hforeign
    | delete _ heq =>
      subst heq
      exact h.aside id b hb hforeign
    | truncate _ _ _ heq =>
      subst heq
      exact h.aside id b hb hforeign
    | setAside hf _ hid _ heq =>
      -- a segment above the watermark is not of another version
      refine aside_quarantined (fun hf' ↦ ?_) h.aside id b (heq ▸ hb) hforeign
      exact absurd (h.within _ _ (Disk.bytesAt_of_mem hf) hf') (not_le.2 (hs.low.trans_lt hid))
  · obtain ⟨b, hid, hb, hheader⟩ := h.header a ha
    have hactive : s.active = a.id := Site.active_eq ha
    rw [hactive] at hwal
    exact hwal.header (hs.low.trans_lt (hs.live a ha).1) hb hheader

theorem Versions.shifts {s : Site} {log : Log} (h : Versions d₀ (w, s))
    (hshifts : s.wal.Shifts log) : Versions d₀ (w', s.setWal log) := by
  cases hshifts with
  | idle hbytes hactive =>
    have hbytes' : (s.setWal log).disk.bytesAt = s.disk.bytesAt := hbytes
    refine ⟨fun id b hb ↦ h.within id b (hbytes' ▸ hb), h.aside, fun a ha ↦ ?_⟩
    rw [hbytes']
    exact h.header a (hactive ▸ ha)
  | @works a ha hwrites hfollows =>
    have hcases : ∀ k, (s.setWal log).disk.bytesAt k = s.disk.bytesAt k ∨
        (k = a.id ∧ ∃ x, (s.setWal log).disk.bytesAt k = (s.disk.bytesAt k).map (· ++ x)) ∨
        k = a.id + 1 ∧ k ∉ s.disk.wal ∧
          ∃ n, (s.setWal log).disk.bytesAt k = some ((encodeSegmentHeader k).take n) :=
      hwrites.bytesAt_cases
    obtain ⟨c, hid, hc, hheader⟩ := h.header a ha
    -- the active segment only grows
    have hown : ∃ x, (s.setWal log).disk.bytesAt a.id = some (c ++ x) := by
      rcases hcases a.id with heq | ⟨-, x, heq⟩ | ⟨heq, -⟩
      · exact ⟨[], by rw [heq, hc, List.append_nil]⟩
      · exact ⟨x, by rw [heq, hc, Option.map_some]⟩
      · exact absurd heq (Nat.succ_ne_self _).symm
    obtain ⟨x, hx⟩ := hown
    refine ⟨fun id b hb hforeign ↦ ?_, h.aside, fun a' ha' ↦ ?_⟩
    · rcases hcases id with heq | ⟨rfl, -⟩ | ⟨-, -, n, heq⟩
      · exact h.within id b (heq ▸ hb) hforeign
      · rw [hx, Option.some.injEq] at hb
        exact absurd (hb ▸ hforeign)
          (not_foreign_of_ok (parseSegmentHeader_append_of_ok hheader x))
      · rw [heq, Option.some.injEq] at hb
        exact absurd (hb ▸ hforeign) (not_foreign_header id n)
    · rcases hfollows a' ha' with heq | ⟨heq, -, hnew⟩
      · exact ⟨c ++ x, hid, heq ▸ hx, parseSegmentHeader_append_of_ok hheader x⟩
      · refine ⟨encodeSegmentHeader (a.id + 1), (a.id + 1) % 2 ^ 64, heq ▸ hnew, ?_⟩
        simpa using parseSegmentHeader_append (a.id + 1) []

theorem Versions.move {x y : ℕ × Site} (h : Versions d₀ x) (hs : Sound x)
    (hmove : Move crc o clean x y) : Versions d₀ y := by
  cases hmove with
  | disk heffect => exact h.effect hs heffect
  | log hchange => exact h.shifts hchange.shifts

theorem Versions.stop {s : Site} {log : Log} (h : Versions d₀ (w, s)) (hstop : Stop s.wal log) :
    Versions d₀ (halted (s.setWal log).disk) := by
  have hshifts : Versions d₀ (0, s.setWal log) := h.shifts hstop.shifts
  exact ⟨hshifts.within, hshifts.aside, nofun⟩

theorem Versions.recovered (h : Versions d₀ (halted d)) (hrecovered : Recovered d.watermark d d') :
    Versions d₀ (halted d') := by
  have herase : ∀ {id k : ℕ} {b : Bytes} {d₁ : Disk}, d₁.wal = d.wal.erase id →
      d₁.bytesAt k = some b → d.bytesAt k = some b := by
    intro id k b d₁ hwal hb
    rw [Disk.bytesAt_erase hwal] at hb
    split_ifs at hb
    exact hb
  cases hrecovered with
  | kept => exact h
  | dropped => exact ⟨fun k b hb ↦ h.within k b (herase rfl hb), h.aside, nofun⟩
  | setAside _ hf hheader hreason =>
    exact ⟨fun k b hb ↦ h.within k b (herase rfl hb),
      aside_quarantined (not_foreign_of_corrupt hheader hreason) h.aside, nofun⟩

theorem Versions.withSegment {log : Log} {first n k : ℕ} (h : Versions d₀ (halted d))
    (hactive : ∀ a, log.state.active = some a → a.id = first ∧ n = segmentHeaderBytes) :
    Versions d₀ (w, ⟨d.withSegment first n k, log⟩) := by
  have hbytes : ∀ j, (d.withSegment first n k).bytesAt j =
      if j = first then some ((encodeSegmentHeader first).take n) else d.bytesAt j := by
    intro j
    rw [Disk.bytesAt, Disk.withSegment, Std.ExtTreeMap.getElem?_insert]
    by_cases hj : first = j
    · rw [if_pos (Nat.compare_eq_eq.2 hj), if_pos hj.symm]
      rfl
    · rw [if_neg (mt Nat.compare_eq_eq.1 hj), if_neg (Ne.symm hj)]
      rfl
  refine ⟨fun j b hb hforeign ↦ ?_, h.aside, fun a ha ↦ ?_⟩
  · change (d.withSegment first n k).bytesAt j = some b at hb
    rw [hbytes] at hb
    split_ifs at hb
    · exact absurd (Option.some.inj hb ▸ hforeign) (not_foreign_header first n)
    · exact h.within j b hb hforeign
  · obtain ⟨hid, rfl⟩ := hactive a ha
    refine ⟨encodeSegmentHeader first, first % 2 ^ 64, ?_, ?_⟩
    · change (d.withSegment first _ k).bytesAt a.id = _
      rw [hbytes, if_pos hid, List.take_of_length_le (length_encodeSegmentHeader _).le]
    · simpa using parseSegmentHeader_append first []

theorem Versions.begins {y : ℕ × Site} (h : Versions d₀ (halted d)) (hbegins : Begins o d y) :
    Versions d₀ y := by
  cases hbegins with
  | failed => exact h
  | interrupted hrecovered => exact h.recovered hrecovered
  | created hrecovered => exact (h.recovered hrecovered).withSegment nofun
  | opened hrecovered =>
    refine (h.recovered hrecovered).withSegment fun a ha ↦ ?_
    obtain rfl := Option.some.inj ha
    exact ⟨rfl, rfl⟩

variable {tail : ℕ} {b : Bytes}

theorem Stuck.effect {s : Site} (h : Stuck d₀ tail b (w, s))
    (hb : ∀ hid, parseSegmentHeader b ≠ .ok hid)
    (heffect : Effect crc o clean s.active (w, s.disk) (w', d)) :
    Stuck d₀ tail b (w', { s with disk := d }) := by
  have hactive : s.active = 0 := by
    rw [Site.active, h.idle]
    rfl
  rw [hactive] at heffect
  have hw := heffect.watermark_eq
  have habove := h.isTail.above
  -- the tail is neither deleted nor cut off
  have hbytes : d.bytesAt tail = some b ∧ d.corrupt = s.disk.corrupt := by
    cases heffect.onWal with
    | same hbytes hcorrupt => exact ⟨hbytes ▸ h.bytes, hcorrupt⟩
    | setAside _ _ _ hnext => exact absurd hnext (Nat.not_lt_zero _)
    | delete hid heq =>
      subst heq
      refine ⟨?_, rfl⟩
      rw [Disk.bytesAt_erase rfl, if_neg (hid.trans_lt habove).ne']
      exact h.bytes
    | @truncate id hid f fs _ hf hok _ heq =>
      subst heq
      refine ⟨?_, rfl⟩
      rw [Disk.bytesAt_onSegment, if_neg ?_]
      · exact h.bytes
      · rintro rfl
        have hbytes := h.bytes
        rw [Disk.bytesAt_of_mem hf, Option.some.injEq] at hbytes
        exact hb hid (hbytes ▸ hok)
  have htail : d.IsTail d.watermark tail := by
    refine ⟨Disk.mem_iff_bytesAt.2 (Option.isSome_iff_exists.2 ⟨b, hbytes.1⟩), hw ▸ habove,
      fun k hk ↦ h.isTail.highest k (heffect.onWal.mem_wal hk)⟩
  exact ⟨h.idle, htail, hbytes.1, hbytes.2.trans h.aside⟩

theorem Stuck.shifts {s : Site} {log : Log} (h : Stuck d₀ tail b (w, s))
    (hshifts : s.wal.Shifts log) : Stuck d₀ tail b (w', s.setWal log) := by
  cases hshifts with
  | idle hbytes hactive =>
    have hbytes' : (s.setWal log).disk.bytesAt = s.disk.bytesAt := hbytes
    have hmem : ∀ k, k ∈ (s.setWal log).disk.wal ↔ k ∈ s.disk.wal := fun k ↦ by
      rw [Disk.mem_iff_bytesAt, Disk.mem_iff_bytesAt, hbytes']
    exact ⟨hactive.trans h.idle, ⟨(hmem tail).2 h.isTail.mem, h.isTail.above,
      fun k hk ↦ h.isTail.highest k ((hmem k).1 hk)⟩, hbytes' ▸ h.bytes, h.aside⟩
  | works ha => exact absurd (h.idle.symm.trans ha) nofun

theorem Stuck.begins {y : ℕ × Site} (h : Stuck d₀ tail b (halted d))
    (hheader : parseSegmentHeader b = .error (.corrupt unsupportedVersion))
    (hbegins : Begins o d y) : Stuck d₀ tail b y := by
  -- recovery refuses such a tail
  have hnot : ∀ {d' : Disk}, ¬ Recovered d.watermark d d' := by
    have hfile : ∀ {t : ℕ} {f : SegFile}, d.IsTail d.watermark t → d.wal[t]? = some f →
        parseSegmentHeader f.bytes = .error (.corrupt unsupportedVersion) := by
      intro t f ht hf
      obtain rfl := ht.unique h.isTail
      have hbytes : d.bytesAt t = some b := h.bytes
      rw [Disk.bytesAt_of_mem hf, Option.some.injEq] at hbytes
      rw [hbytes, hheader]
    intro d' hrecovered
    cases hrecovered with
    | kept hok =>
      obtain ⟨f, hid, hf, hparse⟩ := hok tail h.isTail
      cases (hfile h.isTail hf).symm.trans hparse
    | dropped htail hf hparse => cases (hfile htail hf).symm.trans hparse
    | setAside htail hf hparse hreason =>
      have heq := DecodeError.corrupt.inj (Except.error.inj ((hfile htail hf).symm.trans hparse))
      exact hreason heq.symm
  cases hbegins with
  | failed => exact h
  | interrupted hrecovered => exact absurd hrecovered hnot
  | created hrecovered => exact absurd hrecovered hnot
  | opened hrecovered => exact absurd hrecovered hnot

end Steps

/-- **Segments of another format version.** For every directory and watermark, recovery refuses to
start and leaves each segment of another version above the watermark in place exactly if there is
none, or the tail is one and has its whole header. And in every run of starts, appends and flushes
on such a directory, with any faults and crashes, none is ever moved aside. -/
theorem foreign_segments_stay (crc : Bytes → UInt32) (lower : String → String) (d : Disk) :
    (∀ w, RefusesForeign crc w d ↔ d.Discernible w) ∧
      (d.Discernible d.watermark → ∀ n, Node.Reaches crc lower (fun _ _ _ ↦ True) (.down d) n →
        ∀ (id : ℕ) (b : Bytes), n.site.disk.corrupt[id]? = some b → Foreign b →
          d.corrupt[id]? = some b) := by
  refine ⟨fun w ↦ refusesForeign_iff, ?_⟩
  rintro (hnone | ⟨tail, b, htail, hb, hforeign, hlen⟩) n hrun
  · have hstart : Versions d (halted d) := by
      refine ⟨fun id b hb hforeign ↦ ?_, fun _ _ hb _ ↦ hb, nofun⟩
      by_contra hlt
      exact hnone id b hb (not_le.1 hlt) hforeign
    have hversions := (hrun.keeps False (I := Versions d) (fun _ _ _ _ ↦ False.elim)
      (fun _ _ _ _ hs _ h hturn ↦ (hturn.keeps (fun _ _ hs h hmove ↦ h.move hs hmove)
        (fun _ _ _ _ h hstop ↦ h.stop hstop) (fun _ _ _ _ _ _ h hbegins ↦ h.begins hbegins) hs h).2)
      (sound_down d) (Node.tidy_down False.elim) hstart).2.2
    exact hversions.aside
  · have hheader := parseSegmentHeader_foreign hforeign hlen
    have hstart : Stuck d tail b (halted d) := ⟨rfl, htail, hb, rfl⟩
    have hstuck := (hrun.keeps False (I := Stuck d tail b) (fun _ _ _ _ ↦ False.elim)
      (fun _ _ _ _ hs _ h hturn ↦ (hturn.keeps (fun _ _ _ h hmove ↦ by
        cases hmove with
        | disk heffect => exact h.effect (fun hid hok ↦ by cases hheader.symm.trans hok) heffect
        | log hchange => exact h.shifts hchange.shifts)
        (fun _ _ _ _ h hstop ↦ by
          have hshifts : Stuck d tail b (0, _) := h.shifts hstop.shifts
          exact ⟨rfl, hshifts.isTail, hshifts.bytes, hshifts.aside⟩)
        (fun _ _ _ _ _ _ h hbegins ↦ h.begins hheader hbegins) hs h).2)
      (sound_down d) (Node.tidy_down False.elim) hstart).2.2
    exact fun id b hb _ ↦ hstuck.aside ▸ hb

/-- The header of a segment of version 2. -/
private def laterHeader : Bytes := leBytes 4 magic ++ leBytes 2 2 ++ leBytes 8 1

private def mixed : Disk where
  wal := (({} : Std.ExtTreeMap ℕ SegFile).insert 1 ⟨laterHeader, 14⟩).insert 2
    ⟨encodeSegmentHeader 2, 14⟩

private def cutOff : Disk where
  wal := {(1, ⟨laterHeader.take 13, 13⟩)}

private def seriesConfig : Config := { series := [⟨"t", []⟩] }

/-- **A segment of another version is moved aside, or removed.** Below a tail of this version it is
moved aside by the flush that the start itself makes. As a tail that lacks the last byte of its
header it is deleted. Both starts succeed. -/
theorem foreign_segment_moved :
    Foreign laterHeader ∧ Foreign (laterHeader.take 13) ∧
      let n := (Node.down mixed).after crc32 id noFault (.start seriesConfig 0)
      let m := (Node.down cutOff).after crc32 id noFault (.start seriesConfig 0)
      n.process.isSome = true ∧ n.site.disk.wal.keys = [3] ∧
        n.site.disk.corrupt[1]? = some laterHeader ∧
        m.process.isSome = true ∧ m.site.disk.wal.keys = [2] ∧ m.site.disk.corrupt.keys = [] := by
  decide +kernel

end Orc
