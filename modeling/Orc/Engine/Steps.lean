import Orc.Engine.Effects
import Orc.Wal.Integrity

/-!
# A node as a transition system

An event of a node runs a long program. What it leaves is described here by small steps on the
watermark in memory, the directory and the writer: effects on the directory and changes of the log
(`Move`), a crash (`Ends`), and at a start the passage from a directory to an open writer
(`Begins`). `Node.after_turn` says that every event is such a sequence, whatever its oracle, and
`Node.Reaches.keeps` is the resulting rule for invariants of runs.

The base invariant is `Sound`: the watermark in memory is between the one on disk and the highest id
in use, and a flush cannot reach the active segment, whose file is there.

## Why steps

An event that is stopped in the middle has made a prefix of its steps, and an event that fails has
made some other sequence; the step relation covers both without mentioning either. That is the
reason for it. An invariant stated of the steps needs no case for "stopped here" or "failed there",
and `Orc.Engine.Published`, `Orc.Engine.SegmentIds`, `Orc.Engine.Versions` and
`Orc.Engine.CrashSafety` are each an invariant and one lemma for each kind of step.

`Sound` is proved once and given to each of them at every step (`Turn.keeps`), because without it
the guards of the effects say little: that a covered segment may be deleted is harmless only since
the active one is never covered. A start is not a sequence of moves. It has no writer until the end,
and what recovery does to a tail it cannot read is allowed in no other place, so it is a step of its
own, with its own three outcomes (`StartFails`, `StartInterrupted`, `Opens`).
-/

namespace Orc

open Bytes Fault Order

/-! ## The highest id -/

/-- The highest id in use: that of a segment, or the watermark. -/
def Disk.top (d : Disk) : ℕ := max (d.wal.keys.getLast?.getD 0) d.watermark

namespace Disk

variable {d d' : Disk}

theorem le_top {id : ℕ} (h : id ∈ d.wal) : id ≤ d.top := by
  have hkey : id ∈ d.wal.keys := Std.ExtTreeMap.mem_keys.2 h
  cases hlast : d.wal.keys.getLast? with
  | none =>
    rw [List.getLast?_eq_none_iff] at hlast
    rw [hlast] at hkey
    cases hkey
  | some t =>
    rw [top, hlast]
    exact (((getLast?_eq_some_iff d.sorted_keys).1 hlast).2 id hkey).trans (le_max_left _ _)

theorem watermark_le_top : d.watermark ≤ d.top := le_max_right _ _

theorem top_le {n : ℕ} (hwal : ∀ id ∈ d.wal, id ≤ n) (hw : d.watermark ≤ n) : d.top ≤ n := by
  refine max_le ?_ hw
  cases hlast : d.wal.keys.getLast? with
  | none => exact Nat.zero_le n
  | some t => exact hwal t (Std.ExtTreeMap.mem_keys.1 (List.mem_of_getLast? hlast))

theorem top_congr (hmem : ∀ k, k ∈ d'.wal ↔ k ∈ d.wal) (hw : d'.watermark = d.watermark) :
    d'.top = d.top := by
  refine le_antisymm (top_le (fun k hk ↦ le_top ((hmem k).1 hk)) ?_)
    (top_le (fun k hk ↦ le_top ((hmem k).2 hk)) ?_)
  · exact hw.trans_le watermark_le_top
  · exact hw.symm.trans_le watermark_le_top

theorem mem_wal_erase {id k : ℕ} : k ∈ d.wal.erase id ↔ k ∈ d.wal ∧ k ≠ id := by
  rw [Std.ExtTreeMap.mem_erase, Ne, Nat.compare_eq_eq, and_comm, eq_comm]

private theorem top_erase {id : ℕ} (hwal : d'.wal = d.wal.erase id)
    (hw : d'.watermark = d.watermark) (hid : id ≤ d'.top) : d'.top = d.top := by
  have hmem : ∀ k, k ∈ d'.wal ↔ k ∈ d.wal ∧ k ≠ id := fun k ↦ hwal ▸ mem_wal_erase
  refine le_antisymm (top_le (fun k hk ↦ le_top ((hmem k).1 hk).1) (hw.trans_le watermark_le_top))
    (top_le (fun k hk ↦ ?_) (hw.symm.trans_le watermark_le_top))
  by_cases hk' : k = id
  · exact hk'.trans_le hid
  · exact le_top ((hmem k).2 ⟨hk, hk'⟩)

theorem mem_onSegment {id k : ℕ} {g : SegFile → SegFile} : k ∈ (d.onSegment id g).wal ↔ k ∈ d.wal :=
  mem_updateFile

end Disk

section Effects

variable {crc : Bytes → UInt32} {o : Oracle Op} {clean : Prop} {active w w' : ℕ} {d d' : Disk}

theorem Plan.Ready.last_mem {plan : Plan} (h : plan.Ready clean active w d) :
    plan.last ∈ plan.ids :=
  List.mem_of_getLast? h.last

/-- The highest id in use stays the same, and the watermark in memory stays between the one on disk
and it. -/
theorem Effect.top_eq (h : Effect crc o clean active (w, d) (w', d')) (hlow : d.watermark ≤ w)
    (hhigh : w ≤ d.top) : d'.watermark ≤ w' ∧ w' ≤ d'.top ∧ d'.top = d.top := by
  have hsame : ∀ {d₁ : Disk}, (∀ k, k ∈ d₁.wal ↔ k ∈ d.wal) → d₁.watermark = d.watermark →
      d₁.watermark ≤ w ∧ w ≤ d₁.top ∧ d₁.top = d.top := by
    intro d₁ hmem hw
    have htop := Disk.top_congr hmem hw
    exact ⟨hw.trans_le hlow, hhigh.trans_eq htop.symm, htop⟩
  have hlast : ∀ {plan : Plan}, plan.Ready clean active w d → plan.last ≤ d.top := fun hready ↦
    Disk.le_top (hready.consumes.there _ hready.last_mem)
  cases h with
  | scratch hd =>
    refine hsame (fun k ↦ by rw [hd.wal]) ?_
    rw [Disk.watermark, Disk.watermark, hd.manifest]
  | stage => exact hsame (fun _ ↦ Iff.rfl) rfl
  | @setAside _ id _ f e _ _ hid hnext hthere =>
    -- the one moved aside is below the active one, which stays
    have hle : id ≤ (d.quarantined id f.bytes).top :=
      hnext.le.trans (Disk.le_top (Disk.mem_wal_erase.2 ⟨hthere, hnext.ne'⟩))
    have htop : (d.quarantined id f.bytes).top = d.top := Disk.top_erase rfl rfl hle
    exact ⟨hlow, hhigh.trans_eq htop.symm, htop⟩
  | @commit _ _ plan m hready hm =>
    have hmax : max w plan.last ≤ d.top := max_le hhigh (hlast hready)
    have htop : (d.recorded m (some (plan.ids, plan.staged))).top = d.top := by
      refine le_antisymm (Disk.top_le (fun k hk ↦ Disk.le_top hk) (hm.trans_le hmax))
        (Disk.top_le (fun k hk ↦ Disk.le_top hk) ?_)
      have hle : d.watermark ≤ (d.recorded m (some (plan.ids, plan.staged))).watermark :=
        hlow.trans ((le_max_left _ _).trans_eq hm.symm)
      exact hle.trans Disk.watermark_le_top
    exact ⟨hm.le, hmax.trans_eq htop.symm, htop⟩
  | advance hready => exact ⟨hlow.trans (le_max_left _ _), max_le hhigh (hlast hready), rfl⟩
  | recommit hm => exact hsame (fun _ ↦ Iff.rfl) hm
  | promote => exact hsame (fun _ ↦ Iff.rfl) rfl
  | discard => exact hsame (fun _ ↦ Iff.rfl) rfl
  | discardFlat => exact hsame (fun _ ↦ Iff.rfl) rfl
  | discardOutput => exact hsame (fun _ ↦ Iff.rfl) rfl
  | @delete _ id _ hid =>
    have hle : id ≤ ({ d with wal := d.wal.erase id } : Disk).top := hid.trans (le_max_right _ _)
    have htop : ({ d with wal := d.wal.erase id } : Disk).top = d.top := Disk.top_erase rfl rfl hle
    exact ⟨hlow, hhigh.trans_eq htop.symm, htop⟩
  | truncate => exact hsame (fun _ ↦ Disk.mem_onSegment) rfl
  | sync => exact hsame (fun _ ↦ Disk.mem_onSegment) rfl

/-- Only a commit that fails tells the two watermarks apart. -/
theorem Effect.watermark (h : Effect crc o clean active (w, d) (w', d'))
    (hcommits : ¬ CommitFails o ∨ active = 0) (hw : d.watermark = w) : d'.watermark = w' := by
  cases h with
  | scratch hd =>
    rw [← hw, Disk.watermark, Disk.watermark, hd.manifest]
  | commit _ hm => exact hm
  | advance hready hfails =>
    rcases hcommits with hnot | rfl
    · exact absurd hfails hnot
    · exact absurd (hready.consumes.below _ hready.last_mem) (Nat.not_lt_zero _)
  | recommit hm => exact hm.trans hw
  | _ => exact hw

/-- The watermark on disk does not go down. -/
theorem Effect.watermark_le (h : Effect crc o clean active (w, d) (w', d'))
    (hlow : d.watermark ≤ w) : d.watermark ≤ d'.watermark := by
  cases h with
  | scratch hd => rw [Disk.watermark, Disk.watermark, hd.manifest]
  | commit _ hm => exact hlow.trans ((le_max_left _ _).trans_eq hm.symm)
  | recommit hm => exact hm.ge
  | _ => exact le_rfl

/-- Without an active segment nothing is committed. -/
theorem Effect.watermark_eq (h : Effect crc o clean 0 (w, d) (w', d')) :
    d'.watermark = d.watermark := by
  cases h with
  | scratch hd => rw [Disk.watermark, Disk.watermark, hd.manifest]
  | commit hready => exact absurd (hready.consumes.below _ hready.last_mem) (Nat.not_lt_zero _)
  | recommit hm => exact hm
  | _ => rfl

/-- Staged files have the paths of the current layout. -/
def Disk.Named (d : Disk) : Prop := ∀ p ∈ d.tmp, p.length = 3

theorem Effect.named (h : Effect crc o clean active (w, d) (w', d')) (hd : d.Named) : d'.Named := by
  cases h with
  | scratch hsame => exact fun p hp ↦ hd p (hsame.tmp ▸ hp)
  | stage f hp =>
    intro q hq
    rcases Std.ExtTreeMap.mem_insert.1 hq with heq | hq
    · obtain ⟨series, hour, first, epoch, -, rfl⟩ := hp
      rw [← Std.LawfulEqCmp.eq_of_compare heq]
      rfl
    · exact hd q hq
  | promote => exact fun q hq ↦ hd q (mem_of_mem_erase hq)
  | discard => exact fun q hq ↦ hd q (mem_of_mem_erase hq)
  | discardFlat => exact fun q hq ↦ hd q (mem_of_mem_erase hq)
  | _ => exact hd

/-- The bytes of a segment. -/
def Disk.bytesAt (d : Disk) (k : ℕ) : Option Bytes := d.wal[k]?.map SegFile.bytes

theorem Disk.mem_iff_bytesAt {k : ℕ} : k ∈ d.wal ↔ (d.bytesAt k).isSome = true := by
  rw [bytesAt, Option.isSome_map, Std.ExtTreeMap.isSome_getElem?_iff_mem]

theorem Disk.bytesAt_of_mem {k : ℕ} {f : SegFile} (h : d.wal[k]? = some f) :
    d.bytesAt k = some f.bytes := by rw [bytesAt, h, Option.map_some]

theorem Disk.bytesAt_erase {id k : ℕ} (hwal : d'.wal = d.wal.erase id) :
    d'.bytesAt k = if k = id then none else d.bytesAt k := by
  rw [bytesAt, hwal, Std.ExtTreeMap.getElem?_erase]
  by_cases hk : id = k
  · rw [if_pos (Nat.compare_eq_eq.2 hk), if_pos hk.symm]
    rfl
  · rw [if_neg (mt Nat.compare_eq_eq.1 hk), if_neg (Ne.symm hk)]
    rfl

theorem Disk.bytesAt_onSegment {id k : ℕ} {g : SegFile → SegFile} :
    (d.onSegment id g).bytesAt k =
      if k = id then d.wal[k]?.map fun f ↦ (g f).bytes else d.bytesAt k := by
  rw [bytesAt, onSegment, getElem?_updateFile]
  by_cases hk : id = k
  · rw [if_pos hk, if_pos hk.symm, Option.map_map]
    rfl
  · rw [if_neg hk, if_neg (Ne.symm hk), bytesAt]

/-- What an effect does to the segments. -/
inductive WalEffect (crc : Bytes → UInt32) (active w : ℕ) (d d' : Disk) : Prop
  | same (hbytes : d'.bytesAt = d.bytesAt) (hcorrupt : d'.corrupt = d.corrupt)
  | setAside {id : ℕ} {f : SegFile} {e : DecodeError} (hf : d.wal[id]? = some f)
      (hheader : parseSegmentHeader f.bytes = .error e) (hid : w < id) (hnext : id < active)
      (heq : d' = d.quarantined id f.bytes)
  | delete {id : ℕ} (hid : id ≤ d.watermark) (heq : d' = { d with wal := d.wal.erase id })
  | truncate {id hid : ℕ} {f : SegFile} {fs : List Bytes} {rest : Bytes} (hf : d.wal[id]? = some f)
      (hheader : parseSegmentHeader f.bytes = .ok hid)
      (hcut : Cut crc f.bytes.length (f.bytes.drop segmentHeaderBytes) fs rest)
      (heq : d' = d.onSegment id (SegFile.truncate (segmentHeaderBytes + fs.flatten.length)))

theorem Effect.onWal (h : Effect crc o clean active (w, d) (w', d')) :
    WalEffect crc active w d d' := by
  cases h with
  | scratch hd => exact .same (funext fun k ↦ by rw [Disk.bytesAt, hd.wal]; rfl) hd.corrupt
  | setAside hf hheader hid hnext => exact .setAside hf hheader hid hnext rfl
  | delete hid => exact .delete hid rfl
  | truncate hf hheader hcut => exact .truncate hf hheader hcut rfl
  | sync id =>
    refine .same (funext fun k ↦ ?_) rfl
    rw [Disk.bytesAt_onSegment]
    split_ifs
    · rfl
    · rfl
  | _ => exact .same rfl rfl

namespace WalEffect

/-- No segment is new. -/
theorem mem_wal (h : WalEffect crc active w d d') {k : ℕ} (hk : k ∈ d'.wal) : k ∈ d.wal := by
  cases h with
  | same hbytes => rwa [Disk.mem_iff_bytesAt, ← hbytes, ← Disk.mem_iff_bytesAt]
  | setAside _ _ _ _ heq => exact (Disk.mem_wal_erase.1 (heq ▸ hk)).1
  | delete _ heq => exact (Disk.mem_wal_erase.1 (heq ▸ hk)).1
  | truncate _ _ _ heq => exact Disk.mem_onSegment.1 (heq ▸ hk)

/-- From the active segment on they all stay. -/
theorem mem_wal_of_le (h : WalEffect crc active w d d') (hw : d.watermark < active) {k : ℕ}
    (hle : active ≤ k) (hk : k ∈ d.wal) : k ∈ d'.wal := by
  cases h with
  | same hbytes => rwa [Disk.mem_iff_bytesAt, hbytes, ← Disk.mem_iff_bytesAt]
  | setAside _ _ _ hnext heq => exact heq ▸ Disk.mem_wal_erase.2 ⟨hk, (hnext.trans_le hle).ne'⟩
  | delete hid heq => exact heq ▸ Disk.mem_wal_erase.2 ⟨hk, (hid.trans_lt (hw.trans_le hle)).ne'⟩
  | truncate _ _ _ heq => exact heq ▸ Disk.mem_onSegment.2 hk

end WalEffect

theorem Effect.live (h : Effect crc o clean active (w, d) (w', d')) (hlow : d.watermark ≤ w)
    (hlt : w < active) (hmem : active ∈ d.wal) : w' < active ∧ active ∈ d'.wal := by
  refine ⟨?_, h.onWal.mem_wal_of_le (hlow.trans_lt hlt) le_rfl hmem⟩
  have hlast : ∀ {plan : Plan}, plan.Ready clean active w d → max w plan.last < active :=
    fun hready ↦
    max_lt hlt (hready.consumes.below _ hready.last_mem)
  cases h with
  | commit hready => exact hlast hready
  | advance hready => exact hlast hready
  | _ => exact hlt

end Effects

/-! ## Steps -/

/-- The directory with no process on it: the watermark that counts is the one on disk. -/
def halted (d : Disk) : ℕ × Site := (d.watermark, ⟨d, {}⟩)

/-- One effect on the directory, or one change of the log. -/
inductive Move (crc : Bytes → UInt32) (o : Oracle Op) (clean : Prop) : ℕ × Site → ℕ × Site → Prop
  | disk {w w' : ℕ} {s : Site} {d : Disk} (h : Effect crc o clean s.active (w, s.disk) (w', d)) :
      Move crc o clean (w, s) (w', { s with disk := d })
  | log {w : ℕ} {s : Site} {act : Action} {log : Log} (h : Change o act s.wal log) :
      Move crc o clean (w, s) (w, s.setWal log)

/-- Some of these, one after the other. -/
def Moves (crc : Bytes → UInt32) (o : Oracle Op) (clean : Prop) : ℕ × Site → ℕ × Site → Prop :=
  Relation.ReflTransGen (Move crc o clean)

/-- Moves, and possibly a crash at the end of them. -/
def Ends (crc : Bytes → UInt32) (o : Oracle Op) (clean : Prop) (x z : ℕ × Site) : Prop :=
  ∃ y, Moves crc o clean x y ∧ (z = y ∨ ∃ log, Stop y.2.wal log ∧ z = halted (y.2.setWal log).disk)

/-- A start did not get from recovery to the first segment of the writer. -/
def StartInterrupted (o : Oracle Op) : Prop := Interrupted o .walDirSync ∨ OpenInterrupted o

/-- The directory with a new segment in it, which has the first bytes of its header. -/
def Disk.withSegment (id n k : ℕ) (d : Disk) : Disk :=
  { d with wal := d.wal.insert id ⟨(encodeSegmentHeader id).take n, k⟩ }

/-- The directory with an open writer on it. -/
def Site.opened (first : ℕ) (d : Disk) : Site where
  disk := d.withSegment first segmentHeaderBytes segmentHeaderBytes
  log := { state := { active := some ⟨first, [], segmentHeaderBytes, segmentHeaderBytes⟩ } }

/-- How a start goes on when recovery comes to the tail: it fails there, it is interrupted after it
has amended the directory, it has created the first segment, or it has opened the writer. -/
inductive Begins (o : Oracle Op) (d : Disk) : ℕ × Site → Prop
  | failed : Begins o d (halted d)
  | interrupted {d' : Disk} (h : Recovered d.watermark d d') (ho : StartInterrupted o) :
      Begins o d (halted d')
  | created {d' : Disk} {n k : ℕ} (h : Recovered d.watermark d d') :
      Begins o d (halted (d'.withSegment (d.top + 1) n k))
  | opened {d' : Disk} (h : Recovered d.watermark d d') :
      Begins o d (d.watermark, .opened (d.top + 1) d')

/-- One event; `start`: it is a start. -/
inductive Turn (crc : Bytes → UInt32) (o : Oracle Op) (clean start : Prop) :
    ℕ × Site → ℕ × Site → Prop
  | runs {x z : ℕ × Site} (h : Ends crc o clean x z) : Turn crc o clean start x z
  | starts {d d₁ : Disk} {y z : ℕ × Site} (hstart : start)
      (hmoves : Moves crc o clean (halted d) (halted d₁)) (hbegins : Begins o d₁ y)
      (hends : Ends crc o clean y z) : Turn crc o clean start (halted d) z

theorem Recovered.mem_wal {w k : ℕ} {d d' : Disk} (h : Recovered w d d') (hk : k ∈ d'.wal) :
    k ∈ d.wal := by
  cases h with
  | kept => exact hk
  | dropped => exact (Disk.mem_wal_erase.1 hk).1
  | setAside => exact (Disk.mem_wal_erase.1 hk).1

theorem Recovered.manifest {w : ℕ} {d d' : Disk} (h : Recovered w d d') :
    d'.manifest = d.manifest := by
  cases h <;> rfl

theorem Recovered.tmp {w : ℕ} {d d' : Disk} (h : Recovered w d d') : d'.tmp = d.tmp := by
  cases h <;> rfl

theorem Recovered.watermark {w : ℕ} {d d' : Disk} (h : Recovered w d d') :
    d'.watermark = d.watermark := by
  rw [Disk.watermark, Disk.watermark, h.manifest]

/-! ## The base invariant -/

/-- The watermark in memory is between the one on disk and the highest id in use, and below the
active segment, whose file is there. -/
structure Sound (x : ℕ × Site) : Prop where
  low : x.2.disk.watermark ≤ x.1
  high : x.1 ≤ x.2.disk.top
  live : ∀ a, x.2.log.state.active = some a → x.1 < a.id ∧ a.id ∈ x.2.disk.wal

section Sound

variable {crc : Bytes → UInt32} {o : Oracle Op} {clean : Prop} {x y z : ℕ × Site}

theorem sound_down (d : Disk) : Sound (halted d) := ⟨le_rfl, Disk.watermark_le_top, nofun⟩

theorem Site.active_eq {s : Site} {a : Active} (ha : s.log.state.active = some a) :
    s.active = a.id := by
  rw [Site.active, ha]
  rfl

theorem Log.Shifts.mem_dir {log log' : Log} (h : log.Shifts log') {k : ℕ} (hk : k ∈ log.dir) :
    k ∈ log'.dir := by
  cases h with
  | idle hbytes => rwa [Log.mem_dir_iff_bytesAt, hbytes, ← Log.mem_dir_iff_bytesAt]
  | works _ hwrites => exact hwrites.mem_dir hk

theorem Move.sound (h : Move crc o clean x y) (hx : Sound x) : Sound y := by
  cases h with
  | @disk w w' s d h =>
    obtain ⟨hlow, hhigh, -⟩ := h.top_eq hx.low hx.high
    refine ⟨hlow, hhigh, fun a ha ↦ ?_⟩
    obtain ⟨hlt, hmem⟩ := hx.live a ha
    have hactive : s.active = a.id := Site.active_eq ha
    rw [hactive] at h
    exact h.live hx.low hlt hmem
  | @log w s act log h =>
    have hmem : ∀ k ∈ s.disk.wal, k ∈ (s.setWal log).disk.wal := fun k ↦ h.shifts.mem_dir
    have htop : s.disk.top ≤ (s.setWal log).disk.top :=
      Disk.top_le (fun k hk ↦ Disk.le_top (hmem k hk)) (le_max_right _ _)
    refine ⟨hx.low, hx.high.trans htop, fun a' ha' ↦ ?_⟩
    cases h.shifts with
    | idle _ hactive =>
      obtain ⟨hlt, ha⟩ := hx.live a' (hactive ▸ ha')
      exact ⟨hlt, hmem _ ha⟩
    | @works a ha _ hfollows =>
      obtain ⟨hlt, hthere⟩ := hx.live a ha
      rcases hfollows a' ha' with heq | ⟨heq, -, hnew⟩
      · exact heq ▸ ⟨hlt, hmem _ hthere⟩
      · refine heq ▸ ⟨Nat.lt_succ_of_lt hlt, Disk.mem_iff_bytesAt.2 ?_⟩
        exact Option.isSome_iff_exists.2 ⟨_, hnew⟩

theorem Begins.sound {d : Disk} (h : Begins o d y) : Sound y := by
  cases h with
  | failed => exact sound_down d
  | interrupted => exact sound_down _
  | created => exact sound_down _
  | opened h =>
    refine ⟨h.watermark.le, h.watermark.symm.trans_le (le_max_right _ _), fun a ha ↦ ?_⟩
    obtain rfl := Option.some.inj ha
    exact ⟨Nat.lt_succ_of_le Disk.watermark_le_top, Std.ExtTreeMap.mem_insert_self⟩

/-! ## The rule for invariants -/

theorem Moves.keeps {I : ℕ × Site → Prop} (h : Moves crc o clean x y)
    (hmove : ∀ x y, Sound x → I x → Move crc o clean x y → I y) (hs : Sound x) (hx : I x) :
    Sound y ∧ I y := by
  induction h with
  | refl => exact ⟨hs, hx⟩
  | tail _ hstep ih => exact ⟨hstep.sound ih.1, hmove _ _ ih.1 ih.2 hstep⟩

theorem Ends.keeps {I : ℕ × Site → Prop} (h : Ends crc o clean x z)
    (hmove : ∀ x y, Sound x → I x → Move crc o clean x y → I y)
    (hstop : ∀ w s log, Sound (w, s) → I (w, s) → Stop s.wal log → I (halted (s.setWal log).disk))
    (hs : Sound x) (hx : I x) : Sound z ∧ I z := by
  obtain ⟨y, hmoves, rfl | ⟨log, hlog, rfl⟩⟩ := h
  · exact hmoves.keeps hmove hs hx
  · obtain ⟨hsound, hI⟩ := hmoves.keeps hmove hs hx
    exact ⟨sound_down _, hstop _ _ log hsound hI hlog⟩

/-- **The rule for an event**: an invariant that moves, crashes and starts keep is kept by it. -/
theorem Turn.keeps {start : Prop} {I : ℕ × Site → Prop} (h : Turn crc o clean start x z)
    (hmove : ∀ x y, Sound x → I x → Move crc o clean x y → I y)
    (hstop : ∀ w s log, Sound (w, s) → I (w, s) → Stop s.wal log → I (halted (s.setWal log).disk))
    (hbegin : start → ∀ d d₁ y, x = halted d → Moves crc o clean (halted d) (halted d₁) →
      I (halted d₁) → Begins o d₁ y → I y) (hs : Sound x) (hx : I x) : Sound z ∧ I z := by
  cases h with
  | runs h => exact h.keeps hmove hstop hs hx
  | starts hstart hmoves hbegins hends =>
    exact hends.keeps hmove hstop hbegins.sound
      (hbegin hstart _ _ _ rfl hmoves (hmoves.keeps hmove hs hx).2 hbegins)

end Sound

/-! ## Programs -/

section Programs

variable {crc : Bytes → UInt32} {o : Oracle Op} {clean : Prop}

theorem Moves.of_effects {w w' : ℕ} {s : Site} {d : Disk}
    (h : Effects crc o clean s.active (w, s.disk) (w', d)) :
    Moves crc o clean (w, s) (w', { s with disk := d }) := by
  have hlift : ∀ {y : ℕ × Disk}, Effects crc o clean s.active (w, s.disk) y →
      Moves crc o clean (w, s) (y.1, { s with disk := y.2 }) := by
    intro y h
    induction h with
    | refl => exact .refl
    | @tail y z _ heffect ih =>
      exact ih.tail (Move.disk (s := { s with disk := y.2 }) (d := z.2) heffect)
  exact hlift h

theorem Ends.of_moves {x y : ℕ × Site} (h : Moves crc o clean x y) : Ends crc o clean x y :=
  ⟨y, h, .inl rfl⟩

theorem Ends.crash {x y : ℕ × Site} (h : Moves crc o clean x y) :
    Ends crc o clean x (halted y.2.disk) := ⟨y, h, .inr ⟨_, .same, rfl⟩⟩

theorem Effects.named {active : ℕ} {x y : ℕ × Disk} (h : Effects crc o clean active x y)
    (hx : x.2.Named) : y.2.Named :=
  h.keeps (I := fun x ↦ x.2.Named) (fun _ _ h ↦ h.named) hx

/-- What is in `tmp/` is covered, unless the last flush failed. -/
def Process.Covers (clean : Prop) (p : Process) (d : Disk) : Prop :=
  clean → p.flushFailures = 0 → ∀ q ∈ d.tmp, Covered p.manifest.lastFlushedSegment q

theorem Process.resweep_triple {p : Process} {d : Disk} (active : ℕ) (hnamed : clean → d.Named)
    (hcovers : p.Covers clean d) (hlist : clean → ¬ Failed o .tmpList) :
    let w := p.manifest.lastFlushedSegment
    Triple o (· = d) p.resweep
      (fun _ d' ↦ Sweeping crc o clean active (w, d) w d' ∧ (clean → ∀ q ∈ d'.tmp, Covered w q))
      (fun _ d' ↦ Sweeping crc o clean active (w, d) w d' ∧ p.Covers clean d')
      (Sweeping crc o clean active (w, d) w) := by
  intro w
  have hstart : ∀ d', d' = d → Sweeping crc o clean active (w, d) w d' := by
    rintro d' rfl
    exact ⟨.refl, rfl, rfl⟩
  unfold Process.resweep
  split_ifs with hfailures
  · refine (sweepUncommitted_triple.pre hstart).conseq (fun _ ↦ id) (fun _ d' hd' ↦ ⟨hd'.1, ?_⟩)
      (fun _ d' hd' ↦ ⟨hd', fun _ hzero ↦ ?_⟩) fun _ ↦ id
    · intro hc q hq
      exact absurd (hd'.1.reached.named (hnamed hc) q hq) (hd'.2 (hlist hc) q hq)
    · rw [hzero] at hfailures
      exact absurd hfailures (lt_irrefl 0)
  · refine .ret ?_
    rintro d' rfl
    exact ⟨hstart d' rfl, fun hc ↦ hcovers hc (Nat.eq_zero_of_not_pos hfailures)⟩

private theorem reading_pending {s : Site} {w : ℕ} {a : Active} (ha : a.id ∈ s.disk.wal) :
    Reading a.id w [] (canon (fun n : ℕ ↦ n) (fun n ↦ n)
      (s.disk.wal.keys.filter fun id ↦ id < a.id ∧ w < id)) s.disk := by
  -- the segments a flush is given: all between the watermark and the active one
  have hsorted : (s.disk.wal.keys.filter fun id ↦ id < a.id ∧ w < id).Pairwise (· < ·) :=
    s.disk.sorted_keys.sublist List.filter_sublist
  have hmem : ∀ {id}, (id ∈ s.disk.wal.keys.filter fun id ↦ id < a.id ∧ w < id) ↔
      id ∈ s.disk.wal ∧ id < a.id ∧ w < id := by
    intro id
    rw [List.mem_filter, Std.ExtTreeMap.mem_keys, decide_eq_true_iff]
  rw [canon_eq_self hsorted]
  refine ⟨hsorted, fun id hid ↦ (hmem.1 hid).2.2, by simp, fun id hid hw ↦ ?_,
    fun id hid ↦ (hmem.1 hid).2.1, ha⟩
  by_cases hlt : id < a.id
  · exact .inl (hmem.2 ⟨hid, hlt, hw⟩)
  · exact .inr fun j hj ↦ (hmem.1 hj).2.1.trans_le (not_lt.1 hlt)

/-- **A flush** is a sequence of moves. -/
theorem Process.flush_triple (crc : Bytes → UInt32) {p : Process} {s : Site} (now : ℕ)
    (hsound : Sound (p.manifest.lastFlushedSegment, s)) (hnamed : clean → s.disk.Named)
    (hcovers : p.Covers clean s.disk) (hlist : clean → ¬ Failed o .tmpList) :
    let x := (p.manifest.lastFlushedSegment, s)
    Triple o (· = s) (p.flush crc now)
      (fun r s' ↦ Moves crc o clean x (r.1.manifest.lastFlushedSegment, s') ∧
        r.1.Covers clean s'.disk)
      (fun _ s' ↦ Moves crc o clean x (p.manifest.lastFlushedSegment, s') ∧ p.Covers clean s'.disk)
      (fun s' ↦ Ends crc o clean x (halted s'.disk)) := by
  intro x
  -- the writer seals its segment, and is not touched again
  refine .bind (Q := fun _ s₁ ↦ Move crc o clean x (p.manifest.lastFlushedSegment, s₁) ∧
      (∃ a, s₁.log.state.active = some a) ∧ s₁.disk.tmp = s.disk.tmp)
    (.zoom fun s' hs' ↦ ?_) fun _ ↦ .intro ?_
  · subst hs'
    refine sealSegment_change.conseq (fun _ ↦ id) (fun _ log h ↦ ?_) (fun _ log h ↦ ?_)
      fun log h ↦ ?_
    · exact ⟨.log h.1, h.2, rfl⟩
    · exact ⟨.single (.log h), hcovers⟩
    · exact ⟨x, .refl, .inr ⟨log, h, rfl⟩⟩
  rintro s₁ ⟨hmove, ⟨a, ha⟩, htmp⟩
  have hmoves : Moves crc o clean x (p.manifest.lastFlushedSegment, s₁) := .single hmove
  have hsound₁ := hmove.sound hsound
  have hactive : s₁.active = a.id := Site.active_eq ha
  have hcovers₁ : p.Covers clean s₁.disk := fun hc hzero q hq ↦ hcovers hc hzero q (htmp ▸ hq)
  have hnamed₁ : clean → s₁.disk.Named := fun hc q hq ↦ hnamed hc q (htmp ▸ hq)
  refine .bind (Q := fun pending s' ↦ s' = s₁ ∧ pending = s₁.disk.wal.keys) (.zoom fun s' hs' ↦ ?_)
    fun pending ↦ .intro ?_
  · subst hs'
    refine Io.read_triple (fun d ids hd hread ↦ ?_) (fun d e hd hread ↦ nomatch hread)
      (fun d _ _ hd _ ↦ ?_) fun d _ _ hd _ ↦ ?_
    · subst hd
      exact ⟨rfl, (Except.ok.inj hread).symm⟩
    · subst hd
      exact ⟨hmoves, hcovers₁⟩
    · subst hd
      exact .crash hmoves
  rintro s₁ ⟨rfl, rfl⟩
  refine .look_bind ?_
  -- from here on only the directory changes
  have hdisk : ∀ {w' : ℕ} {d : Disk}, Effects crc o clean a.id
      (p.manifest.lastFlushedSegment, s₁.disk) (w', d) →
      Moves crc o clean x (w', { s₁ with disk := d }) := fun h ↦
    hmoves.trans (Moves.of_effects (hactive.symm ▸ h))
  refine .bind (Q := fun _ s' ↦ ∃ d, s' = { s₁ with disk := d } ∧
      Sweeping crc o clean a.id (p.manifest.lastFlushedSegment, s₁.disk)
        p.manifest.lastFlushedSegment d ∧
      (clean → ∀ q ∈ d.tmp, Covered p.manifest.lastFlushedSegment q)) (.zoom fun s' hs' ↦ ?_)
    fun _ ↦ .intro ?_
  · subst hs'
    refine (Process.resweep_triple a.id hnamed₁ hcovers₁ hlist).conseq (fun _ ↦ id)
      (fun _ d hd ↦ ⟨d, rfl, hd⟩) (fun _ d hd ↦ ?_) fun d hd ↦ ?_
    · exact ⟨hdisk hd.1.reached, hd.2⟩
    · exact .crash (hdisk hd.reached)
  rintro _ ⟨d₂, rfl, hsweep, hcovered⟩
  rw [hactive]
  refine .bind (Q := fun r s' ↦ Moves crc o clean x (r.1.lastFlushedSegment, s') ∧
      (r.2.isOk = true → clean → ∀ q ∈ s'.disk.tmp, Covered r.1.lastFlushedSegment q))
    (.zoom fun s' hs' ↦ ?_) fun r ↦ .ret fun s' hs' ↦ ⟨hs'.1, fun hc hzero ↦ ?_⟩
  · subst hs'
    have hread := (reading_pending (w := p.manifest.lastFlushedSegment)
      (hsound₁.live a ha).2).of_wal hsweep.wal
    refine (run_triple rfl now _).conseq ?_ (fun r d hd ↦ ⟨hdisk hd.1, hd.2⟩)
      (fun _ _ ↦ False.elim) ?_
    · rintro d rfl
      exact ⟨hsweep.reached, hcovered, hread⟩
    · rintro d ⟨w', hd⟩
      exact .crash (hdisk hd)
  · refine hs'.2 ?_ hc
    by_contra hnot
    simp only [Process.flushed, hnot] at hzero
    cases hzero

theorem Moves.of_down {d d' : Disk} {w : ℕ} (h : Effects crc o clean 0 (w, d) (w, d'))
    (hw : d.watermark = w) (hw' : d'.watermark = w) : Moves crc o clean (halted d) (halted d') := by
  rw [halted, halted, hw, hw']
  exact Moves.of_effects (s := ⟨d, {}⟩) h

theorem Effects.top_eq {active : ℕ} {x y : ℕ × Disk} (h : Effects crc o clean active x y)
    (hlow : x.2.watermark ≤ x.1) (hhigh : x.1 ≤ x.2.top) : y.2.top = x.2.top := by
  refine (h.keeps (I := fun y ↦ y.2.watermark ≤ y.1 ∧ y.1 ≤ y.2.top ∧ y.2.top = x.2.top) ?_
    ⟨hlow, hhigh, rfl⟩).2.2
  rintro ⟨w, d⟩ ⟨w', d'⟩ heffect ⟨hlow, hhigh, htop⟩
  obtain ⟨hlow', hhigh', htop'⟩ := heffect.top_eq hlow hhigh
  exact ⟨hlow', hhigh', htop'.trans htop⟩

/-- What a start has done when recovery comes to the tail. -/
structure Arrives (crc : Bytes → UInt32) (o : Oracle Op) (clean : Prop) (d d₁ : Disk) : Prop where
  moves : Moves crc o clean (halted d) (halted d₁)
  watermark : d₁.watermark = d.watermark
  swept : Swept o d₁

/-- How a start fails before the writer is opened. -/
def StartFails (crc : Bytes → UInt32) (o : Oracle Op) (clean : Prop) (d d' : Disk) : Prop :=
  ∃ d₁, Moves crc o clean (halted d) (halted d₁) ∧ Begins o d₁ (halted d')

theorem StartFails.of_moves {d d' : Disk} (h : Moves crc o clean (halted d) (halted d')) :
    StartFails crc o clean d d' := ⟨d', h, .failed⟩

/-- What a start hands to the writer: the manifest and the next id. -/
def ReadyToOpen (crc : Bytes → UInt32) (o : Oracle Op) (clean : Prop) (d : Disk)
    (r : Manifest × Recovery) (d' : Disk) : Prop :=
  r.1.lastFlushedSegment = d.watermark ∧ ∃ d₁, Arrives crc o clean d d₁ ∧
    Recovered d₁.watermark d₁ d' ∧ r.2.nextSegment = d₁.top + 1

theorem StartFails.after {d d₁ d' : Disk} (hmoves : Moves crc o clean (halted d) (halted d₁))
    (h : StartFails crc o clean d₁ d') : StartFails crc o clean d d' := by
  obtain ⟨d₂, hmoves₂, hbegins⟩ := h
  exact ⟨d₂, hmoves.trans hmoves₂, hbegins⟩

theorem ReadyToOpen.after {d d₁ d' : Disk} {r : Manifest × Recovery}
    (hmoves : Moves crc o clean (halted d) (halted d₁)) (hw : d₁.watermark = d.watermark)
    (h : ReadyToOpen crc o clean d₁ r d') : ReadyToOpen crc o clean d r d' := by
  obtain ⟨hm, d₂, harrives, hrecovered, hnext⟩ := h
  exact ⟨hm.trans hw, d₂,
    ⟨hmoves.trans harrives.moves, harrives.watermark.trans hw, harrives.swept⟩, hrecovered, hnext⟩

/-- The sweep and recovery. -/
theorem sweepRecover_triple {d : Disk} (m : Manifest) (hm : m.lastFlushedSegment = d.watermark) :
    Triple o (· = d) (do
        sweepUncommitted m.lastFlushedSegment
        let found ← recover crc m.lastFlushedSegment
        return (m, found) : Io (Manifest × Recovery))
      (ReadyToOpen crc o clean d) (fun _ ↦ StartFails crc o clean d)
        (StartFails crc o clean d) := by
  rw [hm]
  have hwatermark : ∀ d', Sweeping crc o clean 0 (d.watermark, d) d.watermark d' →
      d'.watermark = d.watermark := fun d' hd' ↦ by
    rw [Disk.watermark, hd'.manifest]
    rfl
  have hsweep : ∀ d', Sweeping crc o clean 0 (d.watermark, d) d.watermark d' →
      Moves crc o clean (halted d) (halted d') := fun d' hd' ↦
    Moves.of_down hd'.reached rfl (hwatermark d' hd')
  refine .bind ((sweepUncommitted_triple.pre ?_).exits (fun _ d' hd' ↦ .of_moves (hsweep d' hd'))
    fun d' hd' ↦ .of_moves (hsweep d' hd')) fun _ ↦ .intro ?_
  · rintro d' rfl
    exact ⟨.refl, rfl, rfl⟩
  rintro d₂ ⟨hd₂, hswept⟩
  have hmoves₂ := hsweep d₂ hd₂
  have hw₂ := hwatermark d₂ hd₂
  have hrecovery : ∀ d', RecoveryExit crc o clean 0 (d.watermark, d₂) d.watermark d' →
      StartFails crc o clean d d' := by
    rintro d' ⟨d₃, hd₃, hd'⟩
    have hmoves₃ := hmoves₂.trans (Moves.of_down hd₃.reached hw₂ hd₃.watermark)
    rcases hd' with rfl | ⟨hrecovered, hsync⟩
    · exact .of_moves hmoves₃
    · exact ⟨d₃, hmoves₃, .interrupted (hd₃.watermark.symm ▸ hrecovered) (.inl hsync)⟩
  have hstart : ∀ d', d' = d₂ → Settled crc o clean 0 (d.watermark, d₂) d.watermark d' ∧
      d'.wal = d₂.wal := by
    rintro d' rfl
    exact ⟨⟨.refl, hw₂, rfl⟩, rfl⟩
  refine .bind ((recover_effects.pre hstart).exits (fun _ ↦ hrecovery) hrecovery) fun r ↦ .ret ?_
  rintro d' ⟨hnext, d₃, hd₃, hrecovered⟩
  have htop : d₃.top = d₂.top := hd₃.reached.top_eq hw₂.le (hw₂.symm.trans_le Disk.watermark_le_top)
  refine ⟨hm, d₃, ⟨hmoves₂.trans (Moves.of_down hd₃.reached hw₂ hd₃.watermark), hd₃.watermark, ?_⟩,
    hd₃.watermark.symm ▸ hrecovered, ?_⟩
  · exact fun hnot p hp ↦ hswept hnot p (hd₃.tmp ▸ hp)
  · rw [hnext, htop, Disk.top, hw₂]

theorem prepareOpen_triple (lower : String → String) (config : Config) (d : Disk) :
    Triple o (· = d) (prepareOpen crc lower config) (ReadyToOpen crc o clean d)
      (fun _ ↦ StartFails crc o clean d) (StartFails crc o clean d) := by
  refine .bind (Q := fun _ d' ↦ d' = d) (.ofExcept (fun _ _ _ hd ↦ hd) ?_) fun _ ↦ ?_
  · rintro e - d' rfl
    exact .of_moves .refl
  have hmanifest : ∀ d', Settled crc o clean 0 (d.watermark, d) d.watermark d' →
      Moves crc o clean (halted d) (halted d') := fun d' hd' ↦
        .of_down hd'.reached rfl hd'.watermark
  refine .bind (((openManifest_triple config).pre ?_).exits
    (fun _ d' hd' ↦ .of_moves (hmanifest d' hd'))
    fun d' hd' ↦ .of_moves (hmanifest d' hd')) fun m ↦ .intro ?_
  · rintro d' rfl
    exact ⟨.refl, rfl, rfl⟩
  rintro d₁ ⟨hd₁, hm⟩
  have hmoves := hmanifest d₁ hd₁
  exact (sweepRecover_triple m (hm.trans hd₁.watermark.symm)).conseq (fun _ ↦ id)
    (fun _ _ ↦ .after hmoves hd₁.watermark) (fun _ _ ↦ .after hmoves) fun _ ↦ .after hmoves

theorem Move.named {x y : ℕ × Site} (h : Move crc o clean x y) (hx : x.2.disk.Named) :
    y.2.disk.Named := by
  cases h with
  | disk h => exact h.named hx
  | log => exact hx

theorem Moves.named {x y : ℕ × Site} (h : Moves crc o clean x y) (hs : Sound x)
    (hx : x.2.disk.Named) : y.2.disk.Named :=
  (h.keeps (I := fun x ↦ x.2.disk.Named) (fun _ _ _ hx h ↦ h.named hx) hs hx).2

/-- A start that has opened the writer, and how it went on. -/
structure Opens (crc : Bytes → UInt32) (o : Oracle Op) (clean : Prop) (d d₁ d' : Disk)
    (y : ℕ × Site) : Prop where
  arrives : Arrives crc o clean d d₁
  recovered : Recovered d₁.watermark d₁ d'
  moves : Moves crc o clean (d₁.watermark, .opened (d₁.top + 1) d') y

theorem Opens.turn {d d₁ d' : Disk} {y : ℕ × Site} (h : Opens crc o clean d d₁ d' y) :
    Turn crc o clean True (halted d) y :=
  .starts trivial h.arrives.moves (.opened h.recovered) (.of_moves h.moves)

theorem Opens.turn_down {d d₁ d' : Disk} {w : ℕ} {s : Site} (h : Opens crc o clean d d₁ d' (w, s)) :
    Turn crc o clean True (halted d) (halted s.disk) :=
  .starts trivial h.arrives.moves (.opened h.recovered) (.crash h.moves)

theorem Recovered.top_lt {d d' : Disk} (h : Recovered d.watermark d d') :
    d.top + 1 ∉ d'.wal := fun hmem ↦
  absurd (Disk.le_top (h.mem_wal hmem)) (Nat.not_succ_le_self _)

theorem StartFails.turn {d d' : Disk} (h : StartFails crc o clean d d') :
    Turn crc o clean True (halted d) (halted d') := by
  obtain ⟨d₁, hmoves, hbegins⟩ := h
  exact .starts trivial hmoves hbegins (.of_moves .refl)

/-- A start has opened the engine. -/
def Running (crc : Bytes → UInt32) (o : Oracle Op) (clean : Prop) (d : Disk) (p : Process)
    (s : Site) : Prop :=
  (∃ d₁ d', Opens crc o clean d d₁ d' (p.manifest.lastFlushedSegment, s)) ∧ p.Covers clean s.disk

/-- The writer, and the flush at startup. -/
theorem openWriter_flush_triple (config : Config) (now : ℕ) {d d' : Disk} {m : Manifest}
    {found : Recovery} (hnamed : clean → d.Named) (hlist : clean → ¬ Failed o .tmpList)
    (hprepared : ReadyToOpen crc o clean d (m, found) d') :
    Triple o (· = ⟨d', {}⟩) (do
        onLog (openWriter found.nextSegment)
        let engine ← Prog.ofExcept (Engine.new config m)
        let p : Process := { engine, manifest := m }
        if config.flush.onStartup ∧ found.pending ≠ [] ∧ p.flushOverdue now then
          p.startupFlush crc now
        else
          return p : SiteIo Process)
      (Running crc o clean d) (fun _ s ↦ Turn crc o clean True (halted d) (halted s.disk))
      (fun s ↦ Turn crc o clean True (halted d) (halted s.disk)) := by
  obtain ⟨hm, d₁, harrives, hrecovered, hnext⟩ := hprepared
  refine .bind (Q := fun _ s ↦ s = .opened (d₁.top + 1) d') (.zoom fun s hs ↦ ?_) fun _ ↦ ?_
  · subst hs
    have hexits : ∀ log, OpenExit o found.nextSegment (Site.wal ⟨d', {}⟩) log →
        Turn crc o clean True (halted d) (halted (Site.setWal log ⟨d', {}⟩).disk) := by
      rw [hnext]
      rintro log (⟨rfl, hopen | hmem⟩ | ⟨n, k, rfl⟩)
      · exact StartFails.turn ⟨d₁, harrives.moves, .interrupted hrecovered (.inr hopen)⟩
      · exact absurd hmem hrecovered.top_lt
      · exact StartFails.turn ⟨d₁, harrives.moves, .created hrecovered⟩
    refine (openWriter_triple found.nextSegment).conseq (fun _ ↦ id) ?_ (fun _ ↦ hexits) hexits
    rintro _ log rfl
    rw [hnext]
    simp [Site.setWal, Site.wal, Site.opened, Log.newFile, Log.setActive, Disk.withSegment]
  have hopens : ∀ {w' : ℕ} {s' : Site}, Moves crc o clean (m.lastFlushedSegment,
      .opened (d₁.top + 1) d') (w', s') → Opens crc o clean d d₁ d' (w', s') := fun hmoves ↦
    ⟨harrives, hrecovered, harrives.watermark.symm ▸ hm ▸ hmoves⟩
  have hnamed₁ : clean → d'.Named := fun hc q hq ↦
    harrives.moves.named (sound_down d) (hnamed hc) q (hrecovered.tmp ▸ hq)
  -- the sweep has left no file of the current layout, and there are no others
  have hcovers : ∀ engine, Process.Covers clean { engine, manifest := m } d' := fun _ hc _ q hq ↦
    absurd (hnamed₁ hc q hq) (harrives.swept (hlist hc) q (hrecovered.tmp ▸ hq))
  refine .bind (Q := fun _ s ↦ s = .opened (d₁.top + 1) d') (.ofExcept (fun _ _ _ hs ↦ hs) ?_)
    fun engine ↦ ?_
  · rintro e - s rfl
    exact (hopens .refl).turn_down
  dsimp only
  split_ifs
  · have hsound : Sound (m.lastFlushedSegment, .opened (d₁.top + 1) d') := by
      rw [hm, ← harrives.watermark]
      exact (Begins.opened (o := o) hrecovered).sound
    refine .attempt_bind (Q := fun r s ↦ Running crc o clean d r.1 s)
      (E := fun _ s ↦ Running crc o clean d { engine, manifest := m } s)
      ((Process.flush_triple crc now hsound hnamed₁ (hcovers engine) hlist).conseq (fun _ ↦ id)
        (fun r s hs ↦ ⟨⟨d₁, d', hopens hs.1⟩, hs.2⟩)
        (fun _ s hs ↦ ⟨⟨d₁, d', hopens hs.1⟩, hs.2⟩) fun s hs ↦ ?_)
      (fun r ↦ .ret fun _ hs ↦ hs) fun e ↦ .ret fun _ hs ↦ hs
    refine .starts trivial harrives.moves (.opened hrecovered) ?_
    rw [harrives.watermark, ← hm]
    exact hs
  · refine .ret ?_
    rintro s rfl
    exact ⟨⟨d₁, d', hopens .refl⟩, hcovers engine⟩

/-- **A start** is a sequence of steps. -/
theorem openEngine_triple (crc : Bytes → UInt32) (lower : String → String)
    (config : Config) (now : ℕ) {d : Disk}
    (hnamed : clean → d.Named) (hlist : clean → ¬ Failed o .tmpList) :
    Triple o (· = ⟨d, {}⟩) (openEngine crc lower config now) (Running crc o clean d)
      (fun _ s ↦ Turn crc o clean True (halted d) (halted s.disk))
      (fun s ↦ Turn crc o clean True (halted d) (halted s.disk)) := by
  refine .bind (Q := fun r s ↦ s.log = {} ∧ ReadyToOpen crc o clean d r s.disk)
    (.zoom fun s hs ↦ ?_) fun r ↦ .intro ?_
  · subst hs
    exact (prepareOpen_triple lower config d).conseq (fun _ ↦ id) (fun _ _ hd' ↦ ⟨rfl, hd'⟩)
      (fun _ _ h ↦ h.turn) fun _ h ↦ h.turn
  rintro ⟨d', log⟩ ⟨rfl, hprepared⟩
  exact openWriter_flush_triple config now hnamed hlist hprepared

end Programs

/-! ## Events -/

/-- The watermark that counts: that in memory, or without a process the one on disk. -/
def Node.watermark (n : Node) : ℕ :=
  match n.process with
  | some p => p.manifest.lastFlushedSegment
  | none => n.site.disk.watermark

/-- A node as the steps see it. -/
def Node.view (n : Node) : ℕ × Site := (n.watermark, n.site)

/-- What the steps do not see: without a process there is no writer, and what the last flush left in
`tmp/`. -/
structure Node.Tidy (clean : Prop) (n : Node) : Prop where
  halted : n.process = none → n.site.log = {}
  named : clean → n.site.disk.Named
  covers : ∀ p, n.process = some p → p.Covers clean n.site.disk

section Nodes

variable {crc : Bytes → UInt32} {lower : String → String} {o : Oracle Op} {clean : Prop} {n : Node}

theorem Turn.named {start : Prop} {x z : ℕ × Site} (h : Turn crc o clean start x z) (hs : Sound x)
    (hx : x.2.disk.Named) : z.2.disk.Named := by
  refine (h.keeps (I := fun x ↦ x.2.disk.Named) (fun _ _ _ hx h ↦ h.named hx)
    (fun _ _ _ _ hx _ ↦ hx) (fun _ d d₁ y _ _ hd₁ hbegins ↦ ?_) hs hx).2
  cases hbegins with
  | failed => exact hd₁
  | interrupted h => exact fun q hq ↦ hd₁ q (h.tmp ▸ hq)
  | created h => exact fun q hq ↦ hd₁ q (h.tmp ▸ hq)
  | opened h => exact fun q hq ↦ hd₁ q (h.tmp ▸ hq)

/-- The node after a program, by how it ends. -/
theorem Node.settle_of_triple {R : Node → Prop} {prog : SiteIo Process} {s : Site}
    {old : Option Process} {Q : Process → Site → Prop} {E : Error → Site → Prop} {C : Site → Prop}
    (h : Triple o (· = s) prog Q E C) (hQ : ∀ p s', Q p s' → R ⟨s', some p⟩)
    (hE : ∀ e s', E e s' → R (match old with | some p => ⟨s', some p⟩ | none => .down s'.disk))
    (hC : ∀ s', C s' → R (.down s'.disk)) : R (.settle old (prog o ⟨s, 0⟩)) := by
  have hmeets := h ⟨s, 0⟩ rfl
  generalize prog o ⟨s, 0⟩ = r at hmeets ⊢
  rcases r with ⟨p | e | _, w⟩
  · exact hQ p _ hmeets
  · cases old with
    | none => exact hE e _ hmeets
    | some p => exact hE e _ hmeets
  · exact hC _ hmeets.2

theorem Node.tidy_down {d : Disk} (hd : clean → d.Named) : (Node.down d).Tidy clean :=
  ⟨fun _ ↦ rfl, hd, nofun⟩

/-- A node without a process is its directory. -/
theorem Node.view_of_none (hnone : n.process = none) (htidy : n.Tidy clean) :
    n.view = halted n.site.disk := by
  obtain ⟨⟨d, log⟩, process⟩ := n
  obtain rfl : process = none := hnone
  obtain rfl : log = {} := htidy.halted rfl
  rfl

/-- The event is a start of an engine on the directory. -/
def Event.Starts (e : Event) (n : Node) : Prop :=
  n.process = none ∧ ∃ config now, e = .start config now

theorem Turn.of_start {start : Prop} {x z : ℕ × Site} (h : Turn crc o clean True x z)
    (hstart : start) : Turn crc o clean start x z := by
  cases h with
  | runs h => exact .runs h
  | starts _ hmoves hbegins hends => exact .starts hstart hmoves hbegins hends

/-- **An event** is a sequence of steps, whatever its oracle. -/
theorem Node.after_turn (crc : Bytes → UInt32) (lower : String → String) (e : Event)
    (hsound : Sound n.view) (htidy : n.Tidy clean)
    (hlist : clean → ¬ Failed o .tmpList) :
    Turn crc o clean (e.Starts n) n.view (n.after crc lower o e).view ∧
      (n.after crc lower o e).Tidy clean := by
  -- what remains to be shown of a node reached
  have hup : ∀ {p : Process} {s : Site},
      Turn crc o clean (e.Starts n) n.view (p.manifest.lastFlushedSegment, s) →
      p.Covers clean s.disk → Turn crc o clean (e.Starts n) n.view (Node.mk s (some p)).view ∧
        (Node.mk s (some p)).Tidy clean := by
    refine fun {p s} h hcovers ↦ ⟨h, nofun, fun hc ↦ h.named hsound (htidy.named hc), ?_⟩
    intro p' hp'
    obtain rfl := Option.some.inj hp'
    exact hcovers
  have hdown : ∀ {d : Disk}, Turn crc o clean (e.Starts n) n.view (halted d) →
      Turn crc o clean (e.Starts n) n.view (Node.down d).view ∧ (Node.down d).Tidy clean := fun h ↦
    ⟨h, Node.tidy_down fun hc ↦ h.named hsound (htidy.named hc)⟩
  have hsame : Turn crc o clean (e.Starts n) n.view n.view ∧ n.Tidy clean :=
    ⟨.runs (.of_moves .refl), htidy⟩
  have hkill : Turn crc o clean (e.Starts n) n.view (Node.down n.site.disk).view ∧
      (Node.down n.site.disk).Tidy clean := hdown (.runs (.crash (y := n.view) .refl))
  unfold Node.after
  cases hprocess : n.process with
  | none =>
    have hview := Node.view_of_none hprocess htidy
    cases e with
    | start config now =>
      have hstarts : (Event.start config now).Starts n := ⟨hprocess, config, now, rfl⟩
      have hsite : n.site = ⟨n.site.disk, {}⟩ := congrArg Prod.snd hview
      have htriple := openEngine_triple crc lower config now htidy.named hlist
      rw [← hsite] at htriple
      refine Node.settle_of_triple (R := fun n' ↦ Turn crc o clean _ n.view n'.view ∧ n'.Tidy clean)
        htriple ?_ ?_ ?_
      · rintro p s ⟨⟨d₁, d', hopens⟩, hcovers⟩
        exact hup (hview ▸ hopens.turn.of_start hstarts) hcovers
      · exact fun _ s h ↦ hdown (hview ▸ h.of_start hstarts)
      · exact fun s h ↦ hdown (hview ▸ h.of_start hstarts)
    | wal act => exact hsame
    | flush now => exact hsame
    | kill => exact hkill
  | some p =>
    have hw : n.watermark = p.manifest.lastFlushedSegment := by rw [Node.watermark, hprocess]
    have hview : n.view = (p.manifest.lastFlushedSegment, n.site) := by rw [Node.view, hw]
    cases e with
    | start config now => exact hsame
    | wal act =>
      have htriple : Triple o (· = n.site) (do
            let committer ← onLog (act.program p.engine.config.walLimits p.committer)
            return { p with committer } : SiteIo Process)
          (fun p' s ↦ p'.manifest = p.manifest ∧ p'.flushFailures = p.flushFailures ∧
            ∃ log, Change o act n.site.wal log ∧ s = n.site.setWal log)
          (fun _ s ↦ ∃ log, Change o act n.site.wal log ∧ s = n.site.setWal log)
          (fun s ↦ ∃ log, Stop n.site.wal log ∧ s = n.site.setWal log) := by
        refine .bind (Q := fun _ s ↦ ∃ log, Change o act n.site.wal log ∧ s = n.site.setWal log)
          (.zoom fun s hs ↦ ?_) fun c ↦ .ret fun s hs ↦ ⟨rfl, rfl, hs⟩
        subst hs
        exact act.program_triple.conseq (fun _ ↦ id) (fun _ log h ↦ ⟨log, h, rfl⟩)
          (fun _ log h ↦ ⟨log, h, rfl⟩) fun log h ↦ ⟨log, h, rfl⟩
      have hchange : ∀ {log : Log}, Change o act n.site.wal log →
          Turn crc o clean ((Event.wal act).Starts n) n.view
            (p.manifest.lastFlushedSegment, n.site.setWal log) := fun h ↦
        hview ▸ .runs (.of_moves (.single (.log h)))
      refine Node.settle_of_triple (R := fun n' ↦ Turn crc o clean _ n.view n'.view ∧ n'.Tidy clean)
        htriple ?_ ?_ ?_
      · rintro p' s ⟨hmanifest, hfailures, log, hlog, rfl⟩
        refine hup (hmanifest ▸ hchange hlog) fun hc hzero ↦ ?_
        rw [hmanifest]
        exact htidy.covers p hprocess hc (hfailures ▸ hzero)
      · rintro _ s ⟨log, hlog, rfl⟩
        exact hup (hchange hlog) (htidy.covers p hprocess)
      · rintro s ⟨log, hlog, rfl⟩
        exact hdown (.runs ⟨_, .refl, .inr ⟨log, hlog, rfl⟩⟩)
    | flush now =>
      have htriple := Process.flush_triple crc now (hview ▸ hsound) htidy.named
        (htidy.covers p hprocess) hlist
      refine Node.settle_of_triple (R := fun n' ↦ Turn crc o clean _ n.view n'.view ∧ n'.Tidy clean)
        (.bind htriple fun r ↦ .ret fun _ hs ↦ hs) (Q := fun p' s ↦ Moves crc o clean
          (p.manifest.lastFlushedSegment, n.site) (p'.manifest.lastFlushedSegment, s) ∧
            p'.Covers clean s.disk) ?_ ?_ ?_
      · exact fun p' s hs ↦ hup (hview ▸ .runs (.of_moves hs.1)) hs.2
      · exact fun _ s hs ↦ hup (hview ▸ .runs (.of_moves hs.1)) hs.2
      · exact fun s hs ↦ hdown (hview ▸ .runs hs)
    | kill => exact hkill

/-- **The rule for runs**: an invariant of the steps that every event keeps holds in every node
reached, and so does the base invariant. -/
theorem Node.Reaches.keeps (clean : Prop) {I : ℕ × Site → Prop}
    {allowed : Node → Oracle Op → Event → Prop}
    {n₀ : Node} (h : Node.Reaches crc lower allowed n₀ n)
    (hlist : ∀ n o e, allowed n o e → clean → ¬ Failed o .tmpList)
    (hturn : ∀ n o e, allowed n o e → Sound n.view → n.Tidy clean → I n.view →
      Turn crc o clean (e.Starts n) n.view (n.after crc lower o e).view →
      I (n.after crc lower o e).view)
    (hs : Sound n₀.view) (ht : n₀.Tidy clean) (hI : I n₀.view) :
    Sound n.view ∧ n.Tidy clean ∧ I n.view := by
  induction h with
  | refl => exact ⟨hs, ht, hI⟩
  | tail _ hnext ih =>
    obtain ⟨o, e, hallowed, rfl⟩ := hnext
    obtain ⟨hsound, htidy, hI⟩ := ih
    obtain ⟨hevent, htidy'⟩ := Node.after_turn crc lower e hsound htidy
      (hlist _ o e hallowed)
    refine ⟨?_, htidy', hturn _ o e hallowed hsound htidy hI hevent⟩
    exact (hevent.keeps (I := fun _ ↦ True) (fun _ _ _ _ _ ↦ trivial) (fun _ _ _ _ _ _ ↦ trivial)
      (fun _ _ _ _ _ _ _ _ ↦ trivial) hsound trivial).1

end Nodes

end Orc
