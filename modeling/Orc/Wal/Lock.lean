import Mathlib.Data.List.DropRight
import Orc.Bytes.Basic
import Orc.Bytes.Text
import Orc.Machine.Run

/-!
# The lock on a data directory

The lock is a file that names its owner by pid and is rewritten as a heartbeat. A lock whose last
heartbeat is old may be taken over, and one that was taken over is to be left alone by the process
that lost it: dropping a lock removes the file only if it still names the process.

A heartbeat does not look whom the file names. So the first heartbeat of a process after its lock
was taken over makes the file its own again, and dropping the lock then removes the lock of another
(`lost_lock_removed`). Where no such heartbeat is made, and only there, a lost lock is left alone
(`lock_left_alone_iff`).
-/

namespace Orc

open Bytes Text

/-- The id of a process. -/
abbrev Pid := UInt32

/-- A lock whose mtime is older than this is abandoned. -/
def lockStaleMs : ℕ := 10000

/-! ## The file -/

/-- The lock file: its text, and the time of its last change in milliseconds. -/
structure LockFile where
  text : List Char
  mtime : ℕ
  deriving DecidableEq, Repr

/-- White space, as `str::trim` sees it. -/
def isSpace (c : Char) : Bool :=
  (9 ≤ c.toNat && c.toNat ≤ 13) || c.toNat = 32 || c.toNat = 0x85 || c.toNat = 0xa0 ||
    c.toNat = 0x1680 || (0x2000 ≤ c.toNat && c.toNat ≤ 0x200a) || c.toNat = 0x2028 ||
    c.toNat = 0x2029 || c.toNat = 0x202f || c.toNat = 0x205f || c.toNat = 0x3000

def trim (cs : List Char) : List Char := (cs.dropWhile isSpace).rdropWhile isSpace

/-- Without the sign that may stand in front of a number. -/
def unsigned : List Char → List Char
  | '+' :: cs => cs
  | cs => cs

/-- A `u32` in decimal. -/
def parseU32 (cs : List Char) : Option UInt32 := do
  let n ← parseDec (unsigned cs)
  if n < 2 ^ 32 then some (UInt32.ofNat n) else none

/-- What `write_pid` puts into an empty file. -/
def pidText (pid : Pid) : List Char := pad 0 pid.toNat ++ ['\n']

/-- The pid a lock file names, if it is readable. -/
def readPid (file : Option LockFile) : Option Pid := do
  let f ← file
  parseU32 (trim f.text)

/-- The last heartbeat is long ago; a time in the future counts as fresh. -/
def LockFile.stale (f : LockFile) (now : ℕ) : Bool := f.mtime ≤ now && lockStaleMs ≤ now - f.mtime

private theorem isSpace_of_isDigit {c : Char} (h : c.isDigit = true) : isSpace c = false := by
  have hlo : 48 ≤ c.toNat := by
    simp only [Char.isDigit, Bool.and_eq_true, decide_eq_true_eq] at h
    exact h.1
  have hhi : c.toNat ≤ 57 := by
    simp only [Char.isDigit, Bool.and_eq_true, decide_eq_true_eq] at h
    exact h.2
  simp only [isSpace, Bool.or_eq_false_iff, Bool.and_eq_false_iff, decide_eq_false_iff_not]
  omega

private theorem trim_pidText (pid : Pid) : trim (pidText pid) = pad 0 pid.toNat := by
  have hdigit : ∀ c ∈ pad 0 pid.toNat, isSpace c = false := fun c hc ↦
    isSpace_of_isDigit (isDigit_of_mem_pad hc)
  obtain ⟨d, ds, hd⟩ := List.exists_cons_of_ne_nil (pad_ne_nil 0 pid.toNat)
  have hfront : (pidText pid).dropWhile isSpace = pidText pid := by
    rw [pidText, hd, List.cons_append,
      List.dropWhile_cons_of_neg (by simp [hdigit d (hd ▸ List.mem_cons_self)])]
  rw [trim, hfront, pidText, List.rdropWhile_concat_pos _ _ _ (by decide),
    List.rdropWhile_eq_self_iff]
  intro hne
  rw [hdigit _ (List.getLast_mem hne)]
  exact Bool.false_ne_true

private theorem unsigned_pad (n : ℕ) : unsigned (pad 0 n) = pad 0 n := by
  unfold unsigned
  split
  next cs hcs =>
    have hplus : '+' ∈ pad 0 n := hcs ▸ List.mem_cons_self
    cases isDigit_of_mem_pad hplus
  next => rfl

theorem readPid_pidText (pid : Pid) (now : ℕ) : readPid (some ⟨pidText pid, now⟩) = some pid := by
  rw [readPid, Option.bind_eq_bind, Option.bind_some, trim_pidText, parseU32, unsigned_pad,
    parseDec_pad, Option.bind_eq_bind, Option.bind_some, if_pos pid.toNat_lt, UInt32.ofNat_toNat]

/-! ## The calls -/

/-- The directory as far as its lock goes, with the processes whose `DirLock` is alive. -/
structure LockDir where
  file : Option LockFile := none
  /-- The last to acquire it comes first. -/
  holding : List Pid := []
  /-- The process that acquired the lock last, until it drops it. -/
  owner : Option Pid := none
  deriving DecidableEq

namespace LockDir

/-- The lock is the process's, with this file. -/
def take (s : LockDir) (pid : Pid) (now : ℕ) : LockDir :=
  { file := some ⟨pidText pid, now⟩, holding := pid :: s.holding, owner := some pid }

/-- `DirLock::acquire`, and whether it succeeded. -/
def acquire (s : LockDir) (pid : Pid) (force : Bool) (now : ℕ) : Bool × LockDir :=
  match s.file with
  | none => (true, s.take pid now)
  | some f =>
    if !f.stale now && !force then
      (false, s)
    -- the pid is read back
    else if readPid (some ⟨pidText pid, now⟩) = some pid then
      (true, s.take pid now)
    else
      (false, { s with file := some ⟨pidText pid, now⟩ })

/-- `touch_lock`: the file is rewritten, if it is there. -/
def heartbeat (s : LockDir) (pid : Pid) (now : ℕ) : LockDir :=
  match s.file with
  | none => s
  | some _ => { s with file := some ⟨pidText pid, now⟩ }

/-- `DirLock::drop`: the file is removed if it still names the process. -/
def drop (s : LockDir) (pid : Pid) : LockDir :=
  { file := if readPid s.file = some pid then none else s.file
    holding := s.holding.filter (· ≠ pid)
    owner := if s.owner = some pid then none else s.owner }

end LockDir

/-- A call of one process. -/
inductive LockCall where
  | acquire (pid : Pid) (force : Bool) (now : ℕ)
  | heartbeat (pid : Pid) (now : ℕ)
  | drop (pid : Pid)
  deriving DecidableEq

/-- One call. A process has one lock at most, and only a process that has it makes heartbeats or
drops it. -/
def LockDir.step (s : LockDir) : LockCall → LockDir
  | .acquire pid force now => if pid ∈ s.holding then s else (s.acquire pid force now).2
  | .heartbeat pid now => if pid ∈ s.holding then s.heartbeat pid now else s
  | .drop pid => if pid ∈ s.holding then s.drop pid else s

/-! ## Lost locks -/

namespace LockDir

/-- A process that lost its lock leaves it alone: if another has acquired it since and has not
dropped it, dropping it does not touch the file. And while the last to acquire the lock has not
dropped it, no other process acquires it, unless it is stale or forced. -/
structure LeftAlone (s : LockDir) : Prop where
  drop : ∀ a ∈ s.holding.tail, (s.step (.drop a)).file = s.file
  acquire : ∀ b, s.owner = some b → ∀ c force now, (s.acquire c force now).1 = true →
    force = true ∨ ∃ f, s.file = some f ∧ f.stale now = true

/-- No heartbeat is made by a process whose lock has been taken over. -/
def OwnHeartbeat (s : LockDir) : LockCall → Prop
  | .heartbeat a _ => a ∈ s.holding → ∀ b, s.owner = some b → a = b
  | _ => True

/-- The file names the owner, and is gone once the owner has dropped the lock. -/
structure Named (s : LockDir) : Prop where
  nodup : s.holding.Nodup
  owned : ∀ b, s.owner = some b →
    s.holding.head? = some b ∧ s.file.isSome ∧ readPid s.file = some b
  free : s.owner = none → s.holding = [] ∨ s.file = none

/-- Since the pid read back is the pid written, a lock that is there is taken if it is stale or
forced. -/
theorem acquire_eq {s : LockDir} {f : LockFile} (hf : s.file = some f) (pid : Pid) (force : Bool)
    (now : ℕ) :
    s.acquire pid force now =
      if f.stale now = true ∨ force = true then (true, s.take pid now) else (false, s) := by
  rw [acquire, hf]
  dsimp only
  rw [readPid_pidText, if_pos rfl]
  cases f.stale now <;> cases force <;> rfl

private theorem acquire_cases (s : LockDir) (pid : Pid) (force : Bool) (now : ℕ) :
    (s.acquire pid force now).2 = s.take pid now ∨ (s.acquire pid force now).2 = s := by
  cases hf : s.file with
  | none => exact .inl (by rw [acquire, hf])
  | some f =>
    rw [acquire_eq hf]
    split_ifs
    · exact .inl rfl
    · exact .inr rfl

theorem drop_file_of_ne {s : LockDir} {a : Pid} (h : readPid s.file ≠ some a) :
    (s.drop a).file = s.file := if_neg h

theorem Named.leftAlone {s : LockDir} (h : s.Named) : s.LeftAlone where
  drop a ha := by
    rw [LockDir.step, if_pos (List.mem_of_mem_tail ha)]
    refine drop_file_of_ne fun hpid ↦ ?_
    cases howner : s.owner with
    | none =>
      rcases h.free howner with hnil | hnone
      · rw [hnil] at ha
        cases ha
      · rw [hnone] at hpid
        cases hpid
    | some b =>
      obtain ⟨hhead, -, hb⟩ := h.owned b howner
      obtain rfl : b = a := Option.some.inj (hb.symm.trans hpid)
      obtain ⟨rest, hrest⟩ := List.head?_eq_some_iff.1 hhead
      have hnodup := h.nodup
      rw [hrest] at hnodup ha
      exact (List.nodup_cons.1 hnodup).1 ha
  acquire b hb c force now hok := by
    obtain ⟨f, hf⟩ := Option.isSome_iff_exists.1 (h.owned b hb).2.1
    rw [acquire_eq hf] at hok
    split_ifs at hok with htaken
    exact htaken.symm.imp_right fun hstale ↦ ⟨f, hf, hstale⟩

private theorem named_take {s : LockDir} (h : s.Named) {pid : Pid} (hpid : pid ∉ s.holding)
    (now : ℕ) : (s.take pid now).Named where
  nodup := List.nodup_cons.2 ⟨hpid, h.nodup⟩
  owned := by
    rintro b ⟨⟩
    exact ⟨rfl, rfl, readPid_pidText pid now⟩
  free := nofun

private theorem named_heartbeat {s : LockDir} (h : s.Named) {a : Pid} (ha : a ∈ s.holding)
    (hown : ∀ b, s.owner = some b → a = b) (now : ℕ) : (s.heartbeat a now).Named := by
  cases hf : s.file with
  | none =>
    rw [heartbeat, hf]
    exact h
  | some f =>
    have hbeat : s.heartbeat a now = { s with file := some ⟨pidText a, now⟩ } := by
      rw [heartbeat, hf]
    rw [hbeat]
    refine ⟨h.nodup, fun b hb ↦ ?_, fun hnone ↦ ?_⟩
    · obtain rfl := hown b hb
      exact ⟨(h.owned a hb).1, rfl, readPid_pidText a now⟩
    · rcases h.free hnone with hnil | hgone
      · rw [hnil] at ha
        cases ha
      · rw [hf] at hgone
        cases hgone

private theorem named_drop {s : LockDir} (h : s.Named) (a : Pid) : (s.drop a).Named where
  nodup := h.nodup.filter _
  owned b hb := by
    dsimp only [LockDir.drop] at hb
    split_ifs at hb with howner
    have hne : b ≠ a := fun heq ↦ howner (heq ▸ hb)
    obtain ⟨hhead, hsome, hpid⟩ := h.owned b hb
    have hkept : (s.drop a).file = s.file := drop_file_of_ne fun heq ↦
      hne (Option.some.inj (hpid.symm.trans heq))
    rw [hkept]
    refine ⟨?_, hsome, hpid⟩
    obtain ⟨rest, hrest⟩ := List.head?_eq_some_iff.1 hhead
    change (s.holding.filter fun c ↦ c ≠ a).head? = some b
    rw [hrest, List.filter_cons, if_pos (decide_eq_true hne), List.head?_cons]
  free hnone := by
    dsimp only [LockDir.drop] at hnone
    split_ifs at hnone with howner
    · exact .inr (if_pos (h.owned a howner).2.2)
    · rcases h.free hnone with hnil | hgone
      · exact .inl (by rw [LockDir.drop, hnil]; rfl)
      · refine .inr ?_
        change (if readPid s.file = some a then none else s.file) = none
        rw [hgone, ite_self]

theorem Named.step {s : LockDir} (h : s.Named) {call : LockCall} (hcall : s.OwnHeartbeat call) :
    (s.step call).Named := by
  cases call with
  | acquire pid force now =>
    rw [LockDir.step]
    split_ifs with hpid
    · exact h
    · rcases s.acquire_cases pid force now with heq | heq
      · rw [heq]
        exact named_take h hpid now
      · rwa [heq]
  | heartbeat a now =>
    rw [LockDir.step]
    split_ifs with ha
    · exact named_heartbeat h ha (hcall ha) now
    · exact h
  | drop a =>
    rw [LockDir.step]
    split_ifs
    · exact named_drop h a
    · exact h

theorem Named.not_leftAlone {s : LockDir} (h : s.Named) {call : LockCall}
    (hcall : ¬ s.OwnHeartbeat call) : ¬ (s.step call).LeftAlone := by
  cases call with
  | acquire pid force now => exact absurd trivial hcall
  | drop a => exact absurd trivial hcall
  | heartbeat a now =>
    simp only [OwnHeartbeat, not_forall] at hcall
    obtain ⟨ha, b, hb, hab⟩ := hcall
    obtain ⟨hhead, hsome, -⟩ := h.owned b hb
    obtain ⟨f, hf⟩ := Option.isSome_iff_exists.1 hsome
    obtain ⟨rest, hrest⟩ := List.head?_eq_some_iff.1 hhead
    have hlost : a ∈ s.holding.tail := by
      rw [hrest] at ha ⊢
      exact (List.mem_cons.1 ha).resolve_left hab
    have hstep : s.step (.heartbeat a now) = { s with file := some ⟨pidText a, now⟩ } := by
      rw [LockDir.step, if_pos ha, heartbeat, hf]
    rw [hstep]
    intro halone
    have hdrop := halone.drop a hlost
    rw [LockDir.step, if_pos (show a ∈ s.holding from ha), LockDir.drop, readPid_pidText,
      if_pos rfl] at hdrop
    cases hdrop

end LockDir

/-- **A lost lock is left alone** along a run exactly when no process makes a heartbeat after its
lock was taken over: whatever file was there before, whichever processes acquire, keep alive and
drop the lock, and at whatever times. -/
theorem lock_left_alone_iff (file : Option LockFile) (calls : List LockCall) :
    Machine.Always LockDir.step LockDir.LeftAlone { file } calls ↔
      Machine.Meets LockDir.step LockDir.OwnHeartbeat { file } calls :=
  Machine.always_iff_meets (I := LockDir.Named) (fun _ h ↦ h.leftAlone) (fun _ _ h ↦ h.step)
    (fun _ _ h ↦ h.not_leftAlone) ⟨List.nodup_nil, nofun, fun _ ↦ .inl rfl⟩

/-- **A lock that was taken over is removed.** Process 1 makes no heartbeat for ten seconds, and 2
takes its lock over. Then 1 makes a heartbeat and drops its lock: the file is gone though 2 has not
dropped it, and 3 acquires the lock without force. -/
theorem lost_lock_removed :
    let s := [.acquire 1 false 0, .acquire 2 false 10000, .heartbeat 1 10001, .drop 1].foldl
      LockDir.step {}
    s.owner = some 2 ∧ s.file = none ∧ (s.acquire 3 false 10002).1 = true := by
  decide +kernel

end Orc
