import Orc.Wal.Integrity

/-!
# Rolls that fail

A roll drains and syncs the old segment, creates the next one and swaps it in. If it fails before
the new file is there, it can be tried again at any time. If it fails afterwards, the file stays,
and since a segment is only ever created under a new name, every later roll is refused
(`roll_retry_iff`).

The refusal is deliberate: truncating a file that is there could destroy acknowledged records. The
price is that a fault between the creation and the swap stops ingest until a restart. The statement
is over the state after the failed roll and any quiet steps (`Sys.Quiet`), and `Log.FreeAt` is what
decides: the name of the next segment is not taken.
-/

namespace Orc

open Bytes Fault

/-- The steps that neither roll a segment nor close the writer. -/
def Action.quiet : Action → Bool
  | .append _ | .stop | .wait _ | .sync | .note => true
  | _ => false

/-- Quiet steps in which no operation fails. -/
abbrev Sys.Quiet (limits : WalLimits) : Sys → Sys → Prop :=
  Relation.ReflTransGen (Sys.Next limits fun _ o act ↦ o = noFault ∧ act.quiet = true)

/-- A roll tried now, with every operation carried out, succeeds; no torn frame is pending
afterwards, and appends are accepted. -/
def Log.Rollable (log : Log) : Prop :=
  ∃ id w, rollNow noFault ⟨log, 0⟩ = (.ok id, w) ∧ w.disk.state.needsRoll = false ∧
    ∀ bytes, ∃ w', appendBytes bytes noFault w = (.ok (), w')

theorem not_rollFails_noFault {a : Active} {log log' : Log} (hnew : a.id + 1 ∉ log.dir) :
    ¬ RollFails noFault a log log' := by
  intro h
  cases h with
  | drain _ _ h => exact not_failed_noFault h
  | sync _ h => exact not_failed_noFault h
  | create _ _ h => exact h.elim not_failed_noFault hnew
  | late _ _ _ _ h =>
    rcases h with h | h | h | h
    · exact not_failed_noFault h
    · exact not_failed_noFault h
    · exact not_failed_noFault h
    · exact not_failed_noFault h

private theorem appendBytes_accepted {log : Log} {a : Active} (ha : log.state.active = some a)
    (hready : log.state.needsRoll = false) (bytes : Bytes) {t : ℕ} :
    ∃ w', appendBytes bytes noFault ⟨log, t⟩ = (.ok (), w') := by
  have hfails : ∀ (_ : Error) log', ¬ AppendFails noFault bytes log log' := by
    intro _ log' h
    cases h with
    | refused h =>
      rw [ha, hready] at h
      simp at h
    | sealed h => exact not_failed_noFault h
    | stuck h => exact not_failed_noFault h
  obtain ⟨⟨⟩, w', hrun, -⟩ :=
    (appendBytes_triple bytes).returns hfails not_crashes_noFault (w := ⟨log, t⟩) rfl
  exact ⟨w', hrun⟩

theorem Log.rollable_of_free {log : Log} {a : Active} (ha : log.state.active = some a)
    (hnew : a.id + 1 ∉ log.dir) : log.Rollable := by
  obtain ⟨id, w, hrun, -, -, hlog⟩ := (rollNow_triple ha).returns (w := ⟨log, 0⟩)
    (fun _ _ h ↦ not_rollFails_noFault hnew h) not_crashes_noFault rfl
  refine ⟨id, w, hrun, by rw [hlog]; rfl, fun bytes ↦ ?_⟩
  obtain ⟨log', t⟩ := w
  dsimp only at hlog
  subst hlog
  exact appendBytes_accepted rfl rfl bytes

theorem Log.Rollable.free {log : Log} (h : log.Rollable) :
    ∃ a, log.state.active = some a ∧ a.id + 1 ∉ log.dir := by
  obtain ⟨id, w, hrun, -⟩ := h
  cases ha : log.state.active with
  | none =>
    exact ((rollNow_closed ha).of_ok rfl hrun).elim
  | some a => exact ⟨a, rfl, ((rollNow_triple ha).of_ok rfl hrun).2.1⟩

/-- The active segment is `id` and the name of its successor is free. -/
def Log.FreeAt (log : Log) (id : ℕ) : Prop :=
  ∃ a, log.state.active = some a ∧ a.id = id ∧ id + 1 ∉ log.dir

theorem Change.freeAt {act : Action} {log log' : Log} {id : ℕ} (h : Change noFault act log log')
    (hquiet : act.quiet = true) (hfree : log.FreeAt id) : log'.FreeAt id := by
  obtain ⟨a, ha, hid, hnew⟩ := hfree
  have hsame : ∀ {a'}, log.state.active = some a' → a'.id = id := by
    intro a' ha'
    rw [ha, Option.some.injEq] at ha'
    exact ha' ▸ hid
  have hupdate : ∀ k g, id + 1 ∉ updateFile k g log.dir := fun k g hmem ↦
    hnew (mem_updateFile.1 hmem)
  cases h with
  | same => exact ⟨a, ha, hid, hnew⟩
  | stopped => exact ⟨a, ha, hid, hnew⟩
  | drained ha' => exact ⟨_, rfl, (hsame ha' :), hupdate _ _⟩
  | synced k => exact ⟨a, ha, hid, hupdate _ _⟩
  | noted ha' k => exact ⟨_, rfl, (hsame ha' :), hnew⟩
  | acked _ h =>
    rw [h.log_eq]
    exact ⟨_, rfl, (hsame h.active :), hupdate _ _⟩
  | failed h =>
    cases h with
    | refused => exact ⟨a, ha, hid, hnew⟩
    | sealed h => exact (not_failed_noFault h).elim
    | stuck h => exact (not_failed_noFault h).elim
  | rolled hact => cases act <;> simp_all [Action.rolls, Action.quiet]
  | rollFailed hact => cases act <;> simp_all [Action.rolls, Action.quiet]
  | closed hact =>
    subst hact
    cases hquiet

theorem Sys.Quiet.freeAt {limits : WalLimits} {s s' : Sys} (h : Sys.Quiet limits s s') {id : ℕ}
    (hs : s.log.FreeAt id) : s'.log.FreeAt id := by
  induction h with
  | refl => exact hs
  | @tail s₁ s₂ _ hstep ih =>
    obtain ⟨-, o, act, ⟨rfl, hquiet⟩, rfl⟩ := hstep
    rcases s₁.after_cases limits noFault act with ⟨-, hchange⟩ | ⟨-, hcrash, -⟩
    · exact hchange.freeAt hquiet ih
    · exact (not_crashes_noFault hcrash).elim

/-- Where a fault pattern hits a roll of `a` before the file of the next segment is there. -/
def FailsEarly (faults : Op → Answer) (a : Active) : Prop :=
  (a.buf ≠ [] ∧ ∃ n, faults .walWrite = .fails n) ∨ (∃ n, faults .walSync = .fails n) ∨
    ∃ n, faults .segmentCreate = .fails n

theorem RollFails.active_id {o : Oracle Op} {a a' : Active} {log log' : Log}
    (h : RollFails o a log log') (ha' : log'.state.active = some a') : a'.id = a.id := by
  cases h <;> · obtain rfl := Option.some.inj ha'; rfl

theorem RollFails.early_iff {faults : Op → Answer} {a : Active} {log log' : Log}
    (h : RollFails (fun _ ↦ faults) a log log') :
    log'.FreeAt a.id ↔ a.id + 1 ∉ log.dir ∧ FailsEarly faults a := by
  have hfailed : ∀ {label}, Failed (fun _ ↦ faults) label → ∃ n, faults label = .fails n :=
    fun ⟨_, n, hn⟩ ↦ ⟨n, hn⟩
  cases h with
  | drain _ hbuf h =>
    refine ⟨fun ⟨a', ha', hid, hnew⟩ ↦ ⟨fun hm ↦ hnew (mem_updateFile.2 hm),
      .inl ⟨hbuf, hfailed h⟩⟩, fun ⟨hnew, _⟩ ↦ ⟨_, rfl, rfl, fun hm ↦ hnew (mem_updateFile.1 hm)⟩⟩
  | sync _ h =>
    refine ⟨fun ⟨a', ha', hid, hnew⟩ ↦ ⟨fun hm ↦ hnew (mem_updateFile.2 hm),
      .inr (.inl (hfailed h))⟩, fun ⟨hnew, _⟩ ↦ ⟨_, rfl, rfl, fun hm ↦ hnew (mem_updateFile.1 hm)⟩⟩
  | create _ _ h =>
    constructor
    · rintro ⟨a', ha', hid, hnew⟩
      have hfree : a.id + 1 ∉ log.dir := fun hm ↦ hnew (by simpa using hm)
      exact ⟨hfree, .inr (.inr (hfailed (h.resolve_right hfree)))⟩
    · rintro ⟨hnew, -⟩
      exact ⟨_, rfl, rfl, by simpa using hnew⟩
  | late hbuf hsync hcreate hnew h =>
    -- all that comes before the file was carried out
    have hdone : ∀ {label}, Done (fun _ ↦ faults) label → ¬ ∃ n, faults label = .fails n := by
      rintro label ⟨_, hd⟩ ⟨n, hn⟩
      exact absurd (hn.symm.trans hd) (by simp)
    constructor
    · rintro ⟨a', ha', hid, hfree⟩
      exact (hfree (by simp [Log.newFile])).elim
    · rintro ⟨-, ⟨hne, hw⟩ | hs | hc⟩
      · exact (hdone (hbuf.resolve_left hne) hw).elim
      · exact (hdone hsync hs).elim
      · exact (hdone hcreate hc).elim

/-- **Retrying a failed roll.** Whatever the state of the log and the fault pattern inside a roll
that failed: from then on, with every operation carried out and after any appends, group commits and
syncs, the next roll succeeds and appends are accepted again, if and only if the writer was open, no
file had the name of the next segment, and the roll failed while draining or syncing the old segment
or in opening the new file. -/
theorem roll_retry_iff (limits : WalLimits) (log : Log) (c : Committer)
    (faults : Op → Answer) {t : ℕ}
    {e : Error} {w : World Log} (hfails : roll (fun _ ↦ faults) ⟨log, t⟩ = (.err e, w)) :
    (∀ s', Sys.Quiet limits { log := w.disk, committer := c } s' → s'.log.Rollable) ↔
      ∃ a, log.state.active = some a ∧ a.id + 1 ∉ log.dir ∧ FailsEarly faults a := by
  cases ha : log.state.active with
  | none =>
    have hlog := (roll_closed ha).of_err rfl hfails
    refine ⟨fun h ↦ ?_, by simp⟩
    obtain ⟨a, ha', -⟩ := (h _ .refl).free
    rw [show w.disk = log from hlog, ha] at ha'
    cases ha'
  | some a =>
    have hroll : RollFails (fun _ ↦ faults) a log w.disk := (roll_triple ha).of_err rfl hfails
    constructor
    · intro h
      obtain ⟨a', ha', hnew⟩ := (h _ .refl).free
      have hid : a'.id = a.id := hroll.active_id ha'
      exact ⟨a, rfl, hroll.early_iff.1 ⟨a', ha', hid, hid ▸ hnew⟩⟩
    · rintro ⟨a', ha', hearly⟩ s' hquiet
      obtain rfl := Option.some.inj ha'
      obtain ⟨b, hb, hid, hnew⟩ := hquiet.freeAt (hroll.early_iff.2 hearly)
      exact Log.rollable_of_free hb (hid ▸ hnew)

/-- A fresh writer after one append. -/
def Sys.appended : Sys := Sys.fresh.after {} noFault (.append [7])

/-- A roll that fails in the fsync of the old segment. -/
theorem roll_retry_iff_walSync : ∃ e w, roll (failing .walSync 0) ⟨Sys.appended.log, 0⟩ =
    (.err e, w) ∧ ∀ s', Sys.Quiet {} { log := w.disk, committer := {} } s' → s'.log.Rollable := by
  obtain ⟨e, w, hfails⟩ : ∃ e w, roll (failing .walSync 0) ⟨Sys.appended.log, 0⟩ = (.err e, w) :=
    ⟨ioError, (roll (failing .walSync 0) ⟨Sys.appended.log, 0⟩).2, by decide +kernel⟩
  refine ⟨e, w, hfails, (roll_retry_iff {} _ {} (fun l ↦ failing .walSync 0 0 l) hfails).2 ?_⟩
  exact ⟨⟨1, [7], segmentHeaderBytes + 1, segmentHeaderBytes⟩, by decide +kernel, by decide +kernel,
    .inr (.inl ⟨0, rfl⟩)⟩

/-- A roll that fails in writing the header of the new segment, on a full disk say, leaves its file
there, and the next roll is refused although every operation is carried out. -/
theorem roll_stuck_on_leftover : Sys.appended.Reachable {} 1 anyFault ∧
    let failed := roll (failing .segmentHeader 0) ⟨Sys.appended.log, 0⟩
    failed.1 = .err ioError ∧
      (rollNow noFault ⟨failed.2.disk, 0⟩).1 = .err (.io .alreadyExists) ∧
      ¬ failed.2.disk.Rollable := by
  have hagain : (rollNow noFault
      ⟨(roll (failing .segmentHeader 0) ⟨Sys.appended.log, 0⟩).2.disk, 0⟩).1 =
        .err (.io .alreadyExists) := by decide +kernel
  refine ⟨Sys.Reachable.after ⟨_, opened_fresh, .refl⟩ rfl trivial, by decide +kernel, hagain, ?_⟩
  rintro ⟨id, w, hrun, -⟩
  rw [hrun] at hagain
  cases hagain

end Orc
