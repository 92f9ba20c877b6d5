import Mathlib.Logic.Relation
import Orc.Wal.Sections

/-!
# Runs of the log writer

Threads append, seal and close, and the committer goes round its loop. Everything under the lock is
one step, and so is the committer's sync outside it; a run is any sequence of such steps, each with
an oracle of its own that says which file-system operations fail and where the process stops. After
a stop nothing more happens.

`Change` lists what a step can do to the log, and `Stop` where it can be stopped. Every invariant is
proved by cases on the two.

## Interleaving

The sync outside the lock is a step of its own because appends go on meanwhile, and the bytes it
covers are those written when it began. `Sys.Reachable` takes the oracles and actions that a run may
use as a parameter: `anyFault` admits all, and `idsFit` those runs whose ids stay 64-bit numbers.
-/

namespace Orc

open Bytes Fault

/-- One step of a thread or of the committer. -/
inductive Action where
  | append (bytes : Bytes)
  | sealSegment
  /-- The first half of a close: the committer is told to stop. -/
  | stop
  /-- The second half. By then the committer has been joined; a run here need not wait for it. -/
  | close
  /-- The committer's sections, in the order of its loop. -/
  | wait (elapsed : Bool)
  | sync
  | note
  | roll

/-- The log, the committer and whether the process still runs. -/
structure Sys where
  log : Log
  committer : Committer := {}
  alive : Bool := true
  deriving DecidableEq

/-- The program of a step. A section of the committer runs only where its loop stands. -/
def Action.program (limits : WalLimits) (c : Committer) : Action → WalIo Committer
  | .append bytes => do
    appendBytes bytes
    return c
  | .sealSegment => do
    let _ ← Orc.sealSegment
    return c
  | .stop => do
    Prog.modify fun log : Log ↦ { log with state := { log.state with stop := true } }
    return c
  | .close => do
    Orc.close
    return c
  | .wait elapsed =>
    match c.pc with
    | .waiting => waitSection limits elapsed c
    | _ => pure c
  | .sync =>
    match c.pc with
    | .syncing id upto => syncSection id upto
    | _ => pure c
  | .note =>
    match c.pc with
    | .noting id upto => noteSection id upto c
    | _ => pure c
  | .roll =>
    match c.pc with
    | .rolling => rollSection limits c
    | _ => pure c

/-- The system after a step. -/
def Sys.after (limits : WalLimits) (o : Oracle Op) (act : Action) (s : Sys) : Sys :=
  match act.program limits s.committer o ⟨s.log, 0⟩ with
  | (.ok c, w) => ⟨w.disk, c, true⟩
  | (.err _, w) => ⟨w.disk, s.committer, true⟩
  | (.crash, w) => ⟨w.disk, s.committer, false⟩

/-- A writer just opened, with `first` above every segment there. -/
structure Opened (first : ℕ) (s : Sys) : Prop where
  fresh : ∃ dir o t w, (∀ id ∈ dir, id < first) ∧
    openWriter first o ⟨{ dir }, t⟩ = (.ok (), w) ∧ s = { log := w.disk }

/-- One step of the system, with an oracle the condition allows. -/
def Sys.Next (limits : WalLimits) (allowed : Sys → Oracle Op → Action → Prop) (s s' : Sys) : Prop :=
  s.alive = true ∧ ∃ o act, allowed s o act ∧ s' = s.after limits o act

/-- The states that runs of allowed steps lead to. -/
def Sys.Reachable (limits : WalLimits) (first : ℕ) (allowed : Sys → Oracle Op → Action → Prop)
    (s : Sys) : Prop :=
  ∃ s₀, Opened first s₀ ∧ Relation.ReflTransGen (Sys.Next limits allowed) s₀ s

theorem Sys.Reachable.after {limits : WalLimits} {first : ℕ}
    {allowed : Sys → Oracle Op → Action → Prop} {s : Sys} (h : s.Reachable limits first allowed)
    (halive : s.alive = true) {o : Oracle Op} {act : Action} (hallowed : allowed s o act) :
    (s.after limits o act).Reachable limits first allowed := by
  obtain ⟨s₀, hopen, hrun⟩ := h
  exact ⟨s₀, hopen, hrun.tail ⟨halive, o, act, hallowed, rfl⟩⟩

/-- Fewer steps allowed, fewer states reached. -/
theorem Sys.Reachable.mono {limits : WalLimits} {first : ℕ}
    {allowed allowed' : Sys → Oracle Op → Action → Prop} {s : Sys}
    (h : s.Reachable limits first allowed) (hle : ∀ s o act, allowed s o act → allowed' s o act) :
    s.Reachable limits first allowed' := by
  obtain ⟨s₀, hopen, hrun⟩ := h
  refine ⟨s₀, hopen, Relation.ReflTransGen.mono ?_ _ _ hrun⟩
  rintro s₁ s₂ ⟨halive, o, act, hallowed, heq⟩
  exact ⟨halive, o, act, hle _ _ _ hallowed, heq⟩

/-- Any fault may occur in any step. -/
def anyFault : Sys → Oracle Op → Action → Prop := fun _ _ _ ↦ True

/-- The id a roll would give to the next segment is a 64-bit number. In the source it is the sum of
a `u64` and one, which wraps to 0 past the largest; here ids are natural numbers. -/
def idsFit : Sys → Oracle Op → Action → Prop := fun s _ _ ↦
  ∀ a, s.log.state.active = some a → a.id < u64Max

theorem idsFit_of_all {s : Sys} (o : Oracle Op) (act : Action)
    (h : s.log.state.active.all (fun a ↦ a.id < u64Max) = true) : idsFit s o act := by
  intro a ha
  rw [ha] at h
  exact of_decide_eq_true h

/-! ## What a step can do -/

/-- The steps that roll a segment for its size or for a flush, not for a failed append. -/
def Action.rolls : Action → Bool
  | .sealSegment => true
  | .roll => true
  | _ => false

/-- What a step that is not stopped does to the log. -/
inductive Change (o : Oracle Op) (act : Action) (log : Log) : Log → Prop
  | same : Change o act log log
  | stopped : Change o act log { log with state := { log.state with stop := true } }
  | drained {a : Active} {x y : Bytes} (ha : log.state.active = some a) (hxy : x ++ y = a.buf) :
      Change o act log (log.moved a x y)
  | synced (id : ℕ) : Change o act log (log.syncFile id)
  | noted {a : Active} (ha : log.state.active = some a) (k : ℕ) :
      Change o act log (log.setActive (some { a with synced := k }))
  | acked {bytes x buf : Bytes} {a : Active} {log' : Log} (hact : act = .append bytes)
      (h : Acks bytes log a x buf log') : Change o act log log'
  | failed {bytes : Bytes} {log' : Log} (h : AppendFails o bytes log log') : Change o act log log'
  | rolled {a : Active} (hact : act.rolls = true) (ha : log.state.active = some a)
      (hnew : a.id + 1 ∉ log.dir) : Change o act log ((log.rolled a).setNeedsRoll false)
  | rollFailed {a : Active} {log' : Log} (hact : act.rolls = true) (ha : log.state.active = some a)
      (h : RollFails o a log log') : Change o act log log'
  | closed {a : Active} {x y : Bytes} {log' : Log} (hact : act = .close)
      (hlost : y = [] ∨ Failed o .walWrite ∨ Failed o .walSync) (h : Closes log a x y log') :
      Change o act log log'

/-- Where a step may be stopped. -/
inductive Stop (log : Log) : Log → Prop
  | same : Stop log log
  | moved {a : Active} (ha : log.state.active = some a) (x y : Bytes) : Stop log (log.moved a x y)
  | settled {a : Active} (ha : log.state.active = some a) : Stop log (log.settled a)
  | rolling {a : Active} {log' : Log} (ha : log.state.active = some a) (h : RollStops a log log') :
      Stop log log'
  | appending {bytes : Bytes} {log' : Log} (h : AppendStops bytes log log') : Stop log log'

section Steps

variable {o : Oracle Op} {log : Log} {limits : WalLimits} {c : Committer}

theorem waitSection_triple (act : Action) (elapsed : Bool) :
    Triple o (· = log) (waitSection limits elapsed c) (fun _ ↦ Change o act log)
      (fun _ ↦ Change o act log) (Stop log) := by
  refine .look_bind ?_
  have hsame : ∀ c' : Committer, Triple o (· = log) (pure c' : WalIo Committer)
      (fun _ ↦ Change o act log) (fun _ ↦ Change o act log) (Stop log) := by
    refine fun c' ↦ .ret ?_
    rintro d rfl
    exact .same
  by_cases hstop : log.state.stop = true
  · rw [if_pos hstop]
    exact hsame _
  rw [if_neg hstop]
  cases ha : log.state.active with
  | none => exact hsame _
  | some a =>
    dsimp only
    by_cases hdue : limits.due c.retry elapsed a = true
    · rw [if_pos hdue]
      refine .bind (Q := fun _ ↦ Change o act log)
        (.attempt ((flushBuf_triple ha).conseq (fun _ ↦ id) ?_ ?_ ?_)) fun r ↦ ?_
      · rintro _ d ⟨-, rfl⟩
        exact .drained ha (List.take_append_drop _ _)
      · rintro e d ⟨-, -, n, -, rfl⟩
        exact .drained ha (List.take_append_drop _ _)
      · rintro d ⟨n, -, rfl⟩
        exact .moved ha _ _
      · cases r <;> exact .ret fun _ ↦ id
    · rw [if_neg hdue]
      exact hsame _

theorem syncSection_triple (act : Action) (id upto : ℕ) :
    Triple o (· = log) (syncSection id upto) (fun _ ↦ Change o act log)
      (fun _ ↦ Change o act log) (Stop log) := by
  refine .bind (Q := fun _ ↦ Change o act log) (.attempt (Io.step_triple ?_ ?_ ?_)) fun r ↦ ?_
  · rintro d t rfl -
    exact .synced id
  · rintro d t n rfl -
    exact .same
  · rintro d t n rfl -
    exact .same
  · cases r <;> exact .ret fun _ hd ↦ hd

theorem noteSection_triple (act : Action) (id upto : ℕ) :
    Triple o (· = log) (noteSection id upto c) (fun _ ↦ Change o act log)
      (fun _ ↦ Change o act log) (Stop log) := by
  refine .bind (Q := fun _ ↦ Change o act log) (.modify ?_) fun _ ↦ .ret fun _ hd ↦ hd
  rintro d rfl
  split
  next a ha =>
    split_ifs with hid
    · exact .noted ha _
    · exact .same
  next => exact .same

theorem rollSection_triple {act : Action} (hact : act.rolls = true) :
    Triple o (· = log) (rollSection limits c) (fun _ ↦ Change o act log)
      (fun _ ↦ Change o act log) (Stop log) := by
  refine .look_bind ?_
  by_cases hroll : (limits.full log.state.active || log.state.needsRoll) = true
  · rw [if_pos hroll]
    refine .bind (Q := fun _ ↦ Change o act log) (.bind (Q := fun _ ↦ Change o act log)
      (.attempt ?_) fun _ ↦ .ret fun _ ↦ id) fun _ ↦ .ret fun _ ↦ id
    cases ha : log.state.active with
    | none =>
      refine (rollNow_closed ha).conseq (fun _ ↦ id) (fun _ _ ↦ False.elim) ?_ fun _ ↦ False.elim
      rintro e d rfl
      exact .same
    | some a =>
      refine (rollNow_triple ha).conseq (fun _ ↦ id) ?_ (fun _ _ ↦ .rollFailed hact ha)
        fun _ ↦ .rolling ha
      rintro id d ⟨-, hnew, rfl⟩
      exact .rolled hact ha hnew
  · rw [if_neg hroll]
    refine .ret ?_
    rintro d rfl
    exact .same

/-- Sealing, which a closed writer refuses. -/
theorem sealSegment_change :
    Triple o (· = log) sealSegment
      (fun _ log' ↦ Change o .sealSegment log log' ∧ ∃ a, log'.state.active = some a)
      (fun _ ↦ Change o .sealSegment log) (Stop log) := by
  refine sealSegment_triple.conseq (fun _ ↦ id) ?_ ?_ ?_
  · rintro r d ⟨a, ha, ⟨-, rfl⟩ | ⟨-, -, hnew, rfl⟩⟩
    · exact ⟨.same, a, ha⟩
    · exact ⟨.rolled rfl ha hnew, _, rfl⟩
  · rintro e d (rfl | ⟨a, ha, h⟩)
    · exact .same
    · exact .rollFailed rfl ha h
  · rintro d ⟨a, ha, h⟩
    exact .rolling ha h

/-- **A step** changes the log as `Change` says, or is stopped as `Stop` says. -/
theorem Action.program_triple (act : Action) :
    Triple o (· = log) (act.program limits c) (fun _ ↦ Change o act log)
      (fun _ ↦ Change o act log) (Stop log) := by
  have hsame : Triple o (· = log) (pure c : WalIo Committer) (fun _ ↦ Change o act log)
      (fun _ ↦ Change o act log) (Stop log) := by
    refine .ret ?_
    rintro d rfl
    exact .same
  cases act with
  | append bytes =>
    refine .bind ((appendBytes_triple bytes).conseq (fun _ ↦ id) ?_ (fun _ _ ↦ .failed)
      fun _ ↦ .appending) (Q := fun _ ↦ Change o (.append bytes) log) fun _ ↦ .ret fun _ ↦ id
    rintro _ d ⟨a, x, buf, h⟩
    exact .acked rfl h
  | sealSegment =>
    exact .bind (sealSegment_change.post fun _ _ ↦ And.left)
      (Q := fun _ ↦ Change o .sealSegment log) fun _ ↦ .ret fun _ ↦ id
  | stop =>
    refine .bind (.modify (Q := fun _ ↦ Change o .stop log) ?_) fun _ ↦ .ret fun _ ↦ id
    rintro d rfl
    exact .stopped
  | close =>
    refine .bind (close_triple.conseq (fun _ ↦ id) ?_ ?_ ?_) (Q := fun _ ↦ Change o .close log)
      fun _ ↦ .ret fun _ ↦ id
    · rintro _ d (⟨-, rfl⟩ | ⟨a, h⟩)
      · exact .same
      · exact .closed rfl (.inl rfl) h
    · rintro e d ⟨hfailed, a, x, y, h⟩
      exact .closed rfl (.inr hfailed) h
    · rintro d ⟨a, ha, ⟨x, y, -, rfl⟩ | rfl⟩
      · exact .moved ha x y
      · exact .settled ha
  | wait elapsed =>
    rw [Action.program]
    split
    · exact waitSection_triple _ elapsed
    · exact hsame
  | sync =>
    rw [Action.program]
    split
    · exact syncSection_triple _ _ _
    · exact hsame
  | note =>
    rw [Action.program]
    split
    · exact noteSection_triple _ _ _
    · exact hsame
  | roll =>
    rw [Action.program]
    split
    · exact rollSection_triple rfl
    · exact hsame

/-- What a step of the system does, by whether the process survives it. -/
theorem Sys.after_cases (limits : WalLimits) (o : Oracle Op) (act : Action) (s : Sys) :
    ((s.after limits o act).alive = true ∧ Change o act s.log (s.after limits o act).log) ∨
      (s.after limits o act).alive = false ∧ Crashes o ∧ Stop s.log (s.after limits o act).log := by
  have htriple : Triple o (· = s.log) (act.program limits s.committer) (fun _ ↦ Change o act s.log)
      (fun _ ↦ Change o act s.log) (Stop s.log) := act.program_triple
  have h := htriple ⟨s.log, 0⟩ rfl
  rw [Sys.after]
  generalize act.program limits s.committer o ⟨s.log, 0⟩ = r at h ⊢
  rcases r with ⟨c | e | _, w⟩
  · exact .inl ⟨rfl, h⟩
  · exact .inl ⟨rfl, h⟩
  · exact .inr ⟨rfl, h.1, h.2⟩

end Steps

/-! ## Single faults -/

/-- The operations of one kind fail, having written `n` bytes if they write. -/
def failing (label : Op) (n : ℕ) : Oracle Op := fun _ l ↦ if l = label then .fails n else .done

/-- The process stops at every operation of one kind, which has had no effect. -/
def crashing (label : Op) : Oracle Op := fun _ l ↦ if l = label then .crashes 0 else .done

/-- A writer opened on an empty directory. -/
def Sys.fresh : Sys where
  log := (({} : Log).newFile 1 segmentHeaderBytes segmentHeaderBytes).setActive
    (some ⟨1, [], segmentHeaderBytes, segmentHeaderBytes⟩)

theorem opened_fresh : Opened 1 Sys.fresh := by
  have hrun : openWriter 1 noFault ⟨{}, 0⟩ = (.ok (), ⟨Sys.fresh.log, 7⟩) := by decide +kernel
  exact ⟨{}, noFault, 0, _, by simp, hrun, rfl⟩

end Orc
