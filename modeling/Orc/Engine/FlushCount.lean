import Orc.Engine.Published

/-!
# Counting failed flushes

`stats` reports `flush_failures` as the number of consecutive failed flushes. A call of `flush`
seals the log, lists the segments and, after a failure, sweeps `tmp/`, before it runs. The counter
is changed by the run alone: a success sets it to zero and a failure adds one. A call that fails
earlier returns its error and leaves the counter as it is.

So the counter is the number of failed calls since the last success exactly when none of them failed
before the run. The sweep is the case that matters in practice: it is made only when the counter is
not zero, so a directory on which the sweep itself fails keeps the counter where it stands, however
many calls fail.

The statement is over whole sequences of calls (`Calls`), each with an oracle of its own, and with
anything else the process may do between them. A call has failed before its run, failed in it, or
returned (`FlushCall`); `call_cases` is the step, `Calls.flushFailures_eq` the induction, and
`flush_failures_iff` compares the count of failed runs with the count of failed calls.
`unlisted_flush_uncounted` is the shortest sequence on which they differ.
-/

namespace Orc

open Bytes Fault

/-- How a call of `flush` ended. -/
inductive FlushCall where
  | ok
  /-- Sealing, listing or sweeping failed. -/
  | early
  /-- The run failed. -/
  | failed
  deriving DecidableEq, Repr

section Calls

variable (crc : Bytes → UInt32)

namespace Process

/-- What a call does before the run: the segments to consume. -/
def consumable (p : Process) : SiteIo (List ℕ) := do
  let _ ← onLog sealSegment
  let pending ← onDisk listSegments
  let active ← Prog.look Site.active
  let floor := p.manifest.lastFlushedSegment
  onDisk p.resweep
  return pending.filter fun id ↦ id < active ∧ floor < id

theorem flush_eq (p : Process) (now : ℕ) :
    p.flush crc now = p.consumable >>= fun ids ↦ do
      let r ← onDisk (run crc p.engine.config p.manifest now ids)
      return (p.flushed r, r.2) := by
  simp only [flush, consumable, bind_assoc, pure_bind]

/-- What a call returns; `none` if the process stops in it. -/
def returned (p : Process) (now : ℕ) (o : Oracle Op) (s : Site) :
    Option (Except Error FlushOutcome) :=
  match p.flush crc now o ⟨s, 0⟩ with
  | (.ok r, _) => some r.2
  | (.err e, _) => some (.error e)
  | (.crash, _) => none

/-- A call that comes to an end, with the process and its site afterwards. -/
def call (p : Process) (now : ℕ) (o : Oracle Op) (s : Site) : Option (FlushCall × Process × Site) :=
  match p.consumable o ⟨s, 0⟩, p.flush crc now o ⟨s, 0⟩ with
  | (.err _, _), (_, w) => some (.early, p, w.disk)
  | _, (.ok (p', r), w) => some (if r.isOk then .ok else .failed, p', w.disk)
  | _, _ => none

end Process

variable {crc}

private theorem run_errless (config : Config) (m : Manifest) (now : ℕ) (segments : List ℕ) :
    Prog.Errless (run crc config m now segments) := by
  have hclear : Prog.Errless clearRuns := (Prog.errless_attempt _).bind fun _ ↦ Prog.errless_pure _
  simp only [run]
  split
  · exact Prog.errless_pure _
  · refine hclear.bind fun _ ↦ (Prog.errless_attempt _).bind fun r ↦ ?_
    rcases r with e | outcome | plan
    · exact hclear.bind fun _ ↦ Prog.errless_pure _
    · exact hclear.bind fun _ ↦ Prog.errless_pure _
    · exact (Prog.errless_attempt _).bind fun _ ↦ hclear.bind fun _ ↦ Prog.errless_pure _

namespace Process

variable {p p' : Process} {now : ℕ} {o : Oracle Op} {s s' : Site}

theorem flush_eq_err_iff {e : Error} {w : World Site} :
    p.flush crc now o ⟨s, 0⟩ = (.err e, w) ↔ p.consumable o ⟨s, 0⟩ = (.err e, w) := by
  rw [flush_eq, Prog.bind_eq_err]
  refine ⟨fun h ↦ h.resolve_right ?_, .inl⟩
  rintro ⟨ids, w₁, -, h⟩
  exact ((run_errless _ _ _ _).zoom.bind fun _ ↦ Prog.errless_pure _) _ _ _ _ h

private theorem flush_eq_ok {r : Except Error FlushOutcome} {w : World Site}
    (h : p.flush crc now o ⟨s, 0⟩ = (.ok (p', r), w)) :
    p'.flushFailures = if r.isOk then 0 else p.flushFailures + 1 := by
  rw [flush_eq, Prog.bind_eq_ok] at h
  obtain ⟨ids, w₁, -, h⟩ := h
  obtain ⟨x, w₂, -, h⟩ := Prog.bind_eq_ok.1 h
  cases h
  rfl

/-- **What a call does to the counter.** -/
theorem call_cases {r : FlushCall} (h : p.call crc now o s = some (r, p', s')) :
    (r = .ok ∧ p'.flushFailures = 0 ∧ ∃ x, p.returned crc now o s = some (.ok x)) ∨
    (r = .early ∧ p'.flushFailures = p.flushFailures ∧
      ∃ e, p.returned crc now o s = some (.error e)) ∨
    (r = .failed ∧ p'.flushFailures = p.flushFailures + 1 ∧
      ∃ e, p.returned crc now o s = some (.error e)) := by
  unfold call at h
  split at h
  · next e w₁ res w hpart hflush =>
    cases h
    refine .inr (.inl ⟨rfl, rfl, e, ?_⟩)
    rw [returned, flush_eq_err_iff.2 hpart]
  · next p'' x w hflush hnot =>
    cases h
    have hcount := flush_eq_ok hflush
    cases x with
    | ok outcome => exact .inl ⟨rfl, hcount, outcome, by rw [returned, hflush]⟩
    | error e => exact .inr (.inr ⟨rfl, hcount, e, by rw [returned, hflush]⟩)
  · cases h

/-- Every call that returns is one of these. -/
theorem call_isSome (h : (p.returned crc now o s).isSome) : (p.call crc now o s).isSome := by
  unfold call
  split
  · rfl
  · rfl
  · next hnot hok =>
    unfold returned at h
    split at h
    · next r w hflush => exact (hnot r.1 r.2 w hflush).elim
    · next e w hflush => exact (hok e w _ _ (flush_eq_err_iff.1 hflush) hflush).elim
    · cases h

end Process

/-- The calls of a process since it was opened, in order, and the process and its site after them.
In between anything may happen that does not touch the counter, and nothing else does. -/
inductive Calls (crc : Bytes → UInt32) (start : Process × Site) :
    List FlushCall → Process × Site → Prop
  | opened : Calls crc start [] start
  | call {rs : List FlushCall} {p p' : Process} {s s' : Site} {now : ℕ} {o : Oracle Op}
      {r : FlushCall} : Calls crc start rs (p, s) → p.call crc now o s = some (r, p', s') →
      Calls crc start (rs ++ [r]) (p', s')
  | other {rs : List FlushCall} {p p' : Process} {s s' : Site} : Calls crc start rs (p, s) →
      p'.flushFailures = p.flushFailures → Calls crc start rs (p', s')

/-- The calls since the last that returned `Ok`, latest first. -/
def sinceOk (rs : List FlushCall) : List FlushCall := rs.reverse.takeWhile (· ≠ .ok)

private theorem sinceOk_append (rs : List FlushCall) (r : FlushCall) :
    sinceOk (rs ++ [r]) = if r = .ok then [] else r :: sinceOk rs := by
  rw [sinceOk, List.reverse_append, List.reverse_singleton, List.singleton_append,
    List.takeWhile_cons]
  by_cases h : r = .ok
  · simp [h]
  · simp [h, sinceOk]

/-- **The counter counts failed runs** since the last success. -/
theorem Calls.flushFailures_eq {start : Process × Site} (h0 : start.1.flushFailures = 0)
    {rs : List FlushCall} {x : Process × Site} (h : Calls crc start rs x) :
    x.1.flushFailures = (sinceOk rs).count .failed := by
  induction h with
  | opened => exact h0
  | call _ hcall ih =>
    rw [sinceOk_append]
    rcases Process.call_cases hcall with ⟨rfl, hp, -⟩ | ⟨rfl, hp, -⟩ | ⟨rfl, hp, -⟩
    · simpa using hp
    · rw [hp, ih]
      simp
    · rw [hp, ih]
      simp
  | other _ hp ih => exact hp.trans ih

private theorem count_sinceOk (rs : List FlushCall) :
    (sinceOk rs).length = (sinceOk rs).count .failed + (sinceOk rs).count .early := by
  have hnot : ∀ r ∈ sinceOk rs, r ≠ .ok := fun r hr ↦ by
    simpa using List.mem_takeWhile_imp hr
  generalize sinceOk rs = l at hnot
  induction l with
  | nil => rfl
  | cons r l ih =>
    have hl := ih fun r hr ↦ hnot r (List.mem_cons_of_mem _ hr)
    cases r with
    | ok => exact absurd rfl (hnot _ List.mem_cons_self)
    | early => simp [hl, Nat.add_assoc]
    | failed =>
      simp [hl]
      omega

/-- **`flush_failures` counts consecutive failures unless one came before its run.** After any calls
of `flush` the counter is the number of those that returned an error since the last that did not, or
since the process was opened, exactly when none of these failed in sealing, listing or sweeping. -/
theorem flush_failures_iff (crc : Bytes → UInt32) {start : Process × Site}
    (h0 : start.1.flushFailures = 0) {rs : List FlushCall} {p : Process} {s : Site}
    (h : Calls crc start rs (p, s)) :
    p.flushFailures = (sinceOk rs).length ↔ .early ∉ sinceOk rs := by
  rw [count_sinceOk, h.flushFailures_eq h0]
  constructor
  · intro heq hmem
    have hpos := List.count_pos_iff.2 hmem
    omega
  · intro hnot
    rw [List.count_eq_zero_of_not_mem hnot, Nat.add_zero]

end Calls

/-- A process just opened on an empty directory, whose writer has its first segment. -/
def openedEmpty : Process × Site :=
  let n := (Node.down {}).after crc32 id noFault (.start { series := [⟨"t", []⟩] } 0)
  (n.process.getD ⟨⟨{}, {}, 0, 0⟩, {}, {}, 0⟩, n.site)

/-- A call in which `wal/` cannot be listed. -/
def unlisted : Option (FlushCall × Process × Site) :=
  openedEmpty.1.call crc32 0 (failing .walList 0) openedEmpty.2

/-- **A flush that fails before its run is not counted.** One call has returned an error and the
counter is zero. -/
theorem unlisted_flush_uncounted :
    openedEmpty.1.flushFailures = 0 ∧
      (openedEmpty.1.returned crc32 0 (failing .walList 0) openedEmpty.2).map Except.isOk =
        some false ∧
      unlisted.map (fun x ↦ (x.1, x.2.1.flushFailures)) = some (.early, 0) ∧
      (sinceOk [.early]).length = 1 := by
  decide +kernel

/-- A record is appended, and `flush` called. -/
private def appendAndCall (o : Oracle Op) (x : Process × Site) :
    Option (FlushCall × Process × Site) :=
  x.1.call crc32 0 o ((Node.mk x.2 (some x.1)).after crc32 id noFault (.wal (.append
    (frameOf crc32 "t" 0 ⟨946684800000000, "a", [], [], ""⟩)))).site

private def callAll : List (Oracle Op) → Process × Site → Option (List FlushCall × Process × Site)
  | [], x => some ([], x)
  | o :: os, x =>
    (appendAndCall o x).bind fun y ↦ (callAll os y.2).map fun z ↦ (y.1 :: z.1, z.2)

private theorem calls_callAll {start : Process × Site} {os : List (Oracle Op)} {x : Process × Site}
    {past rs : List FlushCall} {y : Process × Site} (hpast : Calls crc32 start past x)
    (h : callAll os x = some (rs, y)) : Calls crc32 start (past ++ rs) y := by
  induction os generalizing x past rs with
  | nil =>
    cases h
    rwa [List.append_nil]
  | cons o os ih =>
    obtain ⟨⟨r, x'⟩, hcall, h⟩ := Option.bind_eq_some_iff.1 h
    obtain ⟨⟨rs', y'⟩, hrest, heq⟩ := Option.map_eq_some_iff.1 h
    cases heq
    rw [List.append_cons]
    exact ih ((hpast.other rfl).call hcall) hrest

/-- Runs that fail because the manifest cannot be replaced, two before one that succeeds and one
after it. -/
private def failedRuns : List (Oracle Op) :=
  [failing .manifestCreate 0, failing .manifestRename 0, noFault, failing .manifestCreate 0]

theorem flush_failures_iff_between :
    ∃ p s, Calls crc32 openedEmpty [.failed, .failed, .ok, .failed] (p, s) ∧
      FlushCall.early ∉ sinceOk [.failed, .failed, .ok, .failed] ∧
      p.flushFailures = (sinceOk [.failed, .failed, .ok, .failed]).length := by
  have hrun : (callAll failedRuns openedEmpty).map Prod.fst =
      some [.failed, .failed, .ok, .failed] := by
    decide +kernel
  obtain ⟨⟨rs, p, s⟩, hcalls, hrs⟩ := Option.map_eq_some_iff.1 hrun
  obtain rfl : rs = [.failed, .failed, .ok, .failed] := hrs
  have hcalls : Calls crc32 openedEmpty [.failed, .failed, .ok, .failed] (p, s) :=
    calls_callAll .opened hcalls
  have hnot : FlushCall.early ∉ sinceOk [.failed, .failed, .ok, .failed] := by decide
  exact ⟨p, s, hcalls, hnot, (flush_failures_iff crc32 (by decide +kernel) hcalls).2 hnot⟩

end Orc
