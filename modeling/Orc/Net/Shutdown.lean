import Orc.Net.Requests

/-!
# An orderly end

A server that is told to stop answers the request it has read, leaves its loop, drains the queue of
messages for a bounded time, joins the flush timer, tells the committer to stop and waits for it,
and closes the log. If all of this succeeds it has stopped without an error, and then nothing that
was acknowledged is only in a buffer, and no thread is left that could write.

The invariant `Host.Shutting` says for each place on this way what has been done so far. What was
left in the queue of the socket is not known to the server, and not part of it; what is known is why
the drain ended, with a call that found nothing more or with the time being over.
-/

namespace Orc

open Bytes Fault

/-! ## The writer's state -/

/-- The writer has an active segment, and has lost nothing. -/
def Log.Open (log : Log) : Prop := log.state.active.isSome = true ∧ log.lost = []

/-- The writer is closed, and has lost nothing. -/
def Log.Shut (log : Log) : Prop := log.state.active = none ∧ log.lost = []

section Writer

variable {o : Oracle Op} {act : Action} {log log' : Log}

theorem RollFails.open {a : Active} (h : RollFails o a log log') (hlost : log.lost = []) :
    log'.Open := by
  cases h <;> exact ⟨rfl, hlost⟩

theorem Change.open (h : Change o act log log') (hact : act ≠ .close) (hopen : log.Open) :
    log'.Open := by
  cases h with
  | same => exact hopen
  | stopped => exact hopen
  | drained => exact ⟨rfl, hopen.2⟩
  | synced => exact hopen
  | noted => exact ⟨rfl, hopen.2⟩
  | acked _ h =>
    rw [h.log_eq]
    exact ⟨rfl, hopen.2⟩
  | failed h =>
    cases h with
    | refused => exact hopen
    | sealed => exact ⟨rfl, hopen.2⟩
    | stuck _ _ hroll => exact hroll.open hopen.2
  | rolled => exact ⟨rfl, hopen.2⟩
  | rollFailed _ _ h => exact h.open hopen.2
  | closed hclose => exact absurd hclose hact

theorem Action.keepsState_open (hact : act ≠ .close) : act.KeepsState Log.Open :=
  fun h hopen ↦ h.open hact hopen

end Writer

/-- **A close that succeeds** leaves a closed writer that has lost nothing. -/
theorem Node.close_cases {n : Node} {p : Process} {o : Oracle Op} (hproc : n.process = some p)
    (hopen : n.site.log.Open) :
    (∃ s, n.call o (walCall close) = (⟨s, some p⟩, some (.ok ())) ∧ s.log.Shut) ∨
    (∃ s e, n.call o (walCall close) = (⟨s, some p⟩, some (.error e))) ∨
    ∃ d, n.call o (walCall close) = (.down d, none) := by
  have htriple : Triple o (· = n.site) (walCall close p) (fun r s ↦ r = (p, ()) ∧ s.log.Shut)
      (fun _ _ ↦ True) fun _ ↦ True := by
    refine .bind (Q := fun _ s ↦ s.log.Shut) (.zoom fun s hs ↦ ?_) fun _ ↦ .ret fun _ h ↦ ⟨rfl, h⟩
    subst hs
    refine close_triple.conseq (fun _ ↦ id) ?_ (fun _ _ _ ↦ trivial) fun _ _ ↦ trivial
    rintro _ log (⟨hnone, -⟩ | ⟨a, hcloses⟩)
    · have hsome : n.site.wal.state.active.isSome = true := hopen.1
      rw [hnone] at hsome
      cases hsome
    · rcases hcloses.log_eq with rfl | rfl
      · exact ⟨rfl, rfl⟩
      · exact ⟨rfl, rfl⟩
  rcases Node.call_cases hproc htriple with ⟨r, s, heq, rfl, hs⟩ | ⟨e, s, heq, -⟩ | ⟨d, heq⟩
  · exact .inl ⟨s, heq, hs⟩
  · exact .inr (.inl ⟨s, e, heq⟩)
  · exact .inr (.inr ⟨d, heq⟩)

theorem Node.after_exited {crc : Bytes → UInt32} {n : Node} {p : Process} {o : Oracle Op}
    {act : Action} (hproc : n.process = some p) (hact : act.ofCommitter = true)
    (hexited : p.committer.pc = .exited) :
    n.after crc id o (.wal act) = ⟨n.site.setWal n.site.wal, some p⟩ := by
  unfold Node.after
  rw [hproc]
  cases act with
  | wait elapsed => simp only [Event.program, Action.program, hexited]; rfl
  | sync => simp only [Event.program, Action.program, hexited]; rfl
  | note => simp only [Event.program, Action.program, hexited]; rfl
  | roll => simp only [Event.program, Action.program, hexited]; rfl
  | _ => cases hact

/-! ## The invariant -/

namespace ServerPc

/-- The drain is over, and the error so far. -/
def drained : ServerPc → Option (Option Error)
  | .ending failure => some failure
  | .joining failure => some failure
  | .stopped failure => some failure
  | _ => none

/-- The timer has been joined. -/
def joined : ServerPc → Bool
  | .joining _ => true
  | .stopped _ => true
  | _ => false

/-- The close has returned. -/
def isStopped : ServerPc → Bool
  | .stopped _ => true
  | _ => false

private theorem drained_of_joined {pc : ServerPc} (hpc : pc.joined = true) :
    pc.drained.isSome = true := by
  cases pc <;> first | rfl | cases hpc

theorem isStopped_of_drained {pc : ServerPc} (hpc : pc.drained = none) : pc.isStopped = false := by
  cases pc <;> first | rfl | cases hpc

private theorem drained_of_left {pc : ServerPc} (hpc : pc.left = none) : pc.drained = none := by
  cases pc <;> first | rfl | cases hpc

end ServerPc

/-- The step ends a drain that has met with no error: nothing is left to read, or the time is over
after one more message. -/
def Host.EndsDrain (env : Env) (h : Host) : Prop :=
  h.pc = .closing none ∧
    (env.received = .again ∨ env.late = true ∧ ∃ msg, env.received = .message msg)

/-- How far an orderly end has come, after the events `past` of a server on `n`. -/
structure Host.Shutting (w : Setting) (n : Node) (past : List HostEvent) (h : Host) : Prop where
  orderly : h.pc.left = some none → h.stop = true ∧ h.asked = h.answered.map Prod.fst
  drained : h.pc.drained = some none → ∃ before env rest, past = before ++ .serve env :: rest ∧
    ((Host.bound n).run w before).EndsDrain env
  timer : h.pc.joined = true → h.timerStop = true
  running : ∀ p, h.node.process = some p → h.pc.isStopped = false → h.node.site.log.Open
  stopped : h.pc = .stopped none → h.node.site.log.Shut ∧
    ∃ p, h.node.process = some p ∧ p.committer.pc = .exited

section Invariant

variable {w : Setting} {n : Node} {p : Process} {h h' : Host} {ev : HostEvent} {env : Env}
  {past : List HostEvent}

private theorem Host.Shutting.bound (hopen : n.site.log.Open) : (Host.bound n).Shutting w n [] where
  orderly h := by cases h
  drained h := by cases h
  timer h := by cases h
  running _ _ _ := hopen
  stopped h := by cases h

private theorem Host.Shutting.keep (hs : h.Shutting w n past) (hpc : h'.pc = h.pc)
    (hasked : h'.asked = h.asked) (hanswered : h'.answered = h.answered)
    (htimer : h'.timerStop = h.timerStop) (hstop : h.stop = true → h'.stop = true)
    (hrunning : ∀ p', h'.node.process = some p' → h.pc.isStopped = false → h'.node.site.log.Open)
    (hstopped : h.pc = .stopped none → h'.node.site.log.Shut ∧
      ∃ p, h'.node.process = some p ∧ p.committer.pc = .exited) :
    h'.Shutting w n (past ++ [ev]) := by
  refine ⟨fun hleft ↦ ?_, fun hdrained ↦ ?_, ?_, ?_, ?_⟩
  · obtain ⟨hset, horder⟩ := hs.orderly (hpc ▸ hleft)
    exact ⟨hstop hset, by rw [hasked, hanswered, horder]⟩
  · obtain ⟨before, env, rest, rfl, hends⟩ := hs.drained (hpc ▸ hdrained)
    exact ⟨before, env, rest ++ [ev], by simp, hends⟩
  · rw [hpc, htimer]
    exact hs.timer
  · rw [hpc]
    exact hrunning
  · rw [hpc]
    exact hstopped

private theorem Host.shutting_early (hpc : h.pc.drained = none)
    (horderly : h.pc.left = some none → h.stop = true ∧ h.asked = h.answered.map Prod.fst)
    (hopen : ∀ p, h.node.process = some p → h.node.site.log.Open) : h.Shutting w n past := by
  refine ⟨horderly, fun hdrained ↦ ?_, fun hjoined ↦ ?_, fun p hp _ ↦ hopen p hp,
    fun hstopped ↦ ?_⟩
  · rw [hpc] at hdrained
    cases hdrained
  · have hdrained := ServerPc.drained_of_joined hjoined
    rw [hpc] at hdrained
    cases hdrained
  · rw [hstopped] at hpc
    cases hpc

private theorem Host.Shutting.endDrain (hs : h.Shutting w n past) {failure failure' : Option Error}
    (hpc : h.pc = .closing failure) (hfailure : failure' = none → failure = none)
    (hends : failure' = none → ∃ before env rest, past = before ++ .serve env :: rest ∧
      ((Host.bound n).run w before).EndsDrain env) :
    (h.goto (.ending failure')).Shutting w n past where
  orderly hleft := by
    have hnone : failure' = none := Option.some.inj hleft
    exact hs.orderly (by rw [hpc, hfailure hnone]; rfl)
  drained hdrained := hends (Option.some.inj hdrained)
  timer h := by cases h
  running p hp _ := hs.running p hp (by rw [hpc]; rfl)
  stopped h := by cases h

private theorem Host.Shutting.received (hs : h.Shutting w n past) {msg : Bytes} {m : Ingested}
    {o : Oracle Op} (hproc : h.node.process = some p) (hpc : h.pc.drained = none)
    (hread : Received w.crc p o msg h h' m) : h'.Shutting w n past := by
  obtain ⟨hasked, hanswered, hstop⟩ := hread.untouched
  refine Host.shutting_early (by rw [hread.pc, hpc]) (fun hleft ↦ ?_) fun p' hp' ↦ ?_
  · rw [hasked, hanswered, hstop]
    exact hs.orderly (hread.pc ▸ hleft)
  · have hopen := hs.running p hproc (ServerPc.isStopped_of_drained hpc)
    rcases hread.node with hnode | ⟨bytes, hnode⟩
    · rwa [hnode]
    · rw [hnode] at hp' ⊢
      obtain ⟨q, hq, -, hkeeps⟩ := Node.keeps_wal (Action.keepsState_open (by simp)) p' hp'
      exact hkeeps hopen

private theorem Host.Shutting.answered (hs : h.Shutting w n past) {request : Bytes}
    {o : Oracle Op} {r : Option ControlReply} (hproc : h.node.process = some p)
    (hpc : h.pc = .control) (hanswer : Answered w p.engine o request
      { h with asked := h.asked ++ [request] } h' r) :
    ∀ p', h'.node.process = some p' → h'.node.site.log.Open := by
  intro p' hp'
  have hopen := hs.running p hproc (by rw [hpc]; rfl)
  rcases hanswer.node with hnode | ⟨now, hnode⟩
  · rwa [hnode]
  · have hflush : h'.node = (h.node.call o fun p ↦ p.flush w.crc now).1 :=
      hnode.trans (Node.call_flush now id).symm
    rw [hflush] at hp' ⊢
    obtain ⟨q, hq, -, hkeeps⟩ := Node.keeps_flush (Action.keepsState_open (by simp)) now p' hp'
    exact hkeeps hopen

private theorem Host.Shutting.begin (hs : h.Shutting w n past) {failure : Option Error}
    (hpc : h.pc = .ending failure) : (h.beginClose w.crc failure).Shutting w n past where
  orderly hleft := hs.orderly (by rw [hpc]; exact hleft)
  drained hdrained := hs.drained (by rw [hpc]; exact hdrained)
  timer _ := rfl
  running p' hp' _ := by
    obtain ⟨q, hq, -, hkeeps⟩ := Node.keeps_wal (Action.keepsState_open (by simp)) p' hp'
    exact hkeeps (hs.running q hq (by rw [hpc]; rfl))
  stopped h := by cases h

private theorem Host.Shutting.close (hs : h.Shutting w n past) {failure : Option Error}
    {o : Oracle Op} (hproc : h.node.process = some p) (hpc : h.pc = .joining failure)
    (hexited : p.committer.pc = .exited) :
    { h with
      node := (h.node.call o (walCall Orc.close)).1
      pc := .closed failure (h.node.call o (walCall Orc.close)).2 }.Shutting w n past := by
  have hdrained := hs.drained
  have hjoined : h.timerStop = true := hs.timer (by rw [hpc]; rfl)
  have horderly := hs.orderly
  rw [hpc] at hdrained horderly
  rcases Node.close_cases hproc (hs.running p hproc (by rw [hpc]; rfl)) with
    ⟨s, hcall, hshut⟩ | ⟨s, e, hcall⟩ | ⟨d, hcall⟩
  · rw [hcall]
    refine ⟨horderly, hdrained, fun _ ↦ hjoined, fun _ _ hgoing ↦ ?_,
      fun _ ↦ ⟨hshut, p, rfl, hexited⟩⟩
    cases hgoing
  · rw [hcall]
    refine ⟨fun hleft ↦ ?_, fun hf ↦ ?_, fun _ ↦ hjoined, fun _ _ hgoing ↦ ?_, fun hnone ↦ ?_⟩
    · cases hleft
    · cases hf
    · cases hgoing
    · cases hnone
  · rw [hcall]
    refine ⟨horderly, hdrained, fun _ ↦ hjoined, fun _ halive _ ↦ ?_, fun hnone ↦ ?_⟩
    · cases halive
    · cases hnone

private theorem Host.Shutting.of_move (hs : h.Shutting w n past) {e : Engine} {asked : List Bytes}
    (hc : h.Control w e asked) (hrun : h = (Host.bound n).run w past)
    (hproc : h.node.process = some p) (hmove : h.Move w p env h') :
    h'.Shutting w n (past ++ [.serve env]) := by
  have hkept : h.Shutting w n (past ++ [.serve env]) :=
    hs.keep rfl rfl rfl rfl id hs.running hs.stopped
  have hloop : ∀ {h' : Host}, h'.node = h.node → h.pc.left = none → h'.pc.left ≠ some none →
      h'.pc.drained = none → h'.Shutting w n (past ++ [.serve env]) := by
    intro h' hnode hleft hleft' hdrained
    refine Host.shutting_early hdrained (fun hnone ↦ absurd hnone hleft') fun p' hp' ↦ ?_
    rw [hnode] at hp' ⊢
    exact hs.running p' hp' (ServerPc.isStopped_of_drained (ServerPc.drained_of_left hleft))
  -- why a drain without an error ends with this step
  have hends : ∀ {failure}, h.pc = .closing failure →
      env.received = .again ∨ env.late = true ∧ (∃ msg, env.received = .message msg) →
      failure = none → ∃ before env' rest, past ++ [HostEvent.serve env] =
        before ++ .serve env' :: rest ∧ ((Host.bound n).run w before).EndsDrain env' := by
    rintro failure hpc hwhy rfl
    exact ⟨past, env, [], rfl, hrun ▸ ⟨hpc, hwhy⟩⟩
  cases hmove with
  | idle => exact hkept
  | goes hgo =>
    obtain ⟨-, hleft⟩ := ServerPc.of_between hgo.between.1
    obtain ⟨-, hleft'⟩ := ServerPc.of_between hgo.between.2
    exact hloop rfl hleft (by simp [Host.goto, hleft']) (ServerPc.drained_of_left hleft')
  | leaves hpc hstop =>
    refine Host.shutting_early rfl (fun _ ↦ ⟨hstop, ?_⟩) fun p' hp' ↦ ?_
    · obtain ⟨rest, hrest, -, houtstanding⟩ := hc.order
      rw [houtstanding (by rw [hproc]; rfl) (by rw [hpc]; rfl), hpc] at hrest
      exact hrest.trans (List.append_nil _)
    · exact hs.running p' hp' (by rw [hpc]; rfl)
  | fails hfails => exact hloop rfl hfails.left (by simp [Host.fail, Host.goto, ServerPc.left]) rfl
  | reads hpc _ hread =>
    obtain ⟨-, hleft'⟩ := ServerPc.of_between (Host.between_nextDrain _ _)
    refine Host.shutting_early (ServerPc.drained_of_left hleft') ?_ fun p' hp' ↦ ?_
    · exact fun hnone ↦ by cases hleft'.symm.trans hnone
    · exact (hkept.received hproc (by rw [hpc]; rfl) hread).running p' hp'
        (by rw [hread.pc, hpc]; rfl)
  | asks hpc _ hanswer =>
    exact Host.shutting_early rfl (fun h ↦ by cases h) (hs.answered hproc hpc hanswer :)
  | dies hpc _ hanswer =>
    refine Host.shutting_early ?_ ?_ (hs.answered hproc hpc hanswer)
    · rw [hanswer.pc, hpc]
      rfl
    · rw [hanswer.pc, hpc]
      exact fun h ↦ by cases h
  | replies hpc => exact hloop rfl (by rw [hpc]; rfl) (by simp [ServerPc.left]) rfl
  | drains hpc _ hread => exact hkept.received hproc (by rw [hpc]; rfl) hread
  | drainsLate hpc hmsg hlate hread =>
    exact (hkept.received hproc (by rw [hpc]; rfl) hread).endDrain (hread.pc.trans hpc) id
      (hends hpc (.inr ⟨hlate, _, hmsg⟩))
  | drained hpc hreceived => exact hkept.endDrain hpc id (hends hpc (.inl hreceived))
  | drainFails hpc => exact hkept.endDrain hpc (by simp) (by simp)
  | begins hpc => exact hkept.begin hpc
  | closes hpc hexited => exact hkept.close hproc hpc hexited

private theorem Host.Shutting.of_turn (hs : h.Shutting w n past) {e : Engine} {asked : List Bytes}
    (hc : h.Control w e asked) (hrun : h = (Host.bound n).run w past)
    (hproc : h.node.process = some p) (hturn : h.Turn w p ev h') :
    h'.Shutting w n (past ++ [ev]) := by
  cases hturn with
  | serves hmove => exact hs.of_move hc hrun hproc hmove
  | rests => exact hs.keep rfl rfl rfl rfl id hs.running hs.stopped
  | flushes hruns _ _ hnode =>
    refine hs.keep rfl rfl rfl rfl id (fun p' hp' hpc ↦ ?_) fun hpc ↦ ?_
    · rw [← Node.call_flush] at hnode
      subst hnode
      obtain ⟨q, hq, -, hkeeps⟩ := Node.keeps_flush (Action.keepsState_open (by simp)) _ p' hp'
      exact hkeeps (hs.running q hq hpc)
    · -- the timer has been joined
      rw [Host.timerRuns, hs.timer (by rw [hpc]; rfl)] at hruns
      cases hruns
  | skips => exact hs.keep rfl rfl rfl rfl id hs.running hs.stopped
  | @commits o act hact =>
    refine hs.keep rfl rfl rfl rfl id (fun p' hp' hpc ↦ ?_) fun hpc ↦ ?_
    · have hne : act ≠ .close := by
        rintro rfl
        cases hact
      obtain ⟨q, hq, -, hkeeps⟩ := Node.keeps_wal (Action.keepsState_open hne) p' hp'
      exact hkeeps (hs.running q hq hpc)
    · obtain ⟨hshut, q, hq, hexited⟩ := hs.stopped hpc
      rw [Node.after_exited hq hact hexited]
      exact ⟨hshut, q, rfl, hexited⟩
  | signalled => exact hs.keep rfl rfl rfl rfl (fun _ ↦ rfl) hs.running hs.stopped

/-- **The end of a run**: how far it has come. -/
theorem Host.shutting_run (hproc : n.process = some p) (hopen : n.site.log.Open)
    (evs : List HostEvent) : ((Host.bound n).run w evs).Shutting w n evs := by
  induction evs using List.reverseRecOn with
  | nil => exact .bound hopen
  | append_singleton past ev hs =>
    have hc : ((Host.bound n).run w past).Control w p.engine _ := Host.control_run hproc past
    rw [Host.run_append]
    cases hq : ((Host.bound n).run w past).node.process with
    | none =>
      rw [Host.after_down hq]
      exact hs.keep rfl rfl rfl rfl id hs.running hs.stopped
    | some q => exact hs.of_turn hc rfl hq (Host.after_turn hq ev)

/-- A server that has stopped without an error, on a directory `d`. -/
structure Host.Halted (d : Disk) (h : Host) : Prop where
  pc : h.pc = .stopped none
  timer : h.timerStop = true
  exited : ∃ p, h.node.process = some p ∧ p.committer.pc = .exited
  disk : h.node.site.disk = d

theorem Host.Halted.after {d : Disk} (hh : h.Halted d) (ev : HostEvent) :
    (h.after w ev).Halted d := by
  obtain ⟨p, hp, hexited⟩ := hh.exited
  have hruns : h.timerRuns = false := by rw [Host.timerRuns, hh.timer]; rfl
  unfold Host.after
  rw [hp, if_neg (by simp)]
  cases ev with
  | serve env =>
    unfold Host.serve
    rw [hh.pc]
    exact hh
  | timer o now =>
    dsimp only
    rw [if_neg (by simp [hruns])]
    exact hh
  | commit o act =>
    dsimp only
    split_ifs with hact
    · rw [Node.after_exited hp hact hexited]
      exact ⟨hh.pc, hh.timer, ⟨p, rfl, hexited⟩, hh.disk⟩
    · exact hh
  | signal => exact ⟨hh.pc, hh.timer, hh.exited, hh.disk⟩

end Invariant

/-! ## Starting -/

section Starting

variable {α : Type} {P : Log → Prop}

theorem KeepsLog.attempt {p : SiteIo α} (hp : KeepsLog P p) : KeepsLog P (Prog.attempt p) := by
  intro o w hw hnot
  have hkeeps := hp o w hw
  simp only [Prog.attempt] at hnot ⊢
  generalize p o w = r at hkeeps hnot ⊢
  rcases r with ⟨_ | _ | _, w'⟩
  · exact hkeeps (by simp)
  · exact hkeeps (by simp)
  · exact absurd rfl hnot

theorem KeepsLog.ofExcept (r : Except Error α) : KeepsLog P (Prog.ofExcept r) := by
  intro o w hw _
  cases r <;> exact hw

theorem Process.startupFlush_keepsLog (hP : Action.sealSegment.KeepsState P) (crc : Bytes → UInt32)
    (p : Process) (now : ℕ) : KeepsLog P (p.startupFlush crc now) := by
  refine (KeepsLog.attempt (p.flush_keepsLog hP crc now)).bind fun r ↦ ?_
  cases r with
  | ok r => exact .ret _
  | error e => exact .ret _

private theorem openWriter_open {s : Site} {o : Oracle Op} (first : ℕ) (hs : s.log.lost = []) :
    Triple o (· = s) (onLog (openWriter first)) (fun _ s' ↦ s'.log.Open) (fun _ _ ↦ True)
      fun _ ↦ True := by
  refine .zoom fun s' hs' ↦ ?_
  subst hs'
  refine (openWriter_triple first).conseq (fun _ ↦ id) ?_ (fun _ _ _ ↦ trivial) fun _ _ ↦ trivial
  rintro _ log rfl
  exact ⟨rfl, hs⟩

/-- **An engine that has been opened** has an open writer. -/
theorem openEngine_open {crc : Bytes → UInt32} {lower : String → String} {config : Config} {now : ℕ}
    {o : Oracle Op} {w w' : World Site} {p : Process} (hw : w.disk.log.lost = [])
    (hrun : openEngine crc lower config now o w = (.ok p, w')) : w'.disk.log.Open := by
  rw [openEngine] at hrun
  obtain ⟨r, w₁, hprepare, hrun⟩ := Prog.bind_eq_ok.1 hrun
  obtain ⟨_, w₂, hopen, hrun⟩ := Prog.bind_eq_ok.1 hrun
  obtain ⟨engine, w₃, hengine, hrun⟩ := Prog.bind_eq_ok.1 hrun
  have hkeep₁ := KeepsLog.onDisk (P := fun log ↦ log.lost = [])
    (prepareOpen crc lower config) o w hw
  rw [hprepare] at hkeep₁
  have hopen₂ : w₂.disk.log.Open := (openWriter_open _ (hkeep₁ (by simp))).of_ok rfl hopen
  have hkeep₃ := KeepsLog.ofExcept (P := Log.Open) (Engine.new config r.1) o w₂ hopen₂
  rw [hengine] at hkeep₃
  have hopen₃ : w₃.disk.log.Open := hkeep₃ (by simp)
  split_ifs at hrun
  · have hkeep := Process.startupFlush_keepsLog (Action.keepsState_open (by simp)) crc
      { engine, manifest := r.1 } now o w₃ hopen₃
    rw [hrun] at hkeep
    exact hkeep (by simp)
  · cases hrun
    exact hopen₃

theorem Node.started_open {crc : Bytes → UInt32} {lower : String → String} {config : Config}
    {now : ℕ} {o : Oracle Op} {d : Disk}
    (hproc : ((Node.down d).after crc lower o (.start config now)).process.isSome = true) :
    ((Node.down d).after crc lower o (.start config now)).site.log.Open := by
  have hrun : ∀ p w', openEngine crc lower config now o ⟨⟨d, {}⟩, 0⟩ = (.ok p, w') →
      w'.disk.log.Open := fun p w' ↦ openEngine_open rfl
  unfold Node.after at hproc ⊢
  simp only [Node.down, Event.program] at hproc ⊢
  generalize openEngine crc lower config now o ⟨⟨d, {}⟩, 0⟩ = r at hrun hproc ⊢
  rcases r with ⟨p | e | _, w'⟩
  · exact hrun p w' rfl
  · cases hproc
  · cases hproc

end Starting

/-- **An orderly end loses nothing.** Start an engine on any directory and a server on it, and let
the run end with the server stopped without an error. Then it was told to stop, and every request
that it has read has been answered. It has judged every message that was handed over, and the drain
ended because the socket had no more or its time was over. The writer is closed and nothing was lost
from its buffer, and whatever happens to the host afterwards, the directory stays as it is. -/
theorem orderly_end (w : Setting) (lower : String → String) {d : Disk} {config : Config} {now : ℕ}
    {o : Oracle Op} {n : Node} (hn : n = (Node.down d).after w.crc lower o (.start config now))
    (hproc : n.process.isSome = true) (evs : List HostEvent)
    (hstopped : ((Host.bound n).run w evs).pc = .stopped none) :
    let h := (Host.bound n).run w evs
    h.stop = true ∧ h.asked = h.answered.map Prod.fst ∧
      h.ingested.map Ingested.msg =
        Machine.outputs (Host.after w) Host.batchesIn (Host.bound n) evs ∧
      (∃ before env rest, evs = before ++ .serve env :: rest ∧
        ((Host.bound n).run w before).EndsDrain env) ∧
      h.node.site.log.state.active = none ∧ h.node.site.log.lost = [] ∧
      ∀ later, (h.run w later).node.site.disk = h.node.site.disk := by
  intro h
  obtain ⟨p, hp⟩ := Option.isSome_iff_exists.1 hproc
  have hs : h.Shutting w n evs := Host.shutting_run hp (hn ▸ Node.started_open (hn ▸ hproc)) evs
  have hbooks : h.Books w.crc p.engine _ _ := Host.books_run hp evs
  obtain ⟨hset, hanswered⟩ := hs.orderly (by rw [hstopped]; rfl)
  obtain ⟨hshut, q, hq, hexited⟩ := hs.stopped hstopped
  have hhalted : h.Halted h.node.site.disk :=
    ⟨hstopped, hs.timer (by rw [hstopped]; rfl), ⟨q, hq, hexited⟩, rfl⟩
  refine ⟨hset, hanswered, hbooks.read, hs.drained (by rw [hstopped]; rfl), hshut.1, hshut.2,
    fun later ↦ ?_⟩
  have hlater : (h.run w later).Halted h.node.site.disk :=
    Machine.foldl_of_step (fun _ ev hh ↦ hh.after ev) hhalted
  exact hlater.disk

/-- A request to shut down, and two messages: one is read in the loop, and one in the drain. The
committer leaves when it is told to. -/
private def lastRun : List HostEvent :=
  [polled true true, handed (encodeBatchHeader 1 ++ sentFrame "t" "a" 946684800000000), passed,
    handed [2], passed, passed, handed (encodeBatchHeader 1 ++ sentFrame "t" "b" 946684800000000),
    passed, passed, .commit noFault (.wait false), passed]

private def lastHost : Host := (Host.bound sampleNode).run sampleSetting lastRun

private theorem lastHost_stopped : lastHost.pc = .stopped none ∧
    lastHost.answered.map Prod.snd = [.shuttingDown] ∧ lastHost.batches = 2 ∧
    (lastHost.ingested.map fun m ↦ m.acked && m.good.length == 1) = [true, true] := by
  decide +kernel

theorem orderly_end_drained :
    lastHost.answered.map Prod.snd = [.shuttingDown] ∧ lastHost.batches = 2 ∧
      lastHost.stop = true ∧ lastHost.node.site.log.lost = [] ∧
      ∀ later, (lastHost.run sampleSetting later).node.site.disk =
        lastHost.node.site.disk := by
  obtain ⟨hstopped, hanswered, hbatches, -⟩ := lastHost_stopped
  have hstart : sampleNode = (Node.down {}).after Bytes.crc32 id noFault
      (.start { series := [⟨"t", []⟩] } 0) := rfl
  obtain ⟨hstop, -, -, -, -, hlost, hlater⟩ :=
    orderly_end sampleSetting id hstart sampleNode_runs lastRun hstopped
  rw [← lastHost] at hstop hlost hlater
  exact ⟨hanswered, hbatches, hstop, hlost, hlater⟩

end Orc
