import Orc.Engine.Steps
import Orc.Net.Serving

/-!
# Steps of the server

`Host.Turn` says once what an event can do to a host whose process runs, and `Host.Move` what a step
of the server can. What holds of every run is read off them, here and in the modules that follow.
The cases carry what the calls on the sockets returned, because that is all that decides between
them; a call that fails is one case wherever it is made.

A run of the server is a run of its node. Every event of the host is at most one event of the node
(`Host.Steps`), so what was proved of those runs holds here, and only a crash takes the process
away.
-/

namespace Orc

open Bytes Fault

/-! ## What an event does -/

namespace ServerPc

/-- In the loop, with no reply to be sent. -/
def between : ServerPc → Bool
  | .polling => true
  | .draining _ _ => true
  | .control => true
  | _ => false

/-- The request whose reply is to be sent. -/
def outstanding : ServerPc → List Bytes
  | .replying request _ => [request]
  | _ => []

/-- Out of the loop, and the error so far. -/
def left : ServerPc → Option (Option Error)
  | .closing failure => some failure
  | .ending failure => some failure
  | .joining failure => some failure
  | .stopped failure => some failure
  | _ => none

/-- The next call is for a batch. -/
def takesBatch : ServerPc → Bool
  | .draining _ _ => true
  | .closing _ => true
  | _ => false

/-- The next call is for a request. -/
def takesRequest : ServerPc → Bool
  | .control => true
  | _ => false

/-- The call that is made here in the loop fails. -/
def Fails (env : Env) : ServerPc → Prop
  | .polling => env.polled = .failed
  | .draining _ _ => env.received = .failed
  | .control => env.received = .failed ∨ env.received = .again
  | .replying _ _ => env.sent = false
  | _ => False

/-- Where a close that has returned, or not, leaves the server. -/
def closed (failure : Option Error) : Option (Except Error Unit) → ServerPc
  | none => .joining failure
  | some (.ok ()) => .stopped failure
  | some (.error e) => .stopped (some (failure.getD e))

end ServerPc

namespace Host

/-- The batch handed over in an event. -/
def batchesIn (h : Host) : HostEvent → List Bytes
  | .serve env => if h.node.process.isSome && h.pc.takesBatch then env.received.messages else []
  | _ => []

/-- The request handed over in an event. -/
def requestsIn (h : Host) : HostEvent → List Bytes
  | .serve env => if h.node.process.isSome && h.pc.takesRequest then env.received.messages else []
  | _ => []

/-- Steps in the loop that only move it on. -/
inductive Goes (env : Env) (h : Host) : ServerPc → Prop
  | polls {ingest control : Bool} (hpc : h.pc = .polling) (hstop : h.stop = false)
      (hpolled : env.polled = .readable ingest control) :
      Goes env h (if ingest then .draining maxBatchesPerPoll control else afterDrain control)
  | retries (hpc : h.pc = .polling) (hstop : h.stop = false) (hpolled : env.polled = .interrupted) :
      Goes env h .polling
  | skips {left : ℕ} {control : Bool} (hpc : h.pc = .draining left control)
      (hreceived : env.received = .interrupted) : Goes env h (nextDrain left control)
  | empties {left : ℕ} {control : Bool} (hpc : h.pc = .draining left control)
      (hreceived : env.received = .again) : Goes env h (afterDrain control)
  | returns (hpc : h.pc = .control) (hreceived : env.received = .interrupted) :
      Goes env h .polling

section Turns

variable (w : Setting) (p : Process)

/-- What a step of the server can do while process `p` runs. -/
inductive Move (env : Env) (h : Host) : Host → Prop
  | idle (hleft : h.pc.left.isSome = true)
      (hmessage : h.pc.takesBatch = true → env.received.messages = []) : Move env h h
  | goes {pc : ServerPc} (hgo : h.Goes env pc) : Move env h (h.goto pc)
  | leaves (hpc : h.pc = .polling) (hstop : h.stop = true) : Move env h (h.goto (.closing none))
  | fails (hfails : h.pc.Fails env) : Move env h h.fail
  | reads {left : ℕ} {control : Bool} {msg : Bytes} {h' : Host} {m : Ingested}
      (hpc : h.pc = .draining left control) (hmsg : env.received = .message msg)
      (hread : Received w.crc p env.oracle msg h h' m) :
        Move env h (h'.goto (nextDrain left control))
  | asks {request : Bytes} {h' : Host} {reply : ControlReply}
      (hpc : h.pc = .control) (hrequest : env.received = .message request)
      (hanswer : Answered w p.engine env.oracle request { h with asked := h.asked ++ [request] } h'
        (some reply)) : Move env h (h'.goto (.replying request reply))
  | dies {request : Bytes} {h' : Host}
      (hpc : h.pc = .control) (hrequest : env.received = .message request)
      (hanswer : Answered w p.engine env.oracle request { h with asked := h.asked ++ [request] } h'
        none) : Move env h h'
  | replies {request : Bytes} {reply : ControlReply} (hpc : h.pc = .replying request reply)
      (hsent : env.sent = true) :
      Move env h { h with pc := .polling, answered := h.answered ++ [(request, reply)] }
  | drains {failure : Option Error} {msg : Bytes} {h' : Host} {m : Ingested}
      (hpc : h.pc = .closing failure) (hmsg : env.received = .message msg)
      (hread : Received w.crc p env.oracle msg h h' m) : Move env h h'
  | drainsLate {failure : Option Error} {msg : Bytes} {h' : Host} {m : Ingested}
      (hpc : h.pc = .closing failure) (hmsg : env.received = .message msg) (hlate : env.late = true)
      (hread : Received w.crc p env.oracle msg h h' m) : Move env h (h'.goto (.ending failure))
  | drained {failure : Option Error} (hpc : h.pc = .closing failure)
      (hreceived : env.received = .again) : Move env h (h.goto (.ending failure))
  | drainFails {failure : Option Error} (hpc : h.pc = .closing failure)
      (hreceived : env.received = .failed) :
      Move env h (h.goto (.ending (some (failure.getD zmqErr))))
  | begins {failure : Option Error} (hpc : h.pc = .ending failure) :
      Move env h (h.beginClose w.crc failure)
  | closes {failure : Option Error} (hpc : h.pc = .joining failure)
      (hexited : p.committer.pc = .exited) :
      Move env h { h with
        node := (h.node.call env.oracle (walCall close)).1
        pc := .closed failure (h.node.call env.oracle (walCall close)).2 }

/-- What an event can do while process `p` runs. -/
inductive Turn (h : Host) : HostEvent → Host → Prop
  | serves {env : Env} {h' : Host} (hmove : h.Move w p env h') :
      Turn h (.serve env) h'
  | rests {o : Oracle Op} {now : ℕ} (hnot : h.timerRuns = false) : Turn h (.timer o now) h
  | flushes {o : Oracle Op} {now : ℕ} {n : Node} {c : Counters} (hruns : h.timerRuns = true)
      (hcounters : h.counters.SameIngest c) (hquiet : h.node.Quiet n)
      (hnode : n = h.node.after w.crc id o (.flush now)) :
      Turn h (.timer o now) { h with node := n, counters := c }
  | skips {o : Oracle Op} {act : Action} (hact : act.ofCommitter = false) : Turn h (.commit o act) h
  | commits {o : Oracle Op} {act : Action} (hact : act.ofCommitter = true) :
      Turn h (.commit o act) { h with node := h.node.after w.crc id o (.wal act) }
  | signalled : Turn h .signal { h with stop := true }

end Turns

section Inversion

variable {w : Setting} {p : Process} {h : Host}

private theorem poll_move (hpc : h.pc = .polling) (hstop : h.stop = false) (env : Env) :
    h.Move w p env (h.poll env) := by
  rw [poll]
  cases hpolled : env.polled with
  | readable ingest control =>
    have hgo : h.Goes env _ := .polls hpc hstop hpolled
    cases ingest with
    | true => exact .goes hgo
    | false => exact .goes hgo
  | interrupted =>
    have hmove : h.Move w p env _ := .goes (.retries hpc hstop hpolled)
    rwa [goto, ← hpc] at hmove
  | failed => exact .fails (by rw [hpc]; exact hpolled)

private theorem drainIngest_move (hproc : h.node.process = some p) {left : ℕ} {control : Bool}
    (hpc : h.pc = .draining left control) (env : Env) :
    h.Move w p env (h.drainIngest w.crc env left control) := by
  rw [drainIngest]
  cases hreceived : env.received with
  | message msg =>
    obtain ⟨m, hread⟩ := receive_spec hproc env msg
    exact .reads hpc hreceived hread
  | again => exact .goes (.empties hpc hreceived)
  | interrupted => exact .goes (.skips hpc hreceived)
  | failed => exact .fails (by rw [hpc]; exact hreceived)

private theorem serveControl_move (hproc : h.node.process = some p) (hpc : h.pc = .control)
    (env : Env) : h.Move w p env (h.serveControl w env) := by
  rw [serveControl]
  cases hreceived : env.received with
  | message request =>
    have hproc' : { h with asked := h.asked ++ [request] }.node.process = some p := hproc
    have hanswer : Answered w p.engine env.oracle request _ _ _ := answer_spec hproc' env request
    dsimp only
    split
    · rename_i hnone
      rw [hnone] at hanswer
      exact .dies hpc hreceived hanswer
    · rename_i reply hsome
      rw [hsome] at hanswer
      exact .asks hpc hreceived hanswer
  | again => exact .fails (by rw [hpc]; exact .inr hreceived)
  | interrupted => exact .goes (.returns hpc hreceived)
  | failed => exact .fails (by rw [hpc]; exact .inl hreceived)

private theorem sendReply_move {request : Bytes} {reply : ControlReply}
    (hpc : h.pc = .replying request reply) (env : Env) :
    h.Move w p env (h.sendReply env request reply) := by
  rw [sendReply]
  split_ifs with hsent
  · exact .replies hpc hsent
  · exact .fails (by rw [hpc]; exact Bool.eq_false_iff.2 hsent)

private theorem drainForShutdown_move (hproc : h.node.process = some p) {failure : Option Error}
    (hpc : h.pc = .closing failure) (env : Env) :
    h.Move w p env (h.drainForShutdown w.crc env failure) := by
  rw [drainForShutdown]
  cases hreceived : env.received with
  | message msg =>
    obtain ⟨m, hread⟩ := receive_spec hproc env msg
    dsimp only
    split_ifs with hlate
    · exact .drainsLate hpc hreceived hlate hread
    · exact .drains hpc hreceived hread
  | again => exact .drained hpc hreceived
  | interrupted => exact .idle (by rw [hpc]; rfl) fun _ ↦ by rw [hreceived]; rfl
  | failed => exact .drainFails hpc hreceived

private theorem endClose_move (hproc : h.node.process = some p) {failure : Option Error}
    (hpc : h.pc = .joining failure) (env : Env) :
    h.Move w p env (h.endClose env failure) := by
  rw [endClose]
  split_ifs with hexited
  · have hmove : h.Move w p env _ := .closes hpc (by simpa [hproc] using hexited)
    generalize h.node.call env.oracle (walCall close) = r at hmove
    rcases r with ⟨n, _ | _ | _⟩
    · rw [ServerPc.closed, ← hpc] at hmove
      exact hmove
    · exact hmove
    · exact hmove
  · exact .idle (by rw [hpc]; rfl) fun htakes ↦ by rw [hpc] at htakes; cases htakes

/-- **One step of the server.** -/
theorem serve_move (hproc : h.node.process = some p) (env : Env) :
    h.Move w p env (h.serve w env) := by
  rw [serve]
  split
  · split_ifs with hstop
    · exact .leaves ‹_› hstop
    · exact poll_move ‹_› (by simpa using hstop) env
  · exact drainIngest_move hproc ‹_› env
  · exact serveControl_move hproc ‹_› env
  · exact sendReply_move ‹_› env
  · exact drainForShutdown_move hproc ‹_› env
  · exact .begins ‹_›
  · exact endClose_move hproc ‹_› env
  · rename_i hpc
    exact .idle (by rw [hpc]; rfl) fun htakes ↦ by rw [hpc] at htakes; cases htakes

/-- **One event.** -/
theorem after_turn (hproc : h.node.process = some p) (ev : HostEvent) :
    h.Turn w p ev (h.after w ev) := by
  unfold after
  rw [hproc, if_neg (by simp)]
  cases ev with
  | serve env => exact .serves (serve_move hproc env)
  | timer o now =>
    dsimp only
    split_ifs with hruns
    · obtain ⟨n, c, r, heq, hcounters, hquiet, -, hnode⟩ := flush_spec w.crc hproc o now
      rw [heq]
      exact .flushes hruns hcounters hquiet hnode
    · exact .rests (by simpa using hruns)
  | commit o act =>
    dsimp only
    split_ifs with hact
    · exact .commits hact
    · exact .skips (by simpa using hact)
  | signal => exact .signalled

theorem after_down (hproc : h.node.process = none) (ev : HostEvent) :
    h.after w ev = h := by
  unfold after
  rw [hproc]
  rfl

end Inversion

/-- The host after a run. -/
def run (w : Setting) (h : Host) (evs : List HostEvent) : Host := evs.foldl (after w) h

theorem run_append (w : Setting) (h : Host) (past : List HostEvent) (ev : HostEvent) :
    h.run w (past ++ [ev]) = (h.run w past).after w ev := by
  rw [run, run, List.foldl_append]
  rfl

end Host

/-! ## Places in the loop -/

theorem ServerPc.of_between {pc : ServerPc} (hpc : pc.between = true) :
    pc.outstanding = [] ∧ pc.left = none := by
  cases pc <;> first | exact ⟨rfl, rfl⟩ | cases hpc

theorem ServerPc.outstanding_of_left {pc : ServerPc} (hpc : pc.left.isSome = true) :
    pc.outstanding = [] := by
  cases pc <;> first | rfl | cases hpc

theorem ServerPc.Fails.left {env : Env} {pc : ServerPc} (h : pc.Fails env) : pc.left = none := by
  cases pc <;> first | rfl | cases h

private theorem Host.between_afterDrain (control : Bool) :
    (Host.afterDrain control).between = true := by
  cases control <;> rfl

theorem Host.between_nextDrain (left : ℕ) (control : Bool) :
    (Host.nextDrain left control).between = true := by
  rw [Host.nextDrain]
  split_ifs
  · exact Host.between_afterDrain control
  · rfl

theorem Host.Goes.between {h : Host} {env : Env} {pc : ServerPc} (hgo : h.Goes env pc) :
    h.pc.between = true ∧ pc.between = true := by
  cases hgo with
  | polls hpc =>
    refine ⟨by rw [hpc]; rfl, ?_⟩
    split_ifs
    · rfl
    · exact Host.between_afterDrain _
  | retries hpc => exact ⟨by rw [hpc]; rfl, rfl⟩
  | skips hpc => exact ⟨by rw [hpc]; rfl, Host.between_nextDrain _ _⟩
  | empties hpc => exact ⟨by rw [hpc]; rfl, Host.between_afterDrain _⟩
  | returns hpc => exact ⟨by rw [hpc]; rfl, rfl⟩

/-! ## The node under the server

Every step of a host is at most one event of its node, so that a run of the server is a run of the
node, and what holds of those holds here.
-/

/-- What the file system does in an event. -/
def HostEvent.oracle : HostEvent → Oracle Op
  | .serve env => env.oracle
  | .timer o _ => o
  | .commit o _ => o
  | _ => noFault

section Nodes

variable {crc : Bytes → UInt32} {w : Setting} {p : Process} {h h' : Host} {ev : HostEvent}

private theorem Node.settle_isSome {o : Oracle Op} {s : Site} {prog : SiteIo Process}
    (old : Process) (htriple : Triple o (· = s) prog (fun _ _ ↦ True) (fun _ _ ↦ True) fun _ ↦ True)
    (ho : ¬ Crashes o) : (Node.settle (some old) (prog o ⟨s, 0⟩)).process.isSome = true := by
  have huncrashed : Triple o (· = s) prog (fun _ _ ↦ True) (fun _ _ ↦ True) fun _ ↦ False :=
    htriple.uncrashed ho
  exact Node.settle_of_triple (R := fun n ↦ n.process.isSome = true) huncrashed (fun _ _ _ ↦ rfl)
    (fun _ _ _ ↦ rfl) fun _ hfalse ↦ hfalse.elim

/-- **Only a crash takes the process away.** -/
private theorem Node.after_isSome {n : Node} {o : Oracle Op} {lower : String → String} {e : Event}
    (hsound : Sound n.view) (hproc : n.process.isSome = true) (ho : ¬ Crashes o) (he : e ≠ .kill) :
    (n.after crc lower o e).process.isSome = true := by
  obtain ⟨p, hp⟩ := Option.isSome_iff_exists.1 hproc
  have hview : n.view = (p.manifest.lastFlushedSegment, n.site) := by
    rw [Node.view, Node.watermark, hp]
  unfold Node.after
  rw [hp]
  cases e with
  | start config now => exact hproc
  | kill => exact absurd rfl he
  | wal act =>
    refine Node.settle_isSome p (.bind (Q := fun _ _ ↦ True) (.zoom fun s _ ↦ ?_) fun _ ↦
      .ret fun _ _ ↦ trivial) ho
    exact act.program_triple.conseq (fun _ ↦ id) (fun _ _ _ ↦ trivial) (fun _ _ _ ↦ trivial)
      fun _ _ ↦ trivial
  | flush now =>
    have hflush : Triple o (· = n.site) (p.flush crc now) (fun _ _ ↦ True) (fun _ _ ↦ True)
        fun _ ↦ True :=
      (Process.flush_triple crc now (hview ▸ hsound) (fun h : False ↦ h.elim)
        (fun h : False ↦ h.elim) fun h : False ↦ h.elim).conseq (fun _ ↦ id) (fun _ _ _ ↦ trivial)
        (fun _ _ _ ↦ trivial) fun _ _ ↦ trivial
    exact Node.settle_isSome p (hflush.bind fun _ ↦ .ret fun _ _ ↦ trivial) ho

private theorem Node.after_stop (n : Node) (o o' : Oracle Op) :
    n.after crc id o (.wal .stop) = n.after crc id o' (.wal .stop) := by
  unfold Node.after
  cases n.process <;> rfl

/-- The events of a node whose engine runs. -/
def Event.running : Event → Bool
  | .wal _ => true
  | .flush _ => true
  | _ => false

private theorem Node.after_lower (lower : String → String) {n : Node} {o : Oracle Op} {e : Event}
    (he : e.running = true) : n.after crc id o e = n.after crc lower o e := by
  unfold Node.after
  cases e with
  | start => cases he
  | kill => cases he
  | wal act => cases n.process <;> rfl
  | flush now => cases n.process <;> rfl

/-- An event of the host is at most one of its node. -/
def Host.Steps (crc : Bytes → UInt32) (o : Oracle Op) (h h' : Host) : Prop :=
  h'.node = h.node ∨ ∃ e : Event, e.running = true ∧ h'.node = h.node.after crc id o e

private theorem Host.steps_of_move {env : Env} (hmove : h.Move w p env h') :
    h.Steps w.crc env.oracle h' := by
  have hread : ∀ {msg m h'}, Received w.crc p env.oracle msg h h' m → h'.node = h.node ∨
      ∃ e : Event, e.running = true ∧ h'.node = h.node.after w.crc id env.oracle e := fun hread ↦
    hread.node.imp_right fun ⟨_, hnode⟩ ↦ ⟨_, rfl, hnode⟩
  cases hmove with
  | reads _ _ h => exact (hread h :)
  | drains _ _ h => exact (hread h :)
  | drainsLate _ _ _ h => exact (hread h :)
  | asks _ _ h => exact h.node.imp_right fun ⟨_, hnode⟩ ↦ ⟨_, rfl, hnode⟩
  | dies _ _ h => exact h.node.imp_right fun ⟨_, hnode⟩ ↦ ⟨_, rfl, hnode⟩
  | begins => exact .inr ⟨.wal .stop, rfl, Node.after_stop h.node noFault env.oracle⟩
  | closes => exact .inr ⟨.wal .close, rfl, Node.call_walCall w.crc (fun _ _ ↦ rfl) id⟩
  | _ => exact .inl rfl

private theorem Host.steps_of_turn (hturn : h.Turn w p ev h') :
    h.Steps w.crc ev.oracle h' := by
  cases hturn with
  | serves hmove => exact Host.steps_of_move hmove
  | flushes _ _ _ hnode => exact .inr ⟨_, rfl, hnode⟩
  | commits => exact .inr ⟨_, rfl, rfl⟩
  | _ => exact .inl rfl

theorem Host.steps_after (h : Host) (ev : HostEvent) :
    h.Steps w.crc ev.oracle (h.after w ev) := by
  cases hproc : h.node.process with
  | none =>
    rw [Host.after_down hproc]
    exact .inl rfl
  | some p => exact Host.steps_of_turn (Host.after_turn hproc ev)

/-- The nodes of a host's run are those of a run of the node. -/
theorem Host.Steps.reaches {o : Oracle Op} {lower : String → String} {n₀ : Node}
    (hsteps : h.Steps crc o h') (hn : Node.Reaches crc lower (fun _ _ _ ↦ True) n₀ h.node) :
    Node.Reaches crc lower (fun _ _ _ ↦ True) n₀ h'.node := by
  rcases hsteps with hnode | ⟨e, he, hnode⟩
  · rwa [hnode]
  · exact hn.tail ⟨o, e, trivial, hnode.trans (Node.after_lower lower he)⟩

end Nodes

theorem Node.Reaches.sound {crc : Bytes → UInt32} {lower : String → String} {d : Disk} {n : Node}
    {allowed : Node → Oracle Op → Event → Prop} (hn : Node.Reaches crc lower allowed (.down d) n) :
    Sound n.view :=
  (hn.keeps False (I := fun _ ↦ True) (fun _ _ _ _ h ↦ h.elim) (fun _ _ _ _ _ _ _ _ ↦ trivial)
    (sound_down d) (Node.tidy_down fun h ↦ h.elim) trivial).1

/-- Without a crash the process lives on. -/
theorem Host.run_isSome {w : Setting} {h : Host} {lower : String → String} {d : Disk}
    (evs : List HostEvent)
    (hn : Node.Reaches w.crc lower (fun _ _ _ ↦ True) (.down d) h.node)
    (hproc : h.node.process.isSome = true) (hevs : ∀ ev ∈ evs, ¬ Crashes ev.oracle) :
    (h.run w evs).node.process.isSome = true := by
  induction evs generalizing h with
  | nil => exact hproc
  | cons ev evs ih =>
    have hsteps : h.Steps w.crc ev.oracle (h.after w ev) := h.steps_after ev
    rw [List.forall_mem_cons] at hevs
    refine ih (hsteps.reaches hn) ?_ hevs.2
    rcases hsteps with hnode | ⟨e, he, hnode⟩
    · rwa [hnode]
    · rw [hnode]
      refine Node.after_isSome hn.sound hproc hevs.1 ?_
      rintro rfl
      cases he


end Orc
