import Orc.Engine.Framing
import Orc.Engine.Node
import Orc.Net.Protocol

/-!
# The ingest server

A server polls two sockets. Batches come in on one, and are handed to the engine without an answer;
requests come in on the other, and each gets a reply. The loop goes on until it is told to stop or a
call on a socket fails, and then the queue of batches is drained and the engine closed.

A `Host` is the node and the server on it. One step of the server is one call on a socket and what
follows from it. What the call returns, the clock and the faults of the file system are arguments of
the step (`Env`). The sockets themselves are not modelled. libzmq takes the messages of its peers in
turn, splits those of several parts, refuses a reply that comes before the last part of its request
was read, and loses what was on a broken connection; none of this is decided here, since a call may
return anything at any time. Results that need more than that say so in a hypothesis about the calls
of a run. Between two steps anything else may happen: the timer flushes, the committer goes round
its loop, the stop handle is used.

Some fields are history: the messages read with what became of them, and the requests with the
replies that were sent.
-/

namespace Orc

open Bytes Fault

/-! ## Calls on a running engine -/

/-- The node after a call on its engine, and what the call returns. It returns nothing if no engine
is there, or if the process stops in the call. -/
def Node.call {α : Type} (o : Oracle Op) (p : Process → SiteIo (Process × α)) (n : Node) :
    Node × Option (Except Error α) :=
  match n.process with
  | none => (n, none)
  | some proc =>
    match p proc o ⟨n.site, 0⟩ with
    | (.ok r, w) => (⟨w.disk, some r.1⟩, some (.ok r.2))
    | (.err e, w) => (⟨w.disk, some proc⟩, some (.error e))
    | (.crash, w) => (.down w.disk.disk, none)

/-- A call on the log. -/
def walCall (p : WalIo Unit) (proc : Process) : SiteIo (Process × Unit) := do
  onLog p
  return (proc, ())

/-! ## Verdicts of raw ingest -/

/-- What raw ingest makes of a frame. -/
inductive Verdict where
  | taken
  | ts
  | series
  /-- The frame cannot be delimited, and the rest of the batch is dropped with it. -/
  | cut
  deriving DecidableEq, Repr

namespace Engine

/-- The checks in their order. -/
def verdict (e : Engine) (now : ℕ) (p : FramePrefix) : Verdict :=
  if (e.checkTs now p.ts).toBool then
    if e.known p then .taken else .series
  else .ts

/-- The verdicts on a batch, the first frame judged at reading `i` of the clock. The length of the
input is enough fuel. -/
def verdicts (crc : Bytes → UInt32) (e : Engine) (clock : ℕ → ℕ) : ℕ → ℕ → Bytes → List Verdict
  | 0, _, _ => []
  | fuel + 1, i, bytes =>
    if bytes.isEmpty then []
    else
      match validatePrefix crc bytes e.limit with
      | .error _ => [.cut]
      | .ok p => e.verdict (clock i) p :: e.verdicts crc clock fuel (i + 1) (bytes.drop p.frameLen)

end Engine

/-- The engine's counters, except the one of failed flushes. -/
structure Counters where
  appended : ℕ := 0
  rejectedTs : ℕ := 0
  rejectedSize : ℕ := 0
  rejectedSeries : ℕ := 0
  rejectedFrames : ℕ := 0
  rowsFlushed : ℕ := 0
  rowsDeduplicated : ℕ := 0
  deriving DecidableEq, Repr

namespace Counters

/-- The counters that are raised frame by frame. -/
def judged (c : Counters) (vs : List Verdict) : Counters :=
  { c with
    rejectedTs := c.rejectedTs + vs.count .ts
    rejectedSeries := c.rejectedSeries + vs.count .series }

/-- The counters that are raised once the log has taken what was accepted. -/
def settled (c : Counters) (out : Engine.RawIngest) : Counters :=
  { c with
    appended := c.appended + out.accepted
    rejectedFrames := c.rejectedFrames + out.rejected }

/-- The counters after a flush that succeeded. -/
def flushed (c : Counters) (outcome : FlushOutcome) : Counters :=
  { c with
    rowsFlushed := c.rowsFlushed + outcome.rowsWritten
    rowsDeduplicated := c.rowsDeduplicated + outcome.rowsDeduplicated }

end Counters

/-! ## The server -/

/-- Batches read after one poll. -/
def maxBatchesPerPoll : ℕ := 1024

/-- `CARGO_PKG_VERSION`. -/
def version : String := "0.1.0"

/-- What a poll returns; it may time out with nothing to read. -/
inductive Polled where
  | readable (ingest control : Bool)
  /-- `EINTR`. -/
  | interrupted
  | failed
  deriving DecidableEq, Repr

/-- What a call for a message returns. Of a message of several parts it is one part. -/
inductive Recv where
  | message (bytes : Bytes)
  /-- `EAGAIN`. -/
  | again
  /-- `EINTR`. -/
  | interrupted
  | failed
  deriving DecidableEq, Repr

/-- The message that was handed over, if one was. -/
def Recv.messages : Recv → List Bytes
  | .message bytes => [bytes]
  | _ => []

def zmqErr : Error := .config .zeromq

/-- Where the server stands between two calls on its sockets. -/
inductive ServerPc where
  /-- At the head of the loop. -/
  | polling
  /-- Reading batches, so many more at most; the poll also found a request if `control`. -/
  | draining (left : ℕ) (control : Bool)
  /-- About to read a request. -/
  | control
  /-- The reply to a request is to be sent. -/
  | replying (request : Bytes) (reply : ControlReply)
  /-- Out of the loop, for the given error if it was one, and draining the queue. -/
  | closing (failure : Option Error)
  /-- About to close the engine. An error of the drain counts if there was none before; the engine
  is then closed when it is dropped. -/
  | ending (failure : Option Error)
  /-- Waiting for the threads of the engine. -/
  | joining (failure : Option Error)
  | stopped (failure : Option Error)
  deriving DecidableEq, Repr

/-- What a step of the server meets with. It makes one call on a socket at most. -/
structure Env where
  polled : Polled := .readable false false
  received : Recv := .again
  /-- The reply was sent. -/
  sent : Bool := true
  oracle : Oracle Op := noFault
  clock : Clock
  /-- The time for draining is over. -/
  late : Bool := false
  /-- The size of the log can be measured. -/
  measured : Bool := true

/-- A message that was read: what was counted of it, the frames handed to the log, and whether all
went well. -/
structure Ingested where
  msg : Bytes
  verdicts : List Verdict := []
  good : List Bytes := []
  acked : Bool := true
  deriving DecidableEq, Repr

/-- What is given: the checksum, the texts of errors, and the bytes of requests and replies. -/
structure Setting where
  crc : Bytes → UInt32
  shown : Error → String
  wire : Wire

/-- A node with a server on it. -/
structure Host where
  node : Node
  counters : Counters := {}
  /-- The flush timer has been told to stop. -/
  timerStop : Bool := false
  pc : ServerPc := .polling
  stop : Bool := false
  batches : ℕ := 0
  /-- History: the messages read. -/
  ingested : List Ingested := []
  /-- History: the requests read, and the replies sent. -/
  asked : List Bytes := []
  answered : List (Bytes × ControlReply) := []
  deriving DecidableEq

namespace Host

section Steps

variable (crc : Bytes → UInt32)

/-- Raw ingest of the frames of a batch: the counters, and the append. -/
def ingestFrames (env : Env) (msg : Bytes) (vs : List Verdict) (out : Engine.RawIngest)
    (good : List Bytes) (h : Host) : Host :=
  let counters := h.counters.judged vs
  if good.flatten.isEmpty then
    { h with
      counters := counters.settled out
      ingested := h.ingested ++ [⟨msg, vs, good, true⟩] }
  else
    let r := h.node.call env.oracle (walCall (appendBytes good.flatten))
    match r.2 with
    | some (.ok ()) =>
      { h with
        node := r.1
        counters := counters.settled out
        ingested := h.ingested ++ [⟨msg, vs, good, true⟩] }
    | _ =>
      { h with
        node := r.1
        counters
        ingested := h.ingested ++ [⟨msg, vs, good, false⟩] }

/-- `Server::ingest_batch`. It never fails. -/
def ingestBatch (env : Env) (msg : Bytes) (h : Host) : Host :=
  match h.node.process with
  | none => h
  | some p =>
    match p.engine.ingestBatch crc env.clock msg with
    | none => { h with ingested := h.ingested ++ [{ msg }] }
    | some (_, out, good) =>
      let bytes := msg.drop batchHeaderBytes
      h.ingestFrames env msg (p.engine.verdicts crc env.clock bytes.length 0 bytes) out good

/-- A message was handed over. -/
def receive (env : Env) (msg : Bytes) (h : Host) : Host :=
  { h with batches := h.batches + 1 }.ingestBatch crc env msg

/-- `Engine::flush`, and what it returns if it does. -/
def flush (o : Oracle Op) (now : ℕ) (h : Host) : Host × Option (Except Error FlushOutcome) :=
  let r := h.node.call o fun p ↦ p.flush crc now
  match r.2 with
  | none => ({ h with node := r.1 }, none)
  | some (.error e) => ({ h with node := r.1 }, some (.error e))
  | some (.ok (.error e)) => ({ h with node := r.1 }, some (.error e))
  | some (.ok (.ok outcome)) =>
    ({ h with node := r.1, counters := h.counters.flushed outcome }, some (.ok outcome))

/-- All bytes of the log on disk. -/
def totalBytes (d : Disk) : ℕ := (d.wal.toList.map fun f ↦ f.2.bytes.length).sum

/-- `Engine::stats`; without the size of the log, that of the active segment is reported. -/
def stats (env : Env) (h : Host) : Stats where
  appended := .ofNat h.counters.appended
  rejectedTs := .ofNat h.counters.rejectedTs
  rejectedSize := .ofNat h.counters.rejectedSize
  rejectedSeries := .ofNat h.counters.rejectedSeries
  rejectedFrames := .ofNat h.counters.rejectedFrames
  flushFailures := .ofNat ((h.node.process.map Process.flushFailures).getD 0)
  rowsFlushed := .ofNat h.counters.rowsFlushed
  rowsDeduplicated := .ofNat h.counters.rowsDeduplicated
  walBytes := .ofNat ((h.node.site.log.state.active.map Active.bytes).getD 0)
  walTotalBytes :=
    if env.measured then .ofNat (totalBytes h.node.site.disk)
    else .ofNat ((h.node.site.log.state.active.map Active.bytes).getD 0)
  segment := .ofNat h.node.site.active

/-- `Server::schema`: the handles by name. -/
def schema (h : Host) : ControlReply :=
  match h.node.process with
  | none => .schema [] none
  | some p =>
    .schema (p.engine.handles.toList.map fun s ↦ ⟨s.2.name, s.2.epoch, s.2.keys⟩)
      (some (.ofNat (max p.engine.config.server.maxBatchBytes.toInt 0).toNat))

def flushReply (shown : Error → String) : Except Error FlushOutcome → ControlReply
  | .ok o => .flushed ⟨o.segmentsConsumed.map .ofNat, .ofNat o.rowsWritten,
      .ofNat o.rowsDeduplicated, .ofNat o.framesRejected⟩
  | .error e => .error (shown e)

variable (w : Setting)

/-- `Server::handle`; there is no reply if the process stops in it. -/
def handle (env : Env) (h : Host) : ControlRequest → Host × Option ControlReply
  | .ping => (h, some (.pong version))
  | .stats => (h, some (.stats ⟨h.stats env, .ofNat h.batches⟩))
  | .flush =>
    let r := h.flush w.crc env.oracle (env.clock 0)
    (r.1, r.2.map (flushReply w.shown))
  | .schema => (h, some h.schema)
  | .reloadConfig => (h, some (.error
      "reload-config is not implemented yet; restart the server to adopt a new config"))
  | .shutdown => ({ h with stop := true }, some .shuttingDown)

/-- The reply to a request, read or not. -/
def answer (env : Env) (h : Host) (request : Bytes) : Host × Option ControlReply :=
  match w.wire.readRequest request with
  | .error e => (h, some (.error ("unparseable request: " ++ e)))
  | .ok r => h.handle w env r

def goto (h : Host) (pc : ServerPc) : Host := { h with pc }

/-- The loop is left because of a socket. -/
def fail (h : Host) : Host := h.goto (.closing (some zmqErr))

/-- Where the loop goes after the batches. -/
def afterDrain : Bool → ServerPc
  | true => .control
  | false => .polling

/-- Where the loop goes after one turn of reading batches. -/
def nextDrain (left : ℕ) (control : Bool) : ServerPc :=
  if left ≤ 1 then afterDrain control else .draining (left - 1) control

/-- The poll. -/
def poll (env : Env) (h : Host) : Host :=
  match env.polled with
  | .interrupted => h
  | .failed => h.fail
  | .readable ingest control =>
    if ingest then h.goto (.draining maxBatchesPerPoll control) else h.goto (afterDrain control)

/-- One turn of `drain_ingest`. -/
def drainIngest (env : Env) (left : ℕ) (control : Bool) (h : Host) : Host :=
  match env.received with
  | .message msg => (h.receive crc env msg).goto (nextDrain left control)
  | .again => h.goto (afterDrain control)
  | .interrupted => h.goto (nextDrain left control)
  | .failed => h.fail

/-- `serve_control` up to the reply. The call waits for a request, so that `EAGAIN` is an error like
any other. -/
def serveControl (env : Env) (h : Host) : Host :=
  match env.received with
  | .message request =>
    let r := { h with asked := h.asked ++ [request] }.answer w env request
    match r.2 with
    | none => r.1
    | some reply => r.1.goto (.replying request reply)
  | .interrupted => h.goto .polling
  | .again => h.fail
  | .failed => h.fail

/-- Send a reply. -/
def sendReply (env : Env) (request : Bytes) (reply : ControlReply) (h : Host) : Host :=
  if env.sent then { h with pc := .polling, answered := h.answered ++ [(request, reply)] }
  else h.fail

/-- One turn of `drain_for_shutdown`; an interrupted one does not look at the time. -/
def drainForShutdown (env : Env) (failure : Option Error) (h : Host) : Host :=
  match env.received with
  | .message msg =>
    if env.late then (h.receive crc env msg).goto (.ending failure) else h.receive crc env msg
  | .again => h.goto (.ending failure)
  | .interrupted => h
  | .failed => h.goto (.ending (some (failure.getD zmqErr)))

/-- The first half of a close: the timer is joined and the committer told to stop. -/
def beginClose (failure : Option Error) (h : Host) : Host :=
  { h with
    timerStop := true
    node := h.node.after crc id noFault (.wal .stop)
    pc := .joining failure }

/-- The second half, once the committer is gone. -/
def endClose (env : Env) (failure : Option Error) (h : Host) : Host :=
  if (h.node.process.map fun p ↦ p.committer.pc) = some .exited then
    let r := h.node.call env.oracle (walCall close)
    match r.2 with
    | none => { h with node := r.1 }
    | some (.ok ()) => { h with node := r.1, pc := .stopped failure }
    | some (.error e) => { h with node := r.1, pc := .stopped (some (failure.getD e)) }
  else h

/-- **One step of the server.** -/
def serve (env : Env) (h : Host) : Host :=
  match h.pc with
  | .polling => if h.stop then h.goto (.closing none) else h.poll env
  | .draining left control => h.drainIngest w.crc env left control
  | .control => h.serveControl w env
  | .replying request reply => h.sendReply env request reply
  | .closing failure => h.drainForShutdown w.crc env failure
  | .ending failure => h.beginClose w.crc failure
  | .joining failure => h.endClose env failure
  | .stopped _ => h

end Steps

end Host

/-! ## Runs -/

/-- The sections of the committer. -/
def Action.ofCommitter : Action → Bool
  | .wait _ => true
  | .sync => true
  | .note => true
  | .roll => true
  | _ => false

/-- What happens to a host. -/
inductive HostEvent where
  | serve (env : Env)
  /-- The flush timer goes off. -/
  | timer (o : Oracle Op) (now : ℕ)
  /-- The committer runs a section. -/
  | commit (o : Oracle Op) (act : Action)
  /-- The stop handle is used. -/
  | signal

namespace Host

variable (w : Setting)

/-- The timer is there, and has not been told to stop. -/
def timerRuns (h : Host) : Bool :=
  !h.timerStop && h.node.process.any fun p ↦ p.engine.config.flush.intervalMs ≠ 0

/-- The host after an event. Without a process nothing happens to it any more. -/
def after (h : Host) (ev : HostEvent) : Host :=
  if h.node.process.isNone then h
  else
    match ev with
    | .serve env => h.serve w env
    | .timer o now => if h.timerRuns then (h.flush w.crc o now).1 else h
    | .commit o act =>
      if act.ofCommitter then { h with node := h.node.after w.crc id o (.wal act) } else h
    | .signal => { h with stop := true }

/-- A server just bound, on an engine just opened. -/
def bound (n : Node) : Host := { node := n }

end Host

end Orc
