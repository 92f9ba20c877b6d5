import Orc.Net.Conservation
import Orc.Net.Requests

/-!
# A client and its server

A client asks the server for its schema when it connects, and whenever it is told to. A request that
is not answered in time has failed for the client, and it may ask again before the reply to the
first one is there. The socket is set up so that such a reply is dropped: with `set_req_correlate`
libzmq hands over only replies to the last request. The client itself does not look at anything but
the reply. So what it holds of the server rests on that option, and the results here on the
hypothesis `Correlates`: each reply that was handed to a call had been sent by the server to a
request of the same bytes. Nothing else is assumed of the sockets of either side, and nothing of the
order in which the calls of the client and the steps of the server happened, since the replies of a
server only grow in number.

Under it, what a call returns is a reply to its own request, and a connected client is always in the
state that a handshake with the running server would leave (`replies_match_requests`). Every message
its socket took is then within the limit that the server gives its own socket
(`batches_within_limit`); libzmq drops longer ones without a word.
-/

namespace Orc

open Bytes Fault

/-! ## The control socket of a client -/

/-- What the control socket of a client returns to a request. -/
structure Exchange where
  /-- The timeout for a flush could be set. -/
  timeoutSet : Bool := true
  sent : Pushed := .taken
  received : Recv

/-- What is given of a client: also where its control socket is connected to, and how replies are
written out in errors. -/
structure ClientSetting extends Setting where
  controlEndpoint : String
  controlTimeoutMs : ℤ
  debug : ControlReply → String

/-- Receive timeout of a flush. -/
def flushTimeoutMs : ℤ := 600000

namespace Client

variable (w : ClientSetting)

/-- `Client::control_err`. -/
def controlErr (what : String) (waited : ℤ) (again : Bool) : Error :=
  if again then
    .config (.text ("could not " ++ what ++ " the control socket at " ++ w.controlEndpoint ++
      " within " ++ toString waited ++ " ms; is an orc server running there?"))
  else zmqErr

/-- `Client::control_inner`. -/
def controlInner (x : Exchange) (request : ControlRequest) (waited : ℤ) :
    Except Error ControlReply :=
  match w.wire.writeRequest request with
  | .error _ => .error .json
  | .ok _ =>
    match x.sent with
    | .again => .error (controlErr w "send to" w.controlTimeoutMs true)
    | .failed => .error (controlErr w "send to" w.controlTimeoutMs false)
    | .taken =>
      match x.received with
      | .message bytes =>
        match w.wire.readReply bytes with
        | .ok reply => .ok reply
        | .error _ => .error .json
      | .again => .error (controlErr w "get a reply from" waited true)
      | .interrupted => .error (controlErr w "get a reply from" waited false)
      | .failed => .error (controlErr w "get a reply from" waited false)

/-- `Client::control`. -/
def control (x : Exchange) (request : ControlRequest) : Except Error ControlReply :=
  if request = .flush then
    if x.timeoutSet then controlInner w x request flushTimeoutMs else .error zmqErr
  else controlInner w x request w.controlTimeoutMs

/-- The reply handed to a call, if it comes to wait for one. -/
def handed (x : Exchange) (request : ControlRequest) : List Bytes :=
  match w.wire.writeRequest request with
  | .error _ => []
  | .ok _ =>
    if (request ≠ .flush ∨ x.timeoutSet) ∧ x.sent = .taken then x.received.messages else []

end Client

/-- A connected client, and the requests whose call was handed a reply, with its bytes. -/
structure Peer where
  session : Client.Session
  heard : List (ControlRequest × Bytes) := []

namespace Peer

/-- A call on a connected client. -/
inductive Call where
  | send (s : RemoteSeries) (row : Row)
  | flush
  | refreshSchema (x : Exchange)
  | control (request : ControlRequest) (x : Exchange)

variable (w : ClientSetting) (answers : ℕ → Pushed)

/-- `ClientBuilder::connect`, from the handshake on. -/
def connect (b : ClientBuilder) (x : Exchange) : Option Peer :=
  match Client.control w x .schema with
  | .error _ => none
  | .ok reply =>
    match Client.connect b (reply.seen w.debug) with
    | .ok () c => some ⟨⟨c, []⟩, (Client.handed w x .schema).map (ControlRequest.schema, ·)⟩
    | .error _ _ => none

/-- One call, as its caller sees it. -/
def step (p : Peer) : Call → Peer
  | .send s row => { p with session := p.session.step w.crc answers (.send s row) }
  | .flush => { p with session := p.session.step w.crc answers .flush }
  | .refreshSchema x =>
    { session := match Client.control w x .schema with
        | .error _ => p.session
        | .ok reply => p.session.step w.crc answers (.refreshSchema (reply.seen w.debug))
      heard := p.heard ++ (Client.handed w x .schema).map (ControlRequest.schema, ·) }
  | .control request x =>
    { p with heard := p.heard ++ (Client.handed w x request).map (request, ·) }

/-- The client after some calls. -/
def run (p : Peer) (calls : List Call) : Peer := calls.foldl (step w answers) p

end Peer

/-- **What `set_req_correlate` gives.** Every reply handed to a call had been sent by the server, to
a request with the bytes of that call's. -/
def Correlates (w : ClientSetting) (h : Host) (p : Peer) : Prop :=
  ∀ y ∈ p.heard, ∃ a ∈ h.answered, w.wire.writeRequest y.1 = .ok a.1 ∧ y.2 = w.wire.replyBytes a.2

/-! ## Calls on a client -/

namespace Client

/-- A call that sends, or tries to: what else there is of the client is as before, and the socket
has taken what it had, and more only within the limit. -/
structure Onward (c c' : Client) : Prop where
  same : c' = { c with push := c'.push, buf := c'.buf, pending := c'.pending, stats := c'.stats }
  sizes : ∀ msg ∈ c'.push.taken, msg ∈ c.push.taken ∨ msg.length ≤ c.maxBatchBytes

variable {crc : Bytes → UInt32} {answers : ℕ → Pushed} {c c' c'' : Client}

private theorem Onward.refl (c : Client) : c.Onward c := ⟨rfl, fun _ ↦ .inl⟩

private theorem Onward.maxBatchBytes (h : c.Onward c') : c'.maxBatchBytes = c.maxBatchBytes := by
  rw [h.same]

private theorem Onward.trans (h : c.Onward c') (h' : c'.Onward c'') : c.Onward c'' := by
  refine ⟨?_, fun msg hmsg ↦ ?_⟩
  · rw [h'.same, h.same]
  · rcases h'.sizes msg hmsg with hold | hsize
    · exact h.sizes msg hold
    · exact .inr (h.maxBatchBytes ▸ hsize)

private theorem Onward.buffers (h : c.Onward c') (buf : Bytes) (pending : ℕ) :
    c.Onward { c' with buf, pending } :=
  ⟨by rw [h.same], h.sizes⟩

private theorem Onward.offers {msg : Bytes} (hmsg : msg.length ≤ c.maxBatchBytes)
    (hsame : c' = { c with push := c'.push, buf := c'.buf, pending := c'.pending, stats :=
      c'.stats })
    (hpush : c'.push = (c.push.send answers msg).2) : c.Onward c' := by
  refine ⟨hsame, fun m hm ↦ ?_⟩
  rw [hpush] at hm
  rcases Socket.mem_taken_send hm with hold | ⟨-, rfl⟩
  · exact .inl hold
  · exact .inr hmsg

variable (answers) in
private theorem flush_onward (c : Client) : c.Onward (after (flush answers) c) := by
  rw [after, flush_eq]
  split_ifs with hzero hover
  · exact .refl c
  · exact .refl c
  · have hlen : (encodeBatchHeader c.pending ++ c.buf).length ≤ c.maxBatchBytes := by
      have hheader : (encodeBatchHeader c.pending).length = batchHeaderBytes := by
        simp only [encodeBatchHeader, List.length_append, length_leBytes]
        rfl
      rw [List.length_append, hheader]
      omega
    cases (c.push.send answers (encodeBatchHeader c.pending ++ c.buf)).1 with
    | taken => exact .offers hlen rfl rfl
    | again => exact .offers hlen rfl rfl
    | failed => exact .offers hlen rfl rfl

private theorem flush_onward_of_ok (h : flush answers c = .ok () c') : c.Onward c' := by
  have honward := flush_onward answers c
  rwa [after, h] at honward

private theorem Readied.onward {f : Bytes} (h : Readied answers f c c') : c.Onward c' := by
  cases h with
  | behind => exact (Onward.refl c).buffers _ _
  | alone _ _ hflush => exact (flush_onward_of_ok hflush).buffers _ _

variable (answers) in
private theorem countFrame_onward (c : Client) : c.Onward (after (countFrame answers) c) := by
  have hcounted : c.Onward { c with pending := c.pending + 1 } := (Onward.refl c).buffers _ _
  rw [after, countFrame_eq]
  split_ifs with hfull
  · exact hcounted.trans (flush_onward answers _)
  · exact hcounted

private theorem send_onward (c : Client) (s : RemoteSeries) (row : Row) :
    c.Onward (after (send crc answers s row) c) := by
  rcases send_cases crc answers c s row with
    ⟨e, -, hsend⟩ | ⟨e, c', hflush, -, hsend⟩ | ⟨-, c', hready, hsend⟩
  · rw [after, hsend]
    exact .refl c
  · have honward := flush_onward answers c
    rw [after, hflush] at honward
    rwa [after, hsend]
  · have honward := hready.onward.trans (countFrame_onward answers c')
    rw [after] at honward ⊢
    rwa [hsend]

theorem Session.client_step (s : Session) (call : Call) :
    (s.step crc answers call).client = after (call.run crc answers) s.client := by
  rw [Session.step, after]
  cases call.run crc answers s.client with
  | ok u c => rfl
  | error e c => rfl

theorem Session.step_onward (s : Session) {call : Call}
    (hcall : ∀ seen, call ≠ .refreshSchema seen) :
    s.client.Onward (s.step crc answers call).client := by
  rw [Session.client_step]
  cases call with
  | send series row => exact send_onward _ series row
  | flush => exact flush_onward answers _
  | refreshSchema seen => exact absurd rfl (hcall seen)

/-- A handshake with a server whose engine is `e` would change nothing. -/
def Current (e : Engine) (c : Client) : Prop := refreshSchema e.schemaReply c = .ok () c

theorem Current.onward {e : Engine} (h : c.Current e) (honward : c.Onward c') : c'.Current e := by
  have hschema := congrArg Client.schema (EStateM.Result.ok.inj h).2
  have hlimit := congrArg Client.maxBatchBytes (EStateM.Result.ok.inj h).2
  rw [honward.same]
  change EStateM.Result.ok () _ = _
  rw [← hschema, ← hlimit]

theorem Current.limit {e : Engine} (h : c.Current e) :
    c.maxBatchBytes ≤ (max e.config.server.maxBatchBytes.toInt 0).toNat := by
  have hlimit := congrArg Client.maxBatchBytes (EStateM.Result.ok.inj h).2
  rw [← hlimit]
  exact min_le_right _ _

end Client

/-! ## Handshakes -/

/-- The greatest message a server with this engine says it takes. -/
def Engine.batchLimit (e : Engine) : ℕ := (max e.config.server.maxBatchBytes.toInt 0).toNat

section Handshakes

variable {w : ClientSetting} {answers : ℕ → Pushed} {e : Engine} {x : Exchange} {p : Peer}

/-- A reply handed to a call is one of the server's to its request, and is read as that. -/
def Answers (w : ClientSetting) (e : Engine) (y : ControlRequest × Bytes) : Prop :=
  ∃ reply, w.wire.readReply y.2 = .ok reply ∧ y.1.AnsweredBy w.shown e reply

private theorem ControlReply.seen_schema (debug : ControlReply → String) (e : Engine) :
    e.schema.seen debug = e.schemaReply := by
  have hlt : (max e.config.server.maxBatchBytes.toInt 0).toNat < 2 ^ 64 := by
    have := e.config.server.maxBatchBytes.toInt_lt
    omega
  rw [Engine.schema, ControlReply.seen, Engine.schemaReply, Option.map_some,
    UInt64.toNat_ofNat_of_lt' hlt]

private theorem Client.control_eq_ok {reply : ControlReply}
    (h : Client.control w x .schema = .ok reply) :
    ∃ bytes ∈ Client.handed w x .schema, w.wire.readReply bytes = .ok reply := by
  rw [Client.control, if_neg (by simp), Client.controlInner] at h
  rw [Client.handed]
  split at h
  · cases h
  · split at h
    · cases h
    · cases h
    · rename_i hsent
      split at h
      · rename_i bytes hreceived
        split at h
        · rename_i reply' hread
          cases h
          refine ⟨bytes, ?_, hread⟩
          simp [hsent, hreceived, Recv.messages]
        · cases h
      · cases h
      · cases h
      · cases h

private theorem Client.control_schema {reply : ControlReply}
    (h : Client.control w x .schema = .ok reply)
    (hheard : ∀ bytes ∈ Client.handed w x .schema, Answers w e (.schema, bytes)) :
    reply = e.schema := by
  obtain ⟨bytes, hmem, hread⟩ := Client.control_eq_ok h
  obtain ⟨reply', hread', hanswered⟩ := hheard bytes hmem
  cases hread.symm.trans hread'
  exact hanswered

/-- The client is as a handshake would leave it, and its socket took no message over the limit. -/
structure Peer.Agrees (e : Engine) (p : Peer) : Prop where
  current : p.session.client.Current e
  sizes : ∀ msg ∈ p.session.client.push.taken, msg.length ≤ e.batchLimit

private theorem Peer.agrees_connect {b : ClientBuilder} (h : Peer.connect w b x = some p)
    (hheard : ∀ y ∈ p.heard, Answers w e y) : p.Agrees e := by
  rw [Peer.connect] at h
  split at h
  · cases h
  · rename_i reply hcontrol
    split at h
    · rename_i c hconnect
      cases h
      obtain rfl := Client.control_schema hcontrol fun bytes hbytes ↦
        hheard _ (List.mem_map_of_mem hbytes)
      rw [ControlReply.seen_schema] at hconnect
      cases hconnect
      exact ⟨rfl, fun msg hmsg ↦ by cases hmsg⟩
    · cases h

private theorem Peer.Agrees.onward {s : Client.Session} (h : p.Agrees e)
    (honward : p.session.client.Onward s.client) : Peer.Agrees e { p with session := s } :=
  ⟨h.current.onward honward, fun msg hmsg ↦
    (honward.sizes msg hmsg).elim (h.sizes msg) fun hle ↦ hle.trans h.current.limit⟩

private theorem Peer.Agrees.step (h : p.Agrees e) (call : Peer.Call)
    (hheard : ∀ y ∈ (p.step w answers call).heard, Answers w e y) :
    (p.step w answers call).Agrees e := by
  cases call with
  | send s row => exact h.onward (p.session.step_onward (by simp))
  | flush => exact h.onward (p.session.step_onward (by simp))
  | control request x => exact ⟨h.current, h.sizes⟩
  | refreshSchema x =>
    rw [Peer.step] at hheard ⊢
    cases hcontrol : Client.control w x .schema with
    | error err => exact ⟨h.current, h.sizes⟩
    | ok reply =>
      obtain rfl := Client.control_schema hcontrol fun bytes hbytes ↦
        hheard _ (List.mem_append_right _ (List.mem_map_of_mem hbytes))
      dsimp only
      rw [ControlReply.seen_schema]
      exact ⟨rfl, h.sizes⟩

private theorem Peer.heard_step (w : ClientSetting) (answers : ℕ → Pushed) (p : Peer)
    (call : Peer.Call) : p.heard ⊆ (p.step w answers call).heard := by
  cases call with
  | send s row => exact List.Subset.refl _
  | flush => exact List.Subset.refl _
  | refreshSchema x => exact List.subset_append_left _ _
  | control request x => exact List.subset_append_left _ _

/-- **The handshakes of a client.** -/
theorem Peer.agrees_run {b : ClientBuilder} (h : Peer.connect w b x = some p)
    (calls : List Peer.Call)
    (hheard : ∀ y ∈ (p.run w answers calls).heard, Answers w e y) :
    (p.run w answers calls).Agrees e := by
  induction calls using List.reverseRecOn with
  | nil => exact Peer.agrees_connect h hheard
  | append_singleton past call ih =>
    have hstep : p.run w answers (past ++ [call]) = (p.run w answers past).step w answers call := by
      rw [Peer.run, Peer.run, List.foldl_append]
      rfl
    rw [hstep] at hheard ⊢
    exact (ih fun y hy ↦ hheard y (Peer.heard_step w answers _ call hy)).step call hheard

/-- **Replies that correlate** are the server's to the requests of their calls. -/
theorem Correlates.answered {n : Node} {q : Process} (hproc : n.process = some q)
    {evs : List HostEvent} {h : Host} (hrun : h = (Host.bound n).run w.toSetting evs)
    (hcorrelates : Correlates w h p) (hwire : w.wire.Faithful (h.answered.map Prod.snd)) :
    ∀ y ∈ p.heard, Answers w q.engine y := by
  intro y hy
  obtain ⟨a, ha, hwrite, hbytes⟩ := hcorrelates y hy
  have hc : h.Control w.toSetting q.engine _ := hrun ▸ Host.control_run hproc evs
  have hreply : Replies w.toSetting q.engine a.1 a.2 := hc.replies a ha
  rw [replies_iff (hwire.request _ _ hwrite)] at hreply
  exact ⟨a.2, hbytes ▸ hwire.reply a.2 (List.mem_map_of_mem ha), hreply⟩

end Handshakes

/-- **What a call returns is a reply to its own request.** Let a server and a client go through any
runs, where the replies handed to the client correlate with its requests and each side reads what
the other wrote. Then every reply handed to a call is read as one of the server's to the request of
that call; and the client holds the schema of the server and keeps to its limit, as if it had just
asked. -/
theorem replies_match_requests (w : ClientSetting) {n : Node} {q : Process}
    (hproc : n.process = some q) (evs : List HostEvent) (answers : ℕ → Pushed) {b : ClientBuilder}
    {x : Exchange} {p : Peer} (hconnect : Peer.connect w b x = some p) (calls : List Peer.Call)
    (hcorrelates : Correlates w ((Host.bound n).run w.toSetting evs) (p.run w answers calls))
    (hwire : w.wire.Faithful (((Host.bound n).run w.toSetting evs).answered.map Prod.snd)) :
    (∀ y ∈ (p.run w answers calls).heard, ∃ reply, w.wire.readReply y.2 = .ok reply ∧
        y.1.AnsweredBy w.shown q.engine reply) ∧
      (p.run w answers calls).session.client.Current q.engine := by
  have hheard := hcorrelates.answered hproc rfl hwire
  exact ⟨hheard, (Peer.agrees_run hconnect calls hheard).current⟩

/-! A client of the sample server: the reply to its second handshake comes too late, and it pings
the server and sends one record. -/

def sampleClient : ClientSetting := ⟨sampleSetting, "tcp://127.0.0.1:5556", 5000, fun _ ↦ ""⟩

private def answeringRun : List HostEvent :=
  [polled false true, handed [1], passed, polled false true, handed [1], passed,
    polled false true, handed [0], passed]

private def answeringHost : Host := (Host.bound sampleNode).run sampleSetting answeringRun

private theorem answeringHost_answered : answeringHost.answered =
    [([1], .schema [⟨"t", 0, []⟩] (some 8388608)), ([1], .schema [⟨"t", 0, []⟩] (some 8388608)),
      ([0], .pong version)] := by
  decide +kernel

private theorem answeringHost_faithful :
    sampleClient.wire.Faithful (answeringHost.answered.map Prod.snd) := by
  rw [answeringHost_answered]
  refine ⟨fun r bytes hwrite ↦ ?_, ?_⟩
  · cases r <;> cases hwrite <;> rfl
  · simp [sampleClient, sampleSetting, sampleWire, Wire.replyBytes]

private theorem connects :
    (Peer.connect sampleClient { batch := 1 } { received := .message [1] }).isSome = true := by
  decide +kernel

private def samplePeer : Peer :=
  (Peer.connect sampleClient { batch := 1 } { received := .message [1] }).get connects

private def lateCalls : List Peer.Call :=
  [.refreshSchema { received := .again }, .control .ping { received := .message [0] },
    .send ⟨"t", 0, []⟩ ⟨946684800000000, "a", [], [], ""⟩]

private def latePeer : Peer := samplePeer.run sampleClient (fun _ ↦ .taken) lateCalls

private theorem latePeer_heard : latePeer.heard = [(.schema, [1]), (.ping, [0])] ∧
    latePeer.session.client.push.taken.length = 1 := by
  decide +kernel

private theorem latePeer_correlates : Correlates sampleClient answeringHost latePeer := by
  rw [Correlates, latePeer_heard.1, answeringHost_answered]
  simp [sampleClient, sampleSetting, sampleWire, Wire.replyBytes]

theorem replies_match_requests_late :
    ∃ q, sampleNode.process = some q ∧ latePeer.heard = [(.schema, [1]), (.ping, [0])] ∧
      (∃ reply, sampleWire.readReply [0] = .ok reply ∧
        ControlRequest.ping.AnsweredBy sampleSetting.shown q.engine reply) ∧
      latePeer.session.client.Current q.engine := by
  obtain ⟨q, hq⟩ := Option.isSome_iff_exists.1 sampleNode_runs
  obtain ⟨hheard, hcurrent⟩ := replies_match_requests sampleClient hq answeringRun (fun _ ↦ .taken)
    (Option.some_get connects).symm lateCalls latePeer_correlates
    answeringHost_faithful
  refine ⟨q, hq, latePeer_heard.1, hheard (.ping, [0]) ?_, hcurrent⟩
  have hmem : (ControlRequest.ping, ([0] : Bytes)) ∈ latePeer.heard := by
    rw [latePeer_heard.1]
    simp
  exact hmem

/-- **No message is over the server's limit**, whatever limit the client was built with: let a
server and a client go through any runs, where the replies handed to the client correlate with its
requests and each side reads what the other wrote. Then every message that the client's socket took
has at most the length that the server allows its ingest socket. -/
theorem batches_within_limit (w : ClientSetting) {n : Node} {q : Process}
    (hproc : n.process = some q) (evs : List HostEvent) (answers : ℕ → Pushed) {b : ClientBuilder}
    {x : Exchange} {p : Peer} (hconnect : Peer.connect w b x = some p) (calls : List Peer.Call)
    (hcorrelates : Correlates w ((Host.bound n).run w.toSetting evs) (p.run w answers calls))
    (hwire : w.wire.Faithful (((Host.bound n).run w.toSetting evs).answered.map Prod.snd)) :
    ∀ msg ∈ (p.run w answers calls).session.client.push.taken,
      (msg.length : ℤ) ≤ max q.engine.config.server.maxBatchBytes.toInt 0 := by
  intro msg hmsg
  have hheard := hcorrelates.answered hproc rfl hwire
  have hle := (Peer.agrees_run hconnect calls hheard).sizes msg hmsg
  rw [Engine.batchLimit] at hle
  omega

theorem batches_within_limit_late :
    ∃ q, sampleNode.process = some q ∧ latePeer.session.client.push.taken.length = 1 ∧
      ∀ msg ∈ latePeer.session.client.push.taken,
        (msg.length : ℤ) ≤ max q.engine.config.server.maxBatchBytes.toInt 0 := by
  obtain ⟨q, hq⟩ := Option.isSome_iff_exists.1 sampleNode_runs
  exact ⟨q, hq, latePeer_heard.2, batches_within_limit sampleClient hq answeringRun
    (fun _ ↦ .taken) (Option.some_get connects).symm lateCalls latePeer_correlates
    answeringHost_faithful⟩

end Orc
