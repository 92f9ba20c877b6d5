import Mathlib.Data.List.TakeWhile
import Orc.Engine.Ingest

/-!
# The ingest client and the server's side of a batch

The client encodes records into a buffer and sends them in batches, full by count or by size; the
server checks the batch header and hands the rest to raw ingest. The socket is a list of the
messages it was offered. What it answers to each attempt is an argument: a message may be taken,
refused because the queue is full, or fail.

Every message taken is a header and whole frames (`Client.Reachable.ok`), but the client does not
know the server's limit on records: it bounds a frame by the batch, the server by
`max_record_bytes`. The walk of raw ingest over a message ends at the first frame over that limit.
-/

namespace Orc

open Bytes

/-! ## The handshake -/

/-- One series as the client needs to see it. -/
structure SeriesSchema where
  name : String
  /-- The epoch a client must stamp into frames it encodes against `keys`. -/
  epoch : UInt32
  keys : List KeyDef
  deriving DecidableEq, Repr

/-- A reply on the control socket, as far as the handshake tells replies apart. -/
inductive ControlResponse where
  | schema (series : List SeriesSchema) (maxBatchBytes : Option ℕ)
  | error (message : String)
  | other (shown : String)
  deriving DecidableEq, Repr

/-- The server's reply to a schema request; the handles are listed by name. -/
def Engine.schemaReply (e : Engine) : ControlResponse :=
  .schema (e.handles.toList.map fun h ↦ ⟨h.2.name, h.2.epoch, h.2.keys⟩)
    (some (max e.config.server.maxBatchBytes.toInt 0).toNat)

/-! ## The client -/

/-- What to do when the send queue is full. -/
inductive OnFull where
  | block
  | drop
  deriving DecidableEq, Repr

/-- A series resolved at handshake time. -/
structure RemoteSeries where
  name : String
  epoch : UInt32
  keys : List KeyDef
  deriving DecidableEq, Repr

/-- Counters for what a fire-and-forget socket cannot tell. -/
structure ClientStats where
  recordsSent : ℕ := 0
  recordsDropped : ℕ := 0
  batchesSent : ℕ := 0
  bytesSent : ℕ := 0
  deriving DecidableEq, Repr

/-- The answer of the socket to an attempt to send. -/
inductive Pushed where
  | taken
  /-- The queue is full and the call was not to wait. -/
  | again
  | failed
  deriving DecidableEq, Repr

/-- The socket: every message it was offered, with its answer. -/
structure Socket where
  offers : List (Bytes × Pushed) := []
  deriving DecidableEq, Repr

namespace Socket

/-- How many messages the socket was offered. -/
def offered (s : Socket) : ℕ := s.offers.length

/-- The messages the socket took. -/
def taken (s : Socket) : List Bytes := (s.offers.filter (·.2 = .taken)).map Prod.fst

/-- The messages the client is done with: the socket took them, or the queue was full. -/
def settled (s : Socket) : List (Bytes × Pushed) := s.offers.filter (·.2 ≠ .failed)

/-- Offer a message to the socket. -/
def send (answers : ℕ → Pushed) (s : Socket) (msg : Bytes) : Pushed × Socket :=
  (answers s.offered, ⟨s.offers ++ [(msg, answers s.offered)]⟩)

@[simp] theorem settled_send (answers : ℕ → Pushed) (s : Socket) (msg : Bytes) :
    (s.send answers msg).2.settled =
      s.settled ++ if answers s.offered = .failed then [] else [(msg, answers s.offered)] := by
  rw [send, settled, settled, List.filter_append]
  split_ifs with h
  · simp [h]
  · simp [h]

/-- A socket has taken a message before it was offered another, or takes the other. -/
theorem mem_taken_send {answers : ℕ → Pushed} {s : Socket} {msg m : Bytes}
    (h : m ∈ (s.send answers msg).2.taken) :
    m ∈ s.taken ∨ answers s.offered = .taken ∧ m = msg := by
  simp only [send, taken, List.filter_append, List.map_append, List.mem_append] at h
  rcases h with h | h
  · exact .inl h
  · by_cases htaken : answers s.offered = .taken
    · simp only [htaken, decide_true, List.filter_cons_of_pos, List.filter_nil, List.map_cons,
        List.map_nil, List.mem_singleton] at h
      exact .inr ⟨htaken, h⟩
    · simp [htaken] at h

end Socket

/-- A connected ingest client. -/
structure Client where
  push : Socket := {}
  schema : Std.ExtTreeMap String RemoteSeries := {}
  buf : Bytes := []
  pending : ℕ := 0
  batch : ℕ := 1024
  onFull : OnFull := .block
  stats : ClientStats := {}
  /-- In force: the lesser of the configured value and the server's. -/
  maxBatchBytes : ℕ := 8388608
  configuredMaxBatchBytes : ℕ := 8388608
  deriving DecidableEq

/-- The settings a client is built with. -/
structure ClientBuilder where
  batch : ℕ := 1024
  onFull : OnFull := .block
  maxBatchBytes : ℕ := 8388608
  deriving DecidableEq, Repr

namespace ClientBuilder

/-- Records per batch, at least one. -/
def withBatch (b : ClientBuilder) (records : ℕ) : ClientBuilder :=
  { b with batch := max records 1 }

/-- Largest message to send; the handshake lowers it to the server's limit. -/
def withMaxBatchBytes (b : ClientBuilder) (bytes : ℕ) : ClientBuilder :=
  { b with maxBatchBytes := max bytes (batchHeaderBytes + 1) }

end ClientBuilder

namespace Client

/-- Adopt the server's reply to a schema request. -/
def refreshSchema (reply : ControlResponse) : EStateM Error Client Unit :=
  match reply with
  | .schema series maxBatchBytes =>
    modify fun c ↦ { c with
      schema := series.foldl (fun m s ↦ m.insert s.name ⟨s.name, s.epoch, s.keys⟩) {}
      maxBatchBytes := match maxBatchBytes with
        | some server => min c.configuredMaxBatchBytes server
        | none => c.configuredMaxBatchBytes }
  | .error message => throw (.config (.text message))
  | .other shown => throw (.config (.text ("unexpected reply to a schema request: " ++ shown)))

/-- Connect and perform the schema handshake. -/
def connect (b : ClientBuilder) (reply : ControlResponse) : EStateM.Result Error Client Unit :=
  refreshSchema reply
    { batch := b.batch, onFull := b.onFull, maxBatchBytes := b.maxBatchBytes,
      configuredMaxBatchBytes := b.maxBatchBytes }

/-- Resolve a series by name. -/
def series (c : Client) (name : String) : Except Error RemoteSeries :=
  match c.schema[name]? with
  | some s => .ok s
  | none => .error (.unknownSeries name)

/-- What the socket's answer means to the counters; the batch is kept only on a failure. -/
def settle (msg : Bytes) : Pushed → EStateM Error Client Unit
  | .taken => modify fun c ↦ { c with
      stats := { c.stats with
        recordsSent := c.stats.recordsSent + c.pending
        batchesSent := c.stats.batchesSent + 1
        bytesSent := c.stats.bytesSent + msg.length }
      buf := []
      pending := 0 }
  | .again => modify fun c ↦ { c with
      stats := { c.stats with recordsDropped := c.stats.recordsDropped + c.pending }
      buf := []
      pending := 0 }
  | .failed => throw (.config .zeromq)

/-- Send whatever is buffered. -/
def flush (answers : ℕ → Pushed) : EStateM Error Client Unit := do
  let c ← get
  if c.pending = 0 then
    pure ()
  else if c.maxBatchBytes < batchHeaderBytes + c.buf.length then
    throw (.batchTooLarge (batchHeaderBytes + c.buf.length) c.maxBatchBytes)
  else
    let msg := encodeBatchHeader c.pending ++ c.buf
    let (r, push) := c.push.send answers msg
    set { c with push }
    settle msg r

section Checksum

variable (crc : Bytes → UInt32)

/-- Encode into the client's buffer. -/
def encodeInto (s : RemoteSeries) (row : Row) : EStateM Error Client Unit := fun c ↦
  match encode crc s.name s.epoch row c.buf with
  | .ok () buf => .ok () { c with buf }
  | .error e buf => .error e { c with buf }

/-- Send the earlier records if the newest frame, from `before` on, does not fit behind them. -/
def makeRoom (answers : ℕ → Pushed) (before : ℕ) : EStateM Error Client Unit := do
  let c ← get
  if 0 < before ∧ c.maxBatchBytes < batchHeaderBytes + c.buf.length then
    set { c with buf := c.buf.take before }
    flush answers
    modify fun c' ↦ { c' with buf := c'.buf ++ c.buf.drop before }
  else
    pure ()

/-- Count the newest frame, and send the batch when it is full by count. -/
def countFrame (answers : ℕ → Pushed) : EStateM Error Client Unit := do
  modify fun c ↦ { c with pending := c.pending + 1 }
  let c ← get
  if c.batch ≤ c.pending then flush answers else pure ()

/-- Buffer one record; send the batch when full by count or size. -/
def send (answers : ℕ → Pushed) (s : RemoteSeries) (row : Row) : EStateM Error Client Unit := do
  let before := (← get).buf.length
  encodeInto crc s row
  let c ← get
  let frame := c.buf.length - before
  if c.maxBatchBytes < batchHeaderBytes + frame then
    set { c with buf := c.buf.take before }
    throw (.batchTooLarge (batchHeaderBytes + frame) c.maxBatchBytes)
  else
    makeRoom answers before
    countFrame answers

end Checksum

/-- The client however a call on it ended. -/
def after (p : EStateM Error Client Unit) (c : Client) : Client :=
  match p c with
  | .ok () c' => c'
  | .error _ c' => c'

/-- A client some run of calls leads to. The series of a record need not be of the last
handshake. -/
inductive Reachable (crc : Bytes → UInt32) (answers : ℕ → Pushed) : Client → Prop
  | connect {b : ClientBuilder} {reply : ControlResponse} {c : Client}
      (h : connect b reply = .ok () c) : Reachable crc answers c
  | send {c : Client} (h : Reachable crc answers c) (s : RemoteSeries) (row : Row) :
      Reachable crc answers (after (send crc answers s row) c)
  | flush {c : Client} (h : Reachable crc answers c) :
      Reachable crc answers (after (flush answers) c)
  | refreshSchema {c : Client} (h : Reachable crc answers c) (reply : ControlResponse) :
      Reachable crc answers (after (refreshSchema reply) c)

/-! ## Messages are whole frames -/

/-- The frame of some record, as the client encodes it. -/
def Sendable (crc : Bytes → UInt32) (f : Bytes) : Prop :=
  ∃ series epoch row, Encodable series epoch row ∧
    (payloadBytes (stamped series epoch row)).length ≤ u32Max ∧ f = frameOf crc series epoch row

/-- A batch message of the given frames. -/
structure IsBatch (crc : Bytes → UInt32) (msg : Bytes) (fs : List Bytes) : Prop where
  ne_nil : fs ≠ []
  msg_eq : msg = encodeBatchHeader fs.length ++ fs.flatten
  frames : ∀ f ∈ fs, Sendable crc f

/-- The buffer holds counted frames and then `tail`, and every message taken is a batch. -/
structure Buffers (crc : Bytes → UInt32) (fs : List Bytes) (tail : Bytes) (c : Client) : Prop where
  buf_eq : c.buf = fs.flatten ++ tail
  pending_eq : c.pending = fs.length
  frames : ∀ f ∈ fs, Sendable crc f
  taken : ∀ msg ∈ c.push.taken, ∃ gs, IsBatch crc msg gs

/-- Between calls the buffer holds counted frames and nothing else. -/
def Ok (crc : Bytes → UInt32) (c : Client) : Prop := ∃ fs, Buffers crc fs [] c

/-- What holds of a client after a call, by how the call ended. -/
def Ends (Q E : Client → Prop) : EStateM.Result Error Client Unit → Prop
  | .ok () c => Q c
  | .error _ c => E c

section Runs

variable {crc : Bytes → UInt32} {answers : ℕ → Pushed}

theorem Ends.bind {p q : EStateM Error Client Unit} {Q R E : Client → Prop} {c : Client}
    (hp : Ends Q E (p c)) (hq : ∀ c', Q c' → Ends R E (q c')) :
    Ends R E ((do p; q : EStateM Error Client Unit) c) := by
  change Ends R E (EStateM.bind p (fun _ ↦ q) c)
  rw [EStateM.bind]
  generalize p c = r at hp ⊢
  cases r with
  | ok u c' => exact hq c' hp
  | error e c' => exact hp

theorem Ends.imp {Q Q' E E' : Client → Prop} {r : EStateM.Result Error Client Unit}
    (h : Ends Q E r) (hQ : ∀ c, Q c → Q' c) (hE : ∀ c, E c → E' c) : Ends Q' E' r := by
  cases r with
  | ok u c => exact hQ c h
  | error e c => exact hE c h

theorem flush_eq (c : Client) : flush answers c =
    if c.pending = 0 then .ok () c
    else if c.maxBatchBytes < batchHeaderBytes + c.buf.length then
      .error (.batchTooLarge (batchHeaderBytes + c.buf.length) c.maxBatchBytes) c
    else
      settle (encodeBatchHeader c.pending ++ c.buf)
        (c.push.send answers (encodeBatchHeader c.pending ++ c.buf)).1
        { c with push := (c.push.send answers (encodeBatchHeader c.pending ++ c.buf)).2 } := by
  simp only [flush, bind, EStateM.bind, get_apply]
  split_ifs
  · rfl
  · rfl
  · rfl

theorem flush_ends {fs : List Bytes} {c : Client} (h : Buffers crc fs [] c) :
    Ends (Buffers crc [] []) (Buffers crc fs []) (flush answers c) := by
  have hbuf := h.buf_eq
  rw [List.append_nil] at hbuf
  rw [flush_eq]
  by_cases hzero : c.pending = 0
  · rw [if_pos hzero]
    rw [h.pending_eq, List.length_eq_zero_iff] at hzero
    exact hzero ▸ h
  · rw [if_neg hzero]
    by_cases hsize : c.maxBatchBytes < batchHeaderBytes + c.buf.length
    · rw [if_pos hsize]
      exact h
    · rw [if_neg hsize]
      have hne : fs ≠ [] := by
        rw [h.pending_eq, List.length_eq_zero_iff] at hzero
        exact hzero
      have htaken : ∀ msg ∈ (c.push.send answers (encodeBatchHeader c.pending ++ c.buf)).2.taken,
          ∃ gs, IsBatch crc msg gs := by
        intro msg hmsg
        rcases Socket.mem_taken_send hmsg with hmsg | ⟨-, hmsg⟩
        · exact h.taken msg hmsg
        · exact ⟨fs, hne, by rw [hmsg, h.pending_eq, hbuf], h.frames⟩
      cases (c.push.send answers (encodeBatchHeader c.pending ++ c.buf)).1 with
      | taken => exact ⟨rfl, rfl, by simp, htaken⟩
      | again => exact ⟨rfl, rfl, by simp, htaken⟩
      | failed => exact ⟨h.buf_eq, h.pending_eq, h.frames, htaken⟩

theorem flush_keeps {fs : List Bytes} {c : Client} (h : Buffers crc fs [] c) :
    Ends (Ok crc) (Ok crc) (flush answers c) :=
  (flush_ends h).imp (fun _ hc ↦ ⟨[], hc⟩) (fun _ hc ↦ ⟨fs, hc⟩)

private theorem encodeInto_ends {fs : List Bytes} {c : Client} (h : Buffers crc fs [] c)
    (s : RemoteSeries) (row : Row) :
    Ends (fun c' ↦ ∃ f, Sendable crc f ∧ Buffers crc fs f c') (Buffers crc fs [])
      (encodeInto crc s row c) := by
  have hinner := emits_encodeInner crc s.name s.epoch row
  rw [encodeInto]
  by_cases hP : Encodable s.name s.epoch row ∧
      (payloadBytes (stamped s.name s.epoch row)).length ≤ u32Max
  · rw [(encode_eq_ok crc s.name s.epoch row).2 ⟨hP, rfl⟩]
    refine ⟨_, ⟨s.name, s.epoch, row, hP.1, hP.2, rfl⟩, ?_, h.pending_eq, h.frames, h.taken⟩
    change c.buf ++ _ = _
    rw [h.buf_eq, List.append_nil]
  · obtain ⟨e, more, he⟩ := hinner.err hP c.buf
    rw [encode, he]
    refine ⟨?_, h.pending_eq, h.frames, h.taken⟩
    change (c.buf ++ more).take c.buf.length = _
    rw [List.take_left, h.buf_eq]

private theorem makeRoom_ends {fs : List Bytes} {f : Bytes} {c : Client} (h : Buffers crc fs f c) :
    Ends (fun c' ↦ ∃ gs, Buffers crc gs f c') (Ok crc)
      (makeRoom answers fs.flatten.length c) := by
  simp only [makeRoom, bind, EStateM.bind, get_apply]
  have htake : c.buf.take fs.flatten.length = fs.flatten := by rw [h.buf_eq, List.take_left]
  have hdrop : c.buf.drop fs.flatten.length = f := by rw [h.buf_eq, List.drop_left]
  by_cases hroom : 0 < fs.flatten.length ∧ c.maxBatchBytes < batchHeaderBytes + c.buf.length
  · rw [if_pos hroom, htake, hdrop]
    have hearlier : Buffers crc fs [] { c with buf := fs.flatten } :=
      ⟨(List.append_nil _).symm, h.pending_eq, h.frames, h.taken⟩
    change Ends _ _ ((do flush answers; modify fun c' : Client ↦ { c' with buf := c'.buf ++ f } :
      EStateM Error Client Unit) { c with buf := fs.flatten })
    have hflush : Ends (Buffers crc [] []) (Ok crc)
        (flush answers { c with buf := fs.flatten }) :=
      (flush_ends hearlier).imp (fun _ ↦ id) fun _ hc ↦ ⟨fs, hc⟩
    refine Ends.bind hflush fun c' hc' ↦ ⟨[], ?_, hc'.pending_eq, hc'.frames, hc'.taken⟩
    change c'.buf ++ f = _
    rw [hc'.buf_eq]
    rfl
  · rw [if_neg hroom]
    exact ⟨fs, h⟩

theorem countFrame_eq (c : Client) : countFrame answers c =
    if c.batch ≤ c.pending + 1 then flush answers { c with pending := c.pending + 1 }
    else .ok () { c with pending := c.pending + 1 } := by
  simp only [countFrame, bind, EStateM.bind, modify_apply, get_apply]
  split_ifs
  · rfl
  · rfl

private theorem countFrame_ends {fs : List Bytes} {f : Bytes} {c : Client} (h : Buffers crc fs f c)
    (hf : Sendable crc f) : Ends (Ok crc) (Ok crc) (countFrame answers c) := by
  have hall : Buffers crc (fs ++ [f]) [] { c with pending := c.pending + 1 } := by
    refine ⟨by simp [h.buf_eq], by simp [h.pending_eq], fun g hg ↦ ?_, h.taken⟩
    rcases List.mem_append.1 hg with hg | hg
    · exact h.frames g hg
    · exact List.mem_singleton.1 hg ▸ hf
  rw [countFrame_eq]
  split_ifs
  · exact flush_keeps hall
  · exact ⟨_, hall⟩

/-- **Sending a record** keeps the client in order, whether it returns or fails. -/
theorem send_ends {c : Client} (h : Ok crc c) (s : RemoteSeries) (row : Row) :
    Ends (Ok crc) (Ok crc) (send crc answers s row c) := by
  obtain ⟨fs, hfs⟩ := h
  have hlen : c.buf.length = fs.flatten.length := by rw [hfs.buf_eq, List.append_nil]
  refine Ends.bind ((encodeInto_ends hfs s row).imp (fun _ ↦ id) fun _ hc ↦ ⟨fs, hc⟩) ?_
  rintro c' ⟨f, hf, hc'⟩
  by_cases hsize : c'.maxBatchBytes < batchHeaderBytes + (c'.buf.length - c.buf.length)
  · simp only [bind, EStateM.bind, get_apply, if_pos hsize]
    refine ⟨fs, ?_, hc'.pending_eq, hc'.frames, hc'.taken⟩
    change c'.buf.take c.buf.length = _
    rw [hc'.buf_eq, hlen, List.take_left, List.append_nil]
  · simp only [bind, EStateM.bind, get_apply, if_neg hsize]
    rw [hlen]
    exact Ends.bind (makeRoom_ends hc') fun c'' ⟨gs, hgs⟩ ↦ countFrame_ends hgs hf

theorem refreshSchema_ends {c : Client} (h : Ok crc c) (reply : ControlResponse) :
    Ends (Ok crc) (Ok crc) (refreshSchema reply c) := by
  obtain ⟨fs, hfs⟩ := h
  cases reply with
  | schema series maxBatchBytes => exact ⟨fs, hfs.buf_eq, hfs.pending_eq, hfs.frames, hfs.taken⟩
  | error message => exact ⟨fs, hfs⟩
  | other shown => exact ⟨fs, hfs⟩

theorem ok_after {p : EStateM Error Client Unit} {c : Client} (h : Ends (Ok crc) (Ok crc) (p c)) :
    Ok crc (after p c) := by
  rw [after]
  generalize p c = r at h ⊢
  cases r with
  | ok u c' => exact h
  | error e c' => exact h

/-- **Every message** the socket took is a batch of whole frames. -/
theorem Reachable.ok {c : Client} (h : Reachable crc answers c) : Ok crc c := by
  induction h with
  | @connect b reply c h =>
    have hends : Ends (Ok crc) (Ok crc) (Client.connect b reply) :=
      refreshSchema_ends ⟨[], rfl, rfl, by simp, by simp [Socket.taken]⟩ reply
    rw [h] at hends
    exact hends
  | send _ s row ih => exact ok_after (send_ends ih s row)
  | flush _ ih =>
    obtain ⟨fs, hfs⟩ := ih
    exact ok_after (flush_keeps hfs)
  | refreshSchema _ reply ih => exact ok_after (refreshSchema_ends ih reply)

end Runs

end Client

/-! ## The server's side -/

/-- `Server::ingest_batch`: the declared count, and what raw ingest makes of the rest; a message
with a bad header is dropped. -/
def Engine.ingestBatch (crc : Bytes → UInt32) (e : Engine) (clock : ℕ → ℕ) (msg : Bytes) :
    Option (ℕ × Engine.RawIngest × List Bytes) :=
  match parseBatchHeader msg with
  | .error _ => none
  | .ok count => some (count, e.appendRaw crc clock (msg.drop batchHeaderBytes))

theorem Client.Sendable.isFrame {crc : Bytes → UInt32} {f : Bytes} (h : Client.Sendable crc f) :
    IsFrame crc u32Max f := by
  obtain ⟨series, epoch, row, henc, hsize, rfl⟩ := h
  exact isFrame_frameBytes henc.1 hsize hsize

theorem Client.IsBatch.parse {crc : Bytes → UInt32} {msg : Bytes} {fs : List Bytes}
    (h : Client.IsBatch crc msg fs) :
    parseBatchHeader msg = .ok (fs.length % 2 ^ 32) ∧ msg.drop batchHeaderBytes = fs.flatten := by
  rw [h.msg_eq, parseBatchHeader_append]
  refine ⟨rfl, List.drop_left' ?_⟩
  simp only [encodeBatchHeader, List.length_append, length_leBytes]
  rfl

/-- The walk of raw ingest over a message: every frame in front of the first one over the limit is
judged on its own. -/
theorem Client.IsBatch.appendRaw_eq {crc : Bytes → UInt32} {msg : Bytes} {fs : List Bytes}
    (h : Client.IsBatch crc msg fs) (e : Engine) (clock : ℕ → ℕ) :
    let fits := fs.takeWhile fun f ↦ f.length ≤ frameHeaderBytes + e.limit
    let rest := (fs.dropWhile fun f ↦ f.length ≤ frameHeaderBytes + e.limit).flatten
    e.appendRaw crc clock (msg.drop batchHeaderBytes) =
      ({ accepted := (e.admitted crc clock 0 fits).length
         rejected := (fits.length - (e.admitted crc clock 0 fits).length) +
           if rest = [] then 0 else 1
         discardedBytes := rest.length }, e.admitted crc clock 0 fits) := by
  intro fits rest
  rw [h.parse.2]
  exact Engine.appendRaw_eq (cut_takeWhile fun f hf ↦ (h.frames f hf).isFrame)

theorem Client.IsBatch.rest_eq_nil_iff {crc : Bytes → UInt32} {msg : Bytes} {fs : List Bytes}
    (h : Client.IsBatch crc msg fs) (limit : ℕ) :
    (fs.dropWhile fun f ↦ f.length ≤ frameHeaderBytes + limit).flatten = [] ↔
      ∀ f ∈ fs, f.length ≤ frameHeaderBytes + limit := by
  have hne : ∀ f ∈ fs, f ≠ [] := by
    rintro f hf rfl
    have := (h.frames [] hf).isFrame.length_pos
    simp [frameHeaderBytes] at this
  constructor
  · intro hnil f hf
    have hdrop : (fs.dropWhile fun f ↦ f.length ≤ frameHeaderBytes + limit) = [] := by
      rw [List.eq_nil_iff_forall_not_mem]
      intro g hg
      have hmem : g ∈ fs := (List.dropWhile_sublist _).subset hg
      exact hne g hmem (List.flatten_eq_nil_iff.1 hnil g hg)
    simpa using List.dropWhile_eq_nil_iff.1 hdrop f hf
  · intro hall
    rw [List.dropWhile_eq_nil_iff.2 fun f hf ↦ by simpa using hall f hf]
    rfl

/-- **A batch at the server.** Every message the socket took is the frames the client put in, behind
their number modulo `2 ^ 32`. Raw ingest judges each frame in front of the first one whose payload
is over `max_record_bytes` on its own; it delimits all of them, and drops nothing, exactly if there
is no such frame. -/
theorem batch_judged_up_to_oversized {crc : Bytes → UInt32} {answers : ℕ → Pushed} {c : Client}
    (hc : c.Reachable crc answers) {msg : Bytes} (hmsg : msg ∈ c.push.taken) (e : Engine)
    (clock : ℕ → ℕ) :
    ∃ fs, Client.IsBatch crc msg fs ∧ parseBatchHeader msg = .ok (fs.length % 2 ^ 32) ∧
      msg.drop batchHeaderBytes = fs.flatten ∧
      (let fits := fs.takeWhile fun f ↦ f.length ≤ frameHeaderBytes + e.limit
       let rest := (fs.dropWhile fun f ↦ f.length ≤ frameHeaderBytes + e.limit).flatten
       e.ingestBatch crc clock msg = some (fs.length % 2 ^ 32,
        { accepted := (e.admitted crc clock 0 fits).length
          rejected := (fits.length - (e.admitted crc clock 0 fits).length) +
            if rest = [] then 0 else 1
          discardedBytes := rest.length }, e.admitted crc clock 0 fits)) ∧
      (let out := (e.appendRaw crc clock (msg.drop batchHeaderBytes)).1
       (out.discardedBytes = 0 ∧ out.accepted + out.rejected = fs.length) ↔
        ∀ f ∈ fs, f.length ≤ frameHeaderBytes + e.limit) := by
  obtain ⟨_, hbuf⟩ := hc.ok
  obtain ⟨fs, hfs⟩ := hbuf.taken msg hmsg
  refine ⟨fs, hfs, hfs.parse.1, hfs.parse.2, ?_, ?_⟩
  · intro fits rest
    rw [Engine.ingestBatch, hfs.parse.1, hfs.appendRaw_eq]
  · rw [hfs.appendRaw_eq]
    dsimp only
    rw [← hfs.rest_eq_nil_iff, List.length_eq_zero_iff]
    constructor
    · exact fun h ↦ h.1
    · intro h
      rw [if_pos h]
      refine ⟨h, ?_⟩
      have hall : (fs.takeWhile fun f ↦ f.length ≤ frameHeaderBytes + e.limit) = fs := by
        rw [List.takeWhile_eq_self_iff]
        exact fun f hf ↦ by simpa using (hfs.rest_eq_nil_iff e.limit).1 h f hf
      have hle : (e.admitted crc clock 0 fs).length ≤ fs.length :=
        Engine.length_admitted_le clock 0 fs
      rw [hall]
      omega

/-! A server whose records may have 24 bytes, and a client that sends it one of 25 and one of 23. -/

private def smallConfig : Config := { limits := { maxRecordBytes := 24 }, series := [⟨"t", []⟩] }

private def smallManifest : Manifest := { series := {("t", [⟨0, []⟩])} }

private def smallEngine : Engine :=
  ⟨smallConfig, {("t", ⟨"t", [], 0⟩)}, 946684800000000, 86400000000⟩

private def remote : RemoteSeries := ⟨"t", 0, []⟩

private def longRow : Row := ⟨946684800000001, "", [], [], "xx"⟩

private def shortRow : Row := ⟨946684800000001, "", [], [], ""⟩

private def longFrame : Bytes := frameOf crc32 "t" 0 longRow

private def shortFrame : Bytes := frameOf crc32 "t" 0 shortRow

private def pairMessage : Bytes := encodeBatchHeader 2 ++ (longFrame ++ shortFrame)

private def connected : Client := { batch := 2, schema := {("t", remote)} }

private def buffered : Client := { connected with buf := longFrame, pending := 1 }

private def sentPair : Client :=
  { connected with push := ⟨[(pairMessage, .taken)]⟩, stats := ⟨2, 0, 1, pairMessage.length⟩ }

/-- A record over `max_record_bytes` costs the record behind it, which alone would be accepted: both
were sent, both are declared, and the server counts one. -/
theorem oversized_record_costs_neighbour :
    smallConfig.validate id = .ok () ∧ Engine.new smallConfig smallManifest = .ok smallEngine ∧
    Client.connect { batch := 2 } smallEngine.schemaReply = .ok () connected ∧
    Client.send crc32 (fun _ ↦ .taken) remote longRow connected = .ok () buffered ∧
    Client.send crc32 (fun _ ↦ .taken) remote shortRow buffered = .ok () sentPair ∧
    sentPair.push.taken = [pairMessage] ∧ parseBatchHeader pairMessage = .ok 2 ∧
    (smallEngine.appendRaw crc32 (fun _ ↦ 946684800000001)
      (pairMessage.drop batchHeaderBytes)).1 = ⟨0, 1, 64⟩ ∧
    (smallEngine.appendRaw crc32 (fun _ ↦ 946684800000001) shortFrame).1 = ⟨1, 0, 0⟩ := by
  decide +kernel

private def trioMessage : Bytes := encodeBatchHeader 3 ++ (shortFrame ++ longFrame ++ shortFrame)

private def sentTrio : Client where
  batch := 3
  schema := {("t", remote)}
  push := ⟨[(trioMessage, .taken)]⟩
  stats := ⟨3, 0, 1, trioMessage.length⟩

private theorem sentTrio_reachable : sentTrio.Reachable crc32 fun _ ↦ .taken := by
  let c : Client := { batch := 3, schema := {("t", remote)} }
  have hconnect : c.Reachable crc32 fun _ ↦ .taken :=
    .connect (show Client.connect { batch := 3 } smallEngine.schemaReply = .ok () c by
      decide +kernel)
  have hsent : Client.after (Client.send crc32 (fun _ ↦ .taken) remote shortRow)
      (Client.after (Client.send crc32 (fun _ ↦ .taken) remote longRow)
        (Client.after (Client.send crc32 (fun _ ↦ .taken) remote shortRow) c)) = sentTrio := by
    decide +kernel
  have h := ((hconnect.send remote shortRow).send remote longRow).send remote shortRow
  rw [hsent] at h
  exact h

/-- A record, one over the limit and the first record again: the first is judged on its own and
accepted, the other two are discarded and count as one reject. -/
theorem batch_judged_up_to_oversized_trio :
    sentTrio.Reachable crc32 (fun _ ↦ .taken) ∧ trioMessage ∈ sentTrio.push.taken ∧
      smallEngine.ingestBatch crc32 (fun _ ↦ 946684800000001) trioMessage =
        some (3, ⟨1, 1, longFrame.length + shortFrame.length⟩, [shortFrame]) ∧
      ∃ fs, Client.IsBatch crc32 trioMessage fs ∧ fs.length % 2 ^ 32 = 3 ∧
        smallEngine.admitted crc32 (fun _ ↦ 946684800000001) 0
          (fs.takeWhile fun f ↦ f.length ≤ frameHeaderBytes + smallEngine.limit) = [shortFrame] ∧
        ¬ ∀ f ∈ fs, f.length ≤ frameHeaderBytes + smallEngine.limit := by
  have hmem : trioMessage ∈ sentTrio.push.taken := by decide +kernel
  have hruns : smallEngine.ingestBatch crc32 (fun _ ↦ 946684800000001) trioMessage =
      some (3, ⟨1, 1, longFrame.length + shortFrame.length⟩, [shortFrame]) := by decide +kernel
  have hdiscards : (smallEngine.appendRaw crc32 (fun _ ↦ 946684800000001)
      (trioMessage.drop batchHeaderBytes)).1.discardedBytes ≠ 0 := by decide +kernel
  obtain ⟨fs, hbatch, -, -, hjudged, hall⟩ :=
    batch_judged_up_to_oversized sentTrio_reachable hmem smallEngine fun _ ↦ 946684800000001
  obtain ⟨hcount, houtcome⟩ := Prod.mk.inj (Option.some.inj (hjudged.symm.trans hruns))
  exact ⟨sentTrio_reachable, hmem, hruns, fs, hbatch, hcount, (Prod.mk.inj houtcome).2,
    fun hfits ↦ hdiscards (hall.2 hfits).1⟩

end Orc
