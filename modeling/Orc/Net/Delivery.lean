import Mathlib.Data.List.Flatten
import Orc.Net.Handshake

/-!
# From a client's records to the log

A record goes from a client's buffer into a batch, with the batch to the server, and from there, if
the engine admits it, into the log. What happens between the two sockets is libzmq's, and enters as
a hypothesis about which messages the server has read. `mine` says of each of them whether it came
from the client in question; the others are from other clients, or from anyone.

`PerPeerFifo` is what a connection gives: messages of one peer arrive in order and each once, and
some may be lost with a connection. Then what the server has admitted of the client's records is a
part of what the client accepted, in the same order and nothing twice
(`records_delivered_in_order`). `Delivers` is what a connection that was never broken gives once it
has carried everything: all messages were read but those over `ZMQ_MAXMSGSIZE`, which libzmq drops.
The client sends no such message (`batches_within_limit`), so then every record it accepted has been
judged, and is in the log if the engine admitted it and the append succeeded
(`accepted_records_logged`).

A client's own books are those of `Client.Session.Inv`; they hold as long as its socket does not
fail, since a failed send may have kept its record.
-/

namespace Orc

open Bytes

/-- The message of a batch. -/
def batchOf (fs : List Bytes) : Bytes := encodeBatchHeader fs.length ++ fs.flatten

/-! ## What the server makes of a batch -/

section Judged

variable {crc : Bytes → UInt32} {e : Engine} {m : Ingested}

private theorem Engine.admitted_sublist (clock : ℕ → ℕ) (i : ℕ) (fs : List Bytes) :
    (e.admitted crc clock i fs).Sublist fs := by
  induction fs generalizing i with
  | nil => exact .slnil
  | cons f fs ih =>
    rw [admitted]
    split_ifs
    · exact (ih (i + 1)).cons_cons f
    · exact (ih (i + 1)).cons f

private theorem Engine.appendRaw_flatten {fs : List Bytes}
    (hframes : ∀ f ∈ fs, IsFrame crc u32Max f) (clock : ℕ → ℕ) :
    (e.appendRaw crc clock fs.flatten).2.Sublist fs ∧
      ((e.appendRaw crc clock fs.flatten).1.rejected = 0 →
        (e.appendRaw crc clock fs.flatten).2 = fs) := by
  have hcut : Cut crc e.limit fs.flatten (fs.takeWhile fun f ↦ f.length ≤ frameHeaderBytes +
    e.limit)
    (fs.dropWhile fun f ↦ f.length ≤ frameHeaderBytes + e.limit).flatten := cut_takeWhile hframes
  have hsplit : fs.takeWhile _ ++ fs.dropWhile _ = fs :=
    fs.takeWhile_append_dropWhile (p := fun f ↦ f.length ≤ frameHeaderBytes + e.limit)
  have hrest : ∀ f ∈ fs.dropWhile fun f ↦ f.length ≤ frameHeaderBytes + e.limit, f ≠ [] := by
    rintro f hf rfl
    have hpos := (hframes [] ((List.dropWhile_sublist _).subset hf)).length_pos
    simp [frameHeaderBytes] at hpos
  rw [Engine.appendRaw_eq hcut]
  generalize fs.takeWhile _ = fits at hsplit
  generalize fs.dropWhile _ = rest at hsplit hrest
  have hsub : (e.admitted crc clock 0 fits).Sublist fits := e.admitted_sublist clock 0 fits
  refine ⟨hsub.trans (hsplit ▸ List.sublist_append_left fits rest), fun hzero ↦ ?_⟩
  dsimp only at hzero ⊢
  have hnone : rest = [] := by
    rw [List.eq_nil_iff_forall_not_mem]
    intro f hf
    refine hrest f hf (List.flatten_eq_nil_iff.1 ?_ f hf)
    by_contra hne
    rw [if_neg hne] at hzero
    omega
  have hall : (e.admitted crc clock 0 fits).length = fits.length := by
    have hle := hsub.length_le
    omega
  rw [hsub.eq_of_length hall, ← hsplit, hnone, List.append_nil]

/-- **A batch at the server**: some of its frames are taken, in order; all of them if no verdict is
against one. -/
private theorem Judges.of_batch (hjudged : Judges crc e m) {fs : List Bytes}
    (hmsg : m.msg = batchOf fs) (hframes : ∀ f ∈ fs, IsFrame crc u32Max f) :
    m.good.Sublist fs ∧ ((∀ v ∈ m.verdicts, v = .taken) → m.good = fs) := by
  have hparse : parseBatchHeader m.msg = .ok (fs.length % 2 ^ 32) := by
    rw [hmsg, batchOf, parseBatchHeader_append]
  have hbody : m.msg.drop batchHeaderBytes = fs.flatten := by
    rw [hmsg, batchOf]
    refine List.drop_left' ?_
    simp only [encodeBatchHeader, List.length_append, length_leBytes]
    rfl
  rcases hjudged with ⟨⟨err, herr⟩, -⟩ | ⟨-, clock, hverdicts, hgood⟩
  · rw [hparse] at herr
    cases herr
  · rw [hbody] at hverdicts hgood
    obtain ⟨hsub, hall⟩ := Engine.appendRaw_flatten hframes clock
    rw [hgood]
    refine ⟨hsub, fun htaken ↦ hall ?_⟩
    have hcount := (Engine.appendRaw_verdicts crc e clock fs.flatten).2.1
    rw [← hverdicts, List.count_eq_length.2 fun v hv ↦ (htaken v hv).symm] at hcount
    omega

theorem flatMap_good {ms : List Ingested} {batches : List (List Bytes)}
    (hmsgs : ms.map Ingested.msg = batches.map batchOf) (hjudged : ∀ m ∈ ms, Judges crc e m)
    (hframes : ∀ fs ∈ batches, ∀ f ∈ fs, IsFrame crc u32Max f) :
    (ms.flatMap Ingested.good).Sublist batches.flatten ∧
      ((∀ m ∈ ms, ∀ v ∈ m.verdicts, v = .taken) → ms.flatMap Ingested.good = batches.flatten) := by
  induction ms generalizing batches with
  | nil =>
    obtain rfl := List.map_eq_nil_iff.1 hmsgs.symm
    exact ⟨.slnil, fun _ ↦ rfl⟩
  | cons m ms ih =>
    obtain ⟨fs, batches, rfl, hmsg, hrest⟩ := List.map_eq_cons_iff.1 hmsgs.symm
    rw [List.forall_mem_cons] at hjudged hframes
    obtain ⟨hsub, hall⟩ := hjudged.1.of_batch hmsg.symm hframes.1
    obtain ⟨hsubs, halls⟩ := ih hrest.symm hjudged.2 hframes.2
    rw [List.flatMap_cons, List.flatten_cons, List.forall_mem_cons]
    exact ⟨hsub.append hsubs, fun htaken ↦ by rw [hall htaken.1, halls htaken.2]⟩

end Judged

/-! ## The client's books -/

namespace Client

/-- The books of a session are in order, and what it accepted are frames. -/
structure Session.Kept (crc : Bytes → UInt32) (s : Session) : Prop where
  inv : s.Inv
  frames : ∀ f ∈ s.accepted, Sendable crc f

variable {crc : Bytes → UInt32} {answers : ℕ → Pushed} {s : Session}

private theorem send_ok {c c' : Client} {series : RemoteSeries} {row : Row}
    (h : send crc answers series row c = .ok () c') : Admits crc c series row := by
  rcases send_cases crc answers c series row with
    ⟨e, -, hsend⟩ | ⟨e, c'', -, -, hsend⟩ | ⟨hadmits, -⟩
  · rw [hsend] at h
    cases h
  · rw [hsend] at h
    cases h
  · exact hadmits

private theorem Session.frames_step (hframes : ∀ f ∈ s.accepted, Sendable crc f) (call : Call) :
    ∀ f ∈ (s.step crc answers call).accepted, Sendable crc f := by
  rw [Session.step]
  cases hrun : call.run crc answers s.client with
  | error e c => exact hframes
  | ok u c =>
    intro f hf
    rcases List.mem_append.1 hf with hold | hnew
    · exact hframes f hold
    · cases call with
      | send series row =>
        have hadmits : Admits crc s.client series row := send_ok hrun
        rw [Call.frames, List.mem_singleton] at hnew
        exact ⟨_, _, _, hadmits.encodable, hadmits.payload, hnew⟩
      | flush => cases hnew
      | refreshSchema seen => cases hnew

theorem Session.Kept.step (h : s.Kept crc) (hsocket : ∀ k, answers k ≠ .failed) (call : Call) :
    (s.step crc answers call).Kept crc := by
  refine ⟨?_, Session.frames_step h.frames call⟩
  cases call with
  | send series row =>
    refine (h.inv.send series row).1 ?_
    rintro ⟨-, c', -, -, hfailed⟩
    exact hsocket _ hfailed
  | flush => exact h.inv.flush
  | refreshSchema seen => exact h.inv.refreshSchema seen

private theorem taken_eq_settled (p : Socket) :
    p.taken = (p.settled.filter (·.2 = .taken)).map Prod.fst := by
  rw [Socket.taken, Socket.settled, List.filter_filter]
  congr 2
  funext x
  cases x.2 <;> rfl

/-- **The batches sent** are those of accepted records, in order; they are all of them if none was
dropped and none waits. -/
theorem Session.Kept.batches (h : s.Kept crc) : ∃ batches : List (List Bytes),
    s.client.push.taken = batches.map batchOf ∧ batches.flatten.Sublist s.accepted ∧
    (∀ fs ∈ batches, ∀ f ∈ fs, IsFrame crc u32Max f) ∧
    (s.client.stats.recordsDropped = 0 → s.client.pending = 0 → batches.flatten = s.accepted) := by
  obtain ⟨batches, waiting, hacc⟩ := h.inv.conserved
  have hsub : ((batches.filter (·.2 = .taken)).flatMap Prod.fst).Sublist s.accepted := by
    rw [hacc.acc_eq]
    exact (List.filter_sublist.flatMap _).trans (List.sublist_append_left _ _)
  refine ⟨(batches.filter (·.2 = .taken)).map Prod.fst, ?_, ?_, ?_, ?_⟩
  · rw [taken_eq_settled, hacc.settled, List.filter_map, List.map_map, List.map_map]
    rfl
  · rwa [← List.flatMap_def]
  · intro fs hfs f hf
    refine (h.frames f (hsub.subset ?_)).isFrame
    rw [List.flatMap_def]
    exact List.mem_flatten_of_mem hfs hf
  · intro hdropped hpending
    rw [← List.flatMap_def]
    refine hsub.eq_of_length ?_
    have htotal := hacc.total
    rw [hacc.sent, hdropped, hpending] at htotal
    exact htotal

end Client

/-! ## Delivery -/

/-- The messages of one client that the server has read, with what became of them. -/
def Host.readFrom (h : Host) (mine : ℕ → Bool) : List Ingested :=
  (h.ingested.zipIdx.filter fun x ↦ mine x.2).map Prod.fst

/-- The frame stands in an append that the log has acknowledged. -/
def Host.Logs (h : Host) (f : Bytes) : Prop :=
  ∃ bytes ∈ h.node.site.log.acked.map Prod.snd, f <:+: bytes

/-- The messages that the client's socket took. -/
def Peer.taken (p : Peer) : List Bytes := p.session.client.push.taken

/-- **What a connection gives.** The messages of the client are read in the order its socket took
them, and none twice. -/
def PerPeerFifo (h : Host) (mine : ℕ → Bool) (p : Peer) : Prop :=
  ((h.readFrom mine).map Ingested.msg).Sublist p.taken

/-- **What an unbroken connection gives** once it has carried everything: the messages of the client
are read in order, each once, and none is missing but those over the limit of the socket. -/
def Delivers (limit : ℕ) (h : Host) (mine : ℕ → Bool) (p : Peer) : Prop :=
  (h.readFrom mine).map Ingested.msg = p.taken.filter fun msg ↦ msg.length ≤ limit

instance (limit : ℕ) (h : Host) (mine : ℕ → Bool) (p : Peer) :
    Decidable (Delivers limit h mine p) :=
  inferInstanceAs (Decidable (_ = _))

section Delivery

variable {w : ClientSetting} {answers : ℕ → Pushed} {x : Exchange} {b : ClientBuilder} {p : Peer}

private theorem Host.mem_readFrom {h : Host} {mine : ℕ → Bool} {m : Ingested}
    (hm : m ∈ h.readFrom mine) : m ∈ h.ingested := by
  obtain ⟨y, hy, rfl⟩ := List.mem_map.1 hm
  exact List.fst_mem_of_mem_zipIdx (List.mem_of_mem_filter hy)

private theorem Peer.kept_connect (h : Peer.connect w b x = some p) (hbatch : b.batch ≤ u32Max) :
    p.session.Kept w.crc := by
  rw [Peer.connect] at h
  split at h
  · cases h
  · split at h
    · rename_i c hconnect
      cases h
      exact ⟨Client.Session.inv_connect hconnect hbatch, List.forall_mem_nil _⟩
    · cases h

private theorem Peer.kept_step (h : p.session.Kept w.crc) (hsocket : ∀ k, answers k ≠ .failed)
    (call : Peer.Call) : (p.step w answers call).session.Kept w.crc := by
  cases call with
  | send s row => exact h.step hsocket _
  | flush => exact h.step hsocket _
  | control request x => exact h
  | refreshSchema x =>
    rw [Peer.step]
    cases Client.control w x .schema with
    | error err => exact h
    | ok reply => exact h.step hsocket _

/-- **The books of a client** along its calls. -/
theorem Peer.kept_run (h : Peer.connect w b x = some p) (hbatch : b.batch ≤ u32Max)
    (hsocket : ∀ k, answers k ≠ .failed) (calls : List Peer.Call) :
    (p.run w answers calls).session.Kept w.crc :=
  Machine.foldl_of_step (I := fun p : Peer ↦ p.session.Kept w.crc)
    (fun _ call hkept ↦ Peer.kept_step hkept hsocket call) (Peer.kept_connect h hbatch)

private theorem Ingested.mem_logged {m : Ingested} (hacked : m.acked = true) {f : Bytes}
    (hf : f ∈ m.good) (hne : f ≠ []) : ∃ bytes ∈ m.logged, f <:+: bytes := by
  have hflatten : m.good.flatten.isEmpty = false := by
    rw [Bool.eq_false_iff, ne_eq, List.isEmpty_iff, List.flatten_eq_nil_iff]
    exact fun hall ↦ hne (hall f hf)
  refine ⟨m.good.flatten, by simp [Ingested.logged, hacked, hflatten], ?_⟩
  obtain ⟨before, after, hsplit⟩ := List.append_of_mem hf
  rw [hsplit, List.flatten_append, List.flatten_cons]
  exact ⟨before.flatten, after.flatten, by rw [List.append_assoc]⟩

end Delivery

/-- **The server takes a client's records in order, and none twice.** Let a server and a client
whose socket does not fail go through any runs, with any faults of the server's file system and any
other messages read, and let the messages of the client be read in the order they were sent, each
once at most. Then the frames admitted from them are records that the client accepted, in the order
it did. -/
theorem records_delivered_in_order (w : ClientSetting) {n : Node} {q : Process}
    (hproc : n.process = some q) (evs : List HostEvent) {answers : ℕ → Pushed}
    (hsocket : ∀ k, answers k ≠ .failed) {b : ClientBuilder} (hbatch : b.batch ≤ u32Max)
    {x : Exchange} {p : Peer} (hconnect : Peer.connect w b x = some p) (calls : List Peer.Call)
    (mine : ℕ → Bool)
    (hfifo : PerPeerFifo ((Host.bound n).run w.toSetting evs) mine (p.run w answers calls)) :
    ((((Host.bound n).run w.toSetting evs).readFrom mine).flatMap Ingested.good).Sublist
      (p.run w answers calls).session.accepted := by
  have hbooks : ((Host.bound n).run w.toSetting evs).Books w.crc q.engine _ _ :=
    Host.books_run hproc evs
  obtain ⟨batches, htaken, hflat, hframes, -⟩ :=
    (Peer.kept_run hconnect hbatch hsocket calls).batches
  rw [PerPeerFifo, Peer.taken, htaken] at hfifo
  obtain ⟨sent, hsent, hmsgs⟩ := List.sublist_map_iff.1 hfifo
  have hgood := (flatMap_good hmsgs (fun m hm ↦ hbooks.judged m (Host.mem_readFrom hm))
    fun fs hfs ↦ hframes fs (hsent.subset hfs)).1
  exact (hgood.trans hsent.flatten).trans hflat

/-! A client that sends each record on its own, and a stranger. The server answers the handshake and
reads the message of the stranger between two of the client's. -/

private def ingestRun : List HostEvent :=
  [polled false true, handed [1], passed, polled true false,
    handed (encodeBatchHeader 1 ++ sentFrame "t" "a" 946684800000000), handed [7],
    handed (encodeBatchHeader 1 ++ sentFrame "t" "c" 946684800000000), passed]

private def ingestHost : Host := (Host.bound sampleNode).run sampleSetting ingestRun

private def notTheSecond (k : ℕ) : Bool := k != 1

private theorem singly :
    (Peer.connect sampleClient { batch := 1 } { received := .message [1] }).isSome = true := by
  decide +kernel

private def singlePeer : Peer :=
  (Peer.connect sampleClient { batch := 1 } { received := .message [1] }).get singly

private def sends (ids : List String) : List Peer.Call :=
  ids.map fun id ↦ .send ⟨"t", 0, []⟩ ⟨946684800000000, id, [], [], ""⟩

/-- The second of three messages is lost with a connection. -/
private def lossyPeer : Peer := singlePeer.run sampleClient (fun _ ↦ .taken) (sends ["a", "b", "c"])

private theorem lossyPeer_reads : PerPeerFifo ingestHost notTheSecond lossyPeer ∧
    lossyPeer.session.accepted.length = 3 ∧
    ((ingestHost.readFrom notTheSecond).flatMap Ingested.good).length = 2 := by
  rw [PerPeerFifo]
  decide +kernel

theorem records_delivered_in_order_lossy :
    lossyPeer.session.accepted.length = 3 ∧
      ((ingestHost.readFrom notTheSecond).flatMap Ingested.good).length = 2 ∧
      ((ingestHost.readFrom notTheSecond).flatMap Ingested.good).Sublist
        lossyPeer.session.accepted := by
  obtain ⟨q, hq⟩ := Option.isSome_iff_exists.1 sampleNode_runs
  obtain ⟨hfifo, hthree, htwo⟩ := lossyPeer_reads
  exact ⟨hthree, htwo, records_delivered_in_order sampleClient hq ingestRun (fun _ ↦ by simp)
    (by decide) (Option.some_get singly).symm (sends ["a", "b", "c"]) notTheSecond hfifo⟩

/-- **Every accepted record is in the log**, once nothing is under way. Let a server and a client
whose socket does not fail go through any runs, where the replies handed to the client correlate
with its requests and each side reads what the other wrote, and let all messages of the client have
been read but those over the limit of the server's socket. If the client holds no record and has
dropped none, then the server has read exactly the batches of the records that it accepted, in
order. If no frame of them was refused, exactly these records were admitted; and if moreover no
append of them failed and the process lives, each of them stands in an append that the log has
acknowledged. -/
theorem accepted_records_logged (w : ClientSetting) {n : Node} {q : Process}
    (hproc : n.process = some q) (evs : List HostEvent) {answers : ℕ → Pushed}
    (hsocket : ∀ k, answers k ≠ .failed) {b : ClientBuilder} (hbatch : b.batch ≤ u32Max)
    {x : Exchange} {p : Peer} (hconnect : Peer.connect w b x = some p) (calls : List Peer.Call)
    (hcorrelates : Correlates w ((Host.bound n).run w.toSetting evs) (p.run w answers calls))
    (hwire : w.wire.Faithful (((Host.bound n).run w.toSetting evs).answered.map Prod.snd))
    (mine : ℕ → Bool)
    (hdelivers : Delivers q.engine.batchLimit ((Host.bound n).run w.toSetting evs) mine
      (p.run w answers calls))
    (hpending : (p.run w answers calls).session.client.pending = 0)
    (hdropped : (p.run w answers calls).session.client.stats.recordsDropped = 0) :
    let h := (Host.bound n).run w.toSetting evs
    let accepted := (p.run w answers calls).session.accepted
    (∃ batches : List (List Bytes), batches.flatten = accepted ∧
        (h.readFrom mine).map Ingested.msg = batches.map batchOf) ∧
      ((∀ m ∈ h.readFrom mine, ∀ v ∈ m.verdicts, v = .taken) →
        (h.readFrom mine).flatMap Ingested.good = accepted ∧
        ((∀ m ∈ h.readFrom mine, m.acked = true) → h.node.process.isSome = true →
          ∀ f ∈ accepted, h.Logs f)) := by
  intro h accepted
  have hbooks : h.Books w.crc q.engine _ _ := Host.books_run hproc evs
  have hheard := hcorrelates.answered hproc rfl hwire
  have hsizes := (Peer.agrees_run hconnect calls hheard).sizes
  have hkept := Peer.kept_run hconnect hbatch hsocket calls
  obtain ⟨batches, htaken, -, hframes, hflat⟩ := hkept.batches
  have hall : batches.flatten = accepted := hflat hdropped hpending
  -- no message is over the limit, so none was dropped
  have hmsgs : (h.readFrom mine).map Ingested.msg = batches.map batchOf := by
    rw [hdelivers, Peer.taken, ← htaken]
    exact List.filter_eq_self.2 fun msg hmsg ↦ by simpa using hsizes msg hmsg
  refine ⟨⟨batches, hall, hmsgs⟩, fun hnone ↦ ?_⟩
  have hgood : (h.readFrom mine).flatMap Ingested.good = accepted := by
    rw [← hall]
    exact (flatMap_good hmsgs (fun m hm ↦ hbooks.judged m (Host.mem_readFrom hm)) hframes).2 hnone
  refine ⟨hgood, fun hacked halive f hf ↦ ?_⟩
  obtain ⟨q', hq'⟩ := Option.isSome_iff_exists.1 halive
  have hne : f ≠ [] := by
    rintro rfl
    have hpos := (hkept.frames [] hf).isFrame.length_pos
    simp [frameHeaderBytes] at hpos
  rw [← hgood] at hf
  obtain ⟨m, hm, hfm⟩ := List.mem_flatMap.1 hf
  obtain ⟨bytes, hbytes, hinfix⟩ := Ingested.mem_logged (hacked m hm) hfm hne
  refine ⟨bytes, ?_, hinfix⟩
  rw [(hbooks.running q' hq').2]
  exact List.mem_append_right _ (List.mem_flatMap.2 ⟨m, Host.mem_readFrom hm, hbytes⟩)

private def wholePeer : Peer := singlePeer.run sampleClient (fun _ ↦ .taken) (sends ["a", "c"])

private theorem wholePeer_heard : wholePeer.heard = [(.schema, [1])] ∧
    ingestHost.answered = [([1], .schema [⟨"t", 0, []⟩] (some 8388608))] := by
  decide +kernel

private theorem wholePeer_correlates : Correlates sampleClient ingestHost wholePeer := by
  rw [Correlates, wholePeer_heard.1, wholePeer_heard.2]
  simp [sampleClient, sampleSetting, sampleWire, Wire.replyBytes]

private theorem ingestHost_faithful :
    sampleClient.wire.Faithful (ingestHost.answered.map Prod.snd) := by
  rw [wholePeer_heard.2]
  refine ⟨fun r bytes hwrite ↦ ?_, ?_⟩
  · cases r <;> cases hwrite <;> rfl
  · simp [sampleClient, sampleSetting, sampleWire, Wire.replyBytes]

private theorem wholePeer_drained :
    (sampleNode.process.all fun q ↦ decide (Delivers q.engine.batchLimit ingestHost notTheSecond
      wholePeer)) = true ∧
    wholePeer.session.client.pending = 0 ∧ wholePeer.session.client.stats.recordsDropped = 0 ∧
    (∀ m ∈ ingestHost.readFrom notTheSecond, ∀ v ∈ m.verdicts, v = .taken) ∧
    (∀ m ∈ ingestHost.readFrom notTheSecond, m.acked = true) ∧
    ingestHost.node.process.isSome = true ∧ wholePeer.session.accepted.length = 2 := by
  decide +kernel

theorem accepted_records_logged_whole :
    wholePeer.session.accepted.length = 2 ∧
      (ingestHost.readFrom notTheSecond).flatMap Ingested.good = wholePeer.session.accepted ∧
      ∀ f ∈ wholePeer.session.accepted, ingestHost.Logs f := by
  obtain ⟨q, hq⟩ := Option.isSome_iff_exists.1 sampleNode_runs
  obtain ⟨hdelivers, hpending, hdropped, hnone, hacked, halive, htwo⟩ := wholePeer_drained
  rw [hq, Option.all_some, decide_eq_true_iff] at hdelivers
  have hall := accepted_records_logged sampleClient hq ingestRun (fun _ ↦ by simp)
    (by decide) (Option.some_get singly).symm (sends ["a", "c"]) wholePeer_correlates
    ingestHost_faithful notTheSecond hdelivers hpending hdropped
  have hrun : (Host.bound sampleNode).run sampleClient.toSetting ingestRun = ingestHost := rfl
  simp only [hrun] at hall
  exact ⟨htwo, (hall.2 hnone).1, (hall.2 hnone).2 hacked halive⟩

end Orc
