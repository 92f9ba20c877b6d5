import Orc.Net.Turns

/-!
# What the server takes in

Over every run of a server, whatever its sockets return, the messages it has judged are exactly
those that the ingest socket handed over, in that order and each once. The log has acknowledged the
admitted frames of these messages, in the same order, except where the append failed. The counters
account for every frame of them.

Nothing is said of the order in which messages were sent, since the socket takes those of its peers
in turn; what was handed over is what the calls of the run returned (`Host.batchesIn`). All of this
comes from one lemma on a single event (`Host.reads_of_turn`): either it hands over no message, and
then nothing is judged, counted or acknowledged, or it hands over one, and then that one is.
-/

namespace Orc

open Bytes Fault

private theorem Counters.SameIngest.refl (c : Counters) : c.SameIngest c := ⟨_, _, rfl⟩

private theorem Counters.SameIngest.trans {c c' c'' : Counters} (h : c.SameIngest c')
    (h' : c'.SameIngest c'') : c.SameIngest c'' := by
  obtain ⟨_, _, rfl⟩ := h
  obtain ⟨_, _, rfl⟩ := h'
  exact ⟨_, _, rfl⟩

private theorem Counters.SameIngest.add {c c' : Counters} (h : c.SameIngest c') (m : Ingested) :
    (c.add m).SameIngest (c'.add m) := by
  obtain ⟨_, _, rfl⟩ := h
  exact ⟨_, _, rfl⟩

/-! ## One event -/

/-- What an event that hands over `msgs` does to what was taken in, and to the log. -/
inductive Host.Reads (crc : Bytes → UInt32) (p : Process) (h : Host) (msgs : List Bytes)
    (h' : Host) : Prop
  | still (hmsgs : msgs = []) (hingested : h'.ingested = h.ingested)
      (hbatches : h'.batches = h.batches) (hcounters : h.counters.SameIngest h'.counters)
      (hquiet : h.node.Quiet h'.node)
  | read {m : Ingested} (hmsgs : msgs = [m.msg]) (hingested : h'.ingested = h.ingested ++ [m])
      (hbatches : h'.batches = h.batches + 1) (hcounters : h'.counters = h.counters.add m)
      (hjudged : Judges crc p.engine m)
      (hlog : ∀ p', h'.node.process = some p' → p'.engine = p.engine ∧
        h'.node.site.log.acked.map Prod.snd = h.node.site.log.acked.map Prod.snd ++ m.logged)

section Reads

variable {w : Setting} {p : Process} {h h' : Host} {ev : HostEvent} {env : Env}

private theorem Received.reads {msg : Bytes} {m : Ingested} {o : Oracle Op}
    (hread : Received w.crc p o msg h h' m) : h.Reads w.crc p [msg] h' :=
  .read (by rw [hread.msg_eq]) (congrArg Host.ingested hread.host_eq)
    (congrArg Host.batches hread.host_eq) (congrArg Host.counters hread.host_eq) hread.judged
    hread.log

private theorem Answered.reads {request : Bytes} {r : Option ControlReply} {o : Oracle Op}
    (hanswer : Answered w p.engine o request { h with asked := h.asked ++ [request] } h' r) :
    h.Reads w.crc p [] h' :=
  .still rfl hanswer.ingested hanswer.batches hanswer.counters hanswer.quiet

private theorem Host.Reads.goto {msgs : List Bytes} (hreads : h.Reads w.crc p msgs h')
    (pc : ServerPc) : h.Reads w.crc p msgs (h'.goto pc) := by
  cases hreads with
  | still h₁ h₂ h₃ h₄ h₅ => exact .still h₁ h₂ h₃ h₄ h₅
  | read h₁ h₂ h₃ h₄ h₅ h₆ => exact .read h₁ h₂ h₃ h₄ h₅ h₆

private theorem Host.Goes.messages {pc : ServerPc} (hgo : h.Goes env pc)
    (htakes : h.pc.takesBatch = true) : env.received.messages = [] := by
  cases hgo with
  | polls hpc => rw [hpc] at htakes; cases htakes
  | retries hpc => rw [hpc] at htakes; cases htakes
  | skips _ hreceived => rw [hreceived]; rfl
  | empties _ hreceived => rw [hreceived]; rfl
  | returns _ hreceived => rw [hreceived]; rfl

private theorem ServerPc.Fails.messages {pc : ServerPc} (hfails : pc.Fails env)
    (htakes : pc.takesBatch = true) : env.received.messages = [] := by
  cases pc with
  | draining left control =>
    have hreceived : env.received = .failed := hfails
    rw [hreceived]
    rfl
  | closing failure => cases hfails
  | _ => cases htakes

private theorem Host.reads_of_move (hmove : h.Move w p env h') :
    h.Reads w.crc p (if h.pc.takesBatch then env.received.messages else []) h' := by
  have hstill : (h.pc.takesBatch = true → env.received.messages = []) →
      ∀ pc timerStop answered n, h.node.Quiet n →
      h.Reads w.crc p (if h.pc.takesBatch then env.received.messages else [])
        { h with node := n, pc, timerStop, answered } := by
    intro hnone pc timerStop answered n hquiet
    refine .still ?_ rfl rfl (.refl _) hquiet
    split_ifs with htakes
    · exact hnone htakes
    · rfl
  have hsame : (h.pc.takesBatch = true → env.received.messages = []) →
      h.Reads w.crc p (if h.pc.takesBatch then env.received.messages else []) h := fun hnone ↦
    hstill hnone h.pc h.timerStop h.answered h.node (.refl _)
  cases hmove with
  | idle _ hmessage => exact hsame hmessage
  | goes hgo => exact (hsame hgo.messages).goto _
  | leaves hpc => exact (hsame (by simp [hpc, ServerPc.takesBatch])).goto _
  | fails hfails => exact (hsame hfails.messages).goto _
  | reads hpc hmsg hread =>
    rw [hpc, hmsg]
    exact hread.reads.goto _
  | asks hpc _ hanswer =>
    rw [hpc]
    exact hanswer.reads.goto _
  | dies hpc _ hanswer =>
    rw [hpc]
    exact hanswer.reads
  | replies hpc => exact hstill (by simp [hpc, ServerPc.takesBatch]) _ _ _ _ (.refl _)
  | drains hpc hmsg hread =>
    rw [hpc, hmsg]
    exact hread.reads
  | drainsLate hpc hmsg _ hread =>
    rw [hpc, hmsg]
    exact hread.reads.goto _
  | drained _ hreceived => exact (hsame fun _ ↦ by rw [hreceived]; rfl).goto _
  | drainFails _ hreceived => exact (hsame fun _ ↦ by rw [hreceived]; rfl).goto _
  | begins hpc =>
    exact hstill (by simp [hpc, ServerPc.takesBatch]) _ _ _ _ (Node.quiet_wal fun _ ↦ by simp)
  | closes hpc =>
    refine hstill (by simp [hpc, ServerPc.takesBatch]) _ _ _ _ ?_
    have hclose : (h.node.call env.oracle (walCall close)).1 =
        h.node.after w.crc id env.oracle (.wal .close) := Node.call_walCall w.crc (fun _ _ ↦ rfl) id
    rw [hclose]
    exact Node.quiet_wal fun _ ↦ by simp

/-- **One event** takes in what it hands over. -/
theorem Host.reads_of_turn (hproc : h.node.process = some p) (hturn : h.Turn w p ev h') :
    h.Reads w.crc p (h.batchesIn ev) h' := by
  cases hturn with
  | serves hmove =>
    rw [Host.batchesIn, hproc]
    exact Host.reads_of_move hmove
  | rests => exact .still rfl rfl rfl (.refl _) (.refl _)
  | flushes _ hcounters hquiet => exact .still rfl rfl rfl hcounters hquiet
  | skips => exact .still rfl rfl rfl (.refl _) (.refl _)
  | @commits o act hact =>
    have hne : ∀ bytes, act ≠ .append bytes := by
      rintro bytes rfl
      simp [Action.ofCommitter] at hact
    exact .still rfl rfl rfl (.refl _) (Node.quiet_wal hne)
  | signalled => exact .still rfl rfl rfl (.refl _) (.refl _)

end Reads

/-! ## Runs -/

/-- The books of a server whose engine is `e`, on a log that held `base`, after the messages
`handed`. -/
structure Host.Books (crc : Bytes → UInt32) (e : Engine) (base handed : List Bytes) (h : Host) :
    Prop where
  read : h.ingested.map Ingested.msg = handed
  batches : h.batches = h.ingested.length
  judged : ∀ m ∈ h.ingested, Judges crc e m
  counters : (h.ingested.foldl Counters.add {}).SameIngest h.counters
  running : ∀ p, h.node.process = some p → p.engine = e ∧
    h.node.site.log.acked.map Prod.snd = base ++ h.ingested.flatMap Ingested.logged

section Books

variable {w : Setting} {p : Process} {h h' : Host} {e : Engine} {base handed msgs : List Bytes}

private theorem Host.Books.bound {n : Node} (hproc : n.process = some p) :
    (Host.bound n).Books w.crc p.engine (n.site.log.acked.map Prod.snd) [] := by
  refine ⟨rfl, rfl, by simp [Host.bound], .refl _, fun p' hp' ↦ ?_⟩
  cases hproc.symm.trans hp'
  exact ⟨rfl, (List.append_nil _).symm⟩

private theorem Host.Books.of_reads (hbooks : h.Books w.crc e base handed)
    (hproc : h.node.process = some p) (hreads : h.Reads w.crc p msgs h') :
    h'.Books w.crc e base (handed ++ msgs) := by
  obtain ⟨hengine, hlog⟩ := hbooks.running p hproc
  cases hreads with
  | still hmsgs hingested hbatches hcounters hquiet =>
    refine ⟨?_, ?_, hingested ▸ hbooks.judged, ?_, fun p' hp' ↦ ?_⟩
    · rw [hingested, hmsgs, List.append_nil, hbooks.read]
    · rw [hbatches, hingested, hbooks.batches]
    · rw [hingested]
      exact hbooks.counters.trans hcounters
    · obtain ⟨q, hq, heq, hacked⟩ := hquiet p' hp'
      cases hproc.symm.trans hq
      refine ⟨heq.trans hengine, ?_⟩
      rw [hacked, hingested, hlog]
  | @read m hmsgs hingested hbatches hcounters hjudged hnew =>
    refine ⟨?_, ?_, ?_, ?_, fun p' hp' ↦ ?_⟩
    · rw [hingested, hmsgs, List.map_append, hbooks.read]
      rfl
    · rw [hbatches, hingested, hbooks.batches, List.length_append, List.length_singleton]
    · rw [hingested]
      intro m' hm'
      rcases List.mem_append.1 hm' with hold | hlast
      · exact hbooks.judged m' hold
      · rw [List.mem_singleton.1 hlast, ← hengine]
        exact hjudged
    · rw [hcounters, hingested, List.foldl_append]
      exact hbooks.counters.add m
    · refine ⟨(hnew p' hp').1.trans hengine, ?_⟩
      rw [(hnew p' hp').2, hlog, hingested, List.flatMap_append, List.append_assoc]
      simp

private theorem Host.Books.after (hbooks : h.Books w.crc e base handed) (ev : HostEvent) :
    (h.after w ev).Books w.crc e base (handed ++ h.batchesIn ev) := by
  cases hproc : h.node.process with
  | none =>
    have hnone : h.batchesIn ev = [] := by
      cases ev <;> simp [Host.batchesIn, hproc]
    rw [Host.after_down hproc, hnone, List.append_nil]
    exact hbooks
  | some p => exact hbooks.of_reads hproc (Host.reads_of_turn hproc (Host.after_turn hproc ev))

/-- **The books of a run.** -/
theorem Host.books_run {n : Node} (hproc : n.process = some p) (evs : List HostEvent) :
    ((Host.bound n).run w evs).Books w.crc p.engine (n.site.log.acked.map Prod.snd)
      (Machine.outputs (Host.after w) Host.batchesIn (Host.bound n) evs) := by
  have hstart : (Host.bound n).Books w.crc p.engine _ [] := .bound hproc
  exact Machine.foldl_outputs (fun _ _ ev hbooks ↦ hbooks.after ev) hstart

end Books

/-- **Every message handed over is judged once, in order.** Over any run of a server, with its
sockets returning anything, and with any flushes and faults: the messages judged are those handed
over, and their number is counted; each is judged by the engine, at the time it is read; and as long
as the process lives, the log has acknowledged, after what was there, the admitted frames of exactly
these messages, in their order, save those whose append failed. -/
theorem messages_judged_in_order (w : Setting) {n : Node} {p : Process} (hproc : n.process = some p)
    (evs : List HostEvent) :
    let h := (Host.bound n).run w evs
    h.ingested.map Ingested.msg =
        Machine.outputs (Host.after w) Host.batchesIn (Host.bound n) evs ∧
      h.batches = h.ingested.length ∧ (∀ m ∈ h.ingested, Judges w.crc p.engine m) ∧
      ∀ p', h.node.process = some p' → p'.engine = p.engine ∧
        h.node.site.log.acked.map Prod.snd =
          n.site.log.acked.map Prod.snd ++ h.ingested.flatMap Ingested.logged := by
  intro h
  have hbooks : h.Books w.crc p.engine _ _ := Host.books_run hproc evs
  exact ⟨hbooks.read, hbooks.batches, hbooks.judged, hbooks.running⟩

/-! A server with one series, which is sent a batch of three frames: one of the series, one of no
series it knows, and one from before 1990. -/

/-- Requests and replies of one byte. -/
def sampleWire : Wire where
  writeRequest
    | .ping => .ok [0]
    | .schema => .ok [1]
    | .shutdown => .ok [2]
    | _ => .error "unused"
  readRequest
    | [0] => .ok .ping
    | [1] => .ok .schema
    | [2] => .ok .shutdown
    | _ => .error "bad"
  writeReply reply := if reply = .schema [⟨"t", 0, []⟩] (some 8388608) then .ok [1] else .ok [0]
  readReply
    | [0] => .ok (.pong version)
    | [1] => .ok (.schema [⟨"t", 0, []⟩] (some 8388608))
    | _ => .error "bad"

def sampleSetting : Setting := ⟨Bytes.crc32, fun _ ↦ "", sampleWire⟩

/-- An engine with one series, just opened on an empty directory. -/
def sampleNode : Node :=
  (Node.down {}).after Bytes.crc32 id noFault (.start { series := [⟨"t", []⟩] } 0)

theorem sampleNode_reaches : Node.Reaches Bytes.crc32 id (fun _ _ _ ↦ True) (.down {}) sampleNode :=
  .single ⟨noFault, .start { series := [⟨"t", []⟩] } 0, trivial, rfl⟩

theorem sampleNode_runs : sampleNode.process.isSome = true := by decide +kernel

/-- The poll finds something to read. -/
def polled (ingest control : Bool) : HostEvent :=
  .serve { polled := .readable ingest control, clock := fun _ ↦ 946684800000000 }

/-- A socket hands over a message. -/
def handed (msg : Bytes) : HostEvent :=
  .serve { received := .message msg, clock := fun _ ↦ 946684800000000 }

/-- A socket has nothing more, a reply is sent, or there is no call to make. -/
def passed : HostEvent := .serve { clock := fun _ ↦ 946684800000000 }

def sentFrame (series id : String) (ts : ℕ) : Bytes :=
  frameOf Bytes.crc32 series 0 ⟨.ofNat ts, id, [], [], ""⟩

private def mixedMessage : Bytes :=
  encodeBatchHeader 3 ++ (sentFrame "t" "a" 946684800000000 ++
    (sentFrame "u" "b" 946684800000000 ++ sentFrame "t" "c" 1))

/-- The mixed batch is read, the timer goes off, and a message that is no batch is read. -/
private def mixedRun : List HostEvent :=
  [polled true false, handed mixedMessage, .timer noFault 0, handed [7], passed]

private def mixedHost : Host := (Host.bound sampleNode).run sampleSetting mixedRun

private theorem mixedHost_runs : mixedHost.node.process.isSome = true ∧
    mixedHost.ingested.map Ingested.msg = [mixedMessage, [7]] ∧
    (∀ m ∈ mixedHost.ingested, m.acked = true) ∧
    mixedHost.ingested.flatMap Ingested.verdicts = [.taken, .series, .ts] := by
  decide +kernel

theorem messages_judged_in_order_mixed :
    Machine.outputs (Host.after sampleSetting) Host.batchesIn (Host.bound sampleNode) mixedRun =
        [mixedMessage, [7]] ∧
      mixedHost.node.site.log.acked.map Prod.snd = mixedHost.ingested.flatMap Ingested.logged := by
  obtain ⟨hlive, hmsgs, -, -⟩ := mixedHost_runs
  obtain ⟨p, hp⟩ := Option.isSome_iff_exists.1 sampleNode_runs
  obtain ⟨p', hp'⟩ := Option.isSome_iff_exists.1 hlive
  obtain ⟨hread, -, -, hrunning⟩ := messages_judged_in_order sampleSetting hp mixedRun
  rw [← mixedHost] at hread hrunning
  have hempty : sampleNode.site.log.acked.map Prod.snd = [] := by decide +kernel
  have hlog := (hrunning p' hp').2
  rw [hempty, List.nil_append] at hlog
  exact ⟨hread.symm.trans hmsgs, hlog⟩

/-! ## Counters -/

section Counts

variable {crc : Bytes → UInt32} {e : Engine} {m : Ingested}

private theorem Judges.length_good (hjudged : Judges crc e m) :
    m.good.length = m.verdicts.count .taken := by
  rcases hjudged with ⟨-, hverdicts, hgood⟩ | ⟨-, clock, hverdicts, hgood⟩
  · rw [hverdicts, hgood]
    rfl
  · rw [hverdicts, hgood]
    exact (Engine.appendRaw_verdicts crc e clock _).2.2

private theorem Verdict.length_eq (vs : List Verdict) : vs.length =
    vs.count .taken + vs.count .ts + vs.count .series + vs.count .cut := by
  induction vs with
  | nil => rfl
  | cons v vs ih =>
    simp only [List.length_cons, List.count_cons]
    cases v <;> simp <;> omega

private theorem Counters.total (f : Counters → ℕ) (g : Ingested → ℕ) (hzero : f {} = 0)
    (hadd : ∀ c m, f (c.add m) = f c + g m) (ms : List Ingested) :
    f (ms.foldl Counters.add {}) = (ms.map g).sum := by
  have hfrom : ∀ c, f (ms.foldl Counters.add c) = f c + (ms.map g).sum := by
    induction ms with
    | nil => exact fun _ ↦ rfl
    | cons m ms ih =>
      intro c
      rw [List.foldl_cons, ih, hadd, List.map_cons, List.sum_cons, Nat.add_assoc]
  rw [hfrom, hzero, Nat.zero_add]

private theorem sum_map_acked (f : Ingested → ℕ) (ms : List Ingested) :
    (ms.map fun m ↦ if m.acked then f m else 0).sum = ((ms.filter Ingested.acked).map f).sum := by
  induction ms with
  | nil => rfl
  | cons m ms ih =>
    rw [List.map_cons, List.sum_cons, ih, List.filter_cons]
    split_ifs with hacked <;> simp

end Counts

/-- **The counters account for every frame.** Over any run of a server: what is counted as appended
are the frames handed to the log in appends that succeeded, and with what is counted as rejected
they are all frames of those batches. The reasons are counted for every batch, so that they add up
to the rejected frames, with the batches cut short, if no append has failed. -/
theorem counters_account (w : Setting)
    {n : Node} {p : Process} (hproc : n.process = some p) (evs : List HostEvent) :
    let h := (Host.bound n).run w evs
    let kept := h.ingested.filter Ingested.acked
    h.counters.appended = (kept.flatMap Ingested.good).length ∧
      h.counters.appended + h.counters.rejectedFrames = (kept.flatMap Ingested.verdicts).length ∧
      h.counters.rejectedTs = (h.ingested.flatMap Ingested.verdicts).count .ts ∧
      h.counters.rejectedSeries = (h.ingested.flatMap Ingested.verdicts).count .series ∧
      h.counters.rejectedSize = 0 ∧
      ((∀ m ∈ h.ingested, m.acked = true) → h.counters.rejectedFrames = h.counters.rejectedTs +
        h.counters.rejectedSeries + (h.ingested.flatMap Ingested.verdicts).count .cut) := by
  intro h kept
  have hbooks : h.Books w.crc p.engine _ _ := Host.books_run hproc evs
  obtain ⟨rows, dups, hcounters⟩ := hbooks.counters
  have happended : h.counters.appended = (kept.map fun m ↦ m.verdicts.count .taken).sum := by
    rw [hcounters, ← sum_map_acked]
    exact Counters.total Counters.appended _ rfl (fun _ _ ↦ rfl) h.ingested
  have hrejected : h.counters.rejectedFrames =
      (kept.map fun m ↦ m.verdicts.length - m.verdicts.count .taken).sum := by
    rw [hcounters, ← sum_map_acked]
    exact Counters.total Counters.rejectedFrames _ rfl (fun _ _ ↦ rfl) h.ingested
  have hts : h.counters.rejectedTs = (h.ingested.flatMap Ingested.verdicts).count .ts := by
    rw [hcounters, List.count_flatMap]
    exact Counters.total Counters.rejectedTs _ rfl (fun _ _ ↦ rfl) h.ingested
  have hseries : h.counters.rejectedSeries =
      (h.ingested.flatMap Ingested.verdicts).count .series := by
    rw [hcounters, List.count_flatMap]
    exact Counters.total Counters.rejectedSeries _ rfl (fun _ _ ↦ rfl) h.ingested
  have hsize : h.counters.rejectedSize = 0 := by
    rw [hcounters]
    refine (Counters.total Counters.rejectedSize (fun _ ↦ 0) rfl (fun _ _ ↦ rfl)
      h.ingested).trans ?_
    simp
  have hsum : h.counters.appended + h.counters.rejectedFrames =
      (kept.flatMap Ingested.verdicts).length := by
    rw [happended, hrejected, List.length_flatMap, ← List.sum_map_add]
    refine congrArg List.sum (List.map_congr_left fun m _ ↦ ?_)
    exact Nat.add_sub_cancel' List.count_le_length
  refine ⟨?_, hsum, hts, hseries, hsize, fun hacked ↦ ?_⟩
  · rw [happended, List.length_flatMap]
    refine congrArg List.sum (List.map_congr_left fun m hm ↦ ?_)
    exact (hbooks.judged m (List.mem_of_mem_filter hm)).length_good.symm
  · have hkept : kept = h.ingested := List.filter_eq_self.2 hacked
    have htaken : h.counters.appended = (h.ingested.flatMap Ingested.verdicts).count .taken := by
      rw [happended, hkept, List.count_flatMap]
      rfl
    have hlength := Verdict.length_eq (h.ingested.flatMap Ingested.verdicts)
    rw [hkept] at hsum
    omega

theorem counters_account_mixed :
    mixedHost.counters.appended = 1 ∧ mixedHost.counters.rejectedFrames = 2 ∧
      mixedHost.counters.rejectedTs = 1 ∧ mixedHost.counters.rejectedSeries = 1 := by
  obtain ⟨-, -, hacked, hverdicts⟩ := mixedHost_runs
  obtain ⟨p, hp⟩ := Option.isSome_iff_exists.1 sampleNode_runs
  obtain ⟨-, hsum, hts, hseries, -, hreasons⟩ := counters_account sampleSetting hp mixedRun
  have hkept : mixedHost.ingested.filter Ingested.acked = mixedHost.ingested :=
    List.filter_eq_self.2 hacked
  rw [← mixedHost, hverdicts] at hts hseries hreasons
  rw [← mixedHost, hkept, hverdicts] at hsum
  have hrejected := hreasons hacked
  rw [hts, hseries] at hrejected
  rw [hrejected] at hsum
  exact ⟨by simpa using hsum, hrejected, hts, hseries⟩

end Orc
