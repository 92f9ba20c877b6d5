import Orc.Machine.Run
import Orc.Net.Server

/-!
# What the server does with what it is sent

One specification for each call of the server on its engine. Reading a message judges its frames and
hands those that are admitted to the log, and the log then holds them or the append has failed
(`Host.receive_spec`). Answering a request gives a reply to that request, and touches the node only
if it asks for a flush (`Host.answer_spec`). A flush, whether asked for or of the timer, leaves
alone what the log has acknowledged (`Host.flush_spec`).

That a flush keeps something of the writer follows from the one call it makes on the log, which
seals a segment; all else it does is on the directory (`KeepsLog`).
-/

namespace Orc

open Bytes Fault

/-! ## Calls and events of the node -/

section Calls

variable {α : Type} {o : Oracle Op} {n : Node} {crc : Bytes → UInt32}

/-- What a call leaves and returns. -/
theorem Node.call_cases {p : Process → SiteIo (Process × α)} {proc : Process}
    (hproc : n.process = some proc) {Q : Process × α → Site → Prop} {E : Error → Site → Prop}
    {C : Site → Prop} (h : Triple o (· = n.site) (p proc) Q E C) :
    (∃ r s, n.call o p = (⟨s, some r.1⟩, some (.ok r.2)) ∧ Q r s) ∨
    (∃ e s, n.call o p = (⟨s, some proc⟩, some (.error e)) ∧ E e s) ∨
    ∃ d, n.call o p = (.down d, none) := by
  have hrun := h ⟨n.site, 0⟩ rfl
  rw [Node.call, hproc]
  dsimp only
  generalize p proc o ⟨n.site, 0⟩ = r at hrun ⊢
  rcases r with ⟨r | e | _, w⟩
  · exact .inl ⟨r, w.disk, rfl, hrun⟩
  · exact .inr (.inl ⟨e, w.disk, rfl, hrun⟩)
  · exact .inr (.inr ⟨w.disk.disk, rfl⟩)

/-- A call on the log is an event of the node. -/
theorem Node.call_walCall (crc : Bytes → UInt32) {p : WalIo Unit} {act : Action}
    (hact : ∀ limits c, act.program limits c = (do p; return c)) (lower : String → String) :
    (n.call o (walCall p)).1 = n.after crc lower o (.wal act) := by
  unfold Node.call Node.after
  cases hproc : n.process with
  | none => rfl
  | some proc =>
    simp only [Event.program, hact, walCall, onLog, bind, Prog.zoom]
    rcases p o ⟨n.site.wal, 0⟩ with ⟨_ | _ | _, w⟩ <;> rfl

theorem Node.call_flush (now : ℕ) (lower : String → String) :
    (n.call o fun p ↦ p.flush crc now).1 = n.after crc lower o (.flush now) := by
  unfold Node.call Node.after
  cases hproc : n.process with
  | none => rfl
  | some proc =>
    simp only [Event.program, bind]
    rcases proc.flush crc now o ⟨n.site, 0⟩ with ⟨_ | _ | _, w⟩ <;> rfl

end Calls

/-! ## What is acknowledged -/

section Acknowledged

variable {o : Oracle Op} {act : Action} {log log' : Log}

/-- **Only an append acknowledges anything.** -/
theorem Change.acked_cases (h : Change o act log log') :
    log'.acked = log.acked ∨ ∃ id bytes, act = .append bytes ∧
      log'.acked = log.acked ++ [(id, bytes)] := by
  cases h with
  | acked hact h =>
    rw [h.log_eq]
    exact .inr ⟨_, _, hact, rfl⟩
  | failed h =>
    cases h with
    | refused => exact .inl rfl
    | sealed => exact .inl rfl
    | stuck _ _ hroll => exact .inl hroll.history.1
  | rollFailed _ _ h => exact .inl h.history.1
  | closed _ _ h =>
    rcases h.log_eq with rfl | rfl
    · exact .inl rfl
    · exact .inl rfl
  | same => exact .inl rfl
  | stopped => exact .inl rfl
  | drained => exact .inl rfl
  | synced => exact .inl rfl
  | noted => exact .inl rfl
  | rolled => exact .inl rfl

theorem Change.acked_eq (h : Change o act log log') (hact : ∀ bytes, act ≠ .append bytes) :
    log'.acked = log.acked :=
  h.acked_cases.resolve_right fun hacks ↦ by
    obtain ⟨_, bytes, heq, -⟩ := hacks
    exact hact bytes heq

theorem AppendFails.acked_eq {bytes : Bytes} (h : AppendFails o bytes log log') :
    log'.acked = log.acked := by
  have hchange : Change o .stop log log' := .failed h
  exact hchange.acked_eq fun _ ↦ by simp

end Acknowledged

/-- The program keeps a property of the log, unless it is stopped. -/
def KeepsLog {α : Type} (P : Log → Prop) (p : SiteIo α) : Prop :=
  ∀ o w, P w.disk.log → (p o w).1 ≠ .crash → P (p o w).2.disk.log

section KeepsLog

variable {α β : Type} {P : Log → Prop}

theorem KeepsLog.ret (a : α) : KeepsLog P (pure a) := fun _ _ h _ ↦ h

theorem KeepsLog.look (f : Site → α) : KeepsLog P (Prog.look f) := fun _ _ h _ ↦ h

/-- A program of the directory does not see the log. -/
theorem KeepsLog.onDisk (p : Io α) : KeepsLog P (onDisk p) := fun _ _ h _ ↦ h

theorem KeepsLog.bind {p : SiteIo α} {f : α → SiteIo β} (hp : KeepsLog P p)
    (hf : ∀ a, KeepsLog P (f a)) : KeepsLog P (p >>= f) := by
  intro o w hw hnot
  have hkeep := hp o w hw
  simp only [Bind.bind] at hnot ⊢
  generalize p o w = r at hkeep hnot ⊢
  rcases r with ⟨a | e | _, w'⟩
  · exact hf a o w' (hkeep (by simp)) hnot
  · exact hkeep (by simp)
  · exact absurd rfl hnot

end KeepsLog

/-- A property of the writer's state that a step of the log keeps, whatever is in `wal/`. -/
def Action.KeepsState (act : Action) (P : Log → Prop) : Prop :=
  ∀ {o dir log log'}, Change o act { log with dir } log' → P log → P { log' with dir := {} }

theorem Action.keepsState_acked {act : Action} (hact : ∀ bytes, act ≠ .append bytes)
    (acked : List (ℕ × Bytes)) : act.KeepsState fun log ↦ log.acked = acked := fun h hacked ↦
  (h.acked_eq hact).trans hacked

theorem sealSegment_keepsLog {P : Log → Prop} (hP : Action.sealSegment.KeepsState P) :
    KeepsLog P (onLog sealSegment) := by
  intro o w hw hnot
  have htriple : Triple o (· = w.disk.wal) sealSegment _ _ _ := sealSegment_change
  have h := htriple ⟨w.disk.wal, w.clock⟩ rfl
  simp only [onLog, Prog.zoom] at hnot ⊢
  generalize sealSegment o ⟨w.disk.wal, w.clock⟩ = r at h hnot ⊢
  rcases r with ⟨_ | _ | _, w'⟩
  · exact hP h.1 hw
  · exact hP h hw
  · exact absurd rfl hnot

/-- A flush does to the log what sealing a segment does. -/
theorem Process.flush_keepsLog {P : Log → Prop} (hP : Action.sealSegment.KeepsState P)
    (crc : Bytes → UInt32) (p : Process) (now : ℕ) : KeepsLog P (p.flush crc now) := by
  refine (sealSegment_keepsLog hP).bind fun _ ↦ (KeepsLog.onDisk _).bind fun _ ↦ ?_
  refine (KeepsLog.look _).bind fun _ ↦ (KeepsLog.onDisk _).bind fun _ ↦ ?_
  exact (KeepsLog.onDisk _).bind fun _ ↦ .ret _

/-- If the engine still runs, it is the same, and what was true of the writer's state still is. -/
def Node.Keeps (P : Log → Prop) (n n' : Node) : Prop :=
  ∀ p', n'.process = some p' → ∃ p, n.process = some p ∧ p'.engine = p.engine ∧
    (P n.site.log → P n'.site.log)

theorem Node.keeps_down {P : Log → Prop} (n : Node) (d : Disk) : n.Keeps P (.down d) := by
  rintro p' ⟨⟩

/-- If the engine still runs, it is the same, and nothing more has been acknowledged. -/
def Node.Quiet (n n' : Node) : Prop :=
  ∀ p', n'.process = some p' → ∃ p, n.process = some p ∧ p'.engine = p.engine ∧
    n'.site.log.acked = n.site.log.acked

theorem Node.Quiet.refl (n : Node) : n.Quiet n := fun p' hp' ↦ ⟨p', hp', rfl, rfl⟩

theorem Node.quiet_of_keeps {n n' : Node}
    (h : n.Keeps (fun log ↦ log.acked = n.site.log.acked) n') : n.Quiet n' := by
  intro p' hp'
  obtain ⟨p, hp, hengine, hacked⟩ := h p' hp'
  exact ⟨p, hp, hengine, hacked rfl⟩

section Events

variable {crc : Bytes → UInt32} {lower : String → String} {o : Oracle Op} {n : Node}
  {P : Log → Prop}

theorem Node.keeps_wal {act : Action} (hP : act.KeepsState P) :
    n.Keeps P (n.after crc lower o (.wal act)) := by
  unfold Node.after
  cases hproc : n.process with
  | none => exact fun p' hp' ↦ ⟨p', hp', rfl, id⟩
  | some p =>
    have htriple : Triple o (· = n.site.wal) (act.program p.engine.config.walLimits p.committer) _
      _ _ := act.program_triple
    have h := htriple ⟨n.site.wal, 0⟩ rfl
    simp only [Event.program, onLog, bind, Prog.zoom]
    generalize act.program p.engine.config.walLimits p.committer o ⟨n.site.wal, 0⟩ = r at h
    rcases r with ⟨c | e | _, w⟩
    · rintro p' ⟨⟩
      exact ⟨p, hproc, rfl, hP h⟩
    · rintro p' ⟨⟩
      exact ⟨p, hproc, rfl, hP h⟩
    · exact n.keeps_down _

/-- A step on the log that is no append. -/
theorem Node.quiet_wal {act : Action} (hact : ∀ bytes, act ≠ .append bytes) :
    n.Quiet (n.after crc lower o (.wal act)) :=
  Node.quiet_of_keeps (Node.keeps_wal (Action.keepsState_acked hact _))

theorem Process.flush_engine {p : Process} {now : ℕ} {w w' : World Site}
    {r : Process × Except Error FlushOutcome} (h : p.flush crc now o w = (.ok r, w')) :
    r.1.engine = p.engine ∧ r.1.committer = p.committer := by
  rw [Process.flush] at h
  obtain ⟨_, _, -, h⟩ := Prog.bind_eq_ok.1 h
  obtain ⟨_, _, -, h⟩ := Prog.bind_eq_ok.1 h
  obtain ⟨_, _, -, h⟩ := Prog.bind_eq_ok.1 h
  obtain ⟨_, _, -, h⟩ := Prog.bind_eq_ok.1 h
  obtain ⟨_, _, -, h⟩ := Prog.bind_eq_ok.1 h
  cases h
  exact ⟨rfl, rfl⟩

theorem Node.keeps_flush (hP : Action.sealSegment.KeepsState P) (now : ℕ) :
    n.Keeps P (n.call o fun p ↦ p.flush crc now).1 := by
  unfold Node.call
  cases hproc : n.process with
  | none => exact fun p' hp' ↦ ⟨p', hp', rfl, id⟩
  | some p =>
    have hkeeps := p.flush_keepsLog hP crc now o ⟨n.site, 0⟩
    have hengine : ∀ r w, p.flush crc now o ⟨n.site, 0⟩ = (.ok r, w) → r.1.engine = p.engine :=
      fun r w h ↦ (Process.flush_engine h).1
    dsimp only
    generalize p.flush crc now o ⟨n.site, 0⟩ = r at hkeeps hengine
    rcases r with ⟨r | e | _, w⟩
    · rintro p' ⟨⟩
      exact ⟨p, hproc, hengine r w rfl, fun hn ↦ hkeeps hn (by simp)⟩
    · rintro p' ⟨⟩
      exact ⟨p, hproc, rfl, fun hn ↦ hkeeps hn (by simp)⟩
    · exact n.keeps_down _

theorem Node.quiet_flush (now : ℕ) : n.Quiet (n.call o fun p ↦ p.flush crc now).1 :=
  Node.quiet_of_keeps (Node.keeps_flush (Action.keepsState_acked (fun _ ↦ by simp) _) now)

theorem Node.append_cases {p : Process} (hproc : n.process = some p) (bytes : Bytes) :
    (∃ s id, n.call o (walCall (appendBytes bytes)) = (⟨s, some p⟩, some (.ok ())) ∧
      s.log.acked = n.site.log.acked ++ [(id, bytes)]) ∨
    (∃ s e, n.call o (walCall (appendBytes bytes)) = (⟨s, some p⟩, some (.error e)) ∧
      s.log.acked = n.site.log.acked) ∨
    ∃ d, n.call o (walCall (appendBytes bytes)) = (.down d, none) := by
  have htriple : Triple o (· = n.site) (walCall (appendBytes bytes) p)
      (fun r s ↦ r = (p, ()) ∧ ∃ id, s.log.acked = n.site.log.acked ++ [(id, bytes)])
      (fun _ s ↦ s.log.acked = n.site.log.acked) fun _ ↦ True := by
    refine .bind (Q := fun _ s ↦ ∃ id, s.log.acked = n.site.log.acked ++ [(id, bytes)])
      (.zoom fun s hs ↦ ?_) fun _ ↦ .ret fun _ h ↦ ⟨rfl, h⟩
    subst hs
    refine (appendBytes_triple bytes).conseq (fun _ ↦ id) ?_ (fun _ _ h ↦ ?_) fun _ _ ↦ trivial
    · rintro _ log ⟨a, x, buf, h⟩
      rw [h.log_eq]
      exact ⟨a.id, rfl⟩
    · exact h.acked_eq
  rcases Node.call_cases hproc htriple with ⟨r, s, heq, rfl, id, hs⟩ | ⟨e, s, heq, hs⟩ | ⟨d, heq⟩
  · exact .inl ⟨s, id, heq, hs⟩
  · exact .inr (.inl ⟨s, e, heq, hs⟩)
  · exact .inr (.inr ⟨d, heq⟩)

end Events

/-! ## Verdicts and counts -/

namespace Engine

variable {crc : Bytes → UInt32} {e : Engine} {clock : ℕ → ℕ}

private theorem verdict_eq_taken {now : ℕ} {p : FramePrefix} :
    e.verdict now p = .taken ↔ (e.checkTs now p.ts).toBool = true ∧ e.known p = true := by
  rw [verdict]
  split_ifs with hts hknown <;> simp [*]

variable (crc e clock) in
/-- **The counts of raw ingest** are those of its verdicts. -/
theorem appendRawLoop_verdicts (fuel : ℕ) (bytes : Bytes) (out : RawIngest) (good : List Bytes) :
    let r := e.appendRawLoop crc clock fuel bytes out good
    let vs := e.verdicts crc clock fuel (out.accepted + out.rejected) bytes
    r.1.accepted = out.accepted + vs.count .taken ∧
      r.1.rejected + vs.count .taken = out.rejected + vs.length ∧
      r.2.length = good.length + vs.count .taken := by
  intro r vs
  induction fuel generalizing bytes out good with
  | zero => exact ⟨rfl, rfl, rfl⟩
  | succ fuel ih =>
    simp only [r, vs, appendRawLoop, verdicts]
    by_cases hempty : bytes.isEmpty = true
    · rw [if_pos hempty, if_pos hempty]
      exact ⟨rfl, rfl, rfl⟩
    rw [if_neg hempty, if_neg hempty]
    cases validatePrefix crc bytes e.limit with
    | error _ => exact ⟨rfl, rfl, rfl⟩
    | ok p =>
      dsimp only
      by_cases htaken : (e.checkTs (clock (out.accepted + out.rejected)) p.ts).toBool = true ∧
          e.known p = true
      · rw [if_pos htaken, verdict_eq_taken.2 htaken]
        obtain ⟨h₁, h₂, h₃⟩ := ih (bytes.drop p.frameLen) { out with accepted := out.accepted + 1 }
          (good ++ [bytes.take p.frameLen])
        have hindex : out.accepted + 1 + out.rejected = out.accepted + out.rejected + 1 :=
          Nat.add_right_comm _ _ _
        dsimp only at h₁ h₂ h₃
        rw [hindex] at h₁ h₂ h₃
        rw [List.count_cons_self, List.length_cons]
        rw [List.length_append, List.length_singleton] at h₃
        exact ⟨by omega, by omega, by omega⟩
      · have hne := mt verdict_eq_taken.1 htaken
        rw [if_neg htaken]
        obtain ⟨h₁, h₂, h₃⟩ := ih (bytes.drop p.frameLen) { out with rejected := out.rejected + 1 }
          good
        dsimp only at h₁ h₂ h₃
        rw [← Nat.add_assoc] at h₁ h₂ h₃
        rw [List.count_cons_of_ne hne, List.length_cons]
        exact ⟨h₁, by omega, h₃⟩

variable (crc e clock) in
theorem appendRaw_verdicts (bytes : Bytes) :
    (e.appendRaw crc clock bytes).1.accepted =
        (e.verdicts crc clock bytes.length 0 bytes).count .taken ∧
      (e.appendRaw crc clock bytes).1.rejected +
          (e.verdicts crc clock bytes.length 0 bytes).count .taken =
        (e.verdicts crc clock bytes.length 0 bytes).length ∧
      (e.appendRaw crc clock bytes).2.length =
        (e.verdicts crc clock bytes.length 0 bytes).count .taken := by
  obtain ⟨haccepted, hrejected, hgood⟩ := appendRawLoop_verdicts crc e clock bytes.length
    bytes {} []
  exact ⟨haccepted.trans (Nat.zero_add _), hrejected.trans (Nat.zero_add _),
    hgood.trans (Nat.zero_add _)⟩

end Engine

/-! ## Reading a message -/

/-- The entry is what an engine makes of a message, at some time. -/
def Judges (crc : Bytes → UInt32) (e : Engine) (m : Ingested) : Prop :=
  (∃ err, parseBatchHeader m.msg = .error err) ∧ m.verdicts = [] ∧ m.good = [] ∨
  (∃ count, parseBatchHeader m.msg = .ok count) ∧ ∃ clock,
    m.verdicts = e.verdicts crc clock (m.msg.drop batchHeaderBytes).length 0
      (m.msg.drop batchHeaderBytes) ∧
    m.good = (e.appendRaw crc clock (m.msg.drop batchHeaderBytes)).2

/-- What the log has taken of a message. -/
def Ingested.logged (m : Ingested) : List Bytes :=
  if m.acked && !m.good.flatten.isEmpty then [m.good.flatten] else []

/-- The counters after a message. The frames of a batch whose append failed are not counted as
appended, and those rejected in it not as rejected. -/
def Counters.add (c : Counters) (m : Ingested) : Counters :=
  { c with
    appended := c.appended + if m.acked then m.verdicts.count .taken else 0
    rejectedTs := c.rejectedTs + m.verdicts.count .ts
    rejectedSeries := c.rejectedSeries + m.verdicts.count .series
    rejectedFrames := c.rejectedFrames +
      if m.acked then m.verdicts.length - m.verdicts.count .taken else 0 }

/-- The requests and replies, and the order to stop, are as they were. -/
structure Host.Untouched (h h' : Host) : Prop where
  asked : h'.asked = h.asked
  answered : h'.answered = h.answered
  stop : h'.stop = h.stop

/-- What reading a message does to a host. -/
structure Received (crc : Bytes → UInt32) (p : Process) (o : Oracle Op) (msg : Bytes) (h h' : Host)
    (m : Ingested) : Prop where
  host_eq : h' = { h with
    node := h'.node
    counters := h.counters.add m
    batches := h.batches + 1
    ingested := h.ingested ++ [m] }
  msg_eq : m.msg = msg
  judged : Judges crc p.engine m
  log : ∀ p', h'.node.process = some p' → p'.engine = p.engine ∧
    h'.node.site.log.acked.map Prod.snd = h.node.site.log.acked.map Prod.snd ++ m.logged
  node : h'.node = h.node ∨ ∃ bytes, h'.node = h.node.after crc id o (.wal (.append bytes))

namespace Host

variable {crc : Bytes → UInt32} {p : Process} {h : Host}

private theorem judged_settled {vs : List Verdict} {out : Engine.RawIngest} (c : Counters)
    (haccepted : out.accepted = vs.count .taken)
    (hrejected : out.rejected + vs.count .taken = vs.length) (msg : Bytes) (good : List Bytes) :
    (c.judged vs).settled out = c.add ⟨msg, vs, good, true⟩ := by
  have hreject : out.rejected = vs.length - vs.count .taken := by omega
  rw [Counters.settled, Counters.judged, Counters.add, haccepted, hreject]
  rfl

theorem ingestFrames_spec (crc : Bytes → UInt32) (hproc : h.node.process = some p) (env : Env)
    (msg : Bytes) {vs : List Verdict} {out : Engine.RawIngest} (good : List Bytes)
    (haccepted : out.accepted = vs.count .taken)
    (hrejected : out.rejected + vs.count .taken = vs.length) :
    ∃ m n, h.ingestFrames env msg vs out good =
        { h with node := n, counters := h.counters.add m, ingested := h.ingested ++ [m] } ∧
      m.msg = msg ∧ m.verdicts = vs ∧ m.good = good ∧
      (∀ p', n.process = some p' → p'.engine = p.engine ∧
        n.site.log.acked.map Prod.snd = h.node.site.log.acked.map Prod.snd ++ m.logged) ∧
      (n = h.node ∨ ∃ bytes, n = h.node.after crc id env.oracle (.wal (.append bytes))) := by
  have hsettled := judged_settled h.counters haccepted hrejected msg good
  rw [ingestFrames]
  by_cases hempty : good.flatten.isEmpty = true
  · rw [if_pos hempty, hsettled]
    refine ⟨_, h.node, rfl, rfl, rfl, rfl, fun p' hp' ↦ ?_, .inl rfl⟩
    cases hproc.symm.trans hp'
    refine ⟨rfl, ?_⟩
    simp [Ingested.logged, hempty]
  · rw [if_neg hempty]
    have hnode : (h.node.call env.oracle (walCall (appendBytes good.flatten))).1 =
        h.node.after crc id env.oracle (.wal (.append good.flatten)) :=
      Node.call_walCall crc (fun _ _ ↦ rfl) id
    rcases Node.append_cases hproc (o := env.oracle) good.flatten with
      ⟨s, i, hcall, hacked⟩ | ⟨s, err, hcall, hacked⟩ | ⟨d, hcall⟩
    · rw [hcall] at hnode ⊢
      dsimp only
      rw [hsettled]
      refine ⟨_, _, rfl, rfl, rfl, rfl, ?_, .inr ⟨_, hnode⟩⟩
      rintro p' ⟨⟩
      refine ⟨rfl, ?_⟩
      rw [hacked, List.map_append]
      simp [Ingested.logged, hempty]
    · rw [hcall] at hnode ⊢
      refine ⟨⟨msg, vs, good, false⟩, _, rfl, rfl, rfl, rfl, ?_, .inr ⟨_, hnode⟩⟩
      rintro p' ⟨⟩
      refine ⟨rfl, ?_⟩
      rw [hacked]
      exact (List.append_nil _).symm
    · rw [hcall] at hnode ⊢
      refine ⟨⟨msg, vs, good, false⟩, _, rfl, rfl, rfl, rfl, ?_, .inr ⟨_, hnode⟩⟩
      rintro p' ⟨⟩

/-- **Reading a message.** -/
theorem receive_spec (hproc : h.node.process = some p) (env : Env) (msg : Bytes) :
    ∃ m, Received crc p env.oracle msg h (h.receive crc env msg) m := by
  rw [receive, ingestBatch]
  simp only [hproc, Engine.ingestBatch]
  cases hheader : parseBatchHeader msg with
  | error err =>
    refine ⟨{ msg }, rfl, rfl, .inl ⟨⟨err, hheader⟩, rfl, rfl⟩, fun p' hp' ↦ ?_, .inl rfl⟩
    cases hproc.symm.trans hp'
    exact ⟨rfl, (List.append_nil _).symm⟩
  | ok count =>
    obtain ⟨haccepted, hrejected, -⟩ :=
      Engine.appendRaw_verdicts crc p.engine env.clock (msg.drop batchHeaderBytes)
    have hproc' : { h with batches := h.batches + 1 }.node.process = some p := hproc
    obtain ⟨m, n, heq, hmsg, hvs, hgood, hlog, hnode⟩ :=
      ingestFrames_spec crc hproc' env msg
        (p.engine.appendRaw crc env.clock (msg.drop batchHeaderBytes)).2 haccepted hrejected
    dsimp only
    rw [heq]
    refine ⟨m, rfl, hmsg, .inr ⟨⟨count, hmsg ▸ hheader⟩, env.clock, ?_, ?_⟩, hlog, hnode⟩
    · rw [hmsg]
      exact hvs
    · rw [hmsg]
      exact hgood

end Host

namespace Received

variable {crc : Bytes → UInt32} {p : Process} {o : Oracle Op} {msg : Bytes} {h h' : Host}
  {m : Ingested}

theorem untouched (hread : Received crc p o msg h h' m) : h.Untouched h' := by
  rw [hread.host_eq]
  exact ⟨rfl, rfl, rfl⟩

theorem pc (hread : Received crc p o msg h h' m) : h'.pc = h.pc := by rw [hread.host_eq]

end Received

/-! ## Answering a request -/

/-- The schema a server reports, which is that of its engine. -/
def Engine.schema (e : Engine) : ControlReply :=
  .schema (e.handles.toList.map fun s ↦ ⟨s.2.name, s.2.epoch, s.2.keys⟩)
    (some (.ofNat (max e.config.server.maxBatchBytes.toInt 0).toNat))

/-- The reply is one to this request. -/
def ControlRequest.AnsweredBy (shown : Error → String) (e : Engine) (reply : ControlReply) :
    ControlRequest → Prop
  | .ping => reply = .pong version
  | .stats => ∃ payload, reply = .stats payload
  | .flush => ∃ r : Except Error FlushOutcome, reply = Host.flushReply shown r
  | .schema => reply = e.schema
  | .reloadConfig => reply = .error
      "reload-config is not implemented yet; restart the server to adopt a new config"
  | .shutdown => reply = .shuttingDown

/-- The reply is one to these bytes. -/
def Replies (w : Setting) (e : Engine) (request : Bytes) (reply : ControlReply) : Prop :=
  match w.wire.readRequest request with
  | .error reason => reply = .error ("unparseable request: " ++ reason)
  | .ok r => r.AnsweredBy w.shown e reply

theorem replies_iff {w : Setting} {e : Engine} {request : Bytes} {reply : ControlReply}
    {r : ControlRequest} (h : w.wire.readRequest request = .ok r) :
    Replies w e request reply ↔ r.AnsweredBy w.shown e reply := by
  rw [Replies, h]

/-- Nothing but the counts of flushes has changed. -/
def Counters.SameIngest (c c' : Counters) : Prop :=
  ∃ rows dups, c' = { c with rowsFlushed := rows, rowsDeduplicated := dups }

/-- What answering a request does to a host. -/
structure Answered (w : Setting) (e : Engine) (o : Oracle Op) (request : Bytes) (h h' : Host)
    (r : Option ControlReply) : Prop where
  host_eq : h' = { h with node := h'.node, counters := h'.counters, stop := h'.stop }
  counters : h.counters.SameIngest h'.counters
  quiet : h.node.Quiet h'.node
  stop : h'.stop = true ↔ h.stop = true ∨ w.wire.readRequest request = .ok .shutdown
  reply : ∀ reply, r = some reply → Replies w e request reply
  gone : r = none → h'.node.process = none
  node : h'.node = h.node ∨ ∃ now, h'.node = h.node.after w.crc id o (.flush now)

namespace Answered

variable {w : Setting} {e : Engine} {o : Oracle Op} {request : Bytes} {h h' : Host}
  {r : Option ControlReply}

theorem ingested (hanswer : Answered w e o request h h' r) :
    h'.ingested = h.ingested := by rw [hanswer.host_eq]

theorem batches (hanswer : Answered w e o request h h' r) : h'.batches = h.batches := by
  rw [hanswer.host_eq]

theorem asked (hanswer : Answered w e o request h h' r) : h'.asked = h.asked := by
  rw [hanswer.host_eq]

theorem answered (hanswer : Answered w e o request h h' r) :
    h'.answered = h.answered := by rw [hanswer.host_eq]

theorem pc (hanswer : Answered w e o request h h' r) : h'.pc = h.pc := by
  rw [hanswer.host_eq]

end Answered

namespace Host

variable {w : Setting} {p : Process} {h : Host}

/-- **A flush** changes the node and counts its rows, and does not return only if the process is
gone. -/
theorem flush_spec (crc : Bytes → UInt32) (hproc : h.node.process = some p) (o : Oracle Op)
    (now : ℕ) : ∃ n c r, h.flush crc o now = ({ h with node := n, counters := c }, r) ∧
      h.counters.SameIngest c ∧ h.node.Quiet n ∧ (r = none → n.process = none) ∧
      n = h.node.after crc id o (.flush now) := by
  have hquiet : h.node.Quiet (h.node.call o fun p ↦ p.flush crc now).1 := Node.quiet_flush now
  have hnode : (h.node.call o fun p ↦ p.flush crc now).1 = h.node.after crc id o (.flush now) :=
    Node.call_flush now id
  have hgone : (h.node.call o fun p ↦ p.flush crc now).2 = none →
      (h.node.call o fun p ↦ p.flush crc now).1.process = none := by
    rw [Node.call, hproc]
    dsimp only
    rcases p.flush crc now o ⟨h.node.site, 0⟩ with ⟨_ | _ | _, w⟩ <;> simp [Node.down]
  rw [flush]
  generalize h.node.call o (fun p ↦ p.flush crc now) = c at hquiet hnode hgone
  rcases c with ⟨n, _ | _ | _ | outcome⟩
  · exact ⟨n, _, _, rfl, ⟨_, _, rfl⟩, hquiet, fun _ ↦ hgone rfl, hnode⟩
  · exact ⟨n, _, _, rfl, ⟨_, _, rfl⟩, hquiet, by simp, hnode⟩
  · exact ⟨n, _, _, rfl, ⟨_, _, rfl⟩, hquiet, by simp, hnode⟩
  · exact ⟨n, h.counters.flushed outcome, _, rfl, ⟨_, _, rfl⟩, hquiet, by simp, hnode⟩

/-- **Answering a request.** -/
theorem answer_spec (hproc : h.node.process = some p) (env : Env) (request : Bytes) :
    Answered w p.engine env.oracle request h
      (h.answer w env request).1 (h.answer w env request).2 := by
  have hsame : h.counters.SameIngest h.counters := ⟨_, _, rfl⟩
  have hkept : ∀ {r : ControlReply}, Replies w p.engine request r →
      w.wire.readRequest request ≠ .ok .shutdown →
      Answered w p.engine env.oracle request h h (some r) := fun hr hne ↦
    ⟨rfl, hsame, .refl _, by simp [hne], fun _ heq ↦ Option.some.inj heq ▸ hr, nofun, .inl rfl⟩
  rw [answer]
  cases hparse : w.wire.readRequest request with
  | error reason => exact hkept (by rw [Replies, hparse]) (by rw [hparse]; simp)
  | ok r =>
    cases r with
    | ping => exact hkept ((replies_iff hparse).2 rfl) (by rw [hparse]; simp)
    | stats => exact hkept ((replies_iff hparse).2 ⟨_, rfl⟩) (by rw [hparse]; simp)
    | flush =>
      obtain ⟨n, c, r, hflush, hcounters, hquiet, hgone, hnode⟩ :=
        flush_spec w.crc hproc env.oracle (env.clock 0)
      simp only [handle, hflush]
      refine ⟨rfl, hcounters, hquiet, by simp [hparse], ?_, ?_, .inr ⟨_, hnode⟩⟩
      · intro reply hreply
        obtain ⟨r, -, rfl⟩ := Option.map_eq_some_iff.1 hreply
        exact (replies_iff hparse).2 ⟨r, rfl⟩
      · exact fun hnone ↦ hgone (Option.map_eq_none_iff.1 hnone)
    | schema =>
      refine hkept ((replies_iff hparse).2 ?_) (by rw [hparse]; simp)
      change Host.schema h = p.engine.schema
      rw [Host.schema, hproc]
      rfl
    | reloadConfig => exact hkept ((replies_iff hparse).2 rfl) (by rw [hparse]; simp)
    | shutdown =>
      refine ⟨rfl, hsame, .refl _, by simp [handle, hparse], ?_, nofun, .inl rfl⟩
      rintro reply ⟨⟩
      exact (replies_iff hparse).2 rfl

end Host

end Orc
