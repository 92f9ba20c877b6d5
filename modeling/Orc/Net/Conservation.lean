import Orc.Machine.Run
import Orc.Net.Client

/-!
# What becomes of the records given to a client

The caller of a client knows its records by how each `send` returned. This file compares that with
what the socket was given. The client settles its records in order, in batches that say how many
there are (`Client.Accounts`), as long as no send fails on the batch that its own record completes:
that error is returned although the record is kept (`client_conserves_iff`).

The size of a batch is bounded when a record is added, by the limit then in force, and the limit is
replaced by every handshake. A handshake that lowers it under the size of the waiting batch leaves a
batch the client refuses to send from then on (`client_never_wedges_iff`).
-/

namespace Orc

open Bytes

namespace Client

/-! ## Calls -/

/-- A call on a connected client. -/
inductive Call where
  | send (s : RemoteSeries) (row : Row)
  | flush
  | refreshSchema (reply : ControlResponse)

/-- A client, and the frames of the records whose `send` returned `Ok`, in order. -/
structure Session where
  client : Client
  accepted : List Bytes := []

section Checksum

variable (crc : Bytes → UInt32)

/-- What a call does to the client. -/
def Call.run (answers : ℕ → Pushed) : Call → EStateM Error Client Unit
  | .send s row => Client.send crc answers s row
  | .flush => Client.flush answers
  | .refreshSchema reply => Client.refreshSchema reply

/-- The frames a call accepts when it returns `Ok`. -/
def Call.frames : Call → List Bytes
  | .send s row => [frameOf crc s.name s.epoch row]
  | .flush => []
  | .refreshSchema _ => []

/-- One call, as its caller sees it. -/
def Session.step (answers : ℕ → Pushed) (s : Session) (call : Call) : Session :=
  match call.run crc answers s.client with
  | .ok () c => ⟨c, s.accepted ++ call.frames crc⟩
  | .error _ c => ⟨c, s.accepted⟩

end Checksum

variable {crc : Bytes → UInt32} {answers : ℕ → Pushed}

/-! ## What a send can do -/

/-- The client once there is room for the frame `f` and it is in the buffer, but not counted. -/
inductive Readied (answers : ℕ → Pushed) (f : Bytes) (c : Client) : Client → Prop
  | behind (h : c.buf.length = 0 ∨ batchHeaderBytes + (c.buf ++ f).length ≤ c.maxBatchBytes) :
      Readied answers f c { c with buf := c.buf ++ f }
  | alone {c' : Client} (hne : 0 < c.buf.length)
      (h : c.maxBatchBytes < batchHeaderBytes + (c.buf ++ f).length)
      (hflush : Client.flush answers c = .ok () c') :
      Readied answers f c { c' with buf := c'.buf ++ f }

/-- The record encodes, and fits a batch of its own. -/
structure Admits (crc : Bytes → UInt32) (c : Client) (s : RemoteSeries) (row : Row) : Prop where
  encodable : Encodable s.name s.epoch row
  payload : (payloadBytes (stamped s.name s.epoch row)).length ≤ u32Max
  alone : batchHeaderBytes + (frameOf crc s.name s.epoch row).length ≤ c.maxBatchBytes

private theorem makeRoom_eq (c : Client) (f : Bytes) :
    makeRoom answers c.buf.length { c with buf := c.buf ++ f } =
      if 0 < c.buf.length ∧ c.maxBatchBytes < batchHeaderBytes + (c.buf ++ f).length then
        (do Client.flush answers; modify fun c' : Client ↦ { c' with buf := c'.buf ++ f } :
          EStateM Error Client Unit) c
      else .ok () { c with buf := c.buf ++ f } := by
  simp only [makeRoom, bind, EStateM.bind, get_apply]
  split_ifs
  · simp only [List.take_left, List.drop_left]
    rfl
  · rfl

variable (crc answers) in
/-- **A send** refuses the record and changes nothing, or fails to send the earlier ones, or has the
frame in the buffer and counts it. -/
theorem send_cases (c : Client) (s : RemoteSeries) (row : Row) :
    (∃ e, ¬ Admits crc c s row ∧ Client.send crc answers s row c = .error e c) ∨
    (∃ e c', Client.flush answers c = .error e c' ∧
      (∀ c'', ¬ Readied answers (frameOf crc s.name s.epoch row) c c'') ∧
      Client.send crc answers s row c = .error e c') ∨
    (Admits crc c s row ∧ ∃ c', Readied answers (frameOf crc s.name s.epoch row) c c' ∧
      Client.send crc answers s row c = countFrame answers c') := by
  have hinner := emits_encodeInner crc s.name s.epoch row
  simp only [Client.send, get_apply, bind, EStateM.bind, encodeInto]
  by_cases hP : Encodable s.name s.epoch row ∧
      (payloadBytes (stamped s.name s.epoch row)).length ≤ u32Max
  · rw [(encode_eq_ok crc s.name s.epoch row).2 ⟨hP, rfl⟩]
    have hframe : (c.buf ++ frameOf crc s.name s.epoch row).length - c.buf.length =
        (frameOf crc s.name s.epoch row).length := by
      rw [List.length_append, Nat.add_sub_cancel_left]
    simp only [hframe]
    by_cases hsize : c.maxBatchBytes < batchHeaderBytes + (frameOf crc s.name s.epoch row).length
    · rw [if_pos hsize]
      simp only [EStateM.bind, set_apply, List.take_left]
      exact .inl ⟨.batchTooLarge _ _, fun h ↦ absurd h.alone (by omega), rfl⟩
    · rw [if_neg hsize]
      have hadmits : Admits crc c s row := ⟨hP.1, hP.2, by omega⟩
      simp only [EStateM.bind, makeRoom_eq]
      by_cases hroom : 0 < c.buf.length ∧
          c.maxBatchBytes < batchHeaderBytes + (c.buf ++ frameOf crc s.name s.epoch row).length
      · rw [if_pos hroom]
        simp only [bind, EStateM.bind]
        cases hflush : Client.flush answers c with
        | ok u c' => exact .inr (.inr ⟨hadmits, _, .alone hroom.1 hroom.2 hflush, rfl⟩)
        | error e c' =>
          refine .inr (.inl ⟨e, c', rfl, fun c'' h ↦ ?_, rfl⟩)
          cases h with
          | behind h => omega
          | alone _ _ h => rw [hflush] at h; cases h
      · rw [if_neg hroom]
        exact .inr (.inr ⟨hadmits, _, .behind (by omega), rfl⟩)
  · obtain ⟨e, more, he⟩ := hinner.err hP c.buf
    refine .inl ⟨e, fun h ↦ hP ⟨h.encodable, h.payload⟩, ?_⟩
    rw [encode, he]
    simp only [List.take_left]

theorem flush_error_iff (c : Client) :
    (∃ e c', Client.flush answers c = .error e c') ↔
      0 < c.pending ∧ (c.maxBatchBytes < batchHeaderBytes + c.buf.length ∨
        answers c.push.offered = .failed) := by
  -- when a flush fails: the waiting batch is over the limit, or the socket does not take it
  rw [flush_eq, Socket.send]
  by_cases hzero : c.pending = 0
  · rw [if_pos hzero]
    simp [hzero]
  · rw [if_neg hzero]
    by_cases hsize : c.maxBatchBytes < batchHeaderBytes + c.buf.length
    · rw [if_pos hsize]
      exact ⟨fun _ ↦ ⟨by omega, .inl hsize⟩, fun _ ↦ ⟨_, _, rfl⟩⟩
    · rw [if_neg hsize]
      cases answers c.push.offered with
      | taken => simp [settle, hsize, modify_apply]
      | again => simp [settle, hsize, modify_apply]
      | failed => exact ⟨fun _ ↦ ⟨by omega, .inr rfl⟩, fun _ ↦ ⟨_, _, rfl⟩⟩

theorem flush_error {c c' : Client} {e : Error} (h : Client.flush answers c = .error e c') :
    c' = { c with push := c'.push } := by
  rw [flush_eq, Socket.send] at h
  split_ifs at h
  · cases h
    rfl
  · cases hanswer : answers c.push.offered with
    | taken =>
      rw [hanswer] at h
      cases h
    | again =>
      rw [hanswer] at h
      cases h
    | failed =>
      rw [hanswer] at h
      cases h
      rfl

/-- The client `c` with nothing waiting, under the same settings. -/
structure Cleared (c c' : Client) : Prop where
  buf : c'.buf = []
  pending : c'.pending = 0
  batch : c'.batch = c.batch
  maxBatchBytes : c'.maxBatchBytes = c.maxBatchBytes

theorem flush_cleared {c c' : Client} (hempty : c.pending = 0 → c.buf = [])
    (h : Client.flush answers c = .ok () c') : Cleared c c' := by
  rw [flush_eq, Socket.send] at h
  split_ifs at h with hzero
  · cases h
    exact ⟨hempty hzero, hzero, rfl, rfl⟩
  · cases hanswer : answers c.push.offered with
    | taken =>
      rw [hanswer] at h
      cases h
      exact ⟨rfl, rfl, rfl, rfl⟩
    | again =>
      rw [hanswer] at h
      cases h
      exact ⟨rfl, rfl, rfl, rfl⟩
    | failed =>
      rw [hanswer] at h
      cases h

theorem Readied.fits {f : Bytes} {c c' : Client} (h : Readied answers f c c')
    (hf : batchHeaderBytes + f.length ≤ c.maxBatchBytes) (hempty : c.pending = 0 → c.buf = []) :
    c'.batch = c.batch ∧ c'.pending ≤ c.pending ∧
      batchHeaderBytes + c'.buf.length ≤ c'.maxBatchBytes := by
  cases h with
  | behind h =>
    refine ⟨rfl, le_rfl, ?_⟩
    change batchHeaderBytes + (c.buf ++ f).length ≤ c.maxBatchBytes
    rw [List.length_append] at h ⊢
    omega
  | @alone c' hne hover hflush =>
    have hclear := flush_cleared hempty hflush
    refine ⟨hclear.batch, hclear.pending.trans_le (Nat.zero_le _), ?_⟩
    change batchHeaderBytes + (c'.buf ++ f).length ≤ c'.maxBatchBytes
    rw [hclear.buf, hclear.maxBatchBytes]
    exact hf

theorem Readied.unique {f : Bytes} {c c' c'' : Client} (h : Readied answers f c c')
    (h' : Readied answers f c c'') : c' = c'' := by
  cases h with
  | behind h =>
    cases h' with
    | behind => rfl
    | alone hne hover => omega
  | alone hne hover hflush =>
    cases h' with
    | behind h' => omega
    | alone _ _ hflush' =>
      rw [hflush] at hflush'
      cases hflush'
      rfl

theorem countFrame_error_iff {c : Client}
    (hfits : batchHeaderBytes + c.buf.length ≤ c.maxBatchBytes) :
    (∃ e c', countFrame answers c = .error e c') ↔
      c.batch ≤ c.pending + 1 ∧ answers c.push.offered = .failed := by
  rw [countFrame_eq]
  by_cases hfull : c.batch ≤ c.pending + 1
  · rw [if_pos hfull, flush_error_iff]
    constructor
    · rintro ⟨-, hover | hfailed⟩
      · exact absurd hover (Nat.not_lt.2 hfits)
      · exact ⟨hfull, hfailed⟩
    · rintro ⟨-, hfailed⟩
      exact ⟨Nat.succ_pos _, .inr hfailed⟩
  · rw [if_neg hfull]
    simp [hfull]

/-! ## Conservation -/

/-- **The books of a client.** `batches` are the batches the socket took or had no room for, each
with its answer; `waiting` are the frames in the buffer, in front of `tail`. Together, in order,
they are the frames `acc`, and the counters and the count of every message agree with them. -/
structure Accounts (acc : List Bytes) (batches : List (List Bytes × Pushed)) (waiting : List Bytes)
    (tail : Bytes) (c : Client) : Prop where
  settled : c.push.settled =
    batches.map fun b ↦ (encodeBatchHeader b.1.length ++ b.1.flatten, b.2)
  counts : ∀ b ∈ batches,
    parseBatchHeader (encodeBatchHeader b.1.length ++ b.1.flatten) = .ok b.1.length
  buf : c.buf = waiting.flatten ++ tail
  pending : c.pending = waiting.length
  acc_eq : acc = batches.flatMap Prod.fst ++ waiting
  sent : c.stats.recordsSent = ((batches.filter (·.2 = .taken)).flatMap Prod.fst).length
  dropped : c.stats.recordsDropped = ((batches.filter (·.2 = .again)).flatMap Prod.fst).length
  total : c.stats.recordsSent + c.stats.recordsDropped + c.pending = acc.length

/-- The frames of the records the client accepted are what it settled and what it holds. -/
def Session.Conserved (s : Session) : Prop :=
  ∃ batches waiting, Accounts s.accepted batches waiting [] s.client

/-- The send accepts the record, fills the batch with it, and the socket fails on that batch. -/
def LateFailure (crc : Bytes → UInt32) (answers : ℕ → Pushed) (c : Client) (s : RemoteSeries)
    (row : Row) : Prop :=
  Admits crc c s row ∧ ∃ c', Readied answers (frameOf crc s.name s.epoch row) c c' ∧
    c'.batch ≤ c'.pending + 1 ∧ answers c'.push.offered = .failed

theorem lateFailure_iff {c c' : Client} {s : RemoteSeries} {row : Row}
    (hadmits : Admits crc c s row) (hready : Readied answers (frameOf crc s.name s.epoch row) c c')
    (hfits : batchHeaderBytes + c'.buf.length ≤ c'.maxBatchBytes) :
    LateFailure crc answers c s row ↔ ∃ e c'', countFrame answers c' = .error e c'' := by
  rw [countFrame_error_iff hfits]
  constructor
  · rintro ⟨-, c'', hready', hfull, hfailed⟩
    obtain rfl := hready.unique hready'
    exact ⟨hfull, hfailed⟩
  · rintro ⟨hfull, hfailed⟩
    exact ⟨hadmits, c', hready, hfull, hfailed⟩

/-- The call is no send that fails on the batch its own record fills. -/
def Call.NoLateFailure (crc : Bytes → UInt32) (answers : ℕ → Pushed) (c : Client) : Call → Prop
  | .send s row => ¬ LateFailure crc answers c s row
  | .flush => True
  | .refreshSchema _ => True

theorem Accounts.pending_zero {acc : List Bytes} {batches : List (List Bytes × Pushed)}
    {waiting : List Bytes} {c : Client} (h : Accounts acc batches waiting [] c) :
    c.pending = 0 → c.buf = [] := by
  intro hzero
  rw [h.pending, List.length_eq_zero_iff] at hzero
  rw [h.buf, hzero]
  rfl

theorem Accounts.book {acc : List Bytes} {batches : List (List Bytes × Pushed)}
    {waiting : List Bytes} {c c' : Client} {r : Pushed} (h : Accounts acc batches waiting [] c)
    (hcount : waiting.length ≤ u32Max) (hr : r ≠ .failed)
    (hsettled : c'.push.settled = c.push.settled ++ [(encodeBatchHeader c.pending ++ c.buf, r)])
    (hbuf : c'.buf = []) (hpending : c'.pending = 0)
    (hsent : c'.stats.recordsSent = c.stats.recordsSent + if r = .taken then c.pending else 0)
    (hdropped : c'.stats.recordsDropped =
      c.stats.recordsDropped + if r = .again then c.pending else 0) :
    Accounts acc (batches ++ [(waiting, r)]) [] [] c' where
  settled := by
    rw [hsettled, h.settled, h.pending, h.buf, List.map_append, List.append_nil]
    rfl
  counts := by
    intro b hb
    rcases List.mem_append.1 hb with hb | hb
    · exact h.counts b hb
    · have hlt : waiting.length < 2 ^ 32 := by
        unfold u32Max at hcount
        omega
      rw [List.mem_singleton.1 hb, parseBatchHeader_append, Nat.mod_eq_of_lt hlt]
  buf := hbuf
  pending := hpending
  acc_eq := by simp [h.acc_eq]
  sent := by
    rw [hsent, h.sent, h.pending]
    split_ifs with htaken
    · simp [htaken]
    · simp [htaken]
  dropped := by
    rw [hdropped, h.dropped, h.pending]
    split_ifs with hagain
    · simp [hagain]
    · simp [hagain]
  total := by
    have htotal := h.total
    rw [hsent, hdropped, hpending]
    cases r with
    | taken =>
      simp only [if_pos, reduceCtorEq, if_false]
      omega
    | again =>
      simp only [if_pos, reduceCtorEq, if_false]
      omega
    | failed => exact absurd rfl hr

variable (answers) in
theorem flush_accounts {acc : List Bytes} {batches : List (List Bytes × Pushed)}
    {waiting : List Bytes} {c : Client} (h : Accounts acc batches waiting [] c)
    (hcount : waiting.length ≤ u32Max) :
    Ends (fun c' ↦ ∃ batches', Accounts acc batches' [] [] c') (Accounts acc batches waiting [])
      (Client.flush answers c) := by
  rw [flush_eq]
  by_cases hzero : c.pending = 0
  · rw [if_pos hzero]
    rw [h.pending, List.length_eq_zero_iff] at hzero
    exact ⟨batches, hzero ▸ h⟩
  · rw [if_neg hzero]
    by_cases hsize : c.maxBatchBytes < batchHeaderBytes + c.buf.length
    · rw [if_pos hsize]
      exact h
    · rw [if_neg hsize]
      have hsettled := Socket.settled_send answers c.push (encodeBatchHeader c.pending ++ c.buf)
      have hanswer : (c.push.send answers (encodeBatchHeader c.pending ++ c.buf)).1 =
        answers c.push.offered := rfl
      rw [hanswer]
      cases hr : answers c.push.offered with
      | taken =>
        rw [hr] at hsettled
        exact ⟨_, h.book hcount (by decide) hsettled rfl rfl rfl rfl⟩
      | again =>
        rw [hr] at hsettled
        exact ⟨_, h.book hcount (by decide) hsettled rfl rfl rfl rfl⟩
      | failed =>
        rw [hr, if_pos rfl, List.append_nil, h.settled] at hsettled
        exact { h with settled := hsettled }

theorem Readied.accounts {acc : List Bytes} {batches : List (List Bytes × Pushed)}
    {waiting : List Bytes} {f : Bytes} {c c' : Client} (hready : Readied answers f c c')
    (h : Accounts acc batches waiting [] c) (hcount : waiting.length ≤ u32Max) :
    ∃ batches' waiting', Accounts acc batches' waiting' f c' := by
  cases hready with
  | behind hfits => exact ⟨batches, waiting, { h with buf := by rw [h.buf, List.append_nil] }⟩
  | @alone c' hne hover hflush =>
    have hends := flush_accounts answers h hcount
    rw [hflush] at hends
    obtain ⟨batches', h'⟩ := hends
    exact ⟨batches', [], { h' with buf := by rw [h'.buf]; rfl }⟩

theorem Accounts.count {acc : List Bytes} {batches : List (List Bytes × Pushed)}
    {waiting : List Bytes} {f : Bytes} {c : Client} (h : Accounts acc batches waiting f c) :
    Accounts (acc ++ [f]) batches (waiting ++ [f]) [] { c with pending := c.pending + 1 } :=
  { h with
    buf := by simp [h.buf]
    pending := by simp [h.pending]
    acc_eq := by simp [h.acc_eq]
    total := by
      have htotal := h.total
      simp only [List.length_append, List.length_singleton]
      omega }

variable (answers) in
/-- Counting the new frame settles it with its batch or lets it wait; where it fails, the frame is
in the books as well. -/
theorem countFrame_accounts {acc : List Bytes} {batches : List (List Bytes × Pushed)}
    {waiting : List Bytes} {f : Bytes} {c : Client} (h : Accounts acc batches waiting f c)
    (hcount : waiting.length + 1 ≤ u32Max) :
    Ends (fun c' ↦ (∃ batches' waiting', Accounts (acc ++ [f]) batches' waiting' [] c') ∧
        c'.pending ≤ c'.batch - 1 ∧ c'.batch = c.batch)
      (fun c' ↦ ∃ batches' waiting', Accounts (acc ++ [f]) batches' waiting' [] c')
      (countFrame answers c) := by
  have hcounted := h.count
  have hends := flush_accounts answers hcounted (by simpa using hcount)
  rw [countFrame_eq]
  by_cases hfull : c.batch ≤ c.pending + 1
  · rw [if_pos hfull]
    cases hflush : Client.flush answers { c with pending := c.pending + 1 } with
    | ok u c' =>
      rw [hflush] at hends
      have hclear := flush_cleared (fun h0 ↦ absurd h0 (Nat.succ_ne_zero _)) hflush
      obtain ⟨batches', hacc⟩ := hends
      exact ⟨⟨batches', [], hacc⟩, hclear.pending.trans_le (Nat.zero_le _), hclear.batch⟩
    | error e c' =>
      rw [hflush] at hends
      exact ⟨_, _, hends⟩
  · rw [if_neg hfull]
    exact ⟨⟨_, _, hcounted⟩, Nat.le_sub_one_of_lt (Nat.lt_of_not_le hfull), rfl⟩

/-- Between calls the books are in order, and the batch is not full. -/
structure Session.Inv (s : Session) : Prop where
  conserved : s.Conserved
  waits : s.client.pending ≤ s.client.batch - 1
  batch : s.client.batch ≤ u32Max

theorem Session.Inv.accounts {s : Session} (h : s.Inv) : ∃ batches waiting,
    Accounts s.accepted batches waiting [] s.client ∧ waiting.length ≤ u32Max := by
  obtain ⟨batches, waiting, hacc⟩ := h.conserved
  have hwaits := h.waits
  have hbatch := h.batch
  rw [hacc.pending] at hwaits
  exact ⟨batches, waiting, hacc, by omega⟩

theorem Session.Inv.flush {s : Session} (h : s.Inv) : (s.step crc answers .flush).Inv := by
  obtain ⟨batches, waiting, hacc, hcount⟩ := h.accounts
  have hends := flush_accounts answers hacc hcount
  rw [Session.step, Call.run]
  cases hflush : Client.flush answers s.client with
  | ok u c =>
    rw [hflush] at hends
    have hclear := flush_cleared hacc.pending_zero hflush
    obtain ⟨batches', hacc'⟩ := hends
    refine ⟨⟨batches', [], ?_⟩, hclear.pending.trans_le (Nat.zero_le _), hclear.batch ▸ h.batch⟩
    rw [Call.frames, List.append_nil]
    exact hacc'
  | error e c =>
    rw [hflush] at hends
    have hsame := flush_error hflush
    refine ⟨⟨batches, waiting, hends⟩, ?_, ?_⟩
    · rw [hsame]
      exact h.waits
    · rw [hsame]
      exact h.batch

theorem Session.Inv.refreshSchema {s : Session} (h : s.Inv) (reply : ControlResponse) :
    (s.step crc answers (.refreshSchema reply)).Inv := by
  obtain ⟨batches, waiting, hacc⟩ := h.conserved
  cases reply with
  | schema series maxBatchBytes =>
    refine ⟨⟨batches, waiting, ?_⟩, h.waits, h.batch⟩
    change Accounts (s.accepted ++ []) _ _ _ _
    rw [List.append_nil]
    exact { hacc with }
  | error message => exact ⟨⟨batches, waiting, hacc⟩, h.waits, h.batch⟩
  | other shown => exact ⟨⟨batches, waiting, hacc⟩, h.waits, h.batch⟩

/-- **A send** keeps the books in order unless it fails late; then the record is in the buffer
though its send failed. -/
theorem Session.Inv.send {s : Session} (h : s.Inv) (series : RemoteSeries) (row : Row) :
    (¬ LateFailure crc answers s.client series row → (s.step crc answers (.send series row)).Inv) ∧
    (LateFailure crc answers s.client series row →
      ¬ (s.step crc answers (.send series row)).Conserved) := by
  obtain ⟨batches, waiting, hacc, hcount⟩ := h.accounts
  rw [Session.step, Call.run]
  rcases send_cases crc answers s.client series row with
    ⟨e, hnot, hsend⟩ | ⟨e, c', hflush, hnot, hsend⟩ | ⟨hadmits, c', hready, hsend⟩
  · rw [hsend]
    exact ⟨fun _ ↦ h, fun hlate ↦ absurd hlate.1 hnot⟩
  · have hends := flush_accounts answers hacc hcount
    rw [hflush] at hends
    have hsame := flush_error hflush
    rw [hsend]
    constructor
    · intro _
      refine ⟨⟨batches, waiting, hends⟩, ?_, ?_⟩
      · rw [hsame]
        exact h.waits
      · rw [hsame]
        exact h.batch
    · rintro ⟨-, c'', hready, -⟩
      exact absurd hready (hnot c'')
  · obtain ⟨hbatch, hpending, hfits⟩ := hready.fits hadmits.alone hacc.pending_zero
    obtain ⟨batches', waiting', hacc'⟩ := hready.accounts hacc hcount
    have hmax : waiting'.length + 1 ≤ u32Max := by
      have hwaits := h.waits
      have hlimit := h.batch
      rw [hacc'.pending] at hpending
      unfold u32Max at hlimit ⊢
      omega
    have hends := countFrame_accounts answers hacc' hmax
    rw [lateFailure_iff hadmits hready hfits, hsend]
    cases hstep : countFrame answers c' with
    | ok u c'' =>
      rw [hstep] at hends
      obtain ⟨hconserved, hwaits, hsame⟩ := hends
      exact ⟨fun _ ↦ ⟨hconserved, hwaits, (hsame.trans hbatch) ▸ h.batch⟩, by simp⟩
    | error e c'' =>
      rw [hstep] at hends
      obtain ⟨_, _, hacc''⟩ := hends
      refine ⟨fun hnot ↦ absurd ⟨e, c'', rfl⟩ hnot, fun _ hconserved ↦ ?_⟩
      -- The counters include the frame, the accepted records do not.
      obtain ⟨_, _, hbooks⟩ := hconserved
      have htotal := hbooks.total
      rw [hacc''.total, List.length_append, List.length_singleton] at htotal
      change s.accepted.length + 1 = s.accepted.length at htotal
      omega

theorem Session.inv_connect {b : ClientBuilder} {reply : ControlResponse} {c : Client}
    (h : connect b reply = .ok () c) (hbatch : b.batch ≤ u32Max) : Session.Inv ⟨c, []⟩ := by
  cases reply with
  | schema series maxBatchBytes =>
    cases h
    exact ⟨⟨[], [], rfl, by simp, rfl, rfl, rfl, rfl, rfl, rfl⟩, Nat.zero_le _, hbatch⟩
  | error message => cases h
  | other shown => cases h

end Client

/-- **Conservation.** Along a run of calls on a connected client whose batches hold fewer than `2 ^
32` records, the records whose send returned are, in order, those in the messages the socket took or
had no room for and those in the buffer, and counters and declared counts agree with them, exactly
if no send fails on the batch that its own record fills. -/
theorem client_conserves_iff {crc : Bytes → UInt32} {answers : ℕ → Pushed} {b : ClientBuilder}
    {reply : ControlResponse} {c : Client} (hconnect : Client.connect b reply = .ok () c)
    (hbatch : b.batch ≤ u32Max) (calls : List Client.Call) :
    Machine.Always (Client.Session.step crc answers) Client.Session.Conserved ⟨c, []⟩ calls ↔
      Machine.Meets (Client.Session.step crc answers)
        (fun s call ↦ call.NoLateFailure crc answers s.client) ⟨c, []⟩ calls := by
  refine Machine.always_iff_meets (fun s h ↦ h.conserved) ?_ ?_
    (Client.Session.inv_connect hconnect hbatch)
  · intro s call h hallowed
    cases call with
    | send series row => exact (h.send series row).1 hallowed
    | flush => exact h.flush
    | refreshSchema reply => exact h.refreshSchema reply
  · intro s call h hbad
    cases call with
    | send series row => exact (h.send series row).2 (not_not.1 hbad)
    | flush => exact absurd trivial hbad
    | refreshSchema reply => exact absurd trivial hbad

/-! A client that sends every record on its own, on a socket that fails once. -/

private def bareSeries : RemoteSeries := ⟨"t", 0, []⟩

private def bareRow : Row := ⟨946684800000001, "", [], [], "x"⟩

private def bareFrame : Bytes := frameOf crc32 "t" 0 bareRow

private def bareReply : ControlResponse := .schema [⟨"t", 0, []⟩] (some 8388608)

private def eachAlone : Client := { batch := 1, schema := {("t", bareSeries)} }

private def failsOnce : ℕ → Pushed
  | 0 => .failed
  | _ => .taken

private def keptThough : Client :=
  { eachAlone with
    buf := bareFrame
    pending := 1
    push := ⟨[(encodeBatchHeader 1 ++ bareFrame, .failed)]⟩ }

/-- On a socket that fails once, the send returns an error, and the record is in the buffer and goes
out with the next flush. -/
theorem failed_send_is_sent :
    Client.connect { batch := 1 } bareReply = .ok () eachAlone ∧
    Client.send crc32 failsOnce bareSeries bareRow eachAlone = .error (.config .zeromq) keptThough ∧
    keptThough.stats.recordsSent + keptThough.stats.recordsDropped + keptThough.pending = 1 ∧
    (Client.after (Client.flush failsOnce) keptThough).push.taken =
      [encodeBatchHeader 1 ++ bareFrame] := by
  decide +kernel

private def dropsFirst : ℕ → Pushed
  | 0 => .again
  | _ => .taken

/-- On a socket that takes or drops every message, conservation holds along the run. -/
theorem client_conserves_iff_dropsFirst :
    Machine.Always (Client.Session.step crc32 dropsFirst) Client.Session.Conserved ⟨eachAlone, []⟩
      [.send bareSeries bareRow, .send bareSeries bareRow, .flush] := by
  have hconnect : Client.connect { batch := 1 } bareReply = .ok () eachAlone := by decide +kernel
  have hanswers : ∀ n, dropsFirst n ≠ .failed := by
    intro n
    cases n with
    | zero => decide
    | succ n => exact Pushed.noConfusion
  refine (client_conserves_iff hconnect (by decide) _).2 ⟨?_, ?_, trivial, trivial⟩
  · rintro ⟨-, c, -, -, hfailed⟩
    exact hanswers _ hfailed
  · rintro ⟨-, c, -, -, hfailed⟩
    exact hanswers _ hfailed

/-! ## The waiting batch and the limit -/

namespace Client

variable {crc : Bytes → UInt32} {answers : ℕ → Pushed}

/-- One call, whatever it returns. -/
def step (crc : Bytes → UInt32) (answers : ℕ → Pushed) (c : Client) (call : Call) : Client :=
  after (call.run crc answers) c

/-- The waiting batch is within the limit, no flush refuses it for its size, and whenever the socket
takes it, all of it goes out. -/
structure NotWedged (c : Client) : Prop where
  fits : 0 < c.pending → batchHeaderBytes + c.buf.length ≤ c.maxBatchBytes
  flush_ne : ∀ answers size limit c', Client.flush answers c ≠ .error (.batchTooLarge size limit) c'
  sends : ∀ answers, 0 < c.pending → answers c.push.offered = .taken →
    ∃ c', Client.flush answers c = .ok () c' ∧ c'.pending = 0 ∧ c'.buf = [] ∧
      c'.push.taken = c.push.taken ++ [encodeBatchHeader c.pending ++ c.buf]

/-- The limit a reply to a schema request puts in force. -/
def limitOf (c : Client) : Option ℕ → ℕ
  | some server => min c.configuredMaxBatchBytes server
  | none => c.configuredMaxBatchBytes

/-- The call is no handshake that puts the limit under the size of the waiting batch. -/
def Call.KeepsRoom (c : Client) : Call → Prop
  | .refreshSchema (.schema _ maxBatchBytes) =>
    0 < c.pending → batchHeaderBytes + c.buf.length ≤ c.limitOf maxBatchBytes
  | _ => True

/-- The waiting batch is within the limit. -/
def Fits (c : Client) : Prop := 0 < c.pending → batchHeaderBytes + c.buf.length ≤ c.maxBatchBytes

theorem Ok.pending_zero {c : Client} (h : Ok crc c) (hzero : c.pending = 0) : c.buf = [] := by
  obtain ⟨fs, hfs⟩ := h
  rw [hfs.pending_eq, List.length_eq_zero_iff] at hzero
  rw [hfs.buf_eq, hzero]
  rfl

theorem Fits.notWedged {c : Client} (h : Fits c) : NotWedged c := by
  refine ⟨h, fun answers size limit c' hflush ↦ ?_, fun answers hpos htaken ↦ ?_⟩
  · rw [flush_eq] at hflush
    split_ifs at hflush with hzero hover
    · exact absurd hover (Nat.not_lt.2 (h (Nat.pos_of_ne_zero hzero)))
    · rw [Socket.send] at hflush
      cases hanswer : answers c.push.offered with
      | taken =>
        rw [hanswer] at hflush
        cases hflush
      | again =>
        rw [hanswer] at hflush
        cases hflush
      | failed =>
        rw [hanswer] at hflush
        cases hflush
  · rw [flush_eq, if_neg (Nat.pos_iff_ne_zero.1 hpos), if_neg (Nat.not_lt.2 (h hpos)), Socket.send,
      htaken]
    exact ⟨_, rfl, rfl, rfl, by simp [Socket.taken]⟩

private theorem flush_fits {c : Client} (h : Fits c) (hok : Ok crc c) :
    Fits (after (Client.flush answers) c) := by
  rw [after]
  cases hflush : Client.flush answers c with
  | ok u c' =>
    intro hpos
    exact absurd (flush_cleared hok.pending_zero hflush).pending (Nat.pos_iff_ne_zero.1 hpos)
  | error e c' =>
    rw [flush_error hflush]
    exact h

variable (answers) in
private theorem countFrame_fits {c : Client}
    (hfits : batchHeaderBytes + c.buf.length ≤ c.maxBatchBytes) :
    Fits (after (countFrame answers) c) := by
  rw [after, countFrame_eq]
  by_cases hfull : c.batch ≤ c.pending + 1
  · rw [if_pos hfull]
    cases hflush : Client.flush answers { c with pending := c.pending + 1 } with
    | ok u c' =>
      intro hpos
      have hclear := flush_cleared (fun h0 ↦ absurd h0 (Nat.succ_ne_zero _)) hflush
      exact absurd hclear.pending (Nat.pos_iff_ne_zero.1 hpos)
    | error e c' =>
      rw [flush_error hflush]
      exact fun _ ↦ hfits
  · rw [if_neg hfull]
    exact fun _ ↦ hfits

private theorem send_fits {c : Client} (h : Fits c) (hok : Ok crc c) (s : RemoteSeries)
    (row : Row) : Fits (after (Client.send crc answers s row) c) := by
  rcases send_cases crc answers c s row with
    ⟨e, -, hsend⟩ | ⟨e, c', hflush, -, hsend⟩ | ⟨hadmits, c', hready, hsend⟩
  · rw [after, hsend]
    exact h
  · rw [after, hsend, flush_error hflush]
    exact h
  · have hcount := countFrame_fits answers
      (hready.fits hadmits.alone hok.pending_zero).2.2
    rw [after] at hcount ⊢
    rw [hsend]
    exact hcount

theorem Fits.connect {b : ClientBuilder} {reply : ControlResponse} {c : Client}
    (h : connect b reply = .ok () c) : Fits c := by
  cases reply with
  | schema series maxBatchBytes =>
    cases h
    exact fun hpos ↦ absurd hpos (Nat.lt_irrefl 0)
  | error message => cases h
  | other shown => cases h

end Client

/-- **No wedge.** Along a run of calls on a connected client, the waiting batch is always within the
limit, and so can always be sent, exactly if no handshake puts the limit under the size of the batch
that waits at the time. -/
theorem client_never_wedges_iff {crc : Bytes → UInt32} {answers : ℕ → Pushed} {b : ClientBuilder}
    {reply : ControlResponse} {c : Client} (hconnect : Client.connect b reply = .ok () c)
    (calls : List Client.Call) :
    Machine.Always (Client.step crc answers) Client.NotWedged c calls ↔
      Machine.Meets (Client.step crc answers) (fun c call ↦ call.KeepsRoom c) c calls := by
  have hreach : c.Reachable crc answers := .connect hconnect
  refine Machine.always_iff_meets (I := fun c ↦ Client.Fits c ∧ Client.Ok crc c)
    (fun c h ↦ h.1.notWedged) ?_ ?_
    ⟨Client.Fits.connect hconnect, hreach.ok⟩
  · rintro c call ⟨hfits, hok⟩ hallowed
    cases call with
    | send s row =>
      exact ⟨Client.send_fits hfits hok s row, Client.ok_after (Client.send_ends hok s row)⟩
    | flush =>
      obtain ⟨fs, hfs⟩ := hok
      exact ⟨Client.flush_fits hfits ⟨fs, hfs⟩, Client.ok_after (Client.flush_keeps hfs)⟩
    | refreshSchema reply =>
      refine ⟨?_, Client.ok_after (Client.refreshSchema_ends hok reply)⟩
      cases reply with
      | schema series maxBatchBytes => cases maxBatchBytes <;> exact hallowed
      | error message => exact hfits
      | other shown => exact hfits
  · rintro c call ⟨hfits, hok⟩ hbad hfine
    cases call with
    | send s row => exact hbad trivial
    | flush => exact hbad trivial
    | refreshSchema reply =>
      cases reply with
      | schema series maxBatchBytes => cases maxBatchBytes <;> exact hbad hfine.fits
      | error message => exact hbad trivial
      | other shown => exact hbad trivial

/-! A client that holds one record, in a batch of 42 bytes, while the server's limit drops to 40. -/

private def waitsForMore : Client := { schema := {("t", bareSeries)} }

private def waitsWithOne : Client := { waitsForMore with buf := bareFrame, pending := 1 }

private def narrowed : Client := { waitsWithOne with maxBatchBytes := 40 }

/-- After the handshake the accepted record can not be sent: every flush refuses the batch. -/
theorem shrunk_limit_wedges :
    Client.connect {} bareReply = .ok () waitsForMore ∧
    Client.send crc32 (fun _ ↦ .taken) bareSeries bareRow waitsForMore = .ok () waitsWithOne ∧
    Client.refreshSchema (.schema [⟨"t", 0, []⟩] (some 40)) waitsWithOne = .ok () narrowed ∧
    Client.flush (fun _ ↦ .taken) narrowed =
      .error (.batchTooLarge (batchHeaderBytes + bareFrame.length) 40) narrowed := by
  decide +kernel

theorem client_never_wedges_iff_wider :
    Machine.Always (Client.step crc32 fun _ ↦ .taken) Client.NotWedged waitsForMore
      [.send bareSeries bareRow, .refreshSchema (.schema [⟨"t", 0, []⟩] none), .flush] := by
  have hconnect : Client.connect {} bareReply = .ok () waitsForMore := by decide +kernel
  refine (client_never_wedges_iff hconnect _).2 ⟨trivial, fun _ ↦ ?_, trivial, trivial⟩
  decide +kernel

end Orc
