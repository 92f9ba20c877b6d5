import Orc.Engine.Paths
import Orc.Flush.Extra

/-!
# Appending with a shared scratch

A thread encodes into one buffer, which it keeps from call to call, whatever the last call left in
it. `Engine.append` and `Engine.appendBatch` are the two calls on that buffer, with the counters
they bump; what they hand to the log is what `appendFrame` and `appendFrames` return
(`append_hands`, `appendBatch_hands`). A batch takes its rows as they would be taken one by one, or
leaves nothing behind (`batch_all_or_nothing`).

## Representation

The functions of `Orc.Engine.Ingest` return the bytes they hand over, and that is the form the rest
of the development uses. The source has no such functions: it writes behind what the buffer holds,
and on an error puts back the length it found. Whether a half-written row can reach the log is a
question about that buffer, so it is modelled here and then put aside.

The steps of a call are small programs on the appender. Each is one of three kinds: it checks and
changes nothing (`Checks`), it writes to the buffer only (`Fills`), or it hands the buffer over
(`Hands`). The lemmas about them compose, so that a call is followed step by step, in the order of
the source, and the order of its errors comes out of it as well.
-/

namespace Orc

open Bytes

/-- The thread's scratch, the byte strings handed to the log, and the counters. -/
structure Appender where
  scratch : Encoder := ⟨[], []⟩
  log : List Bytes := []
  appended : ℕ := 0
  rejectedTs : ℕ := 0
  rejectedSize : ℕ := 0
  deriving DecidableEq

/-- A call on the engine. -/
abbrev Append := EStateM Error Appender Unit

namespace Engine

variable (crc : Bytes → UInt32) (sort : IndexSort)

/-- The checks before a row is encoded. -/
def checkOne (e : Engine) (now : ℕ) (h : SeriesHandle) (row : Row) : Append := do
  match e.checkRow now h row with
  | .ok () => pure ()
  | .error err =>
    if (e.checkTs now row.ts).toBool then
      throw err
    else
      modify fun s ↦ { s with rejectedTs := s.rejectedTs + 1 }
      throw err
  match checkSize row e.limit with
  | .ok () => pure ()
  | .error err =>
    modify fun s ↦ { s with rejectedSize := s.rejectedSize + 1 }
    throw err

/-- Empty the buffer. -/
def clearScratch : Append := modify fun s ↦ { s with scratch := { s.scratch with out := [] } }

/-- Encode behind what is in the buffer. -/
def encodeScratch (h : SeriesHandle) (row : Row) : Append := fun s ↦
  match Encoder.encode crc sort h.name h.epoch row s.scratch with
  | .ok () scratch => .ok () { s with scratch }
  | .error err scratch => .error err { s with scratch }

/-- The exact size of the frame behind `start`; one too large empties the buffer. -/
def checkWritten (e : Engine) (start : ℕ) : Append := do
  let size := (← get).scratch.out.length - start
  if e.limit < size then
    modify fun s ↦ { s with rejectedSize := s.rejectedSize + 1 }
    clearScratch
    throw (.recordTooLarge size e.limit)

/-- Encode a row and check its exact size. -/
def encodeOne (e : Engine) (h : SeriesHandle) (row : Row) : Append := do
  let start := (← get).scratch.out.length
  encodeScratch crc sort h row
  e.checkWritten start

/-- Hand the buffer to the log, which does not fail. -/
def handOver : Append := modify fun s ↦ { s with log := s.log ++ [s.scratch.out] }

/-- `Engine::append`. -/
def append (e : Engine) (now : ℕ) (h : SeriesHandle) (row : Row) : Append := do
  e.checkOne now h row
  clearScratch
  e.encodeOne crc sort h row
  handOver
  modify fun s ↦ { s with appended := s.appended + 1 }

/-- `Engine::append_batch`. -/
def appendBatch (e : Engine) (now : ℕ) (h : SeriesHandle) (rows : List Row) : Append := do
  rows.forM (e.checkOne now h)
  clearScratch
  rows.forM (e.encodeOne crc sort h)
  handOver
  modify fun s ↦ { s with appended := s.appended + rows.length }

end Engine

/-! ## What a call does -/

/-- Neither the log nor the count of records has changed. -/
def Appender.Same (s s' : Appender) : Prop := s'.log = s.log ∧ s'.appended = s.appended

theorem Appender.Same.trans {s s' s'' : Appender} (h : s.Same s') (h' : s'.Same s'') : s.Same s'' :=
  ⟨h'.1.trans h.1, h'.2.trans h.2⟩

section Seq

variable {w v : Append} {s s' : Appender}

theorem Append.seq_ok (hw : w s = .ok () s') : (do w; v : Append) s = v s' := by
  change EStateM.bind w (fun _ ↦ v) s = _
  rw [EStateM.bind, hw]

theorem Append.seq_error {err : Error} (hw : w s = .error err s') :
    (do w; v : Append) s = .error err s' := by
  change EStateM.bind w (fun _ ↦ v) s = _
  rw [EStateM.bind, hw]

end Seq

/-- The call passes without a trace, or fails with the error of `x`. -/
def Checks (w : Append) (s : Appender) (x : Except Error Unit) : Prop :=
  match x with
  | .ok () => w s = .ok () s
  | .error err => ∃ s', w s = .error err s' ∧ s.Same s'

/-- The call ends as `x` says, with these bytes in the buffer or with an error; the log has not
changed. -/
def Fills (w : Append) (s : Appender) (x : Except Error Bytes) : Prop :=
  match x with
  | .ok b => ∃ s', w s = .ok () s' ∧ s'.scratch.out = b ∧ s.Same s'
  | .error err => ∃ s', w s = .error err s' ∧ s.Same s'

/-- The call hands the bytes of `x` to the log and counts `n` records, or fails with the error of
`x` and does neither. -/
def Hands (w : Append) (s : Appender) (n : ℕ) (x : Except Error Bytes) : Prop :=
  match x with
  | .ok b => ∃ s', w s = .ok () s' ∧ s'.log = s.log ++ [b] ∧ s'.appended = s.appended + n
  | .error err => ∃ s', w s = .error err s' ∧ s.Same s'

theorem Checks.seq {w v : Append} {s : Appender} {x y : Except Error Unit} (hw : Checks w s x)
    (hv : Checks v s y) : Checks (do w; v) s (x >>= fun _ ↦ y) := by
  cases x with
  | error err =>
    obtain ⟨s', hs', hsame⟩ := hw
    exact ⟨s', Append.seq_error hs', hsame⟩
  | ok u =>
    change Checks (do w; v) s y
    unfold Checks at hv ⊢
    rwa [Append.seq_ok hw]

theorem Fills.seq {w v : Append} {s : Appender} {x : Except Error Bytes}
    {f : Bytes → Except Error Bytes} (hw : Fills w s x)
    (hv : ∀ s', Fills v s' (f s'.scratch.out)) : Fills (do w; v) s (x >>= f) := by
  cases x with
  | error err =>
    obtain ⟨s', hs', hsame⟩ := hw
    exact ⟨s', Append.seq_error hs', hsame⟩
  | ok b =>
    obtain ⟨s', hs', rfl, hsame⟩ := hw
    have hv' := hv s'
    change Fills (do w; v) s (f s'.scratch.out)
    unfold Fills at hv' ⊢
    rw [Append.seq_ok hs']
    split at hv'
    next => obtain ⟨s'', hs'', hb, hsame'⟩ := hv'; exact ⟨s'', hs'', hb, hsame.trans hsame'⟩
    next => obtain ⟨s'', hs'', hsame'⟩ := hv'; exact ⟨s'', hs'', hsame.trans hsame'⟩

namespace Engine

variable (crc : Bytes → UInt32) {sort : IndexSort} (e : Engine) (now : ℕ) (h : SeriesHandle)

theorem checkOne_checks (row : Row) (s : Appender) :
    Checks (e.checkOne now h row) s (do e.checkRow now h row; checkSize row e.limit) := by
  unfold checkOne
  cases e.checkRow now h row with
  | ok u =>
    cases checkSize row e.limit with
    | ok u => rfl
    | error err => exact ⟨_, rfl, rfl, rfl⟩
  | error err =>
    cases (e.checkTs now row.ts).toBool with
    | true => exact ⟨_, rfl, rfl, rfl⟩
    | false => exact ⟨_, rfl, rfl, rfl⟩

private theorem forM_checkOne_checks (rows : List Row) (i : ℕ) (s : Appender) :
    Checks (rows.forM (e.checkOne now h)) s (e.checkRows (fun _ ↦ now) h i rows) := by
  induction rows generalizing i with
  | nil => exact rfl
  | cons row rows ih =>
    have hseq := (checkOne_checks e now h row s).seq (ih (i + 1))
    rwa [bind_assoc] at hseq

private theorem encodeScratch_fills (hsort : sort.Lawful) (row : Row) (s : Appender) :
    match encode crc h.name h.epoch row s.scratch.out with
    | .ok () b => ∃ s', encodeScratch crc sort h row s = .ok () s' ∧ s'.scratch.out = b ∧ s.Same s'
    | .error err _ => ∃ s', encodeScratch crc sort h row s = .error err s' ∧ s.Same s' := by
  have hout := Encoder.encode_out crc hsort h.name h.epoch row s.scratch
  rw [← hout, encodeScratch]
  cases Encoder.encode crc sort h.name h.epoch row s.scratch with
  | ok u scratch => exact ⟨_, rfl, rfl, rfl, rfl⟩
  | error err scratch => exact ⟨_, rfl, rfl, rfl⟩

private theorem checkWritten_fills (start : ℕ) (s : Appender) :
    Fills (e.checkWritten start) s
      (if e.limit < s.scratch.out.length - start then
        .error (.recordTooLarge (s.scratch.out.length - start) e.limit)
      else .ok s.scratch.out) := by
  have hwritten : e.checkWritten start s =
      (if e.limit < s.scratch.out.length - start then do
        modify fun s ↦ { s with rejectedSize := s.rejectedSize + 1 }
        clearScratch
        throw (.recordTooLarge (s.scratch.out.length - start) e.limit)
      else pure () : Append) s := rfl
  split_ifs at hwritten ⊢
  · exact ⟨_, hwritten, rfl, rfl⟩
  · exact ⟨_, hwritten, rfl, rfl, rfl⟩

theorem encodeOne_fills (hsort : sort.Lawful) (row : Row) (s : Appender) :
    Fills (e.encodeOne crc sort h row) s (e.encodeRow crc h s.scratch.out row) := by
  have henc := encodeScratch_fills crc h hsort row s
  have hone : e.encodeOne crc sort h row s =
      (do encodeScratch crc sort h row; e.checkWritten s.scratch.out.length : Append) s := rfl
  unfold encodeRow
  split at henc
  next b hb =>
    obtain ⟨s', hs', rfl, hsame⟩ := henc
    have hwritten := checkWritten_fills e s.scratch.out.length s'
    rw [Append.seq_ok hs'] at hone
    rw [hb]
    dsimp only
    split_ifs at hwritten ⊢
    · obtain ⟨s'', hs'', hsame'⟩ := hwritten
      exact ⟨s'', hone.trans hs'', hsame.trans hsame'⟩
    · obtain ⟨s'', hs'', hout, hsame'⟩ := hwritten
      exact ⟨s'', hone.trans hs'', hout, hsame.trans hsame'⟩
  next err _ hb =>
    obtain ⟨s', hs', hsame⟩ := henc
    rw [hb]
    exact ⟨s', hone.trans (Append.seq_error hs'), hsame⟩

private theorem forM_encodeOne_fills (hsort : sort.Lawful) (rows : List Row) (s : Appender) :
    Fills (rows.forM (e.encodeOne crc sort h)) s
      (rows.foldlM (e.encodeRow crc h) s.scratch.out) := by
  induction rows generalizing s with
  | nil => exact ⟨s, rfl, rfl, rfl, rfl⟩
  | cons row rows ih => exact (encodeOne_fills crc e h hsort row s).seq ih

theorem hands_of_fills {checks fill : Append} {x : Except Error Unit} {f : Except Error Bytes}
    (n : ℕ) {s : Appender} (hchecks : Checks checks s x)
    (hfill : ∀ s : Appender, s.scratch.out = [] → Fills fill s f) :
    Hands (do
      checks
      clearScratch
      fill
      handOver
      modify fun s ↦ { s with appended := s.appended + n }) s n (x >>= fun _ ↦ f) := by
  -- the calls share their end: the buffer is emptied, filled and handed over
  cases x with
  | error err =>
    obtain ⟨s', hs', hsame⟩ := hchecks
    exact ⟨s', Append.seq_error hs', hsame⟩
  | ok u =>
    have hfilled := hfill { s with scratch := { s.scratch with out := [] } } rfl
    change Hands _ s n f
    unfold Hands
    rw [Append.seq_ok hchecks]
    rw [Append.seq_ok (show clearScratch s = .ok () _ from rfl)]
    cases f with
    | error err =>
      obtain ⟨s', hs', hsame⟩ := hfilled
      exact ⟨s', Append.seq_error hs', hsame⟩
    | ok b =>
      obtain ⟨s', hs', rfl, hlog, happended⟩ := hfilled
      dsimp only
      rw [Append.seq_ok hs']
      exact ⟨_, rfl, congrArg (· ++ [s'.scratch.out]) hlog, congrArg (· + n) happended⟩

theorem append_hands (hsort : sort.Lawful) (row : Row) (s : Appender) :
    Hands (e.append crc sort now h row) s 1 (e.appendFrame crc now h row) := by
  have hands := hands_of_fills 1 (checkOne_checks e now h row s) fun s hs ↦
    hs ▸ encodeOne_fills crc e h hsort row s
  rwa [bind_assoc] at hands

private theorem appendBatch_hands (hsort : sort.Lawful) (rows : List Row) (s : Appender) :
    Hands (e.appendBatch crc sort now h rows) s rows.length
      (e.appendFrames crc (fun _ ↦ now) h rows) :=
  hands_of_fills rows.length (forM_checkOne_checks e now h rows 0 s) fun s hs ↦
    hs ▸ forM_encodeOne_fills crc e h hsort rows s

/-! ## A batch and its rows -/

variable {crc e now h}

theorem encodeRow_eq_ok_iff {buf b : Bytes} {row : Row} :
    e.encodeRow crc h buf row = .ok b ↔
      ((Encodable h.name h.epoch row ∧
          (payloadBytes (stamped h.name h.epoch row)).length ≤ u32Max) ∧
        (frameOf crc h.name h.epoch row).length ≤ e.limit) ∧
        b = buf ++ frameOf crc h.name h.epoch row := by
  constructor
  · intro hok
    obtain ⟨rfl, henc, hlim⟩ := encodeRow_eq_ok hok
    exact ⟨⟨henc, hlim⟩, rfl⟩
  · rintro ⟨⟨henc, hlim⟩, rfl⟩
    rw [encodeRow, (encode_eq_ok crc h.name h.epoch row).2 ⟨henc, rfl⟩]
    dsimp only
    rw [List.length_append, Nat.add_sub_cancel_left, if_neg (not_lt.2 hlim)]

private theorem encodeRow_append {buf b : Bytes} {row : Row} :
    e.encodeRow crc h buf row = .ok b ↔ ∃ f, e.encodeRow crc h [] row = .ok f ∧ b = buf ++ f := by
  simp only [encodeRow_eq_ok_iff, List.nil_append]
  constructor
  · rintro ⟨hfits, rfl⟩
    exact ⟨_, ⟨hfits, rfl⟩, rfl⟩
  · rintro ⟨_, ⟨hfits, rfl⟩, rfl⟩
    exact ⟨hfits, rfl⟩

private theorem foldlM_encodeRow {buf b : Bytes} {rows : List Row} :
    rows.foldlM (e.encodeRow crc h) buf = .ok b ↔
      ∃ fs, List.Forall₂ (fun row f ↦ e.encodeRow crc h [] row = .ok f) rows fs ∧
        b = buf ++ fs.flatten := by
  induction rows generalizing buf with
  | nil => simp [pure, Except.pure, eq_comm]
  | cons row rows ih =>
    rw [List.foldlM_cons, Except.bind_eq_ok]
    constructor
    · rintro ⟨buf', hrow, hrows⟩
      obtain ⟨f, hf, rfl⟩ := encodeRow_append.1 hrow
      obtain ⟨fs, hfs, rfl⟩ := ih.1 hrows
      exact ⟨f :: fs, .cons hf hfs, by rw [List.flatten_cons, List.append_assoc]⟩
    · rintro ⟨_, hfs, rfl⟩
      cases hfs with
      | cons hf hfs =>
        refine ⟨_, encodeRow_append.2 ⟨_, hf, rfl⟩, ih.2 ⟨_, hfs, ?_⟩⟩
        rw [List.flatten_cons, List.append_assoc]

theorem checkRows_eq_ok_iff {i : ℕ} {rows : List Row} :
    e.checkRows (fun _ ↦ now) h i rows = .ok () ↔
      ∀ row ∈ rows, e.checkRow now h row = .ok () ∧ checkSize row e.limit = .ok () := by
  induction rows generalizing i with
  | nil => simp [checkRows]
  | cons row rows ih =>
    simp only [checkRows, Except.bind_eq_ok, ih, List.forall_mem_cons, and_assoc]
    constructor
    · rintro ⟨⟨⟩, hrow, ⟨⟩, hsize, hrows⟩
      exact ⟨hrow, hsize, hrows⟩
    · rintro ⟨hrow, hsize, hrows⟩
      exact ⟨(), hrow, (), hsize, hrows⟩

theorem appendFrame_eq_ok_iff_encodeRow {row : Row} {f : Bytes} :
    e.appendFrame crc now h row = .ok f ↔
      (e.checkRow now h row = .ok () ∧ checkSize row e.limit = .ok ()) ∧
        e.encodeRow crc h [] row = .ok f := by
  simp only [appendFrame, Except.bind_eq_ok]
  constructor
  · rintro ⟨⟨⟩, hrow, ⟨⟩, hsize, hf⟩
    exact ⟨⟨hrow, hsize⟩, hf⟩
  · rintro ⟨⟨hrow, hsize⟩, hf⟩
    exact ⟨(), hrow, (), hsize, hf⟩

theorem appendFrames_eq_ok_iff {rows : List Row} {b : Bytes} :
    e.appendFrames crc (fun _ ↦ now) h rows = .ok b ↔
      ∃ fs, List.Forall₂ (fun row f ↦ e.appendFrame crc now h row = .ok f) rows fs ∧
        b = fs.flatten := by
  simp only [appendFrame_eq_ok_iff_encodeRow, List.forall₂_and_left]
  rw [appendFrames, Except.bind_eq_ok]
  constructor
  · rintro ⟨⟨⟩, hcheck, hfold⟩
    obtain ⟨fs, hfs, rfl⟩ := foldlM_encodeRow.1 hfold
    exact ⟨fs, ⟨checkRows_eq_ok_iff.1 hcheck, hfs⟩, List.nil_append _⟩
  · rintro ⟨fs, ⟨hcheck, hfs⟩, rfl⟩
    exact ⟨(), checkRows_eq_ok_iff.2 hcheck, foldlM_encodeRow.2 ⟨fs, hfs, (List.nil_append _).symm⟩⟩

private theorem exists_appendFrames_eq_ok {rows : List Row} :
    (∃ b, e.appendFrames crc (fun _ ↦ now) h rows = .ok b) ↔
      ∀ row ∈ rows, ∃ f, e.appendFrame crc now h row = .ok f := by
  have hfs : (∃ b, e.appendFrames crc (fun _ ↦ now) h rows = .ok b) ↔
      ∃ fs, List.Forall₂ (fun row f ↦ e.appendFrame crc now h row = .ok f) rows fs := by
    simp only [appendFrames_eq_ok_iff]
    exact ⟨fun ⟨_, fs, hfs, _⟩ ↦ ⟨fs, hfs⟩, fun ⟨fs, hfs⟩ ↦ ⟨_, fs, hfs, rfl⟩⟩
  refine hfs.trans ?_
  clear hfs
  induction rows with
  | nil => exact iff_of_true ⟨[], .nil⟩ nofun
  | cons row rows ih =>
    rw [List.forall_mem_cons, ← ih]
    constructor
    · rintro ⟨_, hfs⟩
      cases hfs with
      | cons hf hfs => exact ⟨⟨_, hf⟩, _, hfs⟩
    · rintro ⟨⟨f, hf⟩, fs, hfs⟩
      exact ⟨f :: fs, .cons hf hfs⟩

private theorem forM_append (hsort : sort.Lawful) {rows : List Row} {fs : List Bytes}
    (hfs : List.Forall₂ (fun row f ↦ e.appendFrame crc now h row = .ok f) rows fs) (s : Appender) :
    ∃ s', rows.forM (e.append crc sort now h) s = .ok () s' ∧ s'.log = s.log ++ fs ∧
      s'.appended = s.appended + rows.length := by
  induction hfs generalizing s with
  | nil => exact ⟨s, rfl, (List.append_nil _).symm, rfl⟩
  | @cons row f rows fs hf hfs ih =>
    have hands := append_hands crc e now h hsort row s
    rw [hf] at hands
    obtain ⟨s', hs', hlog, happended⟩ := hands
    obtain ⟨s'', hs'', hlog', happended'⟩ := ih s'
    refine ⟨s'', (Append.seq_ok hs').trans hs'', ?_, ?_⟩
    · rw [hlog', hlog, List.append_assoc, List.singleton_append]
    · rw [happended', happended, List.length_cons, Nat.add_assoc, Nat.add_comm 1]

theorem exists_append_eq_ok (hsort : sort.Lawful) (row : Row) (s : Appender) :
    (∃ s', e.append crc sort now h row s = .ok () s') ↔
      ∃ f, e.appendFrame crc now h row = .ok f := by
  have hands := append_hands crc e now h hsort row s
  cases hframe : e.appendFrame crc now h row with
  | ok f =>
    rw [hframe] at hands
    obtain ⟨s', hs', -⟩ := hands
    exact ⟨fun _ ↦ ⟨f, rfl⟩, fun _ ↦ ⟨s', hs'⟩⟩
  | error err =>
    rw [hframe] at hands
    obtain ⟨s', hs', -⟩ := hands
    rw [hs']
    constructor
    · rintro ⟨_, ⟨⟩⟩
    · rintro ⟨_, ⟨⟩⟩

end Engine

/-- **Nothing is left behind.** A failed encode leaves the buffer as it was. Under one clock, a
batch either reaches the log as the bytes its rows reach it with one by one, and counts them all, or
fails with the log and the count as they were; and it goes through exactly when every row alone
does, whatever earlier calls have left in the scratch. -/
theorem batch_all_or_nothing (crc : Bytes → UInt32) {sort : IndexSort} (hsort : sort.Lawful) :
    (∀ series epoch row s s' err,
      Encoder.encode crc sort series epoch row s = .error err s' → s'.out = s.out) ∧
    ∀ (e : Engine) (now : ℕ) (h : SeriesHandle) (rows : List Row) (s : Appender),
      (∀ s', e.appendBatch crc sort now h rows s = .ok () s' →
        ∃ fs : List Bytes, s'.log = s.log ++ [fs.flatten] ∧ s'.appended = s.appended + rows.length ∧
          ∀ t, ∃ t', rows.forM (e.append crc sort now h) t = .ok () t' ∧ t'.log = t.log ++ fs) ∧
      (∀ err s', e.appendBatch crc sort now h rows s = .error err s' →
        s'.log = s.log ∧ s'.appended = s.appended) ∧
      ∀ t, (∃ s', e.appendBatch crc sort now h rows s = .ok () s') ↔
        ∀ row ∈ rows, ∃ t', e.append crc sort now h row t = .ok () t' := by
  refine ⟨fun series epoch row s s' err herr ↦ ?_, fun e now h rows s ↦ ?_⟩
  · have hout := Encoder.encode_out crc hsort series epoch row s
    rw [herr] at hout
    exact encode_eq_error crc series epoch row hout.symm
  · have hands := Engine.appendBatch_hands crc e now h hsort rows s
    simp only [Engine.exists_append_eq_ok hsort, ← Engine.exists_appendFrames_eq_ok]
    cases hframes : e.appendFrames crc (fun _ ↦ now) h rows with
    | ok b =>
      rw [hframes] at hands
      obtain ⟨s', hs', hlog, happended⟩ := hands
      obtain ⟨fs, hfs, rfl⟩ := Engine.appendFrames_eq_ok_iff.1 hframes
      rw [hs']
      refine ⟨?_, ?_, fun _ ↦ iff_of_true ⟨_, rfl⟩ ⟨_, rfl⟩⟩
      · rintro _ ⟨⟩
        refine ⟨fs, hlog, happended, fun t ↦ ?_⟩
        obtain ⟨t', ht', hlog', -⟩ := Engine.forM_append hsort hfs t
        exact ⟨t', ht', hlog'⟩
      · rintro _ _ ⟨⟩
    | error err =>
      rw [hframes] at hands
      obtain ⟨s', hs', hsame⟩ := hands
      rw [hs']
      refine ⟨?_, ?_, fun _ ↦ iff_of_false ?_ ?_⟩
      · rintro _ ⟨⟩
      · rintro _ _ ⟨⟩
        exact hsame
      · rintro ⟨_, ⟨⟩⟩
      · rintro ⟨_, ⟨⟩⟩

private def batchEngine : Engine := ⟨{ limits := { maxRecordBytes := 64 } }, ∅, 0, 0⟩

private def batchHandle : SeriesHandle := ⟨"s", [], 0⟩

private def leftovers : Appender := { scratch := ⟨[1, 2, 3], [7]⟩ }

/-- Behind a scratch with leftovers two rows go through, and a row with a value too many takes the
row before it down. -/
theorem batch_all_or_nothing_leftovers :
    (∃ s', batchEngine.appendBatch crc32 insertionIndexSort 0 batchHandle
        [⟨0, "a", [], [], ""⟩, ⟨0, "b", [], [], ""⟩] leftovers = .ok () s') ∧
    ¬ ∃ s', batchEngine.appendBatch crc32 insertionIndexSort 0 batchHandle
        [⟨0, "a", [], [], ""⟩, ⟨0, "b", [.null], [], ""⟩] leftovers = .ok () s' := by
  have hbatch := (batch_all_or_nothing crc32 insertionIndexSort_lawful).2 batchEngine 0 batchHandle
  have hrow : ∀ row, (∃ s', batchEngine.append crc32 insertionIndexSort 0 batchHandle row {} =
      .ok () s') ↔ ∃ f, batchEngine.appendFrame crc32 0 batchHandle row = .ok f :=
    fun row ↦ Engine.exists_append_eq_ok insertionIndexSort_lawful row {}
  refine ⟨((hbatch _ leftovers).2.2 {}).2 ?_, fun hok ↦ ?_⟩
  · rintro _ (_ | ⟨_, _ | ⟨_, ⟨⟩⟩⟩)
    · exact (hrow _).2 ⟨frameOf crc32 "s" 0 ⟨0, "a", [], [], ""⟩, by decide +kernel⟩
    · exact (hrow _).2 ⟨frameOf crc32 "s" 0 ⟨0, "b", [], [], ""⟩, by decide +kernel⟩
  · obtain ⟨f, hf⟩ := (hrow _).1 (((hbatch _ leftovers).2.2 {}).1 hok _
      (List.mem_cons_of_mem _ List.mem_cons_self))
    exact nomatch hf

end Orc
