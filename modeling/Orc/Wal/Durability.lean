import Mathlib.Data.Nat.Count
import Orc.Wal.TailOnly

/-!
# Bytes accepted and bytes durable

The writer counts the bytes accepted into the active segment and those known durable, and reports
the difference. The second count moves in two ways. A roll drains and syncs under the lock, so it
may set the count to all that was accepted. A group commit drains under the lock, syncs without it
and takes the lock again to note what it had drained; meanwhile appends go on, and the segment may
be rolled away.

What is carried from one section of the group commit to the next is `Pc.Covered`: first that the
bytes are in the file, then that they are durable. Neither is undone by any other step
(`Log.Grows`), so the note is right whenever it is made.
-/

namespace Orc

open Bytes Fault

/-- The first `n` bytes of a segment, header included, are in its file. -/
def Log.Written (log : Log) (id n : ℕ) : Prop :=
  ∃ b, log.bytesAt id = some b ∧ (log.segmentBytes id).take n <+: b

/-- The first `n` bytes of a segment are in the part of its file that an fsync has covered. -/
def Log.Durable (log : Log) (id n : ℕ) : Prop :=
  ∃ f, log.dir[id]? = some f ∧ (log.segmentBytes id).take n <+: f.bytes.take f.synced

/-- The counts of the active segment are right. -/
def Log.Accounted (log : Log) : Prop :=
  ∀ a, log.state.active = some a → a.synced ≤ a.bytes ∧
    a.bytes = (log.segmentBytes a.id).length ∧ log.Durable a.id a.synced

/-- What the committer knows of the bytes it is about to sync or to note. -/
def Pc.Covered (log : Log) : Pc → Prop
  | .syncing id upto => upto ≤ (log.segmentBytes id).length ∧ log.Written id upto
  | .noting id upto => upto ≤ (log.segmentBytes id).length ∧ log.Durable id upto
  | _ => True

/-! ## What no step undoes -/

/-- Nothing acknowledged is forgotten, and neither are bytes of a file, nor that they are
durable. -/
structure Log.Grows (log log' : Log) : Prop where
  acked : log.acked <+: log'.acked
  bytes : ∀ id b, log.bytesAt id = some b → ∃ b', log'.bytesAt id = some b' ∧ b <+: b'
  synced : log.Extends log'

section Grows

variable {o : Oracle Op} {act : Action} {log log' : Log} {id n : ℕ} {a : Active}

theorem Log.Shifts.bytes (h : log.Shifts log') {b : Bytes} (hb : log.bytesAt id = some b) :
    ∃ b', log'.bytesAt id = some b' ∧ b <+: b' := by
  cases h with
  | idle hbytes => exact ⟨b, hbytes ▸ hb, List.prefix_rfl⟩
  | works _ hwrites =>
    rcases hwrites.bytesAt_cases id with heq | ⟨-, x, heq⟩ | ⟨-, hnew, -⟩
    · exact ⟨b, heq.trans hb, List.prefix_rfl⟩
    · exact ⟨b ++ x, by rw [heq, hb, Option.map_some], List.prefix_append b x⟩
    · rw [Log.mem_dir_iff_bytesAt, hb] at hnew
      exact absurd rfl hnew

theorem RollStops.extends (h : RollStops a log log') : log.Extends log' := by
  cases h with
  | drain => exact Log.extends_append rfl
  | settled => exact Log.extends_settled log a
  | created hnew =>
    exact (Log.extends_settled log a).trans (Log.extends_newFile (by simpa using hnew))

theorem RollStops.acked (h : RollStops a log log') : log'.acked = log.acked := by
  cases h <;> rfl

theorem Log.extends_rolled (hnew : a.id + 1 ∉ log.dir) :
    log.Extends ((log.rolled a).setNeedsRoll false) :=
  (Log.extends_settled log a).trans (Log.extends_newFile (by simpa using hnew))

theorem Log.extends_tear (log : Log) (bytes : Bytes) (a : Active) (x y : Bytes) :
    log.Extends (log.tear bytes a x y) := Log.extends_append rfl

/-- **A step undoes nothing.** -/
theorem Change.grows (h : Change o act log log') : log.Grows log' := by
  suffices hboth : log.acked <+: log'.acked ∧ log.Extends log' from
    ⟨hboth.1, fun _ _ ↦ h.shifts.bytes, hboth.2⟩
  cases h with
  | same => exact ⟨List.prefix_rfl, .refl log⟩
  | stopped => exact ⟨List.prefix_rfl, .refl log⟩
  | drained => exact ⟨List.prefix_rfl, Log.extends_append rfl⟩
  | synced => exact ⟨List.prefix_rfl, Log.extends_sync rfl⟩
  | noted => exact ⟨List.prefix_rfl, .refl log⟩
  | acked _ h =>
    rw [h.log_eq]
    exact ⟨List.prefix_append _ _, Log.extends_append rfl⟩
  | failed h =>
    cases h with
    | refused => exact ⟨List.prefix_rfl, .refl log⟩
    | @sealed a x y _ _ hnew =>
      exact ⟨List.prefix_rfl, (log.extends_tear _ a x y).trans
        (Log.extends_rolled (mt Log.mem_dir_tear.1 hnew))⟩
    | @stuck a x y _ _ _ hroll =>
      rw [hroll.stops.acked]
      exact ⟨List.prefix_rfl, (log.extends_tear _ a x y).trans hroll.stops.extends⟩
  | rolled _ _ hnew => exact ⟨List.prefix_rfl, Log.extends_rolled hnew⟩
  | rollFailed _ _ h =>
    rw [h.stops.acked]
    exact ⟨List.prefix_rfl, h.stops.extends⟩
  | closed _ _ h =>
    rcases h.log_eq with rfl | rfl
    · exact ⟨List.prefix_rfl, Log.extends_append rfl⟩
    · exact ⟨List.prefix_rfl, (Log.extends_append rfl).trans (Log.extends_sync rfl)⟩

namespace Log

theorem segmentBytes_prefix (h : log.acked <+: log'.acked) (id : ℕ) :
    log.segmentBytes id <+: log'.segmentBytes id := by
  obtain ⟨more, hmore⟩ := h
  rw [segmentBytes, segmentBytes, ackedOf, ackedOf, ← hmore, List.filter_append, List.map_append,
    List.flatten_append, ← List.append_assoc]
  exact List.prefix_append _ _

theorem take_segmentBytes (h : log.acked <+: log'.acked) (hn : n ≤ (log.segmentBytes id).length) :
    (log'.segmentBytes id).take n = (log.segmentBytes id).take n := by
  obtain ⟨more, hmore⟩ := segmentBytes_prefix h id
  rw [← hmore, List.take_append_of_le_length hn]

theorem Durable.grow (h : log.Durable id n) (hn : n ≤ (log.segmentBytes id).length)
    (hacked : log.acked <+: log'.acked) (hext : log.Extends log') : log'.Durable id n := by
  obtain ⟨f, hf, hpre⟩ := h
  obtain ⟨f', hf', hsynced⟩ := hext id f hf
  exact ⟨f', hf', by rw [take_segmentBytes hacked hn]; exact hpre.trans hsynced⟩

theorem Written.grow (h : log.Written id n) (hn : n ≤ (log.segmentBytes id).length)
    (hgrows : log.Grows log') : log'.Written id n := by
  obtain ⟨b, hb, hpre⟩ := h
  obtain ⟨b', hb', hbytes⟩ := hgrows.bytes id b hb
  exact ⟨b', hb', by rw [take_segmentBytes hgrows.acked hn]; exact hpre.trans hbytes⟩

theorem Written.sync (h : log.Written id n) : (log.syncFile id).Durable id n := by
  obtain ⟨b, hb, hpre⟩ := h
  obtain ⟨f, hf, rfl⟩ := Option.map_eq_some_iff.1 hb
  refine ⟨f.sync, ?_, ?_⟩
  · rw [syncFile, getElem?_updateFile, if_pos rfl, hf]
    rfl
  · rw [SegFile.sync, List.take_length]
    exact hpre

end Log

theorem Pc.Covered.grow {pc : Pc} (h : pc.Covered log) (hgrows : log.Grows log') :
    pc.Covered log' := by
  have hle := fun id ↦ (Log.segmentBytes_prefix hgrows.acked id).length_le
  cases pc with
  | syncing id upto => exact ⟨h.1.trans (hle id), h.2.grow h.1 hgrows⟩
  | noting id upto => exact ⟨h.1.trans (hle id), h.2.grow h.1 hgrows.acked hgrows.synced⟩
  | waiting => trivial
  | rolling => trivial
  | exited => trivial

end Grows

/-! ## The counts -/

namespace Log.Accounted

variable {first : ℕ} {log log' : Log} {a : Active}

theorem keep (h : log.Accounted) (hacked : log'.acked = log.acked) (hext : log.Extends log')
    (hactive : ∀ a', log'.state.active = some a' → ∃ a, log.state.active = some a ∧
      a'.id = a.id ∧ a'.bytes = a.bytes ∧ a'.synced = a.synced) : log'.Accounted := by
  intro a' ha'
  obtain ⟨a, ha, hid, hbytes, hsynced⟩ := hactive a' ha'
  obtain ⟨hle, hlength, hdurable⟩ := h a ha
  have hsame : log'.segmentBytes a.id = log.segmentBytes a.id := by
    rw [segmentBytes, segmentBytes, ackedOf, ackedOf, hacked]
  rw [hid, hbytes, hsynced, hsame]
  exact ⟨hle, hlength,
    hdurable.grow (hlength ▸ hle) (hacked ▸ List.prefix_rfl) hext⟩

theorem moved (h : log.Accounted) (ha : log.state.active = some a) (x y : Bytes) :
    (log.moved a x y).Accounted := by
  refine h.keep rfl (extends_append rfl) fun a' ha' ↦ ⟨a, ha, ?_⟩
  obtain rfl := Option.some.inj ha'
  exact ⟨rfl, rfl, rfl⟩

theorem tear (h : log.Accounted) (ha : log.state.active = some a) (bytes x y : Bytes) :
    (log.tear bytes a x y).Accounted :=
  (h.moved ha x y).keep rfl (.refl _) fun a' ha' ↦ ⟨a', ha', rfl, rfl, rfl⟩

theorem settled (h : log.Accounted) (hok : log.Ok first a.id a.buf)
    (ha : log.state.active = some a) : (log.settled a).Accounted := by
  intro a' ha'
  obtain rfl := Option.some.inj ha'
  obtain ⟨f, hf, hpre⟩ := segmentBytes_settled hok
  exact ⟨le_rfl, (h a ha).2.1, f, hf, (List.take_prefix _ _).trans hpre⟩

private theorem newFile (h : log.Accounted) {k n m : ℕ} (hnew : k ∉ log.dir) :
    (log.newFile k n m).Accounted :=
  h.keep rfl (extends_newFile hnew) fun a ha ↦ ⟨a, ha, rfl, rfl, rfl⟩

theorem fresh {id : ℕ}
    (hactive : log.state.active = some ⟨id, [], segmentHeaderBytes, segmentHeaderBytes⟩)
    (hacked : log.ackedOf id = [])
    (hfile : log.dir[id]? =
      some ⟨(encodeSegmentHeader id).take segmentHeaderBytes, segmentHeaderBytes⟩) :
    log.Accounted := by
  intro a ha
  rw [hactive] at ha
  obtain rfl := Option.some.inj ha
  have hbytes : log.segmentBytes id = encodeSegmentHeader id := by
    rw [segmentBytes, hacked, List.append_nil]
  refine ⟨le_rfl, by rw [hbytes, length_encodeSegmentHeader], _, hfile, ?_⟩
  rw [hbytes, List.take_take, Nat.min_self]

theorem rolled (hok : log.Ok first a.id a.buf) :
    ((log.rolled a).setNeedsRoll false).Accounted :=
  fresh rfl (hok.ackedOf_eq_nil (Nat.lt_succ_self _)) Std.ExtTreeMap.getElem?_insert_self

private theorem ack (h : log.Accounted) (ha : log.state.active = some a) (x buf bytes : Bytes) :
    ((log.appendFile a.id x).ack a buf bytes).Accounted := by
  intro a' ha'
  obtain rfl := Option.some.inj ha'
  obtain ⟨hle, hlength, hdurable⟩ := h a ha
  refine ⟨hle.trans (Nat.le_add_right _ _), ?_,
    hdurable.grow (hlength ▸ hle) (List.prefix_append _ _) (extends_append rfl)⟩
  rw [segmentBytes, ackedOf_ack, ← List.append_assoc, List.length_append, ← segmentBytes, ← hlength]

private theorem note (h : log.Accounted) (ha : log.state.active = some a) {upto : ℕ}
    (hupto : upto ≤ (log.segmentBytes a.id).length) (hdurable : log.Durable a.id upto) :
    (log.setActive (some { a with synced := max a.synced upto })).Accounted := by
  intro a' ha'
  obtain rfl := Option.some.inj ha'
  obtain ⟨hle, hlength, hdurable'⟩ := h a ha
  refine ⟨max_le hle (hlength ▸ hupto), hlength, ?_⟩
  rcases max_choice a.synced upto with hmax | hmax
  · exact (congrArg (log.Durable a.id) hmax).mpr hdurable'
  · exact (congrArg (log.Durable a.id) hmax).mpr hdurable

private theorem closed (h : log.state.active = none) : log.Accounted := by
  intro a ha
  rw [h] at ha
  cases ha

end Log.Accounted

section Steps

variable {o : Oracle Op} {first : ℕ} {limits : WalLimits} {c : Committer} {log log' : Log}
  {a : Active}

theorem RollStops.accounted (h : RollStops a log log') (hacc : log.Accounted)
    (hok : log.Ok first a.id a.buf) (ha : log.state.active = some a) : log'.Accounted := by
  cases h with
  | drain => exact hacc.moved ha _ _
  | settled => exact hacc.settled hok ha
  | created hnew => exact (hacc.settled hok ha).newFile (by simpa using hnew)

theorem Stop.accounted (h : Stop log log') (hinv : log.Inv first) (hacc : log.Accounted) :
    log'.Accounted := by
  cases h with
  | same => exact hacc
  | moved ha x y => exact hacc.moved ha x y
  | settled ha => exact hacc.settled (hinv.ok ha).1 ha
  | rolling ha h => exact h.accounted hacc (hinv.ok ha).1 ha
  | appending h =>
    cases h with
    | write ha _ x y => exact hacc.moved ha x y
    | roll h hroll =>
      exact hroll.accounted (hacc.tear h.active _ _ _) ((hinv.ok h.active).1.tear h) rfl

theorem AppendFails.accounted {bytes : Bytes} (h : AppendFails o bytes log log')
    (hinv : log.Inv first) (hacc : log.Accounted) : log'.Accounted := by
  cases h with
  | refused => exact hacc
  | @sealed a x y _ h =>
    have htear : (log.tear _ a x y).Ok first { a with buf := y }.id { a with buf := y }.buf :=
      (hinv.ok h.active).1.tear h
    exact .rolled htear
  | stuck _ h hroll =>
    exact hroll.stops.accounted (hacc.tear h.active _ _ _) ((hinv.ok h.active).1.tear h) rfl

private theorem rollNow_accounted (hinv : log.Inv first) (hacc : log.Accounted) :
    Triple o (· = log) rollNow (fun _ ↦ Log.Accounted) (fun _ ↦ Log.Accounted) Log.Accounted := by
  cases ha : log.state.active with
  | none =>
    refine (rollNow_closed ha).conseq (fun _ ↦ id) (fun _ _ ↦ False.elim) ?_ fun _ ↦ False.elim
    rintro _ _ rfl
    exact hacc
  | some a =>
    have hok := (hinv.ok ha).1
    refine (rollNow_triple ha).conseq (fun _ ↦ id) ?_ (fun _ _ h ↦ h.stops.accounted hacc hok ha)
      fun _ h ↦ h.accounted hacc hok ha
    rintro _ _ ⟨-, -, rfl⟩
    exact .rolled hok

/-! ## The sections of the committer -/

theorem Log.Ok.written (h : log.Ok first a.id a.buf) (n : ℕ) :
    (log.drained a a.buf.length).Written a.id n := by
  have hmoved := h.moved (List.take_append_drop a.buf.length a.buf)
  obtain ⟨t, ht, -⟩ := hmoved.holds a.id h.first_le le_rfl
  rw [List.drop_length, content_nil] at ht
  exact ⟨_, ht, (List.take_prefix _ _).trans (List.prefix_append _ _)⟩

private theorem waitSection_accounted (elapsed : Bool) (hinv : log.Inv first)
    (hacc : log.Accounted) : Triple o (· = log) (waitSection limits elapsed c)
      (fun c' log' ↦ log'.Accounted ∧ c'.pc.Covered log') (fun _ ↦ Log.Accounted)
      Log.Accounted := by
  refine .look_bind ?_
  have hsame : ∀ pc : Pc, (∀ log, pc.Covered log) → Triple o (· = log)
      (pure { c with pc } : WalIo Committer) (fun c' log' ↦ log'.Accounted ∧ c'.pc.Covered log')
      (fun _ ↦ Log.Accounted) Log.Accounted := by
    refine fun pc hpc ↦ .ret ?_
    rintro _ rfl
    exact ⟨hacc, hpc _⟩
  by_cases hstop : log.state.stop = true
  · rw [if_pos hstop]
    exact hsame _ fun _ ↦ trivial
  rw [if_neg hstop]
  cases ha : log.state.active with
  | none => exact hsame _ fun _ ↦ trivial
  | some a =>
    dsimp only
    by_cases hdue : limits.due c.retry elapsed a = true
    · rw [if_pos hdue]
      refine .attempt_bind (E := fun _ ↦ Log.Accounted) ((flushBuf_triple ha).conseq (fun _ ↦ id)
        (fun _ _ ↦ And.right) ?_ ?_) (fun u ↦ ?_) fun e ↦ ?_
      · rintro _ _ ⟨-, -, n, -, rfl⟩
        exact hacc.moved ha _ _
      · rintro _ ⟨n, -, rfl⟩
        exact hacc.moved ha _ _
      · refine .ret ?_
        rintro _ rfl
        exact ⟨hacc.moved ha _ _, (hacc a ha).2.1.le, (hinv.ok ha).1.written _⟩
      · exact .ret fun _ h ↦ ⟨h, trivial⟩
    · rw [if_neg hdue]
      exact hsame _ fun _ ↦ trivial

private theorem syncSection_accounted {id upto : ℕ} (hacc : log.Accounted)
    (hcovered : (Pc.syncing id upto).Covered log) :
    Triple o (· = log) (syncSection id upto)
      (fun c' log' ↦ log'.Accounted ∧ c'.pc.Covered log') (fun _ ↦ Log.Accounted)
      Log.Accounted := by
  refine .attempt_bind (Io.step_triple (Q := fun _ log' ↦ log' = log.syncFile id)
    (E := fun _ log' ↦ log' = log) ?_ ?_ ?_) (fun u ↦ .ret ?_) fun e ↦ .ret ?_
  · rintro _ _ rfl -
    rfl
  · rintro _ _ _ rfl -
    rfl
  · rintro _ _ _ rfl -
    exact hacc
  · rintro _ rfl
    exact ⟨hacc.keep rfl (Log.extends_sync rfl) fun a ha ↦ ⟨a, ha, rfl, rfl, rfl⟩,
      hcovered.1, hcovered.2.sync⟩
  · rintro _ rfl
    exact ⟨hacc, trivial⟩

private theorem noteSection_accounted {id upto : ℕ} (hacc : log.Accounted)
    (hcovered : (Pc.noting id upto).Covered log) :
    Triple o (· = log) (noteSection id upto c)
      (fun c' log' ↦ log'.Accounted ∧ c'.pc.Covered log') (fun _ ↦ Log.Accounted)
      Log.Accounted := by
  refine .bind (Q := fun _ ↦ Log.Accounted) (.modify ?_) fun _ ↦ .ret fun _ h ↦ ⟨h, trivial⟩
  rintro _ rfl
  split
  next a ha =>
    split_ifs with hid
    · subst hid
      exact hacc.note ha hcovered.1 hcovered.2
    · exact hacc
  next => exact hacc

private theorem rollSection_accounted (hinv : log.Inv first) (hacc : log.Accounted) :
    Triple o (· = log) (rollSection limits c)
      (fun c' log' ↦ log'.Accounted ∧ c'.pc.Covered log') (fun _ ↦ Log.Accounted)
      Log.Accounted := by
  refine .look_bind ?_
  by_cases hroll : (limits.full log.state.active || log.state.needsRoll) = true
  · rw [if_pos hroll]
    exact .bind (Q := fun _ ↦ Log.Accounted) (.bind (Q := fun _ ↦ Log.Accounted)
      (.attempt (rollNow_accounted hinv hacc)) fun _ ↦ .ret fun _ ↦ id) fun _ ↦
        .ret fun _ h ↦ ⟨h, trivial⟩
  · rw [if_neg hroll]
    refine .ret ?_
    rintro _ rfl
    exact ⟨hacc, trivial⟩

/-! ## Whole runs -/

/-- A step keeps the counts right, and leaves the committer where it was or knowing what it
should. -/
theorem Action.program_accounted (act : Action) (hinv : log.Inv first) (hacc : log.Accounted)
    (hcovered : c.pc.Covered log) :
    Triple o (· = log) (act.program limits c)
      (fun c' log' ↦ log'.Accounted ∧ (c' = c ∨ c'.pc.Covered log')) (fun _ ↦ Log.Accounted)
      Log.Accounted := by
  have hstay : ∀ p : WalIo Committer, p = pure c → Triple o (· = log) p
      (fun c' log' ↦ log'.Accounted ∧ (c' = c ∨ c'.pc.Covered log')) (fun _ ↦ Log.Accounted)
      Log.Accounted := by
    rintro _ rfl
    refine .ret ?_
    rintro _ rfl
    exact ⟨hacc, .inl rfl⟩
  have hreturn : Triple o Log.Accounted (pure c : WalIo Committer)
      (fun c' log' ↦ log'.Accounted ∧ (c' = c ∨ c'.pc.Covered log')) (fun _ ↦ Log.Accounted)
      Log.Accounted := .ret fun _ h ↦ ⟨h, .inl rfl⟩
  cases act with
  | append bytes =>
    refine .bind (Q := fun _ ↦ Log.Accounted) ((appendBytes_triple bytes).conseq (fun _ ↦ id) ?_
      (fun _ _ h ↦ h.accounted hinv hacc) fun _ h ↦ (Stop.appending h).accounted hinv hacc)
      fun _ ↦ hreturn
    rintro _ _ ⟨a, x, buf, h⟩
    rw [h.log_eq]
    exact hacc.ack h.active x buf bytes
  | sealSegment =>
    refine .bind (Q := fun _ ↦ Log.Accounted) (sealSegment_triple.conseq (fun _ ↦ id) ?_ ?_ ?_)
      fun _ ↦ hreturn
    · rintro _ _ ⟨a, ha, ⟨-, rfl⟩ | ⟨-, -, -, rfl⟩⟩
      · exact hacc
      · exact .rolled (hinv.ok ha).1
    · rintro _ _ (rfl | ⟨a, ha, h⟩)
      · exact hacc
      · exact h.stops.accounted hacc (hinv.ok ha).1 ha
    · rintro _ ⟨a, ha, h⟩
      exact h.accounted hacc (hinv.ok ha).1 ha
  | stop =>
    refine .bind (Q := fun _ ↦ Log.Accounted) (.modify ?_) fun _ ↦ hreturn
    rintro _ rfl
    exact hacc.keep rfl (.refl _) fun a ha ↦ ⟨a, ha, rfl, rfl, rfl⟩
  | close =>
    have hclosed : ∀ a x y log', Closes log a x y log' → log'.Accounted := by
      rintro a x y _ ⟨-, -, rfl | rfl⟩
      · exact .closed rfl
      · exact .closed rfl
    refine .bind (Q := fun _ ↦ Log.Accounted) (close_triple.conseq (fun _ ↦ id) ?_ ?_ ?_)
      fun _ ↦ hreturn
    · rintro _ _ (⟨-, rfl⟩ | ⟨a, h⟩)
      · exact hacc
      · exact hclosed _ _ _ _ h
    · rintro _ _ ⟨-, a, x, y, h⟩
      exact hclosed _ _ _ _ h
    · rintro _ ⟨a, ha, ⟨x, y, -, rfl⟩ | rfl⟩
      · exact hacc.moved ha x y
      · exact hacc.settled (hinv.ok ha).1 ha
  | wait elapsed =>
    rw [Action.program]
    split
    · exact (waitSection_accounted elapsed hinv hacc).post fun _ _ h ↦ ⟨h.1, .inr h.2⟩
    · exact hstay _ rfl
  | sync =>
    rw [Action.program]
    split
    next hpc =>
      rw [hpc] at hcovered
      exact (syncSection_accounted hacc hcovered).post fun _ _ h ↦ ⟨h.1, .inr h.2⟩
    next => exact hstay _ rfl
  | note =>
    rw [Action.program]
    split
    next hpc =>
      rw [hpc] at hcovered
      exact (noteSection_accounted hacc hcovered).post fun _ _ h ↦ ⟨h.1, .inr h.2⟩
    next => exact hstay _ rfl
  | roll =>
    rw [Action.program]
    split
    · exact (rollSection_accounted hinv hacc).post fun _ _ h ↦ ⟨h.1, .inr h.2⟩
    · exact hstay _ rfl

/-- **One step**, whether or not the process survives it. -/
theorem Sys.after_accounted {s : Sys} (o : Oracle Op) (act : Action) (hinv : s.log.Inv first)
    (hacc : s.log.Accounted) (hcovered : s.committer.pc.Covered s.log) :
    (s.after limits o act).log.Accounted ∧ ((s.after limits o act).alive = true →
      (s.after limits o act).committer.pc.Covered (s.after limits o act).log) := by
  have haccounted : Triple o (· = s.log) (act.program limits s.committer) _ _ _ :=
    act.program_accounted hinv hacc hcovered
  have hchange : Triple o (· = s.log) (act.program limits s.committer) (fun _ ↦ Change o act s.log)
      (fun _ ↦ Change o act s.log) (Stop s.log) := act.program_triple
  have h₁ := haccounted ⟨s.log, 0⟩ rfl
  have h₂ := hchange ⟨s.log, 0⟩ rfl
  rw [Sys.after]
  generalize act.program limits s.committer o ⟨s.log, 0⟩ = r at h₁ h₂ ⊢
  rcases r with ⟨c | e | _, w⟩
  · refine ⟨h₁.1, fun _ ↦ ?_⟩
    rcases h₁.2 with rfl | h
    · exact hcovered.grow (Change.grows h₂)
    · exact h
  · exact ⟨h₁, fun _ ↦ hcovered.grow (Change.grows h₂)⟩
  · exact ⟨h₁.2, fun hup ↦ absurd hup Bool.false_ne_true⟩

theorem Opened.accounted {s : Sys} (h : Opened first s) :
    s.log.Accounted ∧ s.committer.pc.Covered s.log := by
  obtain ⟨dir, o, t, w, -, hrun, rfl⟩ := h.fresh
  have hlog := (openWriter_triple first).of_ok rfl hrun
  rw [hlog]
  exact ⟨.fresh rfl rfl Std.ExtTreeMap.getElem?_insert_self, trivial⟩

/-- **Whole runs** keep the counts right, up to and including the moment the process stops. -/
theorem Sys.Reachable.accounted {allowed : Sys → Oracle Op → Action → Prop} {s : Sys}
    (h : s.Reachable limits first allowed) :
    s.log.Accounted ∧ (s.alive = true → s.committer.pc.Covered s.log) := by
  obtain ⟨s₀, hopen, hrun⟩ := h
  induction hrun with
  | refl => exact ⟨hopen.accounted.1, fun _ ↦ hopen.accounted.2⟩
  | @tail s₁ _ hrun hstep ih =>
    obtain ⟨halive, o, act, -, rfl⟩ := hstep
    have hreach : s₁.Reachable limits first allowed := ⟨s₀, hopen, hrun⟩
    exact Sys.after_accounted o act (hreach.inv halive) ih.1 (ih.2 halive)

end Steps

/-! ## What is reported -/

/-- `WalStats::dirty_bytes`. -/
def Log.dirtyBytes (log : Log) : ℕ :=
  match log.state.active with
  | some a => a.dirty
  | none => 0

/-- What a power cut may leave of a file: at least what an fsync has covered. -/
def SegFile.PowerCut (f : SegFile) (left : Bytes) : Prop := f.bytes.take f.synced <+: left

/-- How many of the bytes acknowledged into a segment are missing from what is left of its file. -/
def Log.lostBytes (log : Log) (id : ℕ) (left : Bytes) : ℕ :=
  Nat.count (fun i ↦ left[segmentHeaderBytes + i]? ≠ (log.ackedOf id)[i]?) (log.ackedOf id).length

theorem Log.lostBytes_le {log : Log} {id n : ℕ} {left : Bytes}
    (h : (log.segmentBytes id).take n <+: left) :
    log.lostBytes id left ≤ (log.segmentBytes id).length - n := by
  have hlength : (log.segmentBytes id).length = segmentHeaderBytes + (log.ackedOf id).length := by
    rw [segmentBytes, List.length_append, length_encodeSegmentHeader]
  set k := min (n - segmentHeaderBytes) (log.ackedOf id).length with hk
  have hkept : ∀ i < k, ¬ left[segmentHeaderBytes + i]? ≠ (log.ackedOf id)[i]? := by
    intro i hi
    have hin : segmentHeaderBytes + i < n := by omega
    obtain ⟨rest, rfl⟩ := h
    rw [not_not, List.getElem?_append_left (by rw [List.length_take]; omega),
      List.getElem?_take_of_lt hin, segmentBytes,
      List.getElem?_append_right (by rw [length_encodeSegmentHeader]; omega),
      length_encodeSegmentHeader, Nat.add_sub_cancel_left]
  obtain ⟨m, hm⟩ := Nat.exists_eq_add_of_le (Nat.min_le_right _ _ : k ≤ (log.ackedOf id).length)
  rw [lostBytes, hm, Nat.count_add, Nat.count_of_forall_not hkept, Nat.zero_add]
  refine (Nat.count_le _).trans ?_
  omega

/-- **The durability accounting.** At every moment of every run, whatever fails and wherever the
process stops: the count of durable bytes is at most that of accepted bytes; the bytes below it, the
acknowledged ones among them, are in the file and were there when a successful fsync of it began; so
of the bytes acknowledged into the active segment a power cut loses no more than the writer reports
as dirty. -/
theorem dirty_bytes_cover_loss {limits : WalLimits} {first : ℕ} {s : Sys} {a : Active}
    (hs : s.Reachable limits first anyFault) (ha : s.log.state.active = some a) :
    a.synced ≤ a.bytes ∧ a.bytes = (s.log.segmentBytes a.id).length ∧
      ∃ f, s.log.dir[a.id]? = some f ∧
        (s.log.segmentBytes a.id).take a.synced <+: f.bytes.take f.synced ∧
        ∀ left, f.PowerCut left → s.log.lostBytes a.id left ≤ s.log.dirtyBytes := by
  obtain ⟨hle, hlength, f, hf, hpre⟩ := hs.accounted.1 a ha
  refine ⟨hle, hlength, f, hf, hpre, fun left hleft ↦ ?_⟩
  rw [Log.dirtyBytes, ha]
  calc s.log.lostBytes a.id left
      ≤ (s.log.segmentBytes a.id).length - a.synced := Log.lostBytes_le (hpre.trans hleft)
    _ = a.dirty := by rw [Active.dirty, hlength]

/-- A group commit of one append, with a second one made between the sync and the note. -/
def Sys.committing : Sys :=
  ((((Sys.fresh.after {} noFault (.append [7])).after {} noFault (.wait true)).after {} noFault
    .sync).after {} noFault (.append [8])).after {} noFault .note

theorem Sys.committing_reachable : Sys.committing.Reachable {} 1 anyFault := by
  have hfresh : Sys.fresh.Reachable {} 1 anyFault := ⟨_, opened_fresh, .refl⟩
  exact ((((hfresh.after rfl trivial).after (by decide +kernel) trivial).after (by decide +kernel)
    trivial).after (by decide +kernel) trivial).after (by decide +kernel) trivial

/-- One byte is dirty then, and a power cut that leaves the file as it was synced loses that one. -/
theorem dirty_bytes_cover_loss_committing :
    Sys.committing.log.dirtyBytes = 1 ∧
      Sys.committing.log.lostBytes 1 (encodeSegmentHeader 1 ++ [7]) = 1 ∧
      Sys.committing.log.lostBytes 1 (encodeSegmentHeader 1 ++ [7]) ≤
        Sys.committing.log.dirtyBytes := by
  have ha : Sys.committing.log.state.active =
      some ⟨1, [8], segmentHeaderBytes + 2, segmentHeaderBytes + 1⟩ := by decide +kernel
  obtain ⟨-, -, f, hf, -, hcut⟩ := dirty_bytes_cover_loss Sys.committing_reachable ha
  have hfile : Sys.committing.log.dir[1]? =
      some ⟨encodeSegmentHeader 1 ++ [7], segmentHeaderBytes + 1⟩ := by decide +kernel
  rw [hfile] at hf
  obtain rfl := Option.some.inj hf
  refine ⟨by decide +kernel, by decide +kernel, hcut _ ?_⟩
  exact List.take_prefix _ _

end Orc
