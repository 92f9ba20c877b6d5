import Orc.Wal.Runs

/-!
# What the segments hold

The content of a segment is its file followed by what is still buffered for it. In every state of
every run it is the header, then the acknowledged appends in lock order, then possibly a first part
of one append that failed; and no append is acknowledged behind such a part, because it is at the
end of a segment that refuses appends until it is rolled (`Log.Ok`).

## Histories

"Acknowledged" and "failed" are histories that the model keeps and the writer does not. They make
the content of a segment a function of what callers were told, and the buffer disappears from it: a
drain moves bytes from one place to the other and changes no content. Ids are natural numbers in the
model, so the results are about runs in which they stay below 2 ^ 64 (`idsFit`).
-/

namespace Orc

open Bytes Fault

/-- The appends acknowledged into a segment, back to back. -/
def Log.ackedOf (log : Log) (id : ℕ) : Bytes :=
  ((log.acked.filter fun e ↦ e.1 = id).map Prod.snd).flatten

/-- The header of a segment and the appends acknowledged into it. -/
def Log.segmentBytes (log : Log) (id : ℕ) : Bytes := encodeSegmentHeader id ++ log.ackedOf id

/-- The content of a segment, where `tail` is what is buffered for segment `last`. -/
def Log.content (log : Log) (last : ℕ) (tail : Bytes) (id : ℕ) : Option Bytes :=
  log.dir[id]?.map fun f ↦ f.bytes ++ if id = last then tail else []

/-- A first part of an append to the segment that failed, or nothing. -/
def Log.Torn (log : Log) (id : ℕ) (t : Bytes) : Prop :=
  t = [] ∨ ∃ bytes, (id, bytes) ∈ log.failed ∧ t <+: bytes

/-- The segments from `first` to `last` hold what they should. -/
structure Log.Ok (first last : ℕ) (tail : Bytes) (log : Log) : Prop where
  first_le : first ≤ last
  acked : ∀ e ∈ log.acked, first ≤ e.1 ∧ e.1 ≤ last
  holds : ∀ id, first ≤ id → id ≤ last → ∃ t,
    log.content last tail id = some (log.segmentBytes id ++ t) ∧ log.Torn id t ∧
      (id = last → t ≠ [] → log.state.needsRoll = true)

/-- The invariant of the writer, open or closed. -/
def Log.Inv (first : ℕ) (log : Log) : Prop :=
  (∃ a, log.state.active = some a ∧ log.Ok first a.id a.buf ∧ log.lost = []) ∨
    (log.state.active = none ∧ ∃ last, log.Ok first last log.lost)

/-! ## Contents after a change -/

namespace Log

theorem content_appendFile (log : Log) (last : ℕ) (x y : Bytes) :
    (log.appendFile last x).content last y = log.content last (x ++ y) := by
  funext id
  simp only [content, appendFile, getElem?_updateFile]
  by_cases hid : last = id
  · subst hid
    simp only [if_true, Option.map_map]
    congr 1
    funext f
    simp [SegFile.append]
  · simp only [if_neg hid, if_neg (Ne.symm hid)]

theorem content_syncFile (log : Log) (k last : ℕ) (tail : Bytes) :
    (log.syncFile k).content last tail = log.content last tail := by
  funext id
  simp only [content, syncFile, getElem?_updateFile]
  by_cases hid : k = id
  · rw [if_pos hid, Option.map_map]
    rfl
  · rw [if_neg hid]

private theorem content_settled (log : Log) (a : Active) :
    (log.settled a).content a.id [] = log.content a.id a.buf := by
  calc (log.settled a).content a.id []
      = ((log.appendFile a.id a.buf).syncFile a.id).content a.id [] := by
        rw [settled, drained, List.take_length]
        rfl
    _ = (log.appendFile a.id a.buf).content a.id [] := content_syncFile _ _ _ _
    _ = log.content a.id a.buf := by rw [content_appendFile, List.append_nil]

@[simp] theorem content_nil (log : Log) (last id : ℕ) :
    log.content last [] id = log.dir[id]?.map SegFile.bytes := by
  simp only [content, ite_self, List.append_nil]

theorem content_newFile {log : Log} {id k n m last : ℕ} {tail : Bytes} (hid : id < k) :
    (log.newFile k n m).content last tail id = log.content last tail id := by
  simp [content, newFile, Std.ExtTreeMap.getElem?_insert, hid.ne']

end Log

namespace Log

variable {log : Log} {a : Active} {x buf bytes : Bytes}

theorem ackedOf_ack : ((log.appendFile a.id x).ack a buf bytes).ackedOf a.id =
    log.ackedOf a.id ++ bytes := by
  simp [ackedOf, ack, appendFile, List.filter_append]

theorem ackedOf_ack_of_ne {id : ℕ} (hid : id ≠ a.id) :
    ((log.appendFile a.id x).ack a buf bytes).ackedOf id = log.ackedOf id := by
  simp [ackedOf, ack, appendFile, List.filter_append, hid.symm]

/-- The active segment of an open writer is the one of the invariant. -/
theorem Inv.ok {first : ℕ} (h : log.Inv first) (ha : log.state.active = some a) :
    log.Ok first a.id a.buf ∧ log.lost = [] := by
  rcases h with ⟨a', ha', hok, hlost⟩ | ⟨hnone, -⟩
  · rw [ha, Option.some.injEq] at ha'
    exact ha' ▸ ⟨hok, hlost⟩
  · rw [ha] at hnone
    cases hnone

end Log

/-! ## The invariant under a change -/

namespace Log.Ok

variable {first last : ℕ} {tail : Bytes} {log log' : Log}

theorem keep {tail' : Bytes} (h : log.Ok first last tail) (hacked : log'.acked = log.acked)
    (hfailed : log'.failed = log.failed)
    (hneeds : log.state.needsRoll = true → log'.state.needsRoll = true)
    (hcontent : ∀ id ≤ last, log'.content last tail' id = log.content last tail id) :
    log'.Ok first last tail' := by
  refine ⟨h.first_le, hacked ▸ h.acked, fun id hfirst hlast ↦ ?_⟩
  obtain ⟨t, ht, htorn, hroll⟩ := h.holds id hfirst hlast
  refine ⟨t, ?_, ?_, fun hid hne ↦ hneeds (hroll hid hne)⟩
  · rw [hcontent id hlast, ht, segmentBytes, segmentBytes, ackedOf, ackedOf, hacked]
  · rw [Torn, hfailed]
    exact htorn

theorem ackedOf_eq_nil (h : log.Ok first last tail) {id : ℕ} (hid : last < id) :
    log.ackedOf id = [] := by
  have hnone : log.acked.filter (fun e ↦ e.1 = id) = [] := by
    rw [List.filter_eq_nil_iff]
    intro e he hid'
    have := (h.acked e he).2
    have := of_decide_eq_true hid'
    omega
  rw [ackedOf, hnone]
  rfl

private theorem next {k : ℕ} (h : log.Ok first last []) (hacked : log'.acked = log.acked)
    (hfailed : log'.failed = log.failed)
    (hdir : log'.dir = (log.newFile (last + 1) segmentHeaderBytes k).dir) :
    log'.Ok first (last + 1) [] := by
  -- the next segment has been created and nothing is buffered: it is the last one now
  have hbytes : ∀ id, log'.segmentBytes id = log.segmentBytes id := fun id ↦ by
    rw [segmentBytes, segmentBytes, ackedOf, ackedOf, hacked]
  have hcontent : ∀ id, log'.content (last + 1) [] id =
      (log.newFile (last + 1) segmentHeaderBytes k).content last [] id := fun id ↦ by
    rw [content_nil, content_nil, hdir]
  refine ⟨Nat.le_succ_of_le h.first_le, fun e he ↦ ?_, fun id hfirst hid ↦ ?_⟩
  · rw [hacked] at he
    exact ⟨(h.acked e he).1, Nat.le_succ_of_le (h.acked e he).2⟩
  · rw [hcontent, hbytes]
    rcases Nat.lt_or_eq_of_le hid with hlt | rfl
    · obtain ⟨t, ht, htorn, -⟩ := h.holds id hfirst (Nat.le_of_lt_succ hlt)
      refine ⟨t, by rw [content_newFile hlt, ht], ?_, fun heq ↦ absurd heq hlt.ne⟩
      rw [Torn, hfailed]
      exact htorn
    · refine ⟨[], ?_, .inl rfl, fun _ hne ↦ absurd rfl hne⟩
      rw [segmentBytes, h.ackedOf_eq_nil (Nat.lt_succ_self last), content_nil, newFile,
        Std.ExtTreeMap.getElem?_insert_self, Option.map_some,
          ← length_encodeSegmentHeader (last + 1),
        List.take_length, List.append_nil, List.append_nil]

theorem ready (h : log.Ok first last tail) (hready : log.state.needsRoll = false) (more : Bytes) :
    log.content last (tail ++ more) last = some (log.segmentBytes last ++ more) := by
  obtain ⟨t, ht, -, hroll⟩ := h.holds last h.first_le le_rfl
  have hnil : t = [] := by
    by_contra hne
    rw [hroll rfl hne] at hready
    cases hready
  obtain ⟨f, hf, hbytes⟩ := Option.map_eq_some_iff.1 ht
  rw [if_pos rfl, hnil, List.append_nil] at hbytes
  rw [content, hf, Option.map_some, if_pos rfl, ← List.append_assoc, hbytes]

private theorem ack {a : Active} {x buf bytes : Bytes} (h : log.Ok first a.id a.buf)
    (hready : log.state.needsRoll = false) (hx : x ++ buf = a.buf ++ bytes) :
    ((log.appendFile a.id x).ack a buf bytes).Ok first a.id buf := by
  have hcontent : ((log.appendFile a.id x).ack a buf bytes).content a.id buf =
      log.content a.id (a.buf ++ bytes) := by
    rw [← hx, ← content_appendFile]
    rfl
  refine ⟨h.first_le, fun e he ↦ ?_, fun id hfirst hid ↦ ?_⟩
  · rcases List.mem_append.1 he with he | he
    · exact h.acked e he
    · rw [List.mem_singleton.1 he]
      exact ⟨h.first_le, le_rfl⟩
  · obtain ⟨t, ht, htorn, hroll⟩ := h.holds id hfirst hid
    rw [hcontent]
    by_cases hlast : id = a.id
    · subst hlast
      refine ⟨[], ?_, .inl rfl, fun _ hne ↦ absurd rfl hne⟩
      rw [h.ready hready, segmentBytes, segmentBytes, ackedOf_ack, List.append_nil,
        List.append_assoc]
    · refine ⟨t, ?_, htorn, fun heq ↦ absurd heq hlast⟩
      rw [segmentBytes, ackedOf_ack_of_ne hlast, ← segmentBytes, ← ht, content, content,
        if_neg hlast, if_neg hlast]

/-- An append has failed and left a first part of its bytes. -/
theorem tear {a : Active} {bytes x y : Bytes} (h : log.Ok first a.id a.buf)
    (htear : Tears bytes log a x y) : (log.tear bytes a x y).Ok first a.id y := by
  obtain ⟨u, hxy, hu⟩ := htear.bytes_eq
  have hcontent : (log.tear bytes a x y).content a.id y = log.content a.id (a.buf ++ u) := by
    rw [← hxy, ← content_appendFile]
    rfl
  refine ⟨h.first_le, h.acked, fun id hfirst hid ↦ ?_⟩
  obtain ⟨t, ht, htorn, hroll⟩ := h.holds id hfirst hid
  rw [hcontent]
  by_cases hlast : id = a.id
  · subst hlast
    exact ⟨u, h.ready htear.ready u,
      .inr ⟨bytes, List.mem_append_right _ (List.mem_singleton_self _), hu⟩, fun _ _ ↦ rfl⟩
  · refine ⟨t, ?_, ?_, fun heq ↦ absurd heq hlast⟩
    · rw [content, if_neg hlast]
      rw [content, if_neg hlast] at ht
      exact ht
    · exact htorn.imp_right fun ⟨b, hb, hpre⟩ ↦ ⟨b, List.mem_append_left _ hb, hpre⟩

/-- A drained buffer is in the file. -/
theorem moved {a : Active} {x y : Bytes} (h : log.Ok first a.id a.buf) (hxy : x ++ y = a.buf) :
    (log.moved a x y).Ok first a.id y :=
  h.keep rfl rfl id fun id _ ↦ by
    rw [← hxy, ← content_appendFile]
    rfl

theorem settled {a : Active} (h : log.Ok first a.id a.buf) : (log.settled a).Ok first a.id [] :=
  h.keep rfl rfl id fun id _ ↦ by rw [content_settled]

private theorem rolled {a : Active} (h : log.Ok first a.id a.buf) :
    ((log.rolled a).setNeedsRoll false).Ok first (a.id + 1) [] :=
  h.settled.next rfl rfl rfl

end Log.Ok

theorem RollFails.inv {o : Oracle Op} {first : ℕ} {a : Active} {log log' : Log}
    (h : RollFails o a log log') (hok : log.Ok first a.id a.buf) (hlost : log.lost = []) :
    log'.Inv first := by
  cases h with
  | drain => exact .inl ⟨_, rfl, hok.moved (List.take_append_drop _ _), hlost⟩
  | sync => exact .inl ⟨_, rfl, hok.moved (List.take_append_drop _ _), hlost⟩
  | create => exact .inl ⟨_, rfl, hok.settled, hlost⟩
  | late =>
    refine .inl ⟨_, rfl, hok.settled.keep rfl rfl id fun id hid ↦ ?_, hlost⟩
    exact Log.content_newFile (Nat.lt_succ_of_le hid)

/-- **One step** keeps the invariant. -/
theorem Change.inv {o : Oracle Op} {act : Action} {first : ℕ} {log log' : Log}
    (h : Change o act log log') (hinv : log.Inv first) : log'.Inv first := by
  cases h with
  | same => exact hinv
  | stopped =>
    rcases hinv with ⟨a, ha, hok, hlost⟩ | ⟨hnone, last, hok⟩
    · exact .inl ⟨a, ha, hok.keep rfl rfl id fun _ _ ↦ rfl, hlost⟩
    · exact .inr ⟨hnone, last, hok.keep rfl rfl id fun _ _ ↦ rfl⟩
  | drained ha hxy => exact .inl ⟨_, rfl, (hinv.ok ha).1.moved hxy, (hinv.ok ha).2⟩
  | synced k =>
    rcases hinv with ⟨a, ha, hok, hlost⟩ | ⟨hnone, last, hok⟩
    · exact .inl ⟨a, ha, hok.keep rfl rfl id fun _ _ ↦ by rw [Log.content_syncFile], hlost⟩
    · exact .inr ⟨hnone, last, hok.keep rfl rfl id fun _ _ ↦ by
        rw [Log.content_syncFile]
        rfl⟩
  | noted ha k => exact .inl ⟨_, rfl, (hinv.ok ha).1.keep rfl rfl id fun _ _ ↦ rfl, (hinv.ok ha).2⟩
  | acked hact h =>
    obtain ⟨hok, hlost⟩ := hinv.ok h.active
    rw [h.log_eq]
    exact .inl ⟨_, rfl, hok.ack h.ready h.bytes_eq, hlost⟩
  | failed h =>
    cases h with
    | refused => exact hinv
    | @sealed a x y _ h =>
      obtain ⟨hok, hlost⟩ := hinv.ok h.active
      have htear : (log.tear _ a x y).Ok first { a with buf := y }.id { a with buf := y }.buf :=
        hok.tear h
      exact .inl ⟨_, rfl, htear.rolled, hlost⟩
    | stuck _ h hroll =>
      obtain ⟨hok, hlost⟩ := hinv.ok h.active
      exact hroll.inv (hok.tear h) hlost
  | rolled _ ha => exact .inl ⟨_, rfl, (hinv.ok ha).1.rolled, (hinv.ok ha).2⟩
  | rollFailed _ ha h => exact h.inv (hinv.ok ha).1 (hinv.ok ha).2
  | @closed a x y log' _ _ h =>
    obtain ⟨hok, -⟩ := hinv.ok h.active
    have hcontent : (log.appendFile a.id x).content a.id y = log.content a.id a.buf := by
      rw [Log.content_appendFile, h.bytes_eq]
    refine .inr ?_
    rcases h.log_eq with rfl | rfl
    · exact ⟨rfl, _, hok.keep rfl rfl id fun id _ ↦ congrFun hcontent id⟩
    · rw [← Log.content_syncFile _ a.id] at hcontent
      exact ⟨rfl, _, hok.keep rfl rfl id fun id _ ↦ congrFun hcontent id⟩

/-- A writer just opened satisfies the invariant. -/
theorem Opened.inv {first : ℕ} {s : Sys} (h : Opened first s) :
    s.alive = true ∧ s.log.Inv first := by
  obtain ⟨dir, o, t, w, -, hrun, rfl⟩ := h.fresh
  have htriple := (openWriter_triple first).of_ok rfl hrun
  refine ⟨rfl, .inl ⟨_, by rw [htriple]; rfl, ⟨le_rfl, ?_, ?_⟩, by rw [htriple]; rfl⟩⟩
  · intro e he
    rw [htriple] at he
    cases he
  · intro id hfirst hlast
    obtain rfl : first = id := le_antisymm hfirst hlast
    refine ⟨[], ?_, .inl rfl, fun _ hne ↦ absurd rfl hne⟩
    rw [htriple, Log.content_nil, Log.setActive, Log.newFile, Std.ExtTreeMap.getElem?_insert_self,
      Option.map_some, ← length_encodeSegmentHeader first, List.take_length, List.append_nil]
    exact congrArg some (List.append_nil _).symm

/-- **Whole runs** keep the invariant. -/
theorem Sys.Reachable.inv {limits : WalLimits} {first : ℕ}
    {allowed : Sys → Oracle Op → Action → Prop} {s : Sys} (h : s.Reachable limits first allowed)
    (halive : s.alive = true) : s.log.Inv first := by
  obtain ⟨s₀, hopen, hrun⟩ := h
  induction hrun with
  | refl => exact hopen.inv.2
  | @tail s s' _ hstep ih =>
    obtain ⟨halive', o, act, -, rfl⟩ := hstep
    rcases s.after_cases limits o act with ⟨-, hchange⟩ | ⟨hdead, -⟩
    · exact hchange.inv (ih halive')
    · rw [halive] at hdead
      cases hdead

/-! ## What a step does to the files -/

/-- The bytes of a segment's file. -/
def Log.bytesAt (log : Log) (k : ℕ) : Option Bytes := log.dir[k]?.map SegFile.bytes

/-- Bytes have been appended to the file of segment `id`, and no other bytes have changed. -/
def Log.Extended (id : ℕ) (log log' : Log) : Prop :=
  ∃ x, ∀ k, log'.bytesAt k = (log.bytesAt k).map fun b ↦ if k = id then b ++ x else b

/-- What a step does to the files when segment `id` is active: it appends to that segment's, and may
then create the next one's. -/
inductive Log.Writes (id : ℕ) (log log' : Log) : Prop
  | appended (h : log.Extended id log')
  | created {log₁ : Log} {n m : ℕ} (h : log.Extended id log₁) (hnew : id + 1 ∉ log.dir)
      (hdir : log'.dir = (log₁.newFile (id + 1) n m).dir)

section Files

variable {log log' log'' : Log} {id : ℕ}

theorem Log.mem_dir_iff_bytesAt {k : ℕ} : k ∈ log.dir ↔ (log.bytesAt k).isSome = true := by
  rw [bytesAt, Option.isSome_map, Std.ExtTreeMap.isSome_getElem?_iff_mem]

theorem Log.bytesAt_append (log : Log) (k : ℕ) (x : Bytes) :
    (updateFile id (SegFile.append x) log.dir)[k]?.map SegFile.bytes =
      (log.bytesAt k).map fun b ↦ if k = id then b ++ x else b := by
  rw [getElem?_updateFile, bytesAt, Option.map_map]
  by_cases hk : id = k
  · rw [if_pos hk, Option.map_map]
    congr 1
    funext f
    exact (if_pos hk.symm).symm
  · rw [if_neg hk]
    congr 1
    funext f
    exact (if_neg (Ne.symm hk)).symm

theorem bytes_updateFile_sync (k id : ℕ) (dir : Std.ExtTreeMap ℕ SegFile) :
    (updateFile k SegFile.sync dir)[id]?.map SegFile.bytes = dir[id]?.map SegFile.bytes := by
  rw [getElem?_updateFile]
  split_ifs
  · rw [Option.map_map]
    rfl
  · rfl

namespace Log.Extended

protected theorem refl (h : log'.bytesAt = log.bytesAt) : log.Extended id log' := by
  refine ⟨[], fun k ↦ ?_⟩
  simp only [h, List.append_nil, ite_self, Option.map_id']

theorem trans (h : log.Extended id log') (h' : log'.Extended id log'') : log.Extended id log'' := by
  obtain ⟨x, hx⟩ := h
  obtain ⟨y, hy⟩ := h'
  refine ⟨x ++ y, fun k ↦ ?_⟩
  rw [hy, hx, Option.map_map]
  congr 1
  funext b
  by_cases hk : k = id
  · simp [hk]
  · simp [hk]

theorem append {x : Bytes} (hdir : log'.dir = updateFile id (SegFile.append x) log.dir) :
    log.Extended id log' := by
  refine ⟨x, fun k ↦ ?_⟩
  rw [bytesAt, hdir]
  exact bytesAt_append log k x

theorem sync {k : ℕ} (hdir : log'.dir = updateFile k SegFile.sync log.dir) :
    log.Extended id log' := by
  refine .refl (funext fun j ↦ ?_)
  rw [bytesAt, hdir]
  exact bytes_updateFile_sync k j log.dir

theorem moved (a : Active) (x y : Bytes) : log.Extended a.id (log.moved a x y) := .append rfl

theorem settled (log : Log) (a : Active) : log.Extended a.id (log.settled a) :=
  (moved a (a.buf.take a.buf.length) (a.buf.drop a.buf.length)).trans (.sync rfl)

theorem tear (bytes : Bytes) (a : Active) (x y : Bytes) :
    log.Extended a.id (log.tear bytes a x y) :=
  .append rfl

theorem mem_dir (h : log.Extended id log') (k : ℕ) : k ∈ log'.dir ↔ k ∈ log.dir := by
  obtain ⟨x, hx⟩ := h
  rw [mem_dir_iff_bytesAt, mem_dir_iff_bytesAt, hx, Option.isSome_map]

end Log.Extended

namespace Log.Writes

theorem after (h : log'.Writes id log'') (hext : log.Extended id log') : log.Writes id log'' := by
  cases h with
  | appended h => exact .appended (hext.trans h)
  | created h hnew hdir => exact .created (hext.trans h) (mt (hext.mem_dir _).2 hnew) hdir

/-- Every file is as it was, longer if it is that of the active segment, or new. -/
theorem bytesAt_cases (h : log.Writes id log') (k : ℕ) :
    log'.bytesAt k = log.bytesAt k ∨
      (k = id ∧ ∃ x, log'.bytesAt k = (log.bytesAt k).map (· ++ x)) ∨
      k = id + 1 ∧ k ∉ log.dir ∧ ∃ n, log'.bytesAt k = some ((encodeSegmentHeader k).take n) := by
  have hextended : ∀ {log₁ : Log}, log.Extended id log₁ → log₁.bytesAt k = log.bytesAt k ∨
      k = id ∧ ∃ x, log₁.bytesAt k = (log.bytesAt k).map (· ++ x) := by
    rintro log₁ ⟨x, hx⟩
    by_cases hk : k = id
    · exact .inr ⟨hk, x, by simp only [hx, if_pos hk]⟩
    · exact .inl (by simp only [hx, if_neg hk, Option.map_id'])
  cases h with
  | appended h => exact (hextended h).imp_right .inl
  | @created log₁ n m h hnew hdir =>
    by_cases hk : k = id + 1
    · refine .inr (.inr ⟨hk, hk ▸ hnew, n, ?_⟩)
      rw [bytesAt, hdir, Log.newFile, hk, Std.ExtTreeMap.getElem?_insert_self]
      rfl
    · have hsame : log'.bytesAt k = log₁.bytesAt k := by
        rw [bytesAt, hdir, Log.newFile, getElem?_insert_of_ne (Ne.symm hk), bytesAt]
      rw [hsame]
      exact (hextended h).imp_right .inl

/-- No file is lost. -/
theorem mem_dir (h : log.Writes id log') {k : ℕ} (hk : k ∈ log.dir) : k ∈ log'.dir := by
  rw [mem_dir_iff_bytesAt] at hk ⊢
  rcases h.bytesAt_cases k with heq | ⟨-, x, heq⟩ | ⟨-, -, n, heq⟩
  · rwa [heq]
  · rwa [heq, Option.isSome_map]
  · rw [heq]
    rfl

end Log.Writes

theorem RollStops.writes {a : Active} (h : RollStops a log log') : log.Writes a.id log' := by
  cases h with
  | drain => exact .appended (.moved a _ _)
  | settled => exact .appended (.settled log a)
  | created hnew => exact .created (.settled log a) hnew rfl

theorem RollStops.active {a : Active} (h : RollStops a log log') :
    ∃ a', log'.state.active = some a' ∧ a'.id = a.id := by
  cases h with
  | drain => exact ⟨_, rfl, rfl⟩
  | settled => exact ⟨_, rfl, rfl⟩
  | created => exact ⟨_, rfl, rfl⟩

theorem RollFails.stops {o : Oracle Op} {a : Active} (h : RollFails o a log log') :
    RollStops a log log' := by
  cases h with
  | drain hn => exact .drain hn
  | sync => exact .drain le_rfl
  | create => exact .settled
  | late _ _ _ hnew => exact .created hnew

/-- Which segment is active after a step: the same, or the next, whose file is new and has its
header. -/
def Log.Follows (log : Log) (a : Active) (log' : Log) : Prop :=
  ∀ a', log'.state.active = some a' → a'.id = a.id ∨ a'.id = a.id + 1 ∧ a.id + 1 ∉ log.dir ∧
    log'.bytesAt (a.id + 1) = some (encodeSegmentHeader (a.id + 1))

theorem Log.follows_of_id {a b : Active} (h : log'.state.active = some b) (hid : b.id = a.id) :
    log.Follows a log' := by
  intro a' ha'
  obtain rfl := Option.some.inj (h.symm.trans ha')
  exact .inl hid

/-- What a step does to the files, and which segment is active then. Without an active segment it
does nothing. -/
inductive Log.Shifts (log log' : Log) : Prop
  | idle (hbytes : log'.bytesAt = log.bytesAt) (hactive : log'.state.active = log.state.active)
  | works {a : Active} (ha : log.state.active = some a) (hwrites : log.Writes a.id log')
      (hfollows : log.Follows a log')

theorem Log.shifts_rolled {a : Active} (ha : log.state.active = some a)
    (hext : log.Extended a.id log') (hnew : a.id + 1 ∉ log.dir) (y : Bytes) :
    log.Shifts ((log'.rolled { a with buf := y }).setNeedsRoll false) := by
  refine .works ha (.created (hext.trans (.settled log' { a with buf := y })) hnew rfl)
    fun a' ha' ↦ ?_
  obtain rfl := Option.some.inj ha'
  have hfile : (log'.rolled { a with buf := y }).dir[a.id + 1]? =
      some ⟨(encodeSegmentHeader (a.id + 1)).take segmentHeaderBytes, segmentHeaderBytes⟩ :=
    Std.ExtTreeMap.getElem?_insert_self
  refine .inr ⟨rfl, hnew, ?_⟩
  change (log'.rolled { a with buf := y }).dir[a.id + 1]?.map SegFile.bytes = _
  rw [hfile, Option.map_some, List.take_of_length_le (length_encodeSegmentHeader _).le]

/-- **What a step does to the files.** -/
theorem Change.shifts {o : Oracle Op} {act : Action} (h : Change o act log log') :
    log.Shifts log' := by
  cases h with
  | same => exact .idle rfl rfl
  | stopped => exact .idle rfl rfl
  | drained ha => exact .works ha (.appended (.moved _ _ _)) (Log.follows_of_id rfl rfl)
  | synced k => exact .idle (funext fun j ↦ bytes_updateFile_sync k j log.dir) rfl
  | noted ha k => exact .works ha (.appended (.refl rfl)) (Log.follows_of_id rfl rfl)
  | acked _ h =>
    rw [h.log_eq]
    exact .works h.active (.appended (.append rfl)) (Log.follows_of_id rfl rfl)
  | failed h =>
    cases h with
    | refused => exact .idle rfl rfl
    | sealed _ h hnew => exact Log.shifts_rolled h.active (.tear _ _ _ _) hnew _
    | stuck _ h hroll =>
      obtain ⟨b, hb, hid⟩ := hroll.stops.active
      exact .works h.active (hroll.stops.writes.after (.tear _ _ _ _)) (Log.follows_of_id hb hid)
  | @rolled a _ ha hnew => exact Log.shifts_rolled ha (.refl rfl) hnew a.buf
  | rollFailed _ ha h =>
    obtain ⟨b, hb, hid⟩ := h.stops.active
    exact .works ha h.stops.writes (Log.follows_of_id hb hid)
  | @closed a x y log' _ _ h =>
    have hext : log.Extended a.id (log.appendFile a.id x) := .append rfl
    rcases h.log_eq with rfl | rfl
    · exact .works h.active (.appended hext) nofun
    · exact .works h.active (.appended (hext.trans (.sync rfl))) nofun

theorem Stop.shifts (h : Stop log log') : log.Shifts log' := by
  cases h with
  | same => exact .idle rfl rfl
  | moved ha x y => exact .works ha (.appended (.moved _ x y)) (Log.follows_of_id rfl rfl)
  | settled ha => exact .works ha (.appended (.settled log _)) (Log.follows_of_id rfl rfl)
  | rolling ha h =>
    obtain ⟨b, hb, hid⟩ := h.active
    exact .works ha h.writes (Log.follows_of_id hb hid)
  | appending h =>
    cases h with
    | write ha _ x y => exact .works ha (.appended (.moved _ x y)) (Log.follows_of_id rfl rfl)
    | roll h hroll =>
      obtain ⟨b, hb, hid⟩ := hroll.active
      exact .works h.active (hroll.writes.after (.tear _ _ _ _)) (Log.follows_of_id hb hid)

end Files

/-! ## Sealed segments -/

/-- A segment that is no longer written: it is below the active one, or the writer is closed. -/
def Log.Sealed (log : Log) (id : ℕ) : Prop := ∀ a, log.state.active = some a → id < a.id

/-- The segment stays sealed and its bytes stay what they are. -/
def Log.KeepsSealed (log : Log) (id : ℕ) (log' : Log) : Prop :=
  log'.Sealed id ∧ log'.dir[id]?.map SegFile.bytes = log.dir[id]?.map SegFile.bytes

section Sealed

variable {log log' : Log} {id : ℕ}

theorem Log.Writes.bytesAt_of_lt {k : ℕ} (h : log.Writes k log') (hid : id < k) :
    log'.bytesAt id = log.bytesAt id := by
  rcases h.bytesAt_cases id with heq | ⟨rfl, -⟩ | ⟨rfl, -⟩
  · exact heq
  · exact (lt_irrefl _ hid).elim
  · exact (Nat.not_succ_le_self _ (Nat.lt_of_succ_lt hid)).elim

/-- A sealed segment is not changed by any step. -/
theorem Log.Shifts.keepsSealed (h : log.Shifts log') (hid : log.Sealed id) :
    log.KeepsSealed id log' := by
  cases h with
  | idle hbytes hactive => exact ⟨fun a ha ↦ hid a (hactive ▸ ha), congrFun hbytes id⟩
  | @works a ha hwrites hfollows =>
    refine ⟨fun a' ha' ↦ (hid a ha).trans_le ?_, hwrites.bytesAt_of_lt (hid a ha)⟩
    rcases hfollows a' ha' with heq | ⟨heq, -⟩
    · exact heq.ge
    · exact heq ▸ Nat.le_succ _

theorem Sys.keepsSealed {limits : WalLimits} {allowed : Sys → Oracle Op → Action → Prop}
    {s s' : Sys}
    (h : Relation.ReflTransGen (Sys.Next limits allowed) s s') (hid : s.log.Sealed id) :
    s.log.KeepsSealed id s'.log := by
  induction h with
  | refl => exact ⟨hid, rfl⟩
  | @tail s₁ s₂ _ hstep ih =>
    obtain ⟨-, o, act, -, rfl⟩ := hstep
    have hone : s₁.log.KeepsSealed id (s₁.after limits o act).log := by
      rcases s₁.after_cases limits o act with ⟨-, hchange⟩ | ⟨-, -, hstop⟩
      · exact hchange.shifts.keepsSealed ih.1
      · exact hstop.shifts.keepsSealed ih.1
    exact ⟨hone.1, hone.2.trans ih.2⟩

end Sealed

/-- **Append integrity.** In every state of every run in which the ids stay 64-bit numbers, with any
faults: each segment that has been active holds its header, then the appends acknowledged into it in
lock order, then possibly a first part of one append that failed, where what is buffered counts, and
so does what a close that could not drain the buffer has lost. Every acknowledged append is in one
of these segments. Nothing is lost while the writer is open, nor by a close that returns. A segment
below the active one, or of a closed writer, never changes again. -/
theorem segments_hold_acknowledged {limits : WalLimits} {first : ℕ} {s : Sys}
    (hs : s.Reachable limits first idsFit) (halive : s.alive = true) :
    (∃ last tail, first ≤ last ∧
      (∀ a, s.log.state.active = some a → a.id = last ∧ a.buf = tail ∧ s.log.lost = []) ∧
      (s.log.state.active = none → tail = s.log.lost) ∧
      (∀ id, first ≤ id → id ≤ last → ∃ t, s.log.content last tail id =
        some (encodeSegmentHeader id ++ s.log.ackedOf id ++ t) ∧ s.log.Torn id t) ∧
      ∀ e ∈ s.log.acked, first ≤ e.1 ∧ e.1 ≤ last) ∧
    (∀ o t w, s.log.state.active ≠ none → close o ⟨s.log, t⟩ = (.ok (), w) → w.disk.lost = []) ∧
    ∀ s', Relation.ReflTransGen (Sys.Next limits idsFit) s s' → ∀ id, s.log.Sealed id →
      s'.log.dir[id]?.map SegFile.bytes = s.log.dir[id]?.map SegFile.bytes := by
  refine ⟨?_, fun o t w hopen hclose ↦ ?_, fun s' hrun id hid ↦ (Sys.keepsSealed hrun hid).2⟩
  · have hholds : ∀ {last tail}, s.log.Ok first last tail → ∀ id, first ≤ id → id ≤ last → ∃ t,
        s.log.content last tail id =
          some (encodeSegmentHeader id ++ s.log.ackedOf id ++ t) ∧ s.log.Torn id t :=
      fun hok id hfirst hlast ↦ (hok.holds id hfirst hlast).imp fun t ht ↦ ⟨ht.1, ht.2.1⟩
    rcases hs.inv halive with ⟨a, ha, hok, hlost⟩ | ⟨hnone, last, hok⟩
    · refine ⟨a.id, a.buf, hok.first_le, fun a' ha' ↦ ?_, fun hnone ↦ ?_, hholds hok, hok.acked⟩
      · rw [ha, Option.some.injEq] at ha'
        exact ha' ▸ ⟨rfl, rfl, hlost⟩
      · rw [ha] at hnone
        cases hnone
    · refine ⟨last, s.log.lost, hok.first_le, fun a ha ↦ ?_, fun _ ↦ rfl, hholds hok, hok.acked⟩
      rw [ha] at hnone
      cases hnone
  · rcases close_triple.of_ok rfl hclose with ⟨hnone, -⟩ | ⟨a, hcloses⟩
    · exact absurd hnone hopen
    · rcases hcloses.log_eq with hlog | hlog
      · rw [hlog]
        rfl
      · rw [hlog]
        rfl

/-- A run that closes the writer while its buffer cannot be written. -/
private def closedEarly : Sys :=
  (((Sys.fresh.after {} noFault (.append [7])).after {} noFault .stop).after {} noFault
    (.wait false)).after {} (failing .walWrite 0) .close

private theorem closedEarly_reachable : closedEarly.Reachable {} 1 idsFit := by
  have hfresh : Sys.fresh.Reachable {} 1 idsFit := ⟨_, opened_fresh, .refl⟩
  have happend := hfresh.after rfl (idsFit_of_all noFault (.append [7]) (by decide +kernel))
  have hstop := happend.after (by decide +kernel) (idsFit_of_all noFault .stop (by decide +kernel))
  have hwait := hstop.after (by decide +kernel)
    (idsFit_of_all noFault (.wait false) (by decide +kernel))
  exact hwait.after (by decide +kernel) (idsFit_of_all _ _ (by decide +kernel))

/-- An append is acknowledged, the committer is told to stop and exits, the close fails to drain the
buffer, and the segment then holds its header only. -/
theorem close_loses_buffered :
    closedEarly.Reachable {} 1 idsFit ∧ closedEarly.alive = true ∧
      closedEarly.log.acked = [(1, [7])] ∧ closedEarly.log.state.active = none ∧
      closedEarly.log.dir[1]?.map SegFile.bytes = some (encodeSegmentHeader 1) :=
  ⟨closedEarly_reachable, by decide +kernel⟩

/-- In the same run the lost byte is what is missing: the file of segment 1, the only one, followed
by it, is a header and the append acknowledged. -/
theorem segments_hold_acknowledged_closed :
    closedEarly.Reachable {} 1 idsFit ∧ closedEarly.alive = true ∧
      closedEarly.log.lost = [7] ∧ closedEarly.log.ackedOf 1 = [7] ∧
      ∃ t, closedEarly.log.content 1 [7] 1 = some (encodeSegmentHeader 1 ++ [7] ++ t) ∧
        closedEarly.log.Torn 1 t := by
  have halive : closedEarly.alive = true := by decide +kernel
  have hlost : closedEarly.log.lost = [7] := by decide +kernel
  have hacked : closedEarly.log.ackedOf 1 = [7] := by decide +kernel
  obtain ⟨⟨last, tail, hle, -, htail, hholds, -⟩, -⟩ :=
    segments_hold_acknowledged closedEarly_reachable halive
  obtain rfl : tail = [7] := (htail (by decide +kernel)).trans hlost
  obtain ⟨t, hcontent, htorn⟩ := hholds last hle le_rfl
  -- the last segment is there, and segment 1 is all there is
  obtain rfl : last = 1 := by
    obtain ⟨f, hf, -⟩ := Option.map_eq_some_iff.1 hcontent
    have hkeys : closedEarly.log.dir.keys = [1] := by decide +kernel
    have hmem : last ∈ closedEarly.log.dir.keys := Std.ExtTreeMap.mem_keys.2 (mem_of_getElem? hf)
    rw [hkeys] at hmem
    exact List.mem_singleton.1 hmem
  rw [hacked] at hcontent
  exact ⟨closedEarly_reachable, halive, hlost, hacked, t, hcontent, htorn⟩

end Orc
