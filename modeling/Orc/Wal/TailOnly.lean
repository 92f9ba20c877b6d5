import Orc.Wal.Integrity

/-!
# All but the highest segment are durable

Recovery scans only the highest segment for a torn tail. It may do so if everything acknowledged
into a lower one is on disk and synced, at every moment at which the process can stop.

A roll syncs the old segment before it creates the next, so at that point the two agree. If the roll
then fails, the new file stays above the active segment. After a torn frame appends are refused
until a roll succeeds, so the active segment gets no more of them. A roll begun for any other reason
leaves appends accepted, and they go into a segment that is no longer the highest
(`ack_below_leftover`).
-/

namespace Orc

open Bytes Fault

/-- What was acknowledged into the segment is in its file, within the part that is synced. -/
def Log.Synced (log : Log) (id : ℕ) : Prop :=
  ∃ f, log.dir[id]? = some f ∧ log.ackedOf id <+: (f.bytes.take f.synced).drop segmentHeaderBytes

/-- The files that were there still are, and the part of each that is synced has only grown. -/
def Log.Extends (log log' : Log) : Prop :=
  ∀ (id : ℕ) (f : SegFile), log.dir[id]? = some f →
    ∃ f' : SegFile, log'.dir[id]? = some f' ∧ f.bytes.take f.synced <+: f'.bytes.take f'.synced

namespace Log

variable {log log' : Log} {id : ℕ}

theorem Synced.extend (h : log.Synced id) (hacked : log'.acked = log.acked)
    (hext : log.Extends log') : log'.Synced id := by
  obtain ⟨f, hf, hpre⟩ := h
  obtain ⟨f', hf', hgrow⟩ := hext id f hf
  refine ⟨f', hf', ?_⟩
  rw [ackedOf, hacked]
  exact hpre.trans (hgrow.drop _)

protected theorem Extends.refl (log : Log) : log.Extends log :=
  fun _ f hf ↦ ⟨f, hf, List.prefix_rfl⟩

theorem Extends.trans {log'' : Log} (h : log.Extends log') (h' : log'.Extends log'') :
    log.Extends log'' := by
  intro id f hf
  obtain ⟨f', hf', hpre⟩ := h id f hf
  obtain ⟨f'', hf'', hpre'⟩ := h' id f' hf'
  exact ⟨f'', hf'', hpre.trans hpre'⟩

theorem extends_of_updateFile {k : ℕ} {g : SegFile → SegFile}
    (hg : ∀ f, f.bytes.take f.synced <+: (g f).bytes.take (g f).synced)
    (hdir : log'.dir = updateFile k g log.dir) : log.Extends log' := by
  intro id f hf
  rw [hdir, getElem?_updateFile]
  by_cases hid : k = id
  · exact ⟨g f, by rw [if_pos hid, hf]; rfl, hg f⟩
  · exact ⟨f, by rw [if_neg hid, hf], List.prefix_rfl⟩

theorem extends_append {k : ℕ} {x : Bytes}
    (hdir : log'.dir = updateFile k (SegFile.append x) log.dir) : log.Extends log' :=
  extends_of_updateFile (fun f ↦ (List.prefix_append f.bytes x).take _) hdir

theorem extends_sync {k : ℕ} (hdir : log'.dir = updateFile k SegFile.sync log.dir) :
    log.Extends log' :=
  extends_of_updateFile (fun f ↦ by
    rw [SegFile.sync, List.take_length]
    exact List.take_prefix _ _) hdir

theorem extends_settled (log : Log) (a : Active) : log.Extends (log.settled a) :=
  (extends_append rfl).trans (extends_sync rfl)

theorem extends_newFile {k n m : ℕ} (hnew : k ∉ log.dir) : log.Extends (log.newFile k n m) := by
  intro id f hf
  refine ⟨f, ?_, List.prefix_rfl⟩
  have hne : k ≠ id := by
    rintro rfl
    exact hnew (mem_of_getElem? hf)
  rw [newFile, getElem?_insert_of_ne hne, hf]

/-- What a sync of the drained segment covers. -/
theorem segmentBytes_settled {first : ℕ} {a : Active} (h : log.Ok first a.id a.buf) :
    ∃ f, (log.settled a).dir[a.id]? = some f ∧
      log.segmentBytes a.id <+: f.bytes.take f.synced := by
  obtain ⟨t, ht, -⟩ := h.settled.holds a.id h.first_le le_rfl
  rw [content_nil] at ht
  obtain ⟨f, hf, hbytes⟩ := Option.map_eq_some_iff.1 ht
  have hsynced : f.synced = f.bytes.length := by
    change (updateFile a.id SegFile.sync _)[a.id]? = some f at hf
    rw [getElem?_updateFile, if_pos rfl] at hf
    obtain ⟨f', -, rfl⟩ := Option.map_eq_some_iff.1 hf
    rfl
  refine ⟨f, hf, ?_⟩
  rw [hsynced, List.take_length, hbytes]
  exact List.prefix_append _ _

theorem synced_settled {first : ℕ} {a : Active} (h : log.Ok first a.id a.buf) :
    (log.settled a).Synced a.id := by
  obtain ⟨f, hf, hpre⟩ := segmentBytes_settled h
  refine ⟨f, hf, ?_⟩
  have hdrop := hpre.drop segmentHeaderBytes
  rwa [segmentBytes, ← length_encodeSegmentHeader a.id, List.drop_left] at hdrop

end Log

/-! ## The invariant -/

/-- Below the last segment everything is durable, and so it is in the last one if a file of the next
segment is there already. -/
structure Log.Lower (first last : ℕ) (log : Log) : Prop where
  acked : ∀ e ∈ log.acked, first ≤ e.1 ∧ e.1 ≤ last
  active : ∀ a, log.state.active = some a → a.id = last
  top : ∀ id ∈ log.dir, id ≤ last + 1
  below : ∀ id, first ≤ id → id < last → log.Synced id
  leftover : last + 1 ∈ log.dir → log.Synced last

/-- An open writer whose next segment is there already refuses appends. -/
def Log.Refuses (last : ℕ) (log : Log) : Prop :=
  last + 1 ∈ log.dir → log.state.active ≠ none → log.state.needsRoll = true

namespace Log.Lower

variable {first last : ℕ} {log log' : Log} {a : Active}

theorem extend (h : log.Lower first last) (hacked : log'.acked = log.acked)
    (hactive : ∀ a, log'.state.active = some a → a.id = last)
    (hdir : ∀ id ∈ log'.dir, id ∈ log.dir) (hext : log.Extends log') : log'.Lower first last where
  acked := hacked ▸ h.acked
  active := hactive
  top id hid := h.top id (hdir id hid)
  below id hfirst hlast := (h.below id hfirst hlast).extend hacked hext
  leftover hid := (h.leftover (hdir _ hid)).extend hacked hext

theorem moved (h : log.Lower first last) (ha : log.state.active = some a) (x y : Bytes) :
    (log.moved a x y).Lower first last := by
  refine h.extend rfl (fun a' ha' ↦ ?_) (fun id ↦ mem_updateFile.1) (extends_append rfl)
  obtain rfl := Option.some.inj ha'
  exact h.active a ha

theorem settled (h : log.Lower first last) (ha : log.state.active = some a) :
    (log.settled a).Lower first last := by
  refine h.extend rfl (fun a' ha' ↦ ?_) (fun id ↦ (mem_dir_settled log a id).1)
    (extends_settled log a)
  obtain rfl := Option.some.inj ha'
  exact h.active a ha

theorem tear {bytes x y : Bytes} (h : log.Lower first last) (htear : Tears bytes log a x y) :
    (log.tear bytes a x y).Lower first last := by
  have hmoved := h.moved htear.active x y
  exact hmoved.extend rfl hmoved.active (fun _ hid ↦ hid) (.refl _)

theorem created {n k : ℕ} (h : log.Lower first last) (hsynced : log.Synced last)
    (hnew : last + 1 ∉ log.dir) : (log.newFile (last + 1) n k).Lower first last where
  acked := h.acked
  active := h.active
  top id hid := by
    rcases Std.ExtTreeMap.mem_insert.1 hid with heq | hmem
    · exact (Std.LawfulEqCmp.eq_of_compare heq).ge
    · exact h.top id hmem
  below id hfirst hlast := (h.below id hfirst hlast).extend rfl (extends_newFile hnew)
  leftover _ := hsynced.extend rfl (extends_newFile hnew)

private theorem rolled (h : log.Lower first a.id) (hok : log.Ok first a.id a.buf)
    (ha : log.state.active = some a) (hnew : a.id + 1 ∉ log.dir) :
    ((log.rolled a).setNeedsRoll false).Lower first (a.id + 1) ∧
      ((log.rolled a).setNeedsRoll false).Refuses (a.id + 1) := by
  have hcreated : ((log.settled a).newFile (a.id + 1) segmentHeaderBytes segmentHeaderBytes).Lower
      first a.id := (h.settled ha).created (synced_settled hok) (by simpa using hnew)
  have htop : ∀ id ∈ ((log.rolled a).setNeedsRoll false).dir, id ≤ a.id + 1 := hcreated.top
  have hfree : a.id + 1 + 1 ∉ ((log.rolled a).setNeedsRoll false).dir :=
    fun hid ↦ absurd (htop _ hid) (by omega)
  refine ⟨⟨fun e he ↦ ?_, ?_, fun id hid ↦ (htop id hid).trans (Nat.le_succ _),
    fun id hfirst hid ↦ ?_, fun hid ↦ absurd hid hfree⟩, fun hid ↦ absurd hid hfree⟩
  · exact ⟨(h.acked e he).1, Nat.le_succ_of_le (h.acked e he).2⟩
  · rintro a' ha'
    obtain rfl := Option.some.inj ha'
    rfl
  · rcases Nat.lt_succ_iff_lt_or_eq.1 hid with hlt | rfl
    · exact (hcreated.below id hfirst hlt).extend rfl (.refl _)
    · exact (hcreated.leftover (by simp [newFile])).extend rfl (.refl _)

end Log.Lower

section Steps

variable {o : Oracle Op} {act : Action} {first last : ℕ} {a : Active} {log log' : Log}

theorem RollStops.lower (h : RollStops a log log') (hlower : log.Lower first a.id)
    (hok : log.Ok first a.id a.buf) (ha : log.state.active = some a) : log'.Lower first a.id := by
  cases h with
  | drain => exact hlower.moved ha _ _
  | settled => exact hlower.settled ha
  | created hnew =>
    exact (hlower.settled ha).created (Log.synced_settled hok) (by simpa using hnew)

theorem RollFails.refuses (h : RollFails o a log log') (hrefuses : log.Refuses a.id)
    (ha : log.state.active = some a) (hlate : LateFailed o → log.state.needsRoll = true) :
    log'.Refuses a.id := by
  have hopen : log.state.active ≠ none := by simp [ha]
  cases h with
  | drain => exact fun hid _ ↦ hrefuses (mem_updateFile.1 hid) hopen
  | sync => exact fun hid _ ↦ hrefuses (mem_updateFile.1 hid) hopen
  | create => exact fun hid _ ↦ hrefuses ((Log.mem_dir_settled log a _).1 hid) hopen
  | late _ _ _ _ h => exact fun _ _ ↦ hlate h

/-- The condition on a step: a roll begun for another reason than a torn frame does not fail between
creating the next segment and swapping it in. -/
def NoLateFailure (s : Sys) (o : Oracle Op) (act : Action) : Prop :=
  act.rolls = true → s.log.state.needsRoll = false → ¬ LateFailed o

/-- **One step** keeps the lower segments durable. -/
theorem Change.lower (h : Change o act log log') (hinv : log.Inv first)
    (hlower : log.Lower first last) (hrefuses : log.Refuses last)
    (hallowed : act.rolls = true → log.state.needsRoll = false → ¬ LateFailed o) :
    ∃ last', log'.Lower first last' ∧ log'.Refuses last' := by
  have hok : ∀ {a : Active}, log.state.active = some a → log.Ok first a.id a.buf :=
    fun ha ↦ (hinv.ok ha).1
  -- where appends are accepted, the name of the next segment is free
  have hfree : ∀ {a : Active}, log.state.active = some a → log.state.needsRoll = false →
      last + 1 ∉ log.dir := by
    intro a ha hready hid
    rw [hrefuses hid (by simp [ha])] at hready
    cases hready
  have hsame : ∀ {a : Active}, log.state.active = some a → a.id = last := fun ha ↦
    hlower.active _ ha
  cases h with
  | same => exact ⟨last, hlower, hrefuses⟩
  | stopped =>
    exact ⟨last, hlower.extend rfl hlower.active (fun _ hid ↦ hid) (.refl _), hrefuses⟩
  | drained ha =>
    exact ⟨last, hlower.moved ha _ _, fun hid _ ↦ hrefuses (mem_updateFile.1 hid) (by simp [ha])⟩
  | synced k =>
    exact ⟨last, hlower.extend rfl hlower.active (fun _ ↦ mem_updateFile.1) (Log.extends_sync rfl),
      fun hid ↦ hrefuses (mem_updateFile.1 hid)⟩
  | noted ha k =>
    refine ⟨last, hlower.extend rfl ?_ (fun _ hid ↦ hid) (.refl _), fun hid _ ↦
      hrefuses hid (by simp [ha])⟩
    intro a' ha'
    obtain rfl := Option.some.inj ha'
    exact (hsame ha :)
  | @acked bytes x buf a _ _ h =>
    have hnew := hfree h.active h.ready
    obtain rfl := hsame h.active
    rw [h.log_eq]
    have hnew' : a.id + 1 ∉ ((log.appendFile a.id x).ack a buf bytes).dir :=
      fun hid ↦ hnew (mem_updateFile.1 hid)
    have hext : log.Extends ((log.appendFile a.id x).ack a buf bytes) := Log.extends_append rfl
    refine ⟨a.id,
      ⟨?_, ?_, fun id hid ↦ hlower.top id (mem_updateFile.1 hid), fun id hfirst hid ↦ ?_,
      fun hid ↦ absurd hid hnew'⟩, fun hid ↦ absurd hid hnew'⟩
    · intro e he
      rcases List.mem_append.1 he with he | he
      · exact hlower.acked e he
      · rw [List.mem_singleton.1 he]
        exact ⟨(hok h.active).first_le, le_rfl⟩
    · intro a' ha'
      obtain rfl := Option.some.inj ha'
      rfl
    · obtain ⟨f, hf, hpre⟩ := hlower.below id hfirst hid
      obtain ⟨f', hf', hgrow⟩ := hext id f hf
      refine ⟨f', hf', ?_⟩
      rw [Log.ackedOf_ack_of_ne hid.ne]
      exact hpre.trans (hgrow.drop _)
  | failed h =>
    cases h with
    | refused => exact ⟨last, hlower, hrefuses⟩
    | @sealed a x y _ h hnew =>
      obtain rfl := hsame h.active
      have htear : (log.tear _ a x y).Lower first { a with buf := y }.id := hlower.tear h
      exact ⟨_, htear.rolled ((hok h.active).tear h) rfl fun hid ↦ hnew (Log.mem_dir_tear.1 hid)⟩
    | @stuck a x y _ _ h hroll =>
      obtain rfl := hsame h.active
      have htear : (log.tear _ a x y).Lower first { a with buf := y }.id := hlower.tear h
      exact ⟨_, hroll.stops.lower htear ((hok h.active).tear h) rfl,
        hroll.refuses (fun _ _ ↦ rfl) rfl fun _ ↦ rfl⟩
  | @rolled a hact ha hnew =>
    obtain rfl := hsame ha
    exact ⟨_, hlower.rolled (hok ha) ha hnew⟩
  | @rollFailed a _ hact ha h =>
    obtain rfl := hsame ha
    refine ⟨_, h.stops.lower hlower (hok ha) ha, h.refuses hrefuses ha fun hlate ↦ ?_⟩
    by_contra hready
    exact hallowed hact (Bool.eq_false_iff.2 hready) hlate
  | @closed a x y _ _ _ h =>
    refine ⟨last, ?_, fun _ hopen ↦ ?_⟩
    · rcases h.log_eq with rfl | rfl
      · exact hlower.extend rfl (fun _ ha' ↦ (Option.some_ne_none _ ha'.symm).elim)
          (fun _ ↦ mem_updateFile.1) (Log.extends_append rfl)
      · exact hlower.extend rfl (fun _ ha' ↦ (Option.some_ne_none _ ha'.symm).elim)
          (fun _ hid ↦ mem_updateFile.1 (mem_updateFile.1 hid))
          ((Log.extends_append rfl).trans (Log.extends_sync rfl))
    · rcases h.log_eq with rfl | rfl <;> exact absurd rfl hopen

theorem Stop.lower (h : Stop log log') (hinv : log.Inv first) (hlower : log.Lower first last) :
    log'.Lower first last := by
  have hok : ∀ {a : Active}, log.state.active = some a → log.Ok first a.id a.buf ∧ a.id = last :=
    fun ha ↦ ⟨(hinv.ok ha).1, hlower.active _ ha⟩
  cases h with
  | same => exact hlower
  | moved ha x y => exact hlower.moved ha x y
  | settled ha => exact hlower.settled ha
  | rolling ha h =>
    obtain ⟨hok', rfl⟩ := hok ha
    exact h.lower hlower hok' ha
  | appending h =>
    cases h with
    | write ha _ x y => exact hlower.moved ha x y
    | @roll a x y _ h hroll =>
      obtain ⟨hok', rfl⟩ := hok h.active
      have htear : (log.tear _ a x y).Lower first { a with buf := y }.id := hlower.tear h
      exact hroll.lower htear (hok'.tear h) rfl

end Steps

theorem Opened.lower {first : ℕ} {s : Sys} (h : Opened first s) :
    s.log.Lower first first ∧ s.log.Refuses first := by
  obtain ⟨dir, o, t, w, hbelow, hrun, rfl⟩ := h.fresh
  have hlog := (openWriter_triple first).of_ok rfl hrun
  have htop : ∀ id ∈ w.disk.dir, id ≤ first := by
    intro id hid
    rw [hlog] at hid
    rcases Std.ExtTreeMap.mem_insert.1 hid with heq | hmem
    · exact (Std.LawfulEqCmp.eq_of_compare heq).ge
    · exact (hbelow id hmem).le
  have hfree : first + 1 ∉ w.disk.dir := fun hid ↦ absurd (htop _ hid) (by omega)
  refine ⟨⟨fun e he ↦ ?_, fun a ha ↦ ?_, fun id hid ↦ (htop id hid).trans (Nat.le_succ _),
    fun id hfirst hlast ↦ absurd hfirst (not_le.2 hlast), fun hid ↦ absurd hid hfree⟩,
    fun hid ↦ absurd hid hfree⟩
  · rw [hlog] at he
    cases he
  · rw [hlog] at ha
    obtain rfl := Option.some.inj ha
    rfl

/-- **Whole runs** keep the lower segments durable, up to the moment the process stops. -/
theorem Sys.Reachable.lower {limits : WalLimits} {first : ℕ} {s : Sys}
    (h : s.Reachable limits first NoLateFailure) :
    ∃ last, s.log.Lower first last ∧ (s.alive = true → s.log.Refuses last) := by
  obtain ⟨s₀, hopen, hrun⟩ := h
  induction hrun with
  | refl => exact ⟨first, hopen.lower.1, fun _ ↦ hopen.lower.2⟩
  | @tail s₁ s₂ hrun₁ hstep ih =>
    obtain ⟨halive, o, act, hallowed, rfl⟩ := hstep
    obtain ⟨last, hlower, hrefuses⟩ := ih
    have hinv : s₁.log.Inv first := Sys.Reachable.inv ⟨s₀, hopen, hrun₁⟩ halive
    rcases s₁.after_cases limits o act with ⟨-, hchange⟩ | ⟨hdead, -, hstop⟩
    · obtain ⟨last', hlower', hrefuses'⟩ := hchange.lower hinv hlower (hrefuses halive) hallowed
      exact ⟨last', hlower', fun _ ↦ hrefuses'⟩
    · exact ⟨last, hstop.lower hinv hlower, fun h ↦ by rw [hdead] at h; cases h⟩

/-- **The premise of scanning only the tail.** In a run in which the ids stay 64-bit numbers, and no
roll that was begun for another reason than a torn frame fails between creating the next segment and
swapping it in, at every moment, so also when the process has just stopped: everything acknowledged
into a segment other than the highest is in its file and synced. And no append is acknowledged while
a segment above the active one is there. Everything else may fail, and stop, anywhere. -/
theorem lower_segments_durable {limits : WalLimits} {first : ℕ} {s : Sys}
    (hs : s.Reachable limits first fun s o act ↦ NoLateFailure s o act ∧ idsFit s o act) :
    (∀ id ∈ s.log.dir, ∀ id' ∈ s.log.dir, id < id' → s.log.Synced id) ∧
      (s.alive = true → ∀ bytes o t w, appendBytes bytes o ⟨s.log, t⟩ = (.ok (), w) →
        ∀ a, s.log.state.active = some a → ∀ id ∈ s.log.dir, id ≤ a.id) := by
  obtain ⟨last, hlower, hrefuses⟩ := (hs.mono fun _ _ _ ↦ And.left).lower
  refine ⟨fun id hid id' hid' hlt ↦ ?_, fun halive bytes o t w happend a ha id hid ↦ ?_⟩
  · by_cases hfirst : first ≤ id
    · rcases Nat.lt_trichotomy id last with hlast | rfl | hlast
      · exact hlower.below id hfirst hlast
      · have htop := hlower.top id' hid'
        obtain rfl : id' = id + 1 := by omega
        exact hlower.leftover hid'
      · have htop := hlower.top id' hid'
        omega
    · -- a segment from before the writer was opened has nothing acknowledged by it
      obtain ⟨f, hf⟩ := Option.isSome_iff_exists.1 (Std.ExtTreeMap.isSome_getElem?_iff_mem.2 hid)
      have hnone : s.log.acked.filter (fun e ↦ e.1 = id) = [] := by
        rw [List.filter_eq_nil_iff]
        intro e he hid'
        exact hfirst (of_decide_eq_true hid' ▸ (hlower.acked e he).1)
      refine ⟨f, hf, ?_⟩
      rw [Log.ackedOf, hnone]
      exact List.nil_prefix
  · obtain ⟨a', x, buf, hacks⟩ := (appendBytes_triple bytes).of_ok rfl happend
    obtain rfl := hlower.active a ha
    have hready : a.id + 1 ∉ s.log.dir := fun hid' ↦ by
      have hneeds := hrefuses halive hid' (by simp [ha])
      rw [hacks.ready] at hneeds
      cases hneeds
    have htop := hlower.top id hid
    rcases Nat.lt_or_eq_of_le htop with hlt | rfl
    · exact Nat.le_of_lt_succ hlt
    · exact absurd hid hready

/-- One append, then a seal with the faults given. -/
def Sys.sealedAfter (o : Oracle Op) : Sys :=
  (Sys.fresh.after {} noFault (.append [7])).after {} o .sealSegment

theorem Sys.sealedAfter_reachable {o : Oracle Op} {allowed : Sys → Oracle Op → Action → Prop}
    (hrest : ∀ s act, idsFit s noFault act → allowed s noFault act)
    (hseal : ∀ s, idsFit s o .sealSegment → allowed s o .sealSegment)
    (halive : (Sys.sealedAfter o).alive = true)
    (hfit : (Sys.sealedAfter o).log.state.active.all (fun a ↦ a.id < u64Max) = true)
    (bytes : Bytes) :
    ((Sys.sealedAfter o).after {} noFault (.append bytes)).Reachable {} 1 allowed := by
  have hfresh : Sys.fresh.Reachable {} 1 allowed := ⟨_, opened_fresh, .refl⟩
  have happend := hfresh.after rfl
    (hrest _ (.append [7]) (idsFit_of_all _ _ (by decide +kernel)))
  have hsealed := happend.after (by decide +kernel)
    (hseal _ (idsFit_of_all _ _ (by decide +kernel)))
  exact hsealed.after halive (hrest _ _ (idsFit_of_all _ _ hfit))

/-- A segment sealed before the next append. -/
theorem lower_segments_durable_sealed :
    ((Sys.sealedAfter noFault).after {} noFault (.append [8])).log.Synced 1 := by
  have hlate : ¬ LateFailed noFault := by
    rintro (⟨t, n, h⟩ | ⟨t, n, h⟩ | ⟨t, n, h⟩ | ⟨t, n, h⟩) <;> cases h
  have hs : ((Sys.sealedAfter noFault).after {} noFault (.append [8])).Reachable {} 1
      fun s o act ↦ NoLateFailure s o act ∧ idsFit s o act :=
    Sys.sealedAfter_reachable (fun _ _ hfit ↦ ⟨fun _ _ ↦ hlate, hfit⟩)
      (fun _ hfit ↦ ⟨fun _ _ ↦ hlate, hfit⟩) (by decide +kernel) (by decide +kernel) [8]
  exact (lower_segments_durable hs).1 1 (by decide +kernel) 2 (by decide +kernel) (by decide)

/-- A seal fails in the fsync of the new segment. The next append is acknowledged into segment 1,
where it is not synced, although the file of segment 2 is there. -/
theorem ack_below_leftover :
    let s := (Sys.sealedAfter (failing .segmentSync 0)).after {} noFault (.append [8])
    s.Reachable {} 1 idsFit ∧ s.log.acked = [(1, [7]), (1, [8])] ∧ 1 ∈ s.log.dir ∧ 2 ∈ s.log.dir ∧
      ¬ s.log.Synced 1 := by
  refine ⟨Sys.sealedAfter_reachable (fun _ _ ↦ id) (fun _ ↦ id) (by decide +kernel)
    (by decide +kernel) [8], by decide +kernel, by decide +kernel, by decide +kernel, ?_⟩
  rintro ⟨f, hf, hpre⟩
  have hfile :
    ((Sys.sealedAfter (failing .segmentSync 0)).after {} noFault (.append [8])).log.dir[1]? =
      some ⟨encodeSegmentHeader 1 ++ [7], segmentHeaderBytes + 1⟩ := by decide +kernel
  rw [hfile, Option.some.injEq] at hf
  subst hf
  exact absurd hpre (by decide +kernel)

end Orc
