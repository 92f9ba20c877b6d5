import Mathlib.Algebra.Group.Prod
import Orc.Flush.MemKeys
import Orc.Flush.Parts

/-!
# What the first phase of a flush gathers

The records of the segments consumed are in the batch or in spilled runs. Every spill sorts what the
batch holds and drops duplicates within it, so what is on disk and in memory is not all that was
accepted; but it stands for all of it (`Split`): for each group, the normal form of what is left is
that of what was accepted, and what was dropped is counted.

Where a budget makes the batch spill does not enter `Split`. A spill comes between two segments and
is decided by the bytes held, so it depends on the config and the sizes of the frames; none of this
may show in the files. The field `same` therefore has to survive more records being added later,
also to a group of which a part has been normalised already, and it is stated for every
continuation.

## The invariant

`Gathering` is the relation between what has been passed and what is in hand: which segments were
consumed, which were moved aside, and a `Split` of what the former contributed. The walk over the
segments is not repeated here. `Gathered.Phase.triple` makes the induction, and `Gathering` supplies
its premises, one for each thing that can happen at a segment. The phase may stop early, at a
segment that it can neither read nor move aside; what it has gathered until then is flushed, so the
result speaks of the segments consumed and not of those given.
-/

namespace Orc

open Bytes Fault Order

/-! ## The frames accepted -/

/-- The bytes of a segment's file. -/
def segmentBytesIn (wal : Std.ExtTreeMap ℕ SegFile) (id : ℕ) : Bytes :=
  wal[id]?.elim [] SegFile.bytes

/-- Segments with a header that parses. -/
def readable (wal : Std.ExtTreeMap ℕ SegFile) (ids : List ℕ) : List ℕ :=
  ids.filter fun id ↦ (parseSegmentHeader (segmentBytesIn wal id)).isOk

/-- The frames that segments contribute to a flush, in the order of their arrival. -/
def acceptedIn (crc : Bytes → UInt32) (m : Manifest) (wal : Std.ExtTreeMap ℕ SegFile)
    (ids : List ℕ) : List Accepted :=
  ids.flatMap fun id ↦ accepted crc m id (segmentBytesIn wal id)

/-- How many frames of a segment are rejected, and how many of its bytes are skipped. -/
def segmentCounts (crc : Bytes → UInt32) (m : Manifest) (buf : Bytes) : ℕ × ℕ :=
  match parseSegmentHeader buf with
  | .error _ => (0, buf.length)
  | .ok _ => ((refused buf (pieces crc m buf)).length,
      (((pieces crc m buf).filter fun p ↦ p.fate = .tail).map Piece.len).sum)

/-- The same for several segments. -/
def countsIn (crc : Bytes → UInt32) (m : Manifest) (wal : Std.ExtTreeMap ℕ SegFile)
    (ids : List ℕ) : ℕ × ℕ :=
  (ids.map fun id ↦ segmentCounts crc m (segmentBytesIn wal id)).sum

/-- A frame as a batch holds it. -/
def Accepted.grouped (a : Accepted) : GroupKey × Head := (a.group, a.head)

section Accepted

variable {crc : Bytes → UInt32} {m : Manifest} {wal : Std.ExtTreeMap ℕ SegFile} {ids : List ℕ}

private theorem acceptedIn_append (ids' : List ℕ) :
    acceptedIn crc m wal (ids ++ ids') = acceptedIn crc m wal ids ++ acceptedIn crc m wal ids' :=
  List.flatMap_append

theorem acceptedIn_sound {a : Accepted} (ha : a ∈ acceptedIn crc m wal ids) : a.Sound crc m := by
  obtain ⟨id, -, hid⟩ := List.mem_flatMap.1 ha
  exact accepted_sound hid

/-- Frames that arrived at the same place are the same. -/
theorem eq_of_arrival_eq {a b : Accepted} (ha : a ∈ acceptedIn crc m wal ids)
    (hb : b ∈ acceptedIn crc m wal ids) (h : a.arrival = b.arrival) : a = b := by
  obtain ⟨id, -, ha⟩ := List.mem_flatMap.1 ha
  obtain ⟨id', -, hb⟩ := List.mem_flatMap.1 hb
  obtain rfl : id = id' := by
    rw [← accepted_arrivals.1 a ha, ← accepted_arrivals.1 b hb, h]
  have hnodup : ((accepted crc m id (segmentBytesIn wal id)).map fun x ↦ x.arrival.2).Nodup :=
    List.pairwise_map.2 (accepted_arrivals.2.imp Nat.ne_of_lt)
  exact List.inj_on_of_nodup_map hnodup ha hb (congrArg Prod.snd h)

/-- So the records of a flush are told apart by their arrival. -/
theorem distinct_acceptedIn :
    Batch.Distinct ((acceptedIn crc m wal ids).map Accepted.grouped) := by
  intro p hp q hq _ hrank
  obtain ⟨a, ha, rfl⟩ := List.mem_map.1 hp
  obtain ⟨b, hb, rfl⟩ := List.mem_map.1 hq
  have harrival : a.arrival = b.arrival := toLex.injective hrank
  rw [eq_of_arrival_eq ha hb harrival]

end Accepted

/-! ## Records of a group -/

/-- The records of one group among sources. -/
def recordsOf (g : GroupKey) (srcs : List (GroupKey × List Head)) : List Head :=
  (srcs.filter fun s ↦ s.1 = g).flatMap Prod.snd

theorem recordsOf_append (g : GroupKey) (srcs srcs' : List (GroupKey × List Head)) :
    recordsOf g (srcs ++ srcs') = recordsOf g srcs ++ recordsOf g srcs' := by
  rw [recordsOf, List.filter_append, List.flatMap_append]
  rfl

theorem mem_recordsOf {g : GroupKey} {srcs : List (GroupKey × List Head)} {h : Head} :
    h ∈ recordsOf g srcs ↔ ∃ rs, (g, rs) ∈ srcs ∧ h ∈ rs := by
  simp only [recordsOf, List.mem_flatMap, List.mem_filter, decide_eq_true_eq]
  constructor
  · rintro ⟨⟨g', rs⟩, ⟨hmem, rfl⟩, hh⟩
    exact ⟨rs, hmem, hh⟩
  · rintro ⟨rs, hmem, hh⟩
    exact ⟨(g, rs), ⟨hmem, rfl⟩, hh⟩

/-- Where every group has one source, its records are found by a lookup. -/
theorem recordsOf_eq_lookup {srcs : List (GroupKey × List Head)}
    (hnodup : (srcs.map Prod.fst).Nodup)
    (g : GroupKey) : recordsOf g srcs = (srcs.lookup g).getD [] := by
  induction srcs with
  | nil => rfl
  | cons s srcs ih =>
    obtain ⟨g', rs⟩ := s
    rw [List.map_cons, List.nodup_cons] at hnodup
    by_cases hg : g' = g
    · subst hg
      have hnone : srcs.filter (fun s ↦ s.1 = g') = [] := by
        rw [List.filter_eq_nil_iff]
        intro s hs heq
        exact hnodup.1 (List.mem_map.2 ⟨s, hs, of_decide_eq_true heq⟩)
      rw [recordsOf, List.filter_cons_of_pos (by simp), hnone, List.lookup_cons_self]
      simp
    · rw [recordsOf, List.filter_cons_of_neg (by simpa using hg), ← recordsOf, ih hnodup.2,
        List.lookup_cons, beq_false_of_ne (Ne.symm hg)]

theorem SourcesOf.nodup {hs : List (GroupKey × Head)} {srcs : List (GroupKey × List Head)}
    (h : SourcesOf hs srcs) : (srcs.map Prod.fst).Nodup :=
  h.keys.imp fun hlt ↦ ne_of_apply_ne GroupKey.ord hlt.ne

theorem SourcesOf.recordsOf_eq {hs : List (GroupKey × Head)} {srcs : List (GroupKey × List Head)}
    (h : SourcesOf hs srcs) (g : GroupKey) :
    recordsOf g srcs = canon Head.key Head.rank (ofGroup g hs) := by
  rw [recordsOf_eq_lookup h.nodup]
  cases hlook : srcs.lookup g with
  | none =>
    rw [Option.getD_none]
    by_contra hne
    have hmem := (h.mem_iff g _).2 ⟨Ne.symm hne, rfl⟩
    have := List.lookup_eq_none_iff.1 hlook _ hmem
    simp at this
  | some rs =>
    obtain ⟨front, back, rfl, -⟩ := List.lookup_eq_some_iff.1 hlook
    exact ((h.mem_iff g rs).1 (by simp)).2

/-! ## What stands for all records -/

/-- The records `srcs` that have been sorted and the records `mem` that have not, `dropped` having
been dropped, stand for `all`. -/
structure Split (all : List (GroupKey × Head)) (srcs : List (GroupKey × List Head))
    (mem : List (GroupKey × Head)) (dropped : ℕ) : Prop where
  sub : ∀ g, ∀ h ∈ recordsOf g srcs ++ ofGroup g mem, (g, h) ∈ all
  same : ∀ g more, Ranked Head.key Head.rank (ofGroup g all ++ more) →
    canon Head.key Head.rank (recordsOf g srcs ++ ofGroup g mem ++ more) =
      canon Head.key Head.rank (ofGroup g all ++ more)
  count : dropped + (srcs.flatMap Prod.snd).length + mem.length = all.length
  sorted : ∀ s ∈ srcs, s.2 ≠ [] ∧ s.2.Pairwise fun x y ↦ x.key < y.key

namespace Split

variable {all mem : List (GroupKey × Head)} {srcs srcs' : List (GroupKey × List Head)}
  {dropped dropped' : ℕ}

private theorem empty : Split [] [] [] 0 :=
  ⟨by simp [recordsOf, ofGroup], fun _ _ _ ↦ rfl, rfl, by simp⟩

private theorem ofGroup_append (g : GroupKey) (hs hs' : List (GroupKey × Head)) :
    ofGroup g (hs ++ hs') = ofGroup g hs ++ ofGroup g hs' := by
  rw [ofGroup, List.filter_append, List.map_append]
  rfl

private theorem push (h : Split all srcs mem dropped) (new : List (GroupKey × Head)) :
    Split (all ++ new) srcs (mem ++ new) dropped where
  sub g x hx := by
    rw [ofGroup_append, ← List.append_assoc, List.mem_append] at hx
    rw [List.mem_append]
    exact hx.imp (h.sub g x) mem_ofGroup.1
  same g more hranked := by
    rw [ofGroup_append] at hranked ⊢
    rw [ofGroup_append, ← List.append_assoc, List.append_assoc _ _ more, List.append_assoc _ _ more]
    rw [List.append_assoc] at hranked
    exact h.same g _ hranked
  count := by
    have hcount := h.count
    simp only [List.length_append]
    omega
  sorted := h.sorted

private theorem spill (h : Split all srcs mem dropped) (hsources : SourcesOf mem srcs')
    (hcount : dropped' + (srcs'.flatMap Prod.snd).length = dropped + mem.length) :
    Split all (srcs ++ srcs') [] dropped' where
  sub g x hx := by
    rw [recordsOf_append, hsources.recordsOf_eq, List.mem_append, List.mem_append] at hx
    rcases hx with (hx | hx) | hx
    · exact h.sub g x (List.mem_append_left _ hx)
    · exact h.sub g x (List.mem_append_right _ (mem_of_mem_canon _ _ hx))
    · simp [ofGroup] at hx
  same g more hranked := by
    have hsub : ∀ x ∈ ofGroup g mem ++ (recordsOf g srcs ++ more), x ∈ ofGroup g all ++ more := by
      intro x hx
      rw [List.mem_append, List.mem_append] at hx
      rw [List.mem_append, mem_ofGroup]
      rcases hx with hx | hx | hx
      · exact .inl (h.sub g x (List.mem_append_right _ hx))
      · exact .inl (h.sub g x (List.mem_append_left _ hx))
      · exact .inr hx
    have hranked' := hranked.mono hsub
    rw [recordsOf_append, hsources.recordsOf_eq, ← h.same g more hranked]
    calc canon Head.key Head.rank (recordsOf g srcs ++ canon Head.key Head.rank (ofGroup g mem) ++
          ofGroup g [] ++ more)
        = canon Head.key Head.rank (canon Head.key Head.rank (ofGroup g mem) ++
            (recordsOf g srcs ++ more)) := by
          refine canon_congr (hranked'.mono fun x hx ↦ ?_) fun x ↦ ?_
          · rw [List.mem_append] at hx ⊢
            exact hx.imp_left (mem_of_mem_canon _ _)
          · simp only [ofGroup, List.filter_nil, List.map_nil, List.append_nil, List.mem_append]
            tauto
      _ = canon Head.key Head.rank (ofGroup g mem ++ (recordsOf g srcs ++ more)) :=
          canon_append_canon hranked'
      _ = canon Head.key Head.rank (recordsOf g srcs ++ ofGroup g mem ++ more) := by
          refine (canon_congr hranked' fun x ↦ ?_).symm
          simp only [List.mem_append]
          tauto
  count := by
    have hall := h.count
    rw [List.flatMap_append, List.length_append, List.length_nil]
    omega
  sorted s hs := by
    rcases List.mem_append.1 hs with hs | hs
    · exact h.sorted s hs
    · obtain ⟨g, rs⟩ := s
      obtain ⟨hne, heq⟩ := (hsources.mem_iff g rs).1 hs
      exact ⟨hne, heq ▸ pairwise_canon _ _ _⟩

/-- **The normal form of a group** is that of its records on disk and in memory. -/
theorem canon_eq (h : Split all srcs [] dropped) (hdistinct : Batch.Distinct all) (g : GroupKey) :
    canon Head.key Head.rank (recordsOf g srcs) = canon Head.key Head.rank (ofGroup g all) := by
  have hsame := h.same g [] (by rw [List.append_nil]; exact hdistinct.ofGroup g)
  simpa [ofGroup] using hsame

end Split

/-! ## Spilled runs -/

/-- The runs on record: the group, the number and the records of each. -/
structure Spill.Holds (runs : Std.ExtTreeMap ℕ Bytes) (s : Spill)
    (rs : List (GroupKey × ℕ × List Head)) : Prop where
  groups : s.groups = rs.map fun r ↦ (r.1, r.2.1)
  numbers : rs.map (fun r ↦ r.2.1) = List.range' 1 s.next
  files : ∀ r ∈ rs, runs[r.2.1]? = some (runBytes r.2.2)

namespace Spill

variable {runs runs' : Std.ExtTreeMap ℕ Bytes} {s : Spill} {rs : List (GroupKey × ℕ × List Head)}

theorem Holds.number_le (h : s.Holds runs rs) {r : GroupKey × ℕ × List Head} (hr : r ∈ rs) :
    r.2.1 ≤ s.next := by
  have hmem := List.mem_map_of_mem (f := fun r : GroupKey × ℕ × List Head ↦ r.2.1) hr
  rw [h.numbers, List.mem_range'_1] at hmem
  omega

theorem Holds.add (h : s.Holds runs rs) {hs : List Head} (g : GroupKey)
    (hwrites : WritesRun runs (s.next + 1) hs runs') :
    Spill.Holds runs' ⟨s.next + 1, s.groups ++ [(g, s.next + 1)]⟩
      (rs ++ [(g, s.next + 1, hs)]) := by
  refine ⟨?_, ?_, ?_⟩
  · rw [h.groups, List.map_append]
    rfl
  · rw [List.map_append, h.numbers, List.range'_1_concat, Nat.add_comm]
    rfl
  · rw [List.forall_mem_append, List.forall_mem_singleton]
    refine ⟨fun r hr ↦ ?_, hwrites.file⟩
    rw [hwrites.others _ (by have := h.number_le hr; omega)]
    exact h.files r hr

section Triples

variable {o : Oracle Op} {J P : Disk → Prop} {E : Error → Disk → Prop} {C : Disk → Prop}

theorem writeRun_triple (hP : IgnoresRuns P) (hx : Exits Op.onFiles o J ioError E C)
    (hJ : ∀ d, P d → J d) (base : Std.ExtTreeMap ℕ Bytes) (run : ℕ) (hs : List Head) :
    Triple o (fun d ↦ P d ∧ d.runs = base) (writeRun run hs)
      (fun _ d ↦ P d ∧ WritesRun base run hs d.runs) E C := by
  have hloop : Triple o (fun d ↦ P d ∧ WritesRun base run [] d.runs)
      (hs.forM fun h ↦ RunWriter.push run h.arrival h.frame)
      (fun _ d ↦ P d ∧ WritesRun base run hs d.runs) E C := by
    refine (Triple.forM (I := fun left d ↦ ∃ done, done ++ left = hs ∧ P d ∧
      WritesRun base run done d.runs) (fun h left ↦ .intro ?_) hs).conseq ?_ ?_ (fun _ _ ↦ id)
      fun _ ↦ id
    · rintro d ⟨done, hsplit, hd⟩
      refine ((WritesRun.push_triple hP hx hJ base run done h).pre ?_).post ?_
      · rintro d' rfl
        exact hd
      · exact fun _ d' hd' ↦ ⟨done ++ [h], by rw [List.append_assoc]; exact hsplit, hd'⟩
    · exact fun d hd ↦ ⟨[], rfl, hd⟩
    · rintro _ d ⟨done, hsplit, hd⟩
      rw [List.append_nil] at hsplit
      exact hsplit ▸ hd
  exact .bind (WritesRun.create_triple hP hx hJ base run) fun _ ↦ .bind hloop fun _ ↦
    RunWriter.finish_triple hx fun d hd ↦ hJ d hd.1

theorem writeRuns_triple (hP : IgnoresRuns P) (hx : Exits Op.onFiles o J ioError E C)
    (hJ : ∀ d, P d → J d)
    (srcs : List (GroupKey × List Head)) (s : Spill) (rs : List (GroupKey × ℕ × List Head)) :
    Triple o (fun d ↦ P d ∧ s.Holds d.runs rs) (s.writeRuns srcs)
      (fun s' d ↦ P d ∧ ∃ rs', s'.Holds d.runs (rs ++ rs') ∧
        rs'.map (fun r ↦ (r.1, r.2.2)) = srcs) E C := by
  induction srcs generalizing s rs with
  | nil => exact .ret fun d hd ↦ ⟨hd.1, [], by rw [List.append_nil]; exact hd.2, rfl⟩
  | cons src srcs ih =>
    obtain ⟨g, hs⟩ := src
    rw [writeRuns]
    refine .intro ?_
    rintro d₁ ⟨hd₁, hholds⟩
    refine .bind ((writeRun_triple hP hx hJ d₁.runs (s.next + 1) hs).pre ?_) fun _ ↦
      ((ih ⟨s.next + 1, s.groups ++ [(g, s.next + 1)]⟩
        (rs ++ [(g, s.next + 1, hs)])).pre ?_).post ?_
    · rintro d rfl
      exact ⟨hd₁, rfl⟩
    · rintro d ⟨hd, hwrites⟩
      exact ⟨hd, hholds.add g hwrites⟩
    · rintro s' d ⟨hd, rs', hholds', hsrcs⟩
      refine ⟨hd, (g, s.next + 1, hs) :: rs', ?_, by rw [List.map_cons, hsrcs]⟩
      rw [List.append_cons]
      exact hholds'

/-- **A spill** leaves the sources of the sorted batch in runs. -/
theorem spill_triple (hP : IgnoresRuns P) (hx : Exits Op.onFiles o J ioError E C)
    (hJ : ∀ d, P d → J d) (s : Spill) (b : Batch) (rs : List (GroupKey × ℕ × List Head)) :
    Triple o (fun d ↦ P d ∧ s.Holds d.runs rs) (s.spill b)
      (fun r d ↦ P d ∧ r.2 = { deduplicated := b.sort.deduplicated } ∧
        ∃ rs', r.1.Holds d.runs (rs ++ rs') ∧
          rs'.map (fun r ↦ (r.1, r.2.2)) = b.sort.sources) E C :=
  .bind (Io.touch_exits hx fun d hd ↦ hJ d hd.1) fun _ ↦
    .bind (writeRuns_triple hP hx hJ b.sort.sources s rs) fun _ ↦ .ret fun _ hd ↦ ⟨hd.1, rfl, hd.2⟩

end Triples

end Spill

/-! ## The first phase -/

private theorem decodeSegment_counts {o : Oracle Op} (crc : Bytes → UInt32) (id : ℕ) (buf : Bytes)
    (m : Manifest) (rejects : RejectSink) (batch : Batch) :
    Triple o (fun _ ↦ True) (decodeSegment crc id buf m rejects batch)
      (fun s _ ↦ (s.out.framesRejected, s.out.bytesSkipped) = segmentCounts crc m buf)
      (fun _ _ ↦ True) (fun _ ↦ True) := by
  cases hheader : parseSegmentHeader buf with
  | error e =>
    have hnew : SegmentReader.new buf buf.length = .error e := by
      rw [SegmentReader.new, hheader]
      rfl
    have hquarantine : Keeps o (fun _ ↦ True) (quarantineSegment id) :=
      (Keeps.op fun _ _ _ _ _ ↦ trivial).bind fun _ ↦ Io.touch_keeps _
    rw [decodeSegment, hnew, segmentCounts, hheader]
    exact .bind hquarantine.attempt_triple fun _ ↦ .ret fun _ _ ↦ rfl
  | ok segment =>
    obtain ⟨schemas, touched, hdecode⟩ := decodeSegment_eq crc m id hheader
    rw [hdecode, segmentCounts, hheader]
    refine .bind (Q := fun _ _ ↦ True) (Keeps.foldlM (fun s b ↦ ?_) _ _) fun _ ↦
      .ret fun _ _ ↦ Prod.ext (Nat.zero_add _) (Nat.zero_add _)
    exact (s.append_triple (fun _ _ hd ↦ hd) b).exits (fun _ _ ↦ False.elim) fun _ hd ↦ hd

/-- A predicate that does not look at the segments. -/
def IgnoresWal (P : Disk → Prop) : Prop := ∀ d w c, P d → P { d with wal := w, corrupt := c }

/-- The frames rejected and the bytes skipped so far. -/
def Gathered.counts (g : Gathered) : ℕ × ℕ := (g.framesRejected, g.bytesSkipped)

/-- What the segments decoded so far have given stands for the frames accepted from those
consumed. -/
structure Gathered.Holds (crc : Bytes → UInt32) (m : Manifest) (wal : Std.ExtTreeMap ℕ SegFile)
    (runs : Std.ExtTreeMap ℕ Bytes) (g : Gathered) : Prop where
  ok : g.batch.Ok
  records : ∃ rs, g.spill.Holds runs rs ∧
    Split ((acceptedIn crc m wal g.consumed).map Accepted.grouped) (rs.map fun r ↦ (r.1, r.2.2))
      g.batch.heads g.batch.deduplicated
  rows : g.rowsDecoded = (acceptedIn crc m wal g.consumed).length
  /-- The schemas on record are the manifest's, and that of every frame is there. -/
  schemas : ∀ k keys, g.schemas.lookup k = some keys → keys = (m.schema k.1 k.2).getD []
  covered : ∀ a ∈ acceptedIn crc m wal g.consumed, (g.schemas.lookup a.group).isSome

namespace Gathered.Holds

variable {crc : Bytes → UInt32} {m : Manifest} {wal : Std.ExtTreeMap ℕ SegFile}
  {runs runs' : Std.ExtTreeMap ℕ Bytes} {g : Gathered}

theorem start (rejects : RejectSink) : Gathered.Holds crc m wal runs { rejects } where
  ok := Batch.ok_empty
  records := ⟨[], ⟨rfl, rfl, by simp⟩, .empty⟩
  rows := rfl
  schemas := by simp
  covered := by simp [acceptedIn]

theorem distinct_heads (h : g.Holds crc m wal runs) : Batch.Distinct g.batch.heads := by
  obtain ⟨rs, -, hsplit⟩ := h.records
  refine distinct_acceptedIn.mono (m := (acceptedIn crc m wal g.consumed).map Accepted.grouped) ?_
  rintro ⟨k, x⟩ hx
  exact hsplit.sub k x (List.mem_append_right _ (mem_ofGroup.2 hx))

/-- What stands for the frames once the batch is sorted. -/
theorem split_sort (h : g.Holds crc m wal runs) {all : List (GroupKey × Head)}
    {srcs : List (GroupKey × List Head)}
    (hsplit : Split all srcs g.batch.heads g.batch.deduplicated) :
    Split all (srcs ++ g.batch.sort.sources) [] g.batch.sort.deduplicated := by
  refine hsplit.spill (Batch.sources_sort h.ok h.distinct_heads) ?_
  rw [← Batch.deduplicated_sort, Batch.length_sources]

private theorem consume (h : g.Holds crc m wal runs) {id : ℕ} {r : DecodeState}
    (hr : DecodesTo m id (segmentBytesIn wal id) g.batch
      (segmentItems crc m (segmentBytesIn wal id)) r) :
    ((g.tally r).consume id r.out).Holds crc m wal runs := by
  have hall : acceptedIn crc m wal (g.consumed ++ [id]) =
      acceptedIn crc m wal g.consumed ++ accepted crc m id (segmentBytesIn wal id) := by
    rw [acceptedIn_append, acceptedIn, acceptedIn, List.flatMap_singleton]
  obtain ⟨rs, hspill, hsplit⟩ := h.records
  refine ⟨hr.ok, ⟨rs, hspill, ?_⟩, ?_, ?_, ?_⟩
  · have hpush := hsplit.push ((accepted crc m id (segmentBytesIn wal id)).map Accepted.grouped)
    rw [← List.map_append, ← hall] at hpush
    change Split ((acceptedIn crc m wal (g.consumed ++ [id])).map _) _ r.batch.heads
      r.batch.deduplicated
    rw [hr.heads, hr.deduplicated]
    exact hpush
  · change g.rowsDecoded + r.out.rows = (acceptedIn crc m wal (g.consumed ++ [id])).length
    rw [hall, List.length_append, h.rows, hr.rows]
    rfl
  · intro k keys hk
    change (r.out.schemas ++ g.schemas).lookup k = some keys at hk
    rw [List.lookup_append, Option.or_eq_some_iff] at hk
    exact hk.elim (hr.schemas k keys) fun hk ↦ h.schemas k keys hk.2
  · intro a ha
    change a ∈ acceptedIn crc m wal (g.consumed ++ [id]) at ha
    change ((r.out.schemas ++ g.schemas).lookup a.group).isSome
    rw [hall, List.mem_append] at ha
    rw [List.lookup_append, Option.isSome_or, Bool.or_eq_true]
    exact ha.symm.imp (hr.covered a) (h.covered a)

private theorem skip (h : g.Holds crc m wal runs) {r : DecodeState} (hbatch : r.batch = g.batch) :
    (g.tally r).Holds crc m wal runs := by
  refine ⟨?_, ?_, h.rows, h.schemas, h.covered⟩
  · change r.batch.Ok
    rw [hbatch]
    exact h.ok
  · change ∃ rs, g.spill.Holds runs rs ∧ Split _ _ r.batch.heads r.batch.deduplicated
    rw [hbatch]
    exact h.records

variable {o : Oracle Op} {J P : Disk → Prop} {E : Error → Disk → Prop} {C : Disk → Prop}

theorem relieve_triple (crc : Bytes → UInt32) (m : Manifest) (wal : Std.ExtTreeMap ℕ SegFile)
    (hP : IgnoresRuns P) (hx : Exits Op.onFiles o J ioError E C) (hJ : ∀ d, P d → J d)
    (g : Gathered)
    (budget : ℕ) (rest : List ℕ) :
    Triple o (fun d ↦ P d ∧ g.Holds crc m wal d.runs) (g.relieve budget rest)
      (fun g' d ↦ P d ∧ g'.Holds crc m wal d.runs ∧ g'.consumed = g.consumed ∧
        g'.counts = g.counts) E C := by
  unfold Gathered.relieve
  split_ifs
  · refine .intro ?_
    rintro d₁ ⟨hd₁, hg⟩
    obtain ⟨rs, hspill, hsplit⟩ := hg.records
    refine .bind ((Spill.spill_triple hP hx hJ g.spill g.batch rs).pre ?_) fun r ↦ .ret ?_
    · rintro d rfl
      exact ⟨hd₁, hspill⟩
    · rintro d ⟨hd, hbatch, rs', hspill', hsources⟩
      refine ⟨hd, ⟨?_, ⟨rs ++ rs', hspill', ?_⟩, hg.rows, hg.schemas, hg.covered⟩, rfl, rfl⟩
      · rw [hbatch]
        exact ⟨List.nodup_nil, by simp, by simp, by simp⟩
      · rw [List.map_append, hsources, hbatch]
        exact hg.split_sort hsplit
  · exact .ret fun d hd ↦ ⟨hd.1, hd.2, rfl, rfl⟩

/-- The first of the segments `ids` have been read, all of them unless something failed. -/
def Took (crc : Bytes → UInt32) (m : Manifest) (wal : Std.ExtTreeMap ℕ SegFile) (o : Oracle Op)
    (ids : List ℕ) (g g' : Gathered) : Prop :=
  ∃ taken, taken <+: ids ∧ g'.consumed = g.consumed ++ readable wal taken ∧
    g'.counts = g.counts + countsIn crc m wal taken ∧ (taken = ids ∨ FailsOn Op.onFiles o)

/-- The segments `taken` have been read since `g`. -/
def Passed (crc : Bytes → UInt32) (m : Manifest) (wal : Std.ExtTreeMap ℕ SegFile) (taken : List ℕ)
    (g g' : Gathered) : Prop :=
  g'.consumed = g.consumed ++ readable wal taken ∧
    g'.counts = g.counts + countsIn crc m wal taken

theorem Passed.snoc {taken : List ℕ} {id : ℕ} {g₁ g' : Gathered}
    (h : Passed crc m wal taken g g₁) (hconsumed : g'.consumed = g₁.consumed ++ readable wal [id])
    (hcounts : g'.counts = g₁.counts + segmentCounts crc m (segmentBytesIn wal id)) :
    Passed crc m wal (taken ++ [id]) g g' := by
  refine ⟨?_, ?_⟩
  · rw [hconsumed, h.1, List.append_assoc, readable, readable, readable, ← List.filter_append]
  · rw [hcounts, h.2, countsIn, countsIn, List.map_append, List.sum_append, List.map_singleton,
      List.sum_singleton, add_assoc]

/-- What holds while `rest` is left of the segments `ids`. -/
structure Gathering (crc : Bytes → UInt32) (m : Manifest) (wal : Std.ExtTreeMap ℕ SegFile)
    (P : Disk → Prop) (ids : List ℕ) (g₀ : Gathered) (rest : List ℕ) (g : Gathered) (d : Disk) :
    Prop where
  other : P d
  same : ∀ id ∈ rest, d.wal[id]? = wal[id]?
  holds : g.Holds crc m wal d.runs
  passed : ∃ taken, taken ++ rest = ids ∧ Passed crc m wal taken g₀ g

namespace Gathering

variable {ids rest : List ℕ} {id : ℕ} {g₀ : Gathered} {d : Disk} {f : SegFile}

theorem bytes_eq (h : Gathering crc m wal P ids g₀ (id :: rest) g d) (hf : d.wal[id]? = some f) :
    segmentBytesIn wal id = f.bytes := by
  rw [segmentBytesIn, ← h.same id List.mem_cons_self, hf]
  rfl

theorem unread (h : Gathering crc m wal P ids g₀ (id :: rest) g d) (hf : d.wal[id]? = some f)
    {e : DecodeError} (hheader : parseSegmentHeader f.bytes = .error e) (quarantined : Bool) :
    (g.tally (.unread g.rejects g.batch f.bytes quarantined)).Holds crc m wal d.runs ∧
      ∃ taken, taken ++ rest = ids ∧ (∃ before, taken = before ++ [id]) ∧
        Passed crc m wal taken g₀ (g.tally (.unread g.rejects g.batch f.bytes quarantined)) := by
  obtain ⟨taken, htaken, hpassed⟩ := h.passed
  have hunread : readable wal [id] = [] := by
    rw [readable, List.filter_cons_of_neg (by rw [h.bytes_eq hf, hheader]; exact nofun),
      List.filter_nil]
  refine ⟨h.holds.skip rfl, taken ++ [id], by rw [← htaken, List.append_assoc]; rfl, ⟨taken, rfl⟩,
    hpassed.snoc ?_ ?_⟩
  · rw [hunread, List.append_nil]
    rfl
  · rw [h.bytes_eq hf, segmentCounts, hheader]
    rfl

private theorem quarantined (h : Gathering crc m wal P ids g₀ (id :: rest) g d) (hids : ids.Nodup)
    (hwal : IgnoresWal P) (hf : d.wal[id]? = some f) {e : DecodeError}
    (hheader : parseSegmentHeader f.bytes = .error e) :
    Gathering crc m wal P ids g₀ rest (g.tally (.unread g.rejects g.batch f.bytes true))
      (d.quarantined id f.bytes) := by
  obtain ⟨hholds, taken, htaken, ⟨before, rfl⟩, hpassed⟩ := h.unread hf hheader true
  refine ⟨hwal _ _ _ h.other, fun j hj ↦ ?_, hholds, _, htaken, hpassed⟩
  have hne : id ≠ j := by
    rintro rfl
    rw [← htaken, List.nodup_append] at hids
    exact hids.2.2 id (List.mem_append_right _ List.mem_cons_self) id hj rfl
  rw [Disk.quarantined, getElem?_erase_of_ne hne, h.same j (List.mem_cons_of_mem id hj)]

private theorem stopped (h : Gathering crc m wal P ids g₀ (id :: rest) g d)
    (hf : d.wal[id]? = some f) {e : DecodeError} (hheader : parseSegmentHeader f.bytes = .error e)
    (hfails : FailsOn Op.onFiles o) :
    (g.tally (.unread g.rejects g.batch f.bytes false)).Holds crc m wal d.runs ∧
      Took crc m wal o ids g₀ (g.tally (.unread g.rejects g.batch f.bytes false)) := by
  obtain ⟨hholds, taken, htaken, -, hpassed⟩ := h.unread hf hheader false
  exact ⟨hholds, taken, ⟨rest, htaken⟩, hpassed.1, hpassed.2, .inr hfails⟩

private theorem taken (h : Gathering crc m wal P ids g₀ (id :: rest) g d)
    (hrejects : IgnoresRejects P)
    (hf : d.wal[id]? = some f) {hid : ℕ} (hheader : parseSegmentHeader f.bytes = .ok hid) :
    Triple o (· = d) (decodeSegment crc id f.bytes m g.rejects g.batch)
      (fun r d' ↦ r.out.unreadable = false ∧
        Gathering crc m wal P ids g₀ rest ((g.tally r).consume id r.out) d')
      (fun _ _ ↦ False) P := by
  obtain ⟨before, hbefore, hpassed⟩ := h.passed
  have hread : readable wal [id] = [id] := by
    rw [readable, List.filter_cons_of_pos (by rw [h.bytes_eq hf, hheader]; rfl), List.filter_nil]
  obtain ⟨reader, hreader⟩ : ∃ reader, SegmentReader.new f.bytes f.bytes.length = .ok reader := by
    rw [SegmentReader.new, hheader]
    exact ⟨_, rfl⟩
  have hframe : IgnoresRejects fun d ↦ (P d ∧ ∀ j ∈ rest, d.wal[j]? = wal[j]?) ∧
      g.Holds crc m wal d.runs := fun d r hd ↦ ⟨⟨hrejects d r hd.1.1, hd.1.2⟩, hd.2⟩
  have hcounts := decodeSegment_counts (o := o) crc id f.bytes m g.rejects g.batch
  refine ((decodeSegment_triple hframe h.holds.ok hreader).and hcounts).conseq ?_ ?_ ?_ ?_
  · rintro _ rfl
    exact ⟨⟨⟨h.other, fun j hj ↦ h.same j (List.mem_cons_of_mem id hj)⟩, h.holds⟩, trivial⟩
  · rintro r d' ⟨⟨⟨⟨hother, hsame⟩, hholds⟩, hdecodes⟩, hcount⟩
    rw [← h.bytes_eq hf] at hdecodes hcount
    refine ⟨hdecodes.readable, hother, hsame, hholds.consume hdecodes, before ++ [id], ?_,
      hpassed.snoc ?_ ?_⟩
    · rw [← hbefore, List.append_assoc]
      rfl
    · rw [hread]
      rfl
    · rw [← hcount]
      rfl
  · exact fun _ _ hd ↦ hd.1
  · exact fun _ hd ↦ hd.1.1.1

end Gathering

/-- **The first phase** consumes the segments that can be read, up to one that it can neither read
nor move aside, and what it gives stands for the frames accepted from them. -/
theorem decodeSegments_triple (hruns : IgnoresRuns P) (hrejects : IgnoresRejects P)
    (hwal : IgnoresWal P) (hx : Exits Op.onFiles o J ioError E C) (hJ : ∀ d, P d → J d) (budget : ℕ)
    {ids : List ℕ} (hids : ids.Nodup)
    (hmissing : ∀ id ∈ ids, wal[id]? = none → ∀ d, P d → E (.io .notFound) d) (g : Gathered) :
    Triple o (fun d ↦ (P d ∧ ∀ id ∈ ids, d.wal[id]? = wal[id]?) ∧ g.Holds crc m wal d.runs)
      (Gathered.decodeSegments crc m budget g ids)
      (fun g' d ↦ P d ∧ g'.Holds crc m wal d.runs ∧ Took crc m wal o ids g g') E C := by
  have hphase : Gathered.Phase o crc m budget (Gathering crc m wal P ids g)
      (Gathering crc m wal P ids g)
      (fun g' d ↦ P d ∧ g'.Holds crc m wal d.runs ∧ Took crc m wal o ids g g') E C := by
    refine ⟨fun id rest g' ↦ ?_, fun hd ↦ hx.crash _ (hJ _ hd.other), fun hd hf hheader ↦ ?_,
      fun hd hf hheader hfails ↦ ?_, fun hd hf hheader ↦ ?_, fun rest g' ↦ .intro fun d hd ↦ ?_,
      fun hd ↦ ?_⟩
    · refine readSegment_triple hx (fun d hd ↦ hJ d hd.other) fun d hd hnone ↦ ?_
      obtain ⟨taken, htaken, -⟩ := hd.passed
      exact hmissing id (htaken ▸ List.mem_append_right _ List.mem_cons_self)
        (by rw [← hd.same id List.mem_cons_self, hnone]) d hd.other
    · exact ⟨hx.crash _ (hJ _ (hwal _ _ _ hd.other)), hd.quarantined hids hwal hf hheader⟩
    · obtain ⟨hholds, htook⟩ := hd.stopped hf hheader hfails
      exact ⟨⟨hd.other, hholds, htook⟩, hwal _ _ _ hd.other, hholds, htook⟩
    · exact (hd.taken hrejects hf hheader).exits (fun _ _ ↦ False.elim) fun d hP ↦
        hx.crash d (hJ d hP)
    · obtain ⟨taken, htaken, hpassed⟩ := hd.passed
      have hframe : IgnoresRuns fun d ↦ P d ∧ ∀ j ∈ rest, d.wal[j]? = wal[j]? := fun d r hd ↦
        ⟨hruns d r hd.1, hd.2⟩
      refine (relieve_triple crc m wal hframe hx (fun d hd ↦ hJ d hd.1) g' budget rest).conseq ?_ ?_
        (fun _ _ ↦ id) fun _ ↦ id
      · rintro _ rfl
        exact ⟨⟨hd.other, hd.same⟩, hd.holds⟩
      · rintro g'' d' ⟨⟨hother, hsame⟩, hholds, hconsumed, hcounts⟩
        exact ⟨hother, hsame, hholds, taken, htaken, hconsumed.trans hpassed.1,
          hcounts.trans hpassed.2⟩
    · obtain ⟨taken, htaken, hpassed⟩ := hd.passed
      rw [List.append_nil] at htaken
      exact ⟨hd.other, hd.holds, taken, ⟨[], by rw [htaken, List.append_nil]⟩, hpassed.1,
        hpassed.2, .inl htaken⟩
  refine (hphase.triple ids g).pre fun d hd ↦ ⟨hd.1.1, hd.1.2, hd.2, [], rfl, ?_⟩
  exact ⟨(List.append_nil _).symm, rfl⟩

end Gathered.Holds

end Orc
