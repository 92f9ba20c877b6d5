import Orc.Flush.Bounded

/-!
# The bounded merge against its reference

What the bounded merge emits is said here without the merge: the records in the order of timestamp
and id, and of each timestamp and id the one that arrived first (`SortedUnique`). The bounded merge,
with any fan-in, and the merge of all sources at once both emit that (`bounded_merge_reference`).

`mergeBoundedWithin` is the bounded merge with a check before each step that takes runs or opens
them; it gives up if more runs would be taken than there are, or more sources opened than the fan-in
allows. It never does.

A list in order with given members is determined, so there is no need to say which merge is the
reference. That the loop ends is part of the statement: each turn leaves fewer runs.
-/

namespace Orc

open Bytes Fault Order

/-- The records of `all` in order, of each timestamp and id the first to arrive. -/
structure SortedUnique (all out : List Head) : Prop where
  sorted : out.Pairwise (Head.key · < Head.key ·)
  mem : ∀ h, h ∈ out ↔ h ∈ all ∧ ∀ h' ∈ all, h'.key = h.key → h.rank ≤ h'.rank

private theorem sortedUnique_canon {all : List Head} (hranked : Ranked Head.key Head.rank all) :
    SortedUnique all (canon Head.key Head.rank all) :=
  ⟨pairwise_canon _ _ all, fun _ ↦ mem_canon hranked⟩

/-- A record as a run holds it: its key is that of its frame, and its arrival fits 64 bits. -/
structure Head.Own (h : Head) : Prop where
  key : verifiedSortKey h.frame = .ok (h.ts, h.id, h.frame.length)
  segment : h.arrival.1 < 2 ^ 64
  offset : h.arrival.2 < 2 ^ 64

theorem Head.Own.stored {h : Head} (hown : h.Own) : h.Stored :=
  stored_of_sortKey hown.key hown.segment hown.offset

/-! ## Checks on what is opened -/

/-- An intermediate merge that gives up if it takes more runs than there are, or more than
`fanIn`. -/
def Pool.shrinkWithin (p : Pool) (fanIn inMemory : ℕ) : Io (Option Pool) :=
  let n := min (p.runs.length + inMemory - fanIn + 1) fanIn
  if n ≤ p.runs.length ∧ n ≤ fanIn then some <$> p.shrink fanIn inMemory else pure none

/-- The loop of intermediate merges, with checks. -/
def shrinkLoopWithin (fanIn inMemory : ℕ) : ℕ → Pool → Io (Option Pool)
  | 0, p => pure (some p)
  | fuel + 1, p =>
    if fanIn < p.runs.length + inMemory then do
      match ← p.shrinkWithin fanIn inMemory with
      | none => pure none
      | some p => shrinkLoopWithin fanIn inMemory fuel p
    else
      pure (some p)

section Within

variable {σ : Type}

/-- The bounded merge with checks: it gives up also if the loop has left too many sources. -/
def mergeBoundedWithin (runs : List ℕ) (memory : Option Source) (fanIn next : ℕ)
    (sink : σ → Head → Io σ) (init : σ) : Io (Option (σ × MergeStats × ℕ)) := do
  let fanIn := max fanIn 2
  match ← shrinkLoopWithin fanIn memory.toList.length runs.length { runs, next } with
  | none => pure none
  | some p =>
    if p.runs.length + memory.toList.length ≤ fanIn then do
      let sources ← openRuns p.runs
      let (out, stats) ← merge (sources ++ memory.toList) sink init
      return some (out, { stats with deduplicated := stats.deduplicated + p.deduplicated }, p.next)
    else
      pure none

end Within

private theorem shrinkWithin_eq {p : Pool} {fanIn inMemory : ℕ} (_ : 2 ≤ fanIn) (_ : inMemory ≤ 1)
    (hmore : fanIn < p.runs.length + inMemory) :
    p.shrinkWithin fanIn inMemory = some <$> p.shrink fanIn inMemory := by
  rw [Pool.shrinkWithin, if_pos ⟨by omega, min_le_right _ _⟩]

private theorem shrinkLoopWithin_eq {fanIn inMemory : ℕ} (hfan : 2 ≤ fanIn) (hmem : inMemory ≤ 1)
    (fuel : ℕ) (p : Pool) :
    shrinkLoopWithin fanIn inMemory fuel p = some <$> shrinkLoop fanIn inMemory fuel p := by
  induction fuel generalizing p with
  | zero => rw [shrinkLoopWithin, shrinkLoop, map_pure]
  | succ fuel ih =>
    rw [shrinkLoopWithin, shrinkLoop]
    split_ifs with hmore
    · rw [shrinkWithin_eq hfan hmem hmore, map_eq_pure_bind, map_eq_pure_bind, bind_assoc,
        bind_assoc]
      simp only [pure_bind, ih, map_eq_pure_bind]
    · rw [map_pure]

/-! ## The sink that keeps what it is given -/

/-- Keep every record. -/
def collect (out : List Head) (h : Head) : Io (List Head) := pure (out ++ [h])

private theorem ranked_of_arrivals {all : List Head} (h : (all.map Head.arrival).Nodup) :
    Ranked Head.key Head.rank all := fun _ ha _ hb _ hrank ↦
  List.inj_on_of_nodup_map h ha hb (toLex.injective hrank)

/-- The runs of a group and its records in memory, as the bounded merge is given them. -/
structure Inputs (runs : Std.ExtTreeMap ℕ Bytes) (pool : List (ℕ × List Head)) (hs : List Head)
    (next : ℕ) : Prop where
  /-- The files of the runs hold their records. -/
  files : ∀ run ∈ pool, runs[run.1]? = some (runBytes run.2)
  names : (pool.map Prod.fst).Nodup
  /-- Runs are created with numbers that are still free. -/
  fresh : ∀ run ∈ pool, run.1 ≤ next
  own : ∀ run ∈ pool, ∀ h ∈ run.2, h.Own
  sorted : ∀ run ∈ pool, run.2.Pairwise headLE
  memory : hs.Pairwise headLE
  arrivals : ((pool.flatMap Prod.snd ++ hs).map Head.arrival).Nodup

namespace Inputs

variable {runs : Std.ExtTreeMap ℕ Bytes} {pool : List (ℕ × List Head)} {hs : List Head} {next : ℕ}

theorem held (h : Inputs runs pool hs next) : ∀ run ∈ pool, Held runs run := fun run hrun ↦
  ⟨h.files run hrun, fun x hx ↦ (h.own run hrun x hx).stored, h.sorted run hrun⟩

theorem ranked (h : Inputs runs pool hs next) :
    Ranked Head.key Head.rank (pool.flatMap Prod.snd ++ hs) := ranked_of_arrivals h.arrivals

theorem holds (h : Inputs runs pool hs next) :
    Pool.Holds runs (fun _ ↦ False) (pool.flatMap Prod.snd) { runs := pool.map Prod.fst, next } runs
      pool :=
  .start h.held h.names h.fresh fun _ ↦ False.elim

end Inputs

section NoFault

variable {pool : List (ℕ × List Head)} {hs : List Head} {next : ℕ} {w : World Disk}

theorem exits_noFault : Exits Op.onFiles noFault (fun _ : Disk ↦ True) ioError (fun _ _ ↦ False)
    (fun _ ↦ True) :=
  ⟨fun ⟨_, _, _, h⟩ ↦ (nomatch h), fun _ _ ↦ trivial⟩

theorem mergeBounded_noFault (h : Inputs w.disk.runs pool hs next) (fanIn : ℕ) :
    ∃ out stats last w₁,
      mergeBounded (pool.map Prod.fst) (Source.ofHeads hs) fanIn next collect [] noFault w =
        (.ok (out, stats, last), w₁) ∧
      out = canon Head.key Head.rank (pool.flatMap Prod.snd ++ hs) ∧ stats.emitted = out.length ∧
      stats.emitted + stats.deduplicated = (pool.flatMap Prod.snd ++ hs).length := by
  have htriple : Triple noFault _
      (mergeBounded (pool.map Prod.fst) (Source.ofHeads hs) fanIn next collect []) _ _ _ :=
    mergeBounded_triple (I := fun done s _ ↦ s = done) (fun _ _ _ _ ↦ id) exits_noFault
      (fun _ _ _ _ ↦ trivial) fanIn h.holds (yields_ofHeads h.memory) h.ranked rfl
      (fun R done x rest s _ ↦ .ret fun d hd ↦ ⟨by rw [hd.1], hd.2⟩)
  obtain ⟨⟨out, stats, last⟩, w₁, hrun, rfl, -, hemitted, hcount, -⟩ :=
    htriple.returns (fun _ _ ↦ not_false) not_crashes_noFault ⟨rfl, rfl⟩
  exact ⟨_, stats, last, w₁, hrun, rfl, hemitted, hcount⟩

theorem merge_noFault (h : Inputs w.disk.runs pool hs next) :
    ∃ out stats w₂,
      (do
        let sources ← openRuns (pool.map Prod.fst)
        merge (sources ++ (Source.ofHeads hs).toList) collect []) noFault w =
          (.ok (out, stats), w₂) ∧
      out = canon Head.key Head.rank (pool.flatMap Prod.snd ++ hs) ∧ stats.emitted = out.length ∧
      stats.emitted + stats.deduplicated = (pool.flatMap Prod.snd ++ hs).length := by
  set all := pool.flatMap Prod.snd ++ hs
  have hmemory := yields_ofHeads h.memory
  have htriple : Triple noFault (· = w.disk)
      (do
        let sources ← openRuns (pool.map Prod.fst)
        merge (sources ++ (Source.ofHeads hs).toList) collect [])
      (fun r _ ↦ r.1 = canon Head.key Head.rank all ∧
        r.2.emitted = (canon Head.key Head.rank all).length ∧
        r.2.emitted + r.2.deduplicated = all.length) (fun _ _ ↦ False) (fun _ ↦ True) := by
    refine .bind (openRuns_triple exits_noFault (fun _ _ ↦ trivial) ?_) fun sources ↦ .intro ?_
    · rintro _ rfl
      exact h.held
    · rintro d ⟨-, hok, hcontents⟩
      have hflat : (sources ++ (Source.ofHeads hs).toList).flatMap Source.contents = all := by
        rw [List.flatMap_append, hcontents, hmemory.flatMap_contents]
      have hsources : ∀ s ∈ sources ++ (Source.ofHeads hs).toList, s.Ok := by
        intro s hs
        rcases List.mem_append.1 hs with hs | hs
        · exact hok s hs
        · exact hmemory.ok s (Option.mem_toList.1 hs)
      have hmerge : Triple noFault _ (merge (sources ++ (Source.ofHeads hs).toList) collect [])
        _ _ _ :=
        merge_triple (I := fun done s _ ↦ s = done) exits_noFault (fun _ _ _ _ ↦ trivial) hsources
          (hflat ▸ h.ranked) rfl (fun done x rest s _ ↦ .ret fun d hd ↦ by rw [hd])
      rw [hflat] at hmerge
      exact hmerge.pre fun _ _ ↦ rfl
  obtain ⟨⟨out, stats⟩, w₂, hrun, rfl, hemitted, hcount⟩ :=
    htriple.returns (fun _ _ ↦ not_false) not_crashes_noFault rfl
  exact ⟨_, stats, w₂, hrun, rfl, hemitted, hcount⟩

theorem mergeBoundedWithin_noFault (h : Inputs w.disk.runs pool hs next) (fanIn : ℕ)
    {r : List Head × MergeStats × ℕ} {w₁ : World Disk}
    (hrun : mergeBounded (pool.map Prod.fst) (Source.ofHeads hs) fanIn next collect [] noFault w =
      (.ok r, w₁)) :
    mergeBoundedWithin (pool.map Prod.fst) (Source.ofHeads hs) fanIn next collect [] noFault w =
      (.ok (some r), w₁) := by
  have hone : (Source.ofHeads hs).toList.length ≤ 1 := by cases Source.ofHeads hs <;> simp
  have hloop := shrinkLoop_triple (o := noFault) (P := fun _ ↦ True) w.disk.runs (fun _ ↦ False)
    (fun _ _ ↦ id) exits_noFault (fun _ _ ↦ trivial)
    (h.ranked.mono fun x hx ↦ List.mem_append_left _ hx) (le_max_right fanIn 2) hone
    (p := { runs := pool.map Prod.fst, next }) le_rfl
  rw [mergeBounded, Prog.bind_eq_ok] at hrun
  obtain ⟨p, w', hp, hrest⟩ := hrun
  have hbound := (hloop.of_ok ⟨trivial, pool, h.holds⟩ hp).2.2
  rw [mergeBoundedWithin, shrinkLoopWithin_eq (le_max_right fanIn 2) hone, map_eq_pure_bind,
    bind_assoc]
  refine Prog.bind_eq_ok.2 ⟨p, w', hp, ?_⟩
  simp only [pure_bind, if_pos hbound]
  rw [Prog.bind_eq_ok] at hrest
  obtain ⟨sources, w₂, hsources, hrest⟩ := hrest
  rw [Prog.bind_eq_ok] at hrest
  obtain ⟨⟨out, stats⟩, w₃, hmerge, hret⟩ := hrest
  refine Prog.bind_eq_ok.2 ⟨sources, w₂, hsources, Prog.bind_eq_ok.2 ⟨(out, stats), w₃, hmerge, ?_⟩⟩
  cases hret
  rfl

end NoFault

/-- **The bounded merge is the merge.** Whatever the fan-in and the sizes of the runs, the bounded
merge ends, takes no more runs than there are and opens no more sources than `max fanIn 2`; its sink
is given the records of the runs and of the batch in order, of each timestamp and id the first to
arrive, as it is given them by the merge of all sources at once, with the same counts; and the
records emitted and dropped are all the records. -/
theorem bounded_merge_reference {pool : List (ℕ × List Head)} {hs : List Head} {next : ℕ}
    {w : World Disk} (h : Inputs w.disk.runs pool hs next) (fanIn : ℕ) :
    ∃ out stats last w₁ w₂,
      mergeBounded (pool.map Prod.fst) (Source.ofHeads hs) fanIn next collect [] noFault w =
        (.ok (out, stats, last), w₁) ∧
      mergeBoundedWithin (pool.map Prod.fst) (Source.ofHeads hs) fanIn next collect [] noFault w =
        (.ok (some (out, stats, last)), w₁) ∧
      (do
        let sources ← openRuns (pool.map Prod.fst)
        merge (sources ++ (Source.ofHeads hs).toList) collect []) noFault w =
          (.ok (out, stats), w₂) ∧
      SortedUnique (pool.flatMap Prod.snd ++ hs) out ∧ stats.emitted = out.length ∧
      stats.emitted + stats.deduplicated = (pool.flatMap Prod.snd ++ hs).length := by
  obtain ⟨out, stats, last, w₁, hbounded, hout, hemitted, hcount⟩ := mergeBounded_noFault h fanIn
  obtain ⟨out', stats', w₂, hmerge, hout', hemitted', hcount'⟩ := merge_noFault h
  obtain rfl : out' = out := hout'.trans hout.symm
  obtain rfl : stats' = stats := by
    obtain ⟨emitted, deduplicated⟩ := stats
    obtain ⟨emitted', deduplicated'⟩ := stats'
    simp only [MergeStats.mk.injEq]
    dsimp only at hemitted hcount hemitted' hcount'
    omega
  exact ⟨out', stats', last, w₁, w₂, hbounded, mergeBoundedWithin_noFault h fanIn hbounded, hmerge,
    hout ▸ sortedUnique_canon h.ranked, hemitted, hcount⟩

private def reading (arrival : ℕ × ℕ) : Head :=
  ⟨7, utf8 "a", arrival, frameBytes crc32 (payloadBytes ⟨7, 0, "t", "a", [], [], ""⟩)⟩

private theorem own_reading {arrival : ℕ × ℕ} (hseg : arrival.1 < 2 ^ 64)
    (hoff : arrival.2 < 2 ^ 64) : (reading arrival).Own := by
  have hkey : verifiedSortKey (reading (0, 0)).frame =
      .ok (7, utf8 "a", (reading (0, 0)).frame.length) := by decide +kernel
  exact ⟨hkey, hseg, hoff⟩

/-- Two runs and the batch, each with the same reading, under a fan-in of 0. -/
theorem bounded_merge_reference_thrice :
    ∃ out stats last w₁,
      mergeBounded [0, 1] (Source.ofHeads [reading (3, 14)]) 0 1 collect [] noFault
        ⟨{ runs := {(0, runBytes [reading (1, 14)]), (1, runBytes [reading (2, 14)])} }, 0⟩ =
        (.ok (out, stats, last), w₁) ∧
      SortedUnique [reading (1, 14), reading (2, 14), reading (3, 14)] out := by
  have h : Inputs ({(0, runBytes [reading (1, 14)]), (1, runBytes [reading (2, 14)])} :
      Std.ExtTreeMap ℕ Bytes) [(0, [reading (1, 14)]), (1, [reading (2, 14)])]
        [reading (3, 14)] 1 := by
    refine ⟨?_, by decide, by decide, ?_, ?_, List.pairwise_singleton .., by decide⟩
    · decide +kernel
    · simp only [List.mem_cons, List.not_mem_nil, or_false, forall_eq_or_imp, forall_eq]
      exact ⟨own_reading (by decide) (by decide), own_reading (by decide) (by decide)⟩
    · simp only [List.mem_cons, List.not_mem_nil, or_false, forall_eq_or_imp, forall_eq,
        List.pairwise_singleton, and_self]
  obtain ⟨out, stats, last, w₁, -, hrun, -, -, hmerged, -⟩ := bounded_merge_reference
    (w := ⟨{ runs := {(0, runBytes [reading (1, 14)]), (1, runBytes [reading (2, 14)])} }, 0⟩) h 0
  exact ⟨out, stats, last, w₁, hrun, hmerged⟩

end Orc
