import Orc.Flush.Merge

/-!
# Merging with a bounded number of open runs

Intermediate merges replace some runs by one that holds their records in normal form. Normalising is
indifferent to what has been normalised before, so the sink of the last merge sees the same records
however many intermediate merges there were and whichever runs they took (`mergeBounded_triple`).

The fan-in is a parameter of no consequence, and that is the point of the module: it bounds the
number of open files and must not be visible in the output. What carries the argument is a fact
about lists from `Orc.Order`, that the normal form of a list does not change when a part of it is
replaced by its normal form.

## The invariant

`Pool.Holds` is the invariant of the loop. It says of the pool's runs that they are there, that
their contents decode to the records they stand for, and that together with the source in memory
they stand for all records; runs that belong to others are left alone, since groups are merged one
after the other while the runs of the later ones wait.

An invariant that looks neither at the runs nor at what the sink has seen needs none of this, and
holds whatever the runs are (`mergeBounded_keeps`). That is how the results about crashes pass
through a merge: a merge reads and writes runs, and no run survives a flush.
-/

namespace Orc

open Bytes Fault Order

section Triples

variable {o : Oracle Op} {J P : Disk → Prop} {E : Error → Disk → Prop} {C : Disk → Prop}

/-! ## Runs on the disk -/

/-- A predicate that does not look at `runs/`. -/
def IgnoresRuns (P : Disk → Prop) : Prop := ∀ d r, P d → P { d with runs := r }

/-- The file of a run holds these records, in order. -/
structure Held (runs : Std.ExtTreeMap ℕ Bytes) (run : ℕ × List Head) : Prop where
  file : runs[run.1]? = some (runBytes run.2)
  stored : ∀ x ∈ run.2, x.Stored
  sorted : run.2.Pairwise headLE

theorem Held.congr {runs runs' : Std.ExtTreeMap ℕ Bytes} {run : ℕ × List Head} (h : Held runs run)
    (hsame : runs'[run.1]? = runs[run.1]?) : Held runs' run :=
  ⟨hsame.trans h.file, h.stored, h.sorted⟩

theorem openRun_triple {run : ℕ × List Head} (hx : Exits Op.onFiles o J ioError E C)
    (hJ : ∀ d, P d → J d) (hheld : ∀ d, P d → Held d.runs run) :
    Triple o P (Source.openRun run.1) (fun r d ↦ P d ∧ Yields r run.2) E C := by
  refine .bind (Q := fun input d ↦ P d ∧ input = runBytes run.2) (Io.read_exits hx hJ ?_ ?_)
    fun input ↦ .intro ?_
  · intro d input hd hread
    rw [(hheld d hd).file] at hread
    exact ⟨hd, (Except.ok.inj hread).symm⟩
  · intro d e hd hread
    rw [(hheld d hd).file] at hread
    cases hread
  · rintro d ⟨hd, rfl⟩
    refine (Source.readNext_triple hx hJ (hheld d hd).stored (hheld d hd).sorted).pre ?_
    rintro d' rfl
    exact hd

/-- Opening runs gives sources for their records. -/
theorem openRuns_triple {pool : List (ℕ × List Head)} (hx : Exits Op.onFiles o J ioError E C)
    (hJ : ∀ d, P d → J d) (hheld : ∀ d, P d → ∀ run ∈ pool, Held d.runs run) :
    Triple o P (openRuns (pool.map Prod.fst))
      (fun srcs d ↦ P d ∧ (∀ s ∈ srcs, s.Ok) ∧
        srcs.flatMap Source.contents = pool.flatMap Prod.snd) E C := by
  refine (Triple.foldlM (I := fun left srcs d ↦ P d ∧ (∀ s ∈ srcs, s.Ok) ∧
      ∃ opened rest, pool = opened ++ rest ∧ left = rest.map Prod.fst ∧
        srcs.flatMap Source.contents = opened.flatMap Prod.snd) (fun path left srcs ↦ .intro ?_) _
      []).conseq ?_ ?_ (fun _ _ ↦ id) (fun _ ↦ id)
  · rintro d ⟨hd, hok, opened, rest, hpool, hleft, hcontents⟩
    obtain ⟨run, rest, rfl, rfl, rfl⟩ := List.map_eq_cons_iff.1 hleft.symm
    have hmem : run ∈ pool := hpool ▸ List.mem_append_right _ List.mem_cons_self
    refine .bind ((openRun_triple hx hJ fun d hd ↦ hheld d hd run hmem).pre ?_) fun r ↦ .ret ?_
    · rintro d' rfl
      exact hd
    · rintro d' ⟨hd', hr⟩
      refine ⟨hd', fun s hs ↦ ?_, opened ++ [run], rest, by rw [hpool]; simp, rfl, ?_⟩
      · rcases List.mem_append.1 hs with hs | hs
        · exact hok s hs
        · exact hr.ok s (Option.mem_toList.1 hs)
      · rw [List.flatMap_append, List.flatMap_append, hcontents, List.flatMap_singleton,
          ← hr.contents]
        cases r <;> simp
  · intro d hd
    exact ⟨hd, by simp, [], pool, rfl, rfl, rfl⟩
  · rintro srcs d ⟨hd, hok, opened, rest, hpool, hleft, hcontents⟩
    obtain rfl := List.map_eq_nil_iff.1 hleft.symm
    rw [List.append_nil] at hpool
    exact ⟨hd, hok, hpool ▸ hcontents⟩

section Writing

variable {R S : Std.ExtTreeMap ℕ Bytes → Prop}

theorem RunWriter.create_triple (hP : IgnoresRuns P) (hx : Exits Op.onFiles o J ioError E C)
    (hJ : ∀ d, P d → J d) {run : ℕ} (hR : ∀ r, R r → S (r.insert run [])) :
    Triple o (fun d ↦ P d ∧ R d.runs) (RunWriter.create run) (fun _ d ↦ P d ∧ S d.runs) E C :=
  Io.step_exits hx (fun d hd ↦ hJ d hd.1) fun d hd ↦ ⟨hP d _ hd.1, hR _ hd.2⟩

theorem RunWriter.push_triple (hP : IgnoresRuns P) (hx : Exits Op.onFiles o J ioError E C)
    (hJ : ∀ d, P d → J d) {run : ℕ} {arrival : ℕ × ℕ} {frame : Bytes}
    (hR : ∀ r, R r → S (r.insert run (r.getD run [] ++ runEntry arrival frame))) :
    Triple o (fun d ↦ P d ∧ R d.runs) (RunWriter.push run arrival frame)
      (fun _ d ↦ P d ∧ S d.runs) E C := by
  refine .bind (Q := fun r d ↦ P d ∧ (r.2 = true → S d.runs) ∧ (r.2 = false → FailsOn Op.onFiles o))
    (.write ?_ ?_ ?_) fun r ↦ ?_
  · rintro d t ⟨hd, hr⟩ -
    exact ⟨hP d _ hd, fun _ ↦ by rw [List.take_length]; exact hR _ hr, by simp⟩
  · rintro d t n ⟨hd, -⟩ ho
    exact ⟨hP d _ hd, by simp, fun _ ↦ ⟨t, _, n, rfl, ho⟩⟩
  · rintro d t n ⟨hd, -⟩ -
    exact hx.crash _ (hJ _ (hP d _ hd))
  · obtain ⟨n, whole⟩ := r
    cases whole with
    | true => exact .ret fun d hd ↦ ⟨hd.1, hd.2.1 rfl⟩
    | false => exact .fail fun d hd ↦ hx.fails (hd.2.2 rfl) d (hJ d hd.1)

theorem RunWriter.finish_triple (hx : Exits Op.onFiles o J ioError E C) (hJ : ∀ d, P d → J d) :
    Triple o P RunWriter.finish (fun _ ↦ P) E C := Io.touch_exits hx hJ

end Writing

theorem runBytes_append (hs hs' : List Head) : runBytes (hs ++ hs') = runBytes hs ++ runBytes hs' :=
  List.flatMap_append

/-- A run that is being written holds these records, and the others are as they were. -/
structure WritesRun (base : Std.ExtTreeMap ℕ Bytes) (run : ℕ) (hs : List Head)
    (runs : Std.ExtTreeMap ℕ Bytes) : Prop where
  file : runs[run]? = some (runBytes hs)
  others : ∀ q, q ≠ run → runs[q]? = base[q]?

theorem WritesRun.create_triple (hP : IgnoresRuns P) (hx : Exits Op.onFiles o J ioError E C)
    (hJ : ∀ d, P d → J d) (base : Std.ExtTreeMap ℕ Bytes) (run : ℕ) :
    Triple o (fun d ↦ P d ∧ d.runs = base) (RunWriter.create run)
      (fun _ d ↦ P d ∧ WritesRun base run [] d.runs) E C := by
  refine RunWriter.create_triple (R := (· = base)) hP hx hJ ?_
  rintro r rfl
  refine ⟨Std.ExtTreeMap.getElem?_insert_self, fun q hq ↦ ?_⟩
  exact getElem?_insert_of_ne (Ne.symm hq)

theorem WritesRun.push_triple (hP : IgnoresRuns P) (hx : Exits Op.onFiles o J ioError E C)
    (hJ : ∀ d, P d → J d) (base : Std.ExtTreeMap ℕ Bytes) (run : ℕ) (hs : List Head) (h : Head) :
    Triple o (fun d ↦ P d ∧ WritesRun base run hs d.runs) (RunWriter.push run h.arrival h.frame)
      (fun _ d ↦ P d ∧ WritesRun base run (hs ++ [h]) d.runs) E C := by
  refine RunWriter.push_triple hP hx hJ fun r hr ↦ ⟨?_, fun q hq ↦ ?_⟩
  · rw [Std.ExtTreeMap.getElem?_insert_self, Std.ExtTreeMap.getD_eq_getD_getElem?, hr.file,
      runBytes_append]
    simp [runBytes]
  · rw [getElem?_insert_of_ne (Ne.symm hq)]
    exact hr.others q hq

/-! ## Intermediate merges -/

/-- A pool of runs that stands for the records `all`: the records dropped so far are duplicates. The
runs that `keep` names belong to others, and are as they were in `runs₀`. -/
structure Pool.Holds (runs₀ : Std.ExtTreeMap ℕ Bytes) (keep : ℕ → Prop) (all : List Head) (p : Pool)
    (runs : Std.ExtTreeMap ℕ Bytes) (pool : List (ℕ × List Head)) : Prop where
  runs_eq : p.runs = pool.map Prod.fst
  nodup : p.runs.Nodup
  bound : ∀ q ∈ p.runs, q ≤ p.next
  apart : ∀ q, keep q → q ≤ p.next ∧ q ∉ p.runs
  held : ∀ run ∈ pool, Held runs run
  kept : ∀ q, keep q → runs[q]? = runs₀[q]?
  sub : ∀ x ∈ pool.flatMap Prod.snd, x ∈ all
  count : p.deduplicated + (pool.flatMap Prod.snd).length = all.length
  same : ∀ more, Ranked Head.key Head.rank (all ++ more) →
    canon Head.key Head.rank (pool.flatMap Prod.snd ++ more) =
      canon Head.key Head.rank (all ++ more)

theorem runSize_triple (hC : ∀ d, P d → C d) (path : ℕ) :
    Triple o P (runSize path) (fun _ ↦ P) E C := by
  refine .bind (Q := fun _ ↦ P) (.attempt (Io.read_triple ?_ ?_ ?_ ?_)) fun r ↦ ?_
  · exact fun d _ hd _ ↦ hd
  · exact fun d _ hd _ ↦ hd
  · exact fun d _ _ hd _ ↦ hd
  · exact fun d _ _ hd _ ↦ hC d hd
  · cases r <;> exact .ret fun _ ↦ id

theorem sortBySize_triple (hC : ∀ d, P d → C d) (runs : List ℕ) :
    Triple o P (sortBySize runs) (fun r d ↦ P d ∧ r.Perm runs) E C := by
  refine .bind (Q := fun sizes d ↦ P d ∧ sizes.map Prod.snd = runs)
    ((Triple.foldlM (I := fun left (sizes : List (ℕ × ℕ)) d ↦ P d ∧
      sizes.map Prod.snd ++ left = runs) (fun path left sizes ↦ ?_) runs []).conseq ?_ ?_
        (fun _ _ ↦ id) (fun _ ↦ id)) fun sizes ↦ .ret ?_
  · refine .intro ?_
    rintro d ⟨hd, hsplit⟩
    refine .bind ((runSize_triple hC path).pre ?_) fun n ↦ .ret fun d hd ↦ ⟨hd, ?_⟩
    · rintro d' rfl
      exact hd
    · rw [List.map_append, List.append_assoc, ← hsplit]
      rfl
  · exact fun d hd ↦ ⟨hd, rfl⟩
  · rintro sizes d ⟨hd, hsplit⟩
    rw [List.append_nil] at hsplit
    exact ⟨hd, hsplit⟩
  · rintro d ⟨hd, rfl⟩
    exact ⟨hd, (List.perm_insertionSort _ sizes).map _⟩

theorem removeRuns_triple (hP : IgnoresRuns P) (hC : ∀ d, P d → C d)
    {R : Std.ExtTreeMap ℕ Bytes → Prop} (batch : List ℕ)
    (hR : ∀ r, R r → ∀ q ∈ batch, R (r.erase q)) :
    Triple o (fun d ↦ P d ∧ R d.runs)
      (batch.forM fun run ↦ Io.ignore
        (Io.step .runRemove fun d : Disk ↦ { d with runs := d.runs.erase run }))
      (fun _ d ↦ P d ∧ R d.runs) E C := by
  refine (Triple.forM (I := fun left d ↦ (P d ∧ R d.runs) ∧ ∀ q ∈ left, q ∈ batch)
    (fun run left ↦ ?_) batch).conseq (fun d hd ↦ ⟨hd, fun _ ↦ id⟩) (fun _ _ hd ↦ hd.1)
      (fun _ _ ↦ id) (fun _ ↦ id)
  refine Io.ignore_step (fun d hd ↦ hC d hd.1.1) ?_ ?_
  · rintro d ⟨⟨hd, hr⟩, hleft⟩
    rw [List.forall_mem_cons] at hleft
    exact ⟨⟨hP d _ hd, hR _ hr run hleft.1⟩, hleft.2⟩
  · rintro d ⟨hd, hleft⟩
    exact ⟨hd, (List.forall_mem_cons.1 hleft).2⟩

theorem Pool.Holds.perm {runs₀ runs : Std.ExtTreeMap ℕ Bytes} {keep : ℕ → Prop} {all : List Head}
    {p : Pool} {pool : List (ℕ × List Head)} (h : p.Holds runs₀ keep all runs pool) {order : List ℕ}
    (horder : order.Perm p.runs) :
    ∃ pool', Pool.Holds runs₀ keep all { p with runs := order } runs pool' := by
  have hruns : List.Forall₂ (fun q (run : ℕ × List Head) ↦ q = run.1) p.runs pool := by
    rw [h.runs_eq, List.forall₂_map_left_iff, List.forall₂_same]
    exact fun _ _ ↦ rfl
  obtain ⟨pool', horder', hperm⟩ := List.perm_comp_forall₂ horder hruns
  have hflat := hperm.flatMap_right Prod.snd
  refine ⟨pool', ?_, horder.nodup_iff.2 h.nodup, fun q hq ↦ h.bound q (horder.subset hq), ?_,
    fun run hrun ↦ h.held run (hperm.subset hrun), h.kept, fun x hx ↦
      h.sub x (hflat.subset hx), ?_, ?_⟩
  · have heq : List.Forall₂ (· = ·) order (pool'.map Prod.fst) :=
      List.forall₂_map_right_iff.2 horder'
    rwa [List.forall₂_eq_eq_eq] at heq
  · intro q hq
    exact ⟨(h.apart q hq).1, fun hmem ↦ (h.apart q hq).2 (horder.subset hmem)⟩
  · rw [hflat.length_eq]
    exact h.count
  · intro more hranked
    rw [← h.same more hranked]
    have hsub : ∀ x ∈ pool.flatMap Prod.snd ++ more, x ∈ all ++ more := by
      intro x hx
      rw [List.mem_append] at hx ⊢
      exact hx.imp_left (h.sub x)
    exact canon_congr (hranked.mono hsub) fun x ↦ (hflat.append_right more).mem_iff

section Shrunk

variable {runs₀ runs : Std.ExtTreeMap ℕ Bytes} {keep : ℕ → Prop} {all : List Head} {p : Pool}
  {pool : List (ℕ × List Head)}

/-- The records of the runs that are merged, normalised. -/
abbrev mergedRecords (pool : List (ℕ × List Head)) (n : ℕ) : List Head :=
  canon Head.key Head.rank ((pool.take n).flatMap Prod.snd)

theorem flatMap_take_append_drop (pool : List (ℕ × List Head)) (n : ℕ) :
    pool.flatMap Prod.snd = (pool.take n).flatMap Prod.snd ++ (pool.drop n).flatMap Prod.snd := by
  rw [← List.flatMap_append, List.take_append_drop]

theorem Pool.Holds.mem_runs (h : p.Holds runs₀ keep all runs pool) {run : ℕ × List Head}
    (hrun : run ∈ pool) : run.1 ∈ p.runs := by
  rw [h.runs_eq]
  exact List.mem_map_of_mem hrun

theorem Pool.Holds.mem_runs_take (h : p.Holds runs₀ keep all runs pool) {n q : ℕ}
    (hq : q ∈ (pool.take n).map Prod.fst) : q ∈ p.runs := by
  rw [List.map_take, ← h.runs_eq] at hq
  exact List.mem_of_mem_take hq

theorem Pool.Holds.sub_take (h : p.Holds runs₀ keep all runs pool) (n : ℕ) :
    ∀ x ∈ (pool.take n).flatMap Prod.snd, x ∈ all := fun x hx ↦
  h.sub x (flatMap_take_append_drop pool n ▸ List.mem_append_left _ hx)

theorem Pool.Holds.writing (h : p.Holds runs₀ keep all runs pool) {hs : List Head}
    {r : Std.ExtTreeMap ℕ Bytes} (hr : WritesRun runs (p.next + 1) hs r) {run : ℕ × List Head}
    (hrun : run ∈ pool) : Held r run := by
  have hle := h.bound run.1 (h.mem_runs hrun)
  exact (h.held run hrun).congr (hr.others run.1 (by omega))

theorem Pool.Holds.same_shrunk (h : p.Holds runs₀ keep all runs pool) (n : ℕ) {more : List Head}
    (hmore : Ranked Head.key Head.rank (all ++ more)) :
    canon Head.key Head.rank (((pool.drop n).flatMap Prod.snd ++ mergedRecords pool n) ++ more) =
      canon Head.key Head.rank (all ++ more) := by
  have hall : ∀ x ∈ (pool.take n).flatMap Prod.snd ++ ((pool.drop n).flatMap Prod.snd ++ more),
      x ∈ all ++ more := by
    intro x hx
    rw [← List.append_assoc, ← flatMap_take_append_drop, List.mem_append] at hx
    rw [List.mem_append]
    exact hx.imp_left (h.sub x)
  have hranked := hmore.mono hall
  rw [← h.same more hmore, flatMap_take_append_drop pool n,
    List.append_assoc ((pool.take n).flatMap Prod.snd), ← canon_append_canon hranked]
  refine canon_congr (hranked.mono fun x hx ↦ ?_) fun x ↦ ?_
  · rw [List.mem_append] at hx ⊢
    exact hx.imp_left (mem_of_mem_canon _ _)
  · simp only [List.mem_append]
    tauto

/-- **The pool after an intermediate merge.** The new run has been written, and of the others at
most the merged ones have been removed. -/
theorem Pool.Holds.shrunk (h : p.Holds runs₀ keep all runs pool) (n : ℕ) {dropped : ℕ}
    {written left : Std.ExtTreeMap ℕ Bytes}
    (hw : WritesRun runs (p.next + 1) (mergedRecords pool n) written)
    (hr : ∀ q, q ∉ (pool.take n).map Prod.fst → left[q]? = written[q]?)
    (hcount : (mergedRecords pool n).length + dropped = ((pool.take n).flatMap Prod.snd).length) :
    Pool.Holds runs₀ keep all ⟨p.runs.drop n ++ [p.next + 1], p.next + 1, p.deduplicated + dropped⟩
      left (pool.drop n ++ [(p.next + 1, mergedRecords pool n)]) := by
  have hnew : p.next + 1 ∉ p.runs := fun hmem ↦ by
    have := h.bound _ hmem
    omega
  refine ⟨?_, ?_, ?_, ?_, ?_, ?_, ?_, ?_, ?_⟩
  · rw [List.map_append, List.map_drop, ← h.runs_eq]
    rfl
  · refine List.nodup_append.2 ⟨h.nodup.sublist (List.drop_sublist _ _), by simp, ?_⟩
    rintro q hq q' hq' rfl
    rw [List.mem_singleton] at hq'
    exact hnew (hq' ▸ List.mem_of_mem_drop hq)
  · intro q hq
    rcases List.mem_append.1 hq with hq | hq
    · exact (h.bound q (List.mem_of_mem_drop hq)).trans (Nat.le_succ _)
    · exact (List.mem_singleton.1 hq).le
  · intro q hq
    obtain ⟨hle, hnot⟩ := h.apart q hq
    refine ⟨hle.trans (Nat.le_succ _), fun hmem ↦ ?_⟩
    rcases List.mem_append.1 hmem with hmem | hmem
    · exact hnot (List.mem_of_mem_drop hmem)
    · rw [List.mem_singleton.1 hmem] at hle
      omega
  · intro run hrun
    rcases List.mem_append.1 hrun with hrun | hrun
    · refine (h.writing hw (List.mem_of_mem_drop hrun)).congr (hr run.1 fun hmem ↦ ?_)
      have hnodup := h.nodup
      rw [h.runs_eq, ← List.take_append_drop n pool, List.map_append] at hnodup
      exact (List.nodup_append.1 hnodup).2.2 _ hmem _ (List.mem_map_of_mem hrun) rfl
    · obtain rfl := List.mem_singleton.1 hrun
      refine ⟨(hr _ fun hmem ↦ hnew (h.mem_runs_take hmem)).trans hw.file, fun x hx ↦ ?_,
        (pairwise_canon _ _ _).imp fun hlt ↦ (rankLE_iff _ _).2 (.inl hlt)⟩
      obtain ⟨run, hrun, hxr⟩ := List.mem_flatMap.1 (mem_of_mem_canon _ _ hx)
      exact (h.held run (List.mem_of_mem_take hrun)).stored x hxr
  · intro q hq
    obtain ⟨hle, hnot⟩ := h.apart q hq
    rw [hr q fun hmem ↦ hnot (h.mem_runs_take hmem), hw.others q (by omega), h.kept q hq]
  · intro x hx
    rw [List.flatMap_append, List.flatMap_singleton, List.mem_append] at hx
    rcases hx with hx | hx
    · exact h.sub x (flatMap_take_append_drop pool n ▸ List.mem_append_right _ hx)
    · exact h.sub_take n x (mem_of_mem_canon _ _ hx)
  · have hsum := h.count
    rw [flatMap_take_append_drop pool n, List.length_append] at hsum
    rw [List.flatMap_append, List.flatMap_singleton, List.length_append]
    dsimp only
    omega
  · intro more hmore
    rw [List.flatMap_append, List.flatMap_singleton]
    exact h.same_shrunk n hmore

/-- **An intermediate merge** leaves a pool that stands for the same records. -/
theorem Pool.shrink_triple (hP : IgnoresRuns P) (hx : Exits Op.onFiles o J ioError E C)
    (hJ : ∀ d, P d → J d) (hranked : Ranked Head.key Head.rank all) (fanIn inMemory : ℕ) :
    Triple o (fun d ↦ P d ∧ ∃ pool, p.Holds runs₀ keep all d.runs pool) (p.shrink fanIn inMemory)
      (fun p' d ↦ (P d ∧ ∃ pool, p'.Holds runs₀ keep all d.runs pool) ∧ p.next ≤ p'.next ∧
        p'.runs.length =
          p.runs.length - min (p.runs.length + inMemory - fanIn + 1) fanIn + 1) E C := by
  unfold Pool.shrink
  generalize min (p.runs.length + inMemory - fanIn + 1) fanIn = n
  dsimp only
  refine .bind (sortBySize_triple (fun d hd ↦ hx.crash d (hJ d hd.1)) p.runs) fun order ↦ .intro ?_
  rintro d₁ ⟨⟨hd₁, pool₁, hpool₁⟩, horder⟩
  obtain ⟨pool, hpool⟩ := hpool₁.perm horder
  have hbatch : order.take n = (pool.take n).map Prod.fst := by
    rw [List.map_take, ← hpool.runs_eq]
  refine .bind ((WritesRun.create_triple hP hx hJ d₁.runs (p.next + 1)).pre ?_) fun _ ↦ ?_
  · rintro d rfl
    exact ⟨hd₁, rfl⟩
  rw [hbatch]
  refine .bind (openRuns_triple hx (fun d hd ↦ hJ d hd.1) fun d hd run hrun ↦
    hpool.writing hd.2 (List.mem_of_mem_take hrun)) fun sources ↦ .intro ?_
  rintro d₂ ⟨hd₂, hok, hcontents⟩
  refine .bind ((merge_triple (I := fun hs (_ : Unit) d ↦ P d ∧
      WritesRun d₁.runs (p.next + 1) hs d.runs) hx (fun _ _ d hd ↦ hJ d hd.1) hok ?_ rfl ?_).pre ?_)
    fun r ↦ ?_
  · rw [hcontents]
    exact hranked.mono (hpool.sub_take n)
  · rintro done h rest ⟨⟩ -
    exact WritesRun.push_triple hP hx hJ _ _ done h
  · rintro d rfl
    exact hd₂
  rw [hcontents]
  refine .bind (RunWriter.finish_triple hx fun d hd ↦ hJ d hd.1.1) fun _ ↦ .intro ?_
  rintro d₃ ⟨⟨hd₃, hw⟩, hemitted, hcount⟩
  -- removing the merged runs leaves the new one, the others of the pool, and those of others
  refine .bind ((removeRuns_triple hP (fun d hd ↦ hx.crash d (hJ d hd))
    (R := fun r ↦ ∀ q, q ∉ (pool.take n).map Prod.fst → r[q]? = d₃.runs[q]?)
    ((pool.take n).map Prod.fst) ?_).pre ?_) fun _ ↦ .ret ?_
  · intro r hr q hq q' hq'
    have hne : q ≠ q' := fun heq ↦ hq' (heq ▸ hq)
    rw [getElem?_erase_of_ne hne, hr q' hq']
  · rintro d rfl
    exact ⟨hd₃, fun _ _ ↦ rfl⟩
  rintro d ⟨hd, hr⟩
  rw [hemitted] at hcount
  refine ⟨⟨hd, _, hpool.shrunk n hw hr hcount⟩, Nat.le_succ _, ?_⟩
  rw [List.length_append, List.length_drop, horder.length_eq]
  rfl

end Shrunk

/-- The loop of intermediate merges ends with few enough runs, standing for the same records. -/
theorem shrinkLoop_triple (runs₀ : Std.ExtTreeMap ℕ Bytes) (keep : ℕ → Prop) (hP : IgnoresRuns P)
    (hx : Exits Op.onFiles o J ioError E C) (hJ : ∀ d, P d → J d) {all : List Head}
    (hranked : Ranked Head.key Head.rank all) {fanIn inMemory : ℕ} (hfan : 2 ≤ fanIn)
    (hmem : inMemory ≤ 1) {fuel : ℕ} {p : Pool} (hfuel : p.runs.length ≤ fuel) :
    Triple o (fun d ↦ P d ∧ ∃ pool, p.Holds runs₀ keep all d.runs pool)
      (shrinkLoop fanIn inMemory fuel p)
      (fun p' d ↦ (P d ∧ ∃ pool, p'.Holds runs₀ keep all d.runs pool) ∧ p.next ≤ p'.next ∧
        p'.runs.length + inMemory ≤ fanIn) E C := by
  induction fuel generalizing p with
  | zero => exact .ret fun d hd ↦ ⟨hd, le_rfl, by omega⟩
  | succ fuel ih =>
    rw [shrinkLoop]
    by_cases hmore : fanIn < p.runs.length + inMemory
    · rw [if_pos hmore]
      refine .bind (Pool.shrink_triple hP hx hJ hranked fanIn inMemory) fun p' ↦ .intro ?_
      rintro d ⟨hd, hnext, hlen⟩
      refine (ih (p := p') (by omega)).conseq ?_ ?_ (fun _ _ ↦ id) (fun _ ↦ id)
      · rintro d' rfl
        exact hd
      · rintro p'' d' ⟨hd', hnext', hend⟩
        exact ⟨hd', hnext.trans hnext', hend⟩
    · rw [if_neg hmore]
      exact .ret fun d hd ↦ ⟨hd, le_rfl, not_lt.1 hmore⟩

/-- Runs that have not been merged stand for their own records. -/
theorem Pool.Holds.start {runs : Std.ExtTreeMap ℕ Bytes} {keep : ℕ → Prop}
    {pool : List (ℕ × List Head)} {next : ℕ} (hheld : ∀ run ∈ pool, Held runs run)
    (hnodup : (pool.map Prod.fst).Nodup) (hbound : ∀ run ∈ pool, run.1 ≤ next)
    (hkeep : ∀ q, keep q → q ≤ next ∧ q ∉ pool.map Prod.fst) :
    Pool.Holds runs keep (pool.flatMap Prod.snd) { runs := pool.map Prod.fst, next } runs pool where
  runs_eq := rfl
  nodup := hnodup
  bound q hq := by
    obtain ⟨run, hrun, rfl⟩ := List.mem_map.1 hq
    exact hbound run hrun
  apart := hkeep
  held := hheld
  kept _ _ := rfl
  sub _ := id
  count := Nat.zero_add _
  same _ _ := rfl

/-! ## The bounded merge -/

section Bounded

variable {σ : Type} {sink : σ → Head → Io σ} {init : σ} {memory : Option Source}

/-- **The bounded merge** passes to its sink the records of the runs and of the source in memory, in
normal form, whatever the fan-in. The runs of others stay as they are. -/
theorem mergeBounded_triple {I : List Head → σ → Disk → Prop} (hI : ∀ hs s, IgnoresRuns (I hs s))
    (hx : Exits Op.onFiles o J ioError E C) (hIJ : ∀ hs s d, I hs s d → J d)
    {runs₀ : Std.ExtTreeMap ℕ Bytes} {keep : ℕ → Prop} {pool : List (ℕ × List Head)} {next : ℕ}
    {hs all : List Head} (fanIn : ℕ)
    (hpool : Pool.Holds runs₀ keep (pool.flatMap Prod.snd) { runs := pool.map Prod.fst, next }
      runs₀ pool)
    (hmemory : Yields memory hs)
    (hranked : Ranked Head.key Head.rank (pool.flatMap Prod.snd ++ hs))
    (hall : all = canon Head.key Head.rank (pool.flatMap Prod.snd ++ hs))
    (hsink : ∀ (R : Std.ExtTreeMap ℕ Bytes → Prop) done h rest s, all = done ++ h :: rest →
      Triple o (fun d ↦ I done s d ∧ R d.runs) (sink s h)
        (fun s' d ↦ I (done ++ [h]) s' d ∧ R d.runs) E C) :
    Triple o (fun d ↦ I [] init d ∧ d.runs = runs₀)
      (mergeBounded (pool.map Prod.fst) memory fanIn next sink init)
      (fun r d ↦ I all r.1 d ∧ (∀ q, keep q → d.runs[q]? = runs₀[q]?) ∧
        r.2.1.emitted = all.length ∧
        r.2.1.emitted + r.2.1.deduplicated = (pool.flatMap Prod.snd ++ hs).length ∧
        next ≤ r.2.2) E C := by
  have hone : memory.toList.length ≤ 1 := by cases memory <;> simp
  have hranked' : Ranked Head.key Head.rank (pool.flatMap Prod.snd) :=
    hranked.mono fun x hx ↦ List.mem_append_left _ hx
  refine .bind
    ((shrinkLoop_triple runs₀ keep (p := { runs := pool.map Prod.fst, next }) (hI [] init)
    hx (hIJ [] init) hranked' (le_max_right fanIn 2) hone le_rfl).pre ?_) fun p ↦ .intro ?_
  · rintro d ⟨hd, rfl⟩
    exact ⟨hd, pool, hpool⟩
  rintro d₁ ⟨⟨hd₁, pool', hpool'⟩, hnext, -⟩
  rw [hpool'.runs_eq]
  refine .bind ((openRuns_triple (P := fun d ↦ I [] init d ∧ d.runs = d₁.runs) hx
    (fun d hd ↦ hIJ _ _ d hd.1) fun d hd run hrun ↦ hd.2 ▸ hpool'.held run hrun).pre ?_)
    fun sources ↦ .intro ?_
  · rintro d rfl
    exact ⟨hd₁, rfl⟩
  rintro d₂ ⟨⟨hd₂, hruns⟩, hok, hcontents⟩
  have hflat : (sources ++ memory.toList).flatMap Source.contents = pool'.flatMap Prod.snd ++
    hs := by
    rw [List.flatMap_append, hcontents, hmemory.flatMap_contents]
  have hsub : ∀ x ∈ pool'.flatMap Prod.snd ++ hs, x ∈ pool.flatMap Prod.snd ++ hs := by
    intro x hx
    rw [List.mem_append] at hx ⊢
    exact hx.imp_left (hpool'.sub x)
  have hall' : all = canon Head.key Head.rank
      ((sources ++ memory.toList).flatMap Source.contents) := by
    rw [hall, hflat, hpool'.same hs hranked]
  refine .bind ((merge_triple (I := fun done s d ↦ I done s d ∧
      ∀ q, keep q → d.runs[q]? = runs₀[q]?) hx (fun _ _ d hd ↦ hIJ _ _ d hd.1)
    (fun s hs ↦ ?_) ?_ hall' ?_).pre ?_) fun r ↦ .ret ?_
  · rcases List.mem_append.1 hs with hs | hs
    · exact hok s hs
    · exact hmemory.ok s (Option.mem_toList.1 hs)
  · rw [hflat]
    exact hranked.mono hsub
  · exact fun done h rest s hsplit ↦
      hsink (fun r ↦ ∀ q, keep q → r[q]? = runs₀[q]?) done h rest s hsplit
  · rintro d rfl
    exact ⟨hd₂, hruns ▸ hpool'.kept⟩
  · rintro d ⟨⟨hd, hkept⟩, hemitted, hcount⟩
    refine ⟨hd, hkept, hemitted, ?_, hnext⟩
    have hsum := hpool'.count
    rw [hflat, List.length_append] at hcount
    rw [List.length_append]
    dsimp only
    omega

theorem openRuns_keeps (runs : List ℕ) : Keeps o P (openRuns runs) :=
  .foldlM (fun _ _ ↦ (Io.read_keeps.bind fun _ ↦ Io.read_keeps.bind fun _ ↦ .ret _).bind
    fun _ ↦ .ret _) runs []

theorem RunWriter.push_keeps (hP : IgnoresRuns P) (run : ℕ) (arrival : ℕ × ℕ) (frame : Bytes) :
    Keeps o P (RunWriter.push run arrival frame) := by
  refine (Keeps.write fun n d hd ↦ hP d _ hd).bind fun r ↦ ?_
  obtain ⟨n, whole⟩ := r
  cases whole with
  | true => exact .ret ()
  | false => exact .fail _

variable {I : σ → Disk → Prop}

theorem merge_keeps (hIJ : ∀ s d, I s d → J d)
    (hsink : ∀ s h, Triple o (I s) (sink s h) I (fun _ ↦ J) J) (sources : List Source) (init : σ) :
    Triple o (I init) (merge sources sink init) (fun r ↦ I r.1) (fun _ ↦ J) J := by
  have hadvance : ∀ (s : Source) (out : σ),
      Triple o (I out) s.advance (fun _ ↦ I out) (fun _ ↦ J) J := by
    intro s out
    refine Triple.exits (E := fun _ ↦ I out) (C := I out) ?_ (fun _ ↦ hIJ out) (hIJ out)
    cases s with
    | mem h rest => cases rest <;> exact .ret fun _ ↦ id
    | run h input => exact Io.read_keeps.bind fun _ ↦ .ret _
  have hloop : ∀ fuel heap (s : MergeState σ),
      Triple o (I s.out) (mergeLoop sink fuel heap s) (fun s' ↦ I s'.out) (fun _ ↦ J) J := by
    intro fuel
    induction fuel with
    | zero => exact fun heap s ↦ .ret fun _ ↦ id
    | succ fuel ih =>
      intro heap s
      cases heap with
      | nil => exact .ret fun _ ↦ id
      | cons top rest =>
        refine .bind (Q := fun (s' : MergeState σ) ↦ I s'.out) ?_ fun s' ↦
          .bind (hadvance top s'.out) fun next ↦ ih _ s'
        rw [MergeState.emit]
        split_ifs
        · exact .ret fun _ ↦ id
        · exact .bind (hsink s.out top.head) fun out ↦ .ret fun _ ↦ id
  exact .bind (hloop _ _ { out := init }) fun s ↦ .ret fun _ ↦ id

theorem shrinkLoop_keeps (hP : IgnoresRuns P) (fanIn inMemory fuel : ℕ) (p : Pool) :
    Keeps o P (shrinkLoop fanIn inMemory fuel p) := by
  induction fuel generalizing p with
  | zero => exact .ret p
  | succ fuel ih =>
    rw [shrinkLoop]
    split_ifs
    · refine Keeps.bind ?_ ih
      unfold Pool.shrink
      refine Keeps.bind ((sortBySize_triple (fun _ ↦ id) p.runs).post fun _ _ hd ↦ hd.1)
        fun order ↦ ?_
      refine Keeps.bind (Io.step_keeps fun d hd ↦ hP d _ hd) fun _ ↦
        (openRuns_keeps _).bind fun sources ↦ ?_
      refine Keeps.bind (merge_keeps (I := fun _ : Unit ↦ P) (fun _ _ ↦ id)
        (fun _ h ↦ RunWriter.push_keeps hP _ _ _) sources ()) fun r ↦
          (Io.touch_keeps _).bind fun _ ↦ ?_
      exact (Keeps.forM (fun run ↦ Io.ignore_triple (Io.step_keeps fun d hd ↦ hP d _ hd)) _).bind
        fun _ ↦ .ret _
    · exact .ret p

/-- **An invariant of the sink** that does not look at the runs is one of the bounded merge. -/
theorem mergeBounded_keeps (hI : ∀ s, IgnoresRuns (I s)) (hIJ : ∀ s d, I s d → J d)
    (hsink : ∀ s h, Triple o (I s) (sink s h) I (fun _ ↦ J) J) (runs : List ℕ)
    (memory : Option Source) (fanIn next : ℕ) (init : σ) :
    Triple o (I init) (mergeBounded runs memory fanIn next sink init) (fun r ↦ I r.1) (fun _ ↦ J)
      J := by
  have hexit : ∀ {α : Type} {p : Io α}, Keeps o (I init) p →
      Triple o (I init) p (fun _ ↦ I init) (fun _ ↦ J) J :=
    fun h ↦ Triple.exits h (fun _ ↦ hIJ init) (hIJ init)
  exact .bind (hexit (shrinkLoop_keeps (hI init) _ _ _ _)) fun p ↦
    .bind (hexit (openRuns_keeps p.runs)) fun sources ↦
      .bind (merge_keeps hIJ hsink _ init) fun r ↦ .ret fun _ ↦ id

end Bounded

end Triples

end Orc
