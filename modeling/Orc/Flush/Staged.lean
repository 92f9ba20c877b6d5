import Mathlib.Algebra.BigOperators.Group.Finset.Piecewise
import Orc.Flush.Gather

/-!
# What the second phase of a flush stages

The groups are merged one after the other. What the merge of a group gives is the normal form of its
records, whichever way they were split between runs and memory, and it is staged in one file for
each hour (`mergePartition_triple`). The runs of the groups still to come are left alone, and so are
the files of the groups before, since the names of groups differ. So after all groups there is a
file for each hour of each (`mergeGroups_triple`).

`Merging` is what the first phase hands over: numbered runs and what is left in memory, which
together stand for all records. The records of a group enter by their normal form only, so nothing
here depends on where the batch was spilled or how the runs were merged.
-/

namespace Orc

open Bytes Fault Order

/-! ## What the second phase is given -/

/-- The runs of one group, with their records. -/
def runsIn (rs : List (GroupKey × ℕ × List Head)) (g : GroupKey) : List (ℕ × List Head) :=
  (rs.filter fun r ↦ r.1 = g).map Prod.snd

/-- The runs `rs` and the records `mem` in memory stand for `all`. -/
structure Merging (spill : Spill) (rs : List (GroupKey × ℕ × List Head))
    (mem : List (GroupKey × List Head)) (all : List (GroupKey × Head)) (dropped : ℕ) : Prop where
  groups : spill.groups = rs.map fun r ↦ (r.1, r.2.1)
  numbers : rs.map (fun r ↦ r.2.1) = List.range' 1 spill.next
  memory : (mem.map Prod.fst).Nodup
  split : Split all (rs.map (fun r ↦ (r.1, r.2.2)) ++ mem) [] dropped
  distinct : Batch.Distinct all
  stored : ∀ g h, (g, h) ∈ all → h.Stored

/-- The records of one group, on disk and in memory. -/
def recordsIn (rs : List (GroupKey × ℕ × List Head)) (mem : List (GroupKey × List Head))
    (g : GroupKey) : List Head :=
  (runsIn rs g).flatMap Prod.snd ++ (mem.lookup g).getD []

private theorem sum_length_recordsOf {keys : List GroupKey} (hnodup : keys.Nodup)
    {srcs : List (GroupKey × List Head)} (hmem : ∀ s ∈ srcs, s.1 ∈ keys) :
    (keys.map fun g ↦ (recordsOf g srcs).length).sum = (srcs.flatMap Prod.snd).length := by
  induction srcs with
  | nil => simp [recordsOf]
  | cons s srcs ih =>
    rw [List.forall_mem_cons] at hmem
    have hsplit : ∀ g, (recordsOf g (s :: srcs)).length =
        (if s.1 = g then s.2.length else 0) + (recordsOf g srcs).length := fun g ↦ by
      rw [← List.singleton_append, recordsOf_append, List.length_append]
      congr 1
      by_cases hg : s.1 = g
      · simp [recordsOf, hg]
      · simp [recordsOf, hg]
    simp only [hsplit]
    rw [List.sum_map_add, ih hmem.2, ← List.sum_toFinset _ hnodup, Finset.sum_ite_eq,
      if_pos (List.mem_toFinset.2 hmem.1), List.flatMap_cons, List.length_append]

namespace Merging

variable {spill : Spill} {rs : List (GroupKey × ℕ × List Head)} {mem : List (GroupKey × List Head)}
  {all : List (GroupKey × Head)} {dropped : ℕ}

private theorem runsOf_eq (h : Merging spill rs mem all dropped) (g : GroupKey) :
    spill.runsOf g = (runsIn rs g).map Prod.fst := by
  rw [Spill.runsOf, h.groups, runsIn, List.filter_map, List.map_map, List.map_map]
  rfl

theorem recordsIn_eq (h : Merging spill rs mem all dropped) (g : GroupKey) :
    recordsIn rs mem g = recordsOf g (rs.map (fun r ↦ (r.1, r.2.2)) ++ mem) := by
  rw [recordsOf_append, recordsOf_eq_lookup h.memory, recordsIn, recordsOf, List.filter_map,
    List.flatMap_map, runsIn, List.flatMap_map]
  rfl

theorem sub (h : Merging spill rs mem all dropped) {g : GroupKey} {x : Head}
    (hx : x ∈ recordsIn rs mem g) : (g, x) ∈ all :=
  h.split.sub g x (List.mem_append_left _ (h.recordsIn_eq g ▸ hx))

private theorem ranked (h : Merging spill rs mem all dropped) (g : GroupKey) :
    Ranked Head.key Head.rank (recordsIn rs mem g) :=
  (h.distinct.ofGroup g).mono fun _ hx ↦ mem_ofGroup.2 (h.sub hx)

private theorem canon_eq (h : Merging spill rs mem all dropped) (g : GroupKey) :
    canon Head.key Head.rank (recordsIn rs mem g) = canon Head.key Head.rank (ofGroup g all) := by
  rw [h.recordsIn_eq]
  exact h.split.canon_eq h.distinct g

private theorem number_le (h : Merging spill rs mem all dropped) {r : GroupKey × ℕ × List Head}
    (hr : r ∈ rs) : r.2.1 ≤ spill.next := by
  have hmem := List.mem_map_of_mem (f := fun r : GroupKey × ℕ × List Head ↦ r.2.1) hr
  rw [h.numbers, List.mem_range'_1] at hmem
  omega

private theorem numbers_nodup (h : Merging spill rs mem all dropped) :
    (rs.map fun r ↦ r.2.1).Nodup := by
  rw [h.numbers]
  exact List.nodup_range'

theorem sorted (h : Merging spill rs mem all dropped) {g : GroupKey} {hs : List Head}
    (hmem : (g, hs) ∈ rs.map (fun r ↦ (r.1, r.2.2)) ++ mem) : hs.Pairwise headLE :=
  (h.split.sorted _ hmem).2.imp fun hlt ↦ (rankLE_iff _ _).2 (.inl hlt)

private theorem memory_sorted (h : Merging spill rs mem all dropped) (g : GroupKey) :
    ((mem.lookup g).getD []).Pairwise headLE := by
  cases hlook : mem.lookup g with
  | none => exact .nil
  | some hs =>
    obtain ⟨front, back, rfl, -⟩ := List.lookup_eq_some_iff.1 hlook
    exact h.sorted (g := g) (by simp)

theorem mem_runsIn {g : GroupKey} {run : ℕ × List Head} : run ∈ runsIn rs g ↔ (g, run) ∈ rs := by
  simp [runsIn]

private theorem held (h : Merging spill rs mem all dropped) {runs : Std.ExtTreeMap ℕ Bytes}
    {g : GroupKey} (hfiles : ∀ r ∈ rs, r.1 = g → runs[r.2.1]? = some (runBytes r.2.2)) :
    ∀ run ∈ runsIn rs g, Held runs run := by
  intro run hrun
  have hr := mem_runsIn.1 hrun
  refine ⟨hfiles _ hr rfl, fun x hx ↦ h.stored g x (h.sub ?_), h.sorted (g := g) ?_⟩
  · exact List.mem_append_left _ (List.mem_flatMap.2 ⟨run, hrun, hx⟩)
  · exact List.mem_append_left _ (List.mem_map.2 ⟨_, hr, rfl⟩)

private theorem pool (h : Merging spill rs mem all dropped) {runs : Std.ExtTreeMap ℕ Bytes}
    {g : GroupKey} {left : List GroupKey} {next : ℕ} (hnext : spill.next ≤ next) (hleft : g ∉ left)
    (hfiles : ∀ r ∈ rs, r.1 = g → runs[r.2.1]? = some (runBytes r.2.2)) :
    Pool.Holds runs (fun q ↦ ∃ r ∈ rs, r.1 ∈ left ∧ r.2.1 = q) ((runsIn rs g).flatMap Prod.snd)
      { runs := (runsIn rs g).map Prod.fst, next } runs (runsIn rs g) := by
  refine .start (h.held hfiles) ?_ (fun run hrun ↦ (h.number_le (mem_runsIn.1 hrun)).trans hnext) ?_
  · rw [runsIn, List.map_map]
    exact h.numbers_nodup.sublist (List.filter_sublist.map _)
  · rintro q ⟨r, hr, hlater, rfl⟩
    refine ⟨(h.number_le hr).trans hnext, fun hmem ↦ ?_⟩
    obtain ⟨run, hrun, heq⟩ := List.mem_map.1 hmem
    have hsame := List.inj_on_of_nodup_map h.numbers_nodup (mem_runsIn.1 hrun) hr heq
    exact hleft (by rwa [← hsame] at hlater)

theorem mem_groupKeys_iff (h : Merging spill rs mem all dropped) {g : GroupKey} :
    g ∈ groupKeys mem spill ↔ ∃ hs, (g, hs) ∈ rs.map (fun r ↦ (r.1, r.2.2)) ++ mem := by
  have hmem : g ∈ groupKeys mem spill ↔ g ∈ mem.map Prod.fst ++ spill.groups.map Prod.fst :=
    mem_canon_of_injective _ _ Batch.GroupKey.ord_injective
  rw [hmem, h.groups, List.map_map, List.mem_append]
  constructor
  · rintro (hg | hg)
    · obtain ⟨⟨_, hs⟩, hs_mem, rfl⟩ := List.mem_map.1 hg
      exact ⟨hs, List.mem_append_right _ hs_mem⟩
    · obtain ⟨r, hr, rfl⟩ := List.mem_map.1 hg
      exact ⟨r.2.2, List.mem_append_left _ (List.mem_map.2 ⟨r, hr, rfl⟩)⟩
  · rintro ⟨hs, hs_mem⟩
    rcases List.mem_append.1 hs_mem with hrs | hmem
    · obtain ⟨r, hr, heq⟩ := List.mem_map.1 hrs
      exact .inr (List.mem_map.2 ⟨r, hr, congrArg Prod.fst heq⟩)
    · exact .inl (List.mem_map.2 ⟨_, hmem, rfl⟩)

/-- They are the groups that have records. -/
theorem mem_groupKeys (h : Merging spill rs mem all dropped) {g : GroupKey} :
    g ∈ groupKeys mem spill ↔ ∃ x, (g, x) ∈ all := by
  rw [h.mem_groupKeys_iff]
  constructor
  · rintro ⟨hs, hmem⟩
    obtain ⟨x, hx⟩ := List.exists_mem_of_ne_nil hs (h.split.sorted _ hmem).1
    exact ⟨x, h.split.sub g x (List.mem_append_left _ (mem_recordsOf.2 ⟨hs, hmem, hx⟩))⟩
  · rintro ⟨x, hx⟩
    obtain ⟨y, hy, -⟩ := exists_mem_canon Head.key Head.rank (mem_ofGroup.2 hx)
    rw [← h.split.canon_eq h.distinct] at hy
    obtain ⟨hs, hmem, -⟩ := mem_recordsOf.1 (mem_of_mem_canon _ _ hy)
    exact ⟨hs, hmem⟩

theorem groupKeys_nodup (mem : List (GroupKey × List Head)) (spill : Spill) :
    (groupKeys mem spill).Nodup :=
  (pairwise_canon GroupKey.ord GroupKey.ord _).imp fun hlt ↦ ne_of_apply_ne GroupKey.ord hlt.ne

/-- The records of all groups, with those dropped before, are all records. -/
theorem total (h : Merging spill rs mem all dropped) :
    ((groupKeys mem spill).map fun g ↦ (recordsIn rs mem g).length).sum + dropped = all.length := by
  have hcount := h.split.count
  simp only [h.recordsIn_eq]
  rw [sum_length_recordsOf (groupKeys_nodup mem spill) fun s hs ↦ h.mem_groupKeys_iff.2 ⟨s.2, hs⟩]
  rw [List.length_nil] at hcount
  omega

end Merging

/-! ## One group -/

section Triples

variable {o : Oracle Op} {J P : Disk → Prop} {E : Error → Disk → Prop} {C : Disk → Prop}

private theorem hours_of_keys {hs : List Head} (h : hs.Pairwise fun a b ↦ a.key < b.key) :
    hs.Pairwise fun a b ↦ hourOf a ≤ hourOf b := by
  refine h.imp fun {a b} hlt ↦ Nat.div_le_div_right ?_
  rcases Prod.Lex.toLex_lt_toLex.1 hlt with hlt | heq
  · exact hlt.le
  · exact heq.1.le

/-- **The merge of a group** stages one file for each hour of its records. -/
theorem mergePartition_triple (flush : FlushConfig) {t : Target} (hruns : IgnoresRuns P)
    (hstaged : t.Ignored P) (hx : Exits Op.onFiles o J ioError E C) (hJ : ∀ d, P d → J d)
    (hcodec : t.compression ∉ supportedCompression →
      ∀ d, P d → E (.config (.compression t.compression)) d)
    {runs₀ : Std.ExtTreeMap ℕ Bytes} {keep : ℕ → Prop} {pool : List (ℕ × List Head)}
    {hs out : List Head} {s : Merged}
    (hpool : Pool.Holds runs₀ keep (pool.flatMap Prod.snd)
      { runs := pool.map Prod.fst, next := s.next } runs₀ pool)
    (hsorted : hs.Pairwise headLE)
    (hranked : Ranked Head.key Head.rank (pool.flatMap Prod.snd ++ hs))
    (hout : out = canon Head.key Head.rank (pool.flatMap Prod.snd ++ hs))
    (hwritable : ∀ h ∈ out, t.Writable h)
    (hlarge : ∀ h ∈ out, 2 ^ 63 ≤ h.ts.toNat → ∀ d, P d → E (.config (.tsTooLarge h.ts)) d)
    (hrefused : ∀ c ∈ cut hourOf out, t.Refusals o (c.map t.rowOf) P E) :
    Triple o (fun d ↦ P d ∧ d.runs = runs₀)
      (mergePartition flush t (pool.map Prod.fst) (Source.ofHeads hs) s)
      (fun s' d ↦ P d ∧ (∀ q, keep q → d.runs[q]? = runs₀[q]?) ∧
        s'.staged = s.staged ++ (cut hourOf out).map t.written ∧
        s'.rowsWritten = s.rowsWritten + out.length ∧
        s'.rowsWritten + s'.rowsDeduplicated =
          s.rowsWritten + s.rowsDeduplicated + (pool.flatMap Prod.snd ++ hs).length ∧
        s.next ≤ s'.next ∧ t.Closed o (cut hourOf out) d ∧ ∀ h ∈ out, h.ts.toNat < 2 ^ 63) E C := by
  have hhours : out.Pairwise fun a b ↦ hourOf a ≤ hourOf b := by
    rw [hout]
    exact hours_of_keys (pairwise_canon _ _ _)
  -- what the sink has been given is in the files of its hours
  refine .bind (Q := fun r d ↦ (P d ∧ (∀ q, keep q → d.runs[q]? = runs₀[q]?) ∧
      r.2.1.emitted = out.length ∧
      r.2.1.emitted + r.2.1.deduplicated = (pool.flatMap Prod.snd ++ hs).length ∧
      s.next ≤ r.2.2 ∧ ∀ h ∈ out, h.ts.toNat < 2 ^ 63) ∧ Partition.At o t s.staged out r.1 d)
    (((mergeBounded_triple (I := fun done p d ↦ P d ∧ Partition.At o t s.staged done p d ∧
      ∀ h ∈ done, h.ts.toNat < 2 ^ 63) ?_ hx (fun _ _ d hd ↦ hJ d hd.1) flush.mergeFanIn.toNat hpool
      (yields_ofHeads hsorted) hranked hout ?_).pre ?_).post ?_) fun r ↦ .bind (Q := fun p d ↦
        (P d ∧ (∀ q, keep q → d.runs[q]? = runs₀[q]?) ∧ r.2.1.emitted = out.length ∧
          r.2.1.emitted + r.2.1.deduplicated = (pool.flatMap Prod.snd ++ hs).length ∧
          s.next ≤ r.2.2 ∧ ∀ h ∈ out, h.ts.toNat < 2 ^ 63) ∧
        p = ⟨none, s.staged ++ (cut hourOf out).map t.written⟩ ∧ t.Closed o (cut hourOf out) d)
      (Partition.close_triple hx (fun d hd ↦ hJ d hd.1) (fun ts d f hd ↦
        ⟨hstaged ts d f hd.1, hd.2⟩) fun c hc ↦ (hrefused c hc).pre fun _ hd ↦ hd.1) fun p ↦ .ret ?_
  · exact fun done p d runs hd ↦ ⟨hruns d runs hd.1, hd.2.1.of_tmp rfl, hd.2.2⟩
  · intro R done h rest p hsplit
    have hmem : h ∈ out := hsplit ▸ List.mem_append_right _ List.mem_cons_self
    have hprefix : done ++ [h] <+: out := ⟨rest, by rw [hsplit, List.append_assoc]; rfl⟩
    have hemit : Triple o (fun d ↦ ((P d ∧ ∀ h ∈ done, h.ts.toNat < 2 ^ 63) ∧ R d.runs) ∧
        Partition.At o t s.staged done p d) (p.emit t h) _ E C :=
      Partition.emit_triple hx (fun d hd ↦ hJ d hd.1.1)
        (fun ts d f hd ↦ ⟨⟨hstaged ts d f hd.1.1, hd.1.2⟩, hd.2⟩)
        (fun hunknown d hd ↦ hcodec hunknown d hd.1.1) hprefix (hhours.sublist hprefix.sublist)
        (hwritable h hmem) (fun hlt d hd ↦ hlarge h hmem hlt d hd.1.1)
        fun c hc ↦ (hrefused c hc).pre fun _ hd ↦ hd.1.1
    refine (hemit.pre ?_).post ?_
    · rintro d ⟨⟨hd, hat, hts⟩, hR⟩
      exact ⟨⟨⟨hd, hts⟩, hR⟩, hat⟩
    · rintro p' d ⟨⟨⟨hd, hts⟩, hR⟩, hat, hsmall⟩
      refine ⟨⟨hd, hat, ?_⟩, hR⟩
      rw [List.forall_mem_append, List.forall_mem_singleton]
      exact ⟨hts, hsmall⟩
  · exact fun d hd ↦ ⟨⟨hd.1, .inl ⟨rfl, rfl⟩, by simp⟩, hd.2⟩
  · rintro r d ⟨⟨hd, hat, hts⟩, hkept, hemitted, hcount, hnext⟩
    exact ⟨⟨hd, hkept, hemitted, hcount, hnext, hts⟩, hat⟩
  · rintro d ⟨⟨hd, hkept, hemitted, hcount, hnext, hts⟩, rfl, hclosed⟩
    refine ⟨hd, hkept, rfl, ?_, ?_, hnext, hclosed, hts⟩
    · change s.rowsWritten + r.2.1.emitted = _
      rw [hemitted]
    · change s.rowsWritten + r.2.1.emitted + (s.rowsDeduplicated + r.2.1.deduplicated) = _
      omega

/-! ## All groups -/

private theorem target_path_ne (flush : FlushConfig) {first last : ℕ} (hfirst : first ≤ u64Max)
    (hlast : last ≤ u64Max) {g g' : GroupKey} (hne : g ≠ g') (keys keys' : List KeyDef)
    (ts ts' : ℕ) :
    (target flush first last g keys).path ts ≠ (target flush first last g' keys').path ts' := by
  intro heq
  obtain ⟨hseries, -, hname⟩ : g.1 = g'.1 ∧ hourPartition ts = hourPartition ts' ∧
      outputFileName first last g.2 = outputFileName first last g'.2 := by
    simpa [Target.path, target] using heq
  exact hne (Prod.ext hseries (epoch_of_outputFileName hfirst hlast hname))

/-- What the groups merged so far have given: `out` is what the merge of a group gives, and
`records` how many records it has. -/
structure StagedGroups (o : Oracle Op) (t : GroupKey → Target) (out : GroupKey → List Head)
    (records : GroupKey → ℕ) (done : List GroupKey) (s : Merged) (d : Disk) : Prop where
  staged : s.staged = done.flatMap fun g ↦ (cut hourOf (out g)).map (t g).written
  written : s.rowsWritten = (done.map fun g ↦ (out g).length).sum
  total : s.rowsWritten + s.rowsDeduplicated = (done.map records).sum
  closed : ∀ g ∈ done, (t g).Closed o (cut hourOf (out g)) d
  small : ∀ g ∈ done, ∀ h ∈ out g, h.ts.toNat < 2 ^ 63

/-- **All groups** are staged, each in the files of its hours. -/
theorem mergeGroups_triple (flush : FlushConfig) {first last : ℕ} (hfirst : first ≤ u64Max)
    (hlast : last ≤ u64Max) {schemas : List (GroupKey × List KeyDef)} {t : GroupKey → Target}
    (ht : ∀ g, t g = target flush first last g ((schemas.lookup g).getD []))
    (hruns : IgnoresRuns P) (hstaged : ∀ g, (t g).Ignored P) (hx : Exits Op.onFiles o J ioError E C)
    (hJ : ∀ d, P d → J d)
    (hcodec : flush.compression ∉ supportedCompression →
      ∀ d, P d → E (.config (.compression flush.compression)) d)
    {spill : Spill} {rs : List (GroupKey × ℕ × List Head)} {mem : List (GroupKey × List Head)}
    {all : List (GroupKey × Head)} {dropped : ℕ} (h : Merging spill rs mem all dropped)
    (hwritable : ∀ g x, (g, x) ∈ all → (t g).Writable x)
    (hlarge : ∀ g x, (g, x) ∈ all → 2 ^ 63 ≤ x.ts.toNat →
      ∀ d, P d → E (.config (.tsTooLarge x.ts)) d)
    (hrefused : ∀ g, ∀ c ∈ cut hourOf (canon Head.key Head.rank (ofGroup g all)),
      (t g).Refusals o (c.map (t g).rowOf) P E) :
    Triple o (fun d ↦ P d ∧ ∀ r ∈ rs, d.runs[r.2.1]? = some (runBytes r.2.2))
      ((groupKeys mem spill).foldlM (mergeGroup flush first last mem spill schemas)
        { next := spill.next })
      (fun s d ↦ P d ∧ StagedGroups o t (fun g ↦ canon Head.key Head.rank (ofGroup g all))
        (fun g ↦ (recordsIn rs mem g).length) (groupKeys mem spill) s d) E C := by
  refine (Triple.foldlM (I := fun left s d ↦ P d ∧ ∃ done, done ++ left = groupKeys mem spill ∧
      StagedGroups o t (fun g ↦ canon Head.key Head.rank (ofGroup g all))
        (fun g ↦ (recordsIn rs mem g).length) done s d ∧ spill.next ≤ s.next ∧
      ∀ r ∈ rs, r.1 ∈ left → d.runs[r.2.1]? = some (runBytes r.2.2))
    (fun g left s ↦ .intro ?_) _ _).conseq ?_ ?_ (fun _ _ ↦ id) fun _ ↦ id
  · rintro d₁ ⟨hd₁, done, hdone, hs, hnext, hfiles⟩
    have hnodup := Merging.groupKeys_nodup mem spill
    rw [← hdone, List.nodup_append] at hnodup
    obtain ⟨-, hleft, hapart⟩ := hnodup
    rw [List.nodup_cons] at hleft
    have hother : ∀ g' ∈ done, g ≠ g' := fun g' hg' heq ↦
      hapart g' hg' g List.mem_cons_self heq.symm
    -- the files of the groups before are not those of this one
    have hignores : (t g).Ignored fun d ↦ P d ∧ ∀ g' ∈ done,
        (t g').Closed o (cut hourOf (canon Head.key Head.rank (ofGroup g' all))) d := by
      rintro ts d f ⟨hd, hclosed⟩
      refine ⟨hstaged g ts d f hd, fun g' hg' ↦ (hclosed g' hg').insert (fun c _ ↦ ?_) f⟩
      rw [ht g, ht g']
      exact target_path_ne flush hfirst hlast (hother g' hg') _ _ _ _
    have hcompression : (t g).compression = flush.compression := by
      rw [ht]
      rfl
    have hmerge : Triple o _ (mergePartition flush (t g) _ _ s) _ E C :=
      mergePartition_triple flush (fun d r hd ↦ ⟨hruns d r hd.1, hd.2⟩) hignores
        hx (fun d hd ↦ hJ d hd.1)
        (by rw [hcompression]; exact fun hunknown d hd ↦ hcodec hunknown d hd.1)
        (h.pool hnext hleft.1 fun r hr hg ↦ hfiles r hr (hg ▸ List.mem_cons_self))
        (h.memory_sorted g) (h.ranked g) (h.canon_eq g).symm
        (fun x hx ↦ hwritable g x (mem_ofGroup.1 (mem_of_mem_canon _ _ hx)))
        (fun x hx hlt d hd ↦ hlarge g x (mem_ofGroup.1 (mem_of_mem_canon _ _ hx)) hlt d hd.1)
        fun c hc ↦ (hrefused g c hc).pre fun _ hd ↦ hd.1
    rw [mergeGroup, h.runsOf_eq, ← ht]
    refine (hmerge.pre ?_).post ?_
    · rintro d rfl
      exact ⟨⟨hd₁, hs.closed⟩, rfl⟩
    · rintro s' d ⟨⟨hd, hclosed⟩, hkept, hstagedNow, hwritten, htotal, hnext', hclosedNow, hsmall⟩
      refine ⟨hd, done ++ [g], by rw [List.append_assoc]; exact hdone, ⟨?_, ?_, ?_, ?_, ?_⟩,
        hnext.trans hnext', ?_⟩
      · rw [hstagedNow, hs.staged, List.flatMap_append, List.flatMap_singleton]
      · rw [hwritten, hs.written, List.map_append, List.sum_append, List.map_singleton,
          List.sum_singleton]
      · rw [htotal, hs.total, List.map_append, List.sum_append, List.map_singleton,
          List.sum_singleton]
        rfl
      · rw [List.forall_mem_append, List.forall_mem_singleton]
        exact ⟨hclosed, hclosedNow⟩
      · rw [List.forall_mem_append, List.forall_mem_singleton]
        exact ⟨hs.small, hsmall⟩
      · intro r hr hg
        rw [hkept _ ⟨r, hr, hg, rfl⟩]
        exact hfiles r hr (List.mem_cons_of_mem g hg)
  · exact fun d hd ↦ ⟨hd.1, [], rfl, ⟨rfl, rfl, rfl, by simp, by simp⟩, le_rfl,
      fun r hr _ ↦ hd.2 r hr⟩
  · rintro s d ⟨hd, done, hdone, hs, -⟩
    rw [List.append_nil] at hdone
    exact ⟨hd, hdone ▸ hs⟩

end Triples

end Orc
