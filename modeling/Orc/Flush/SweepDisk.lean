import Orc.Flush.Parts
import Orc.Flush.SweepTree

/-!
# The sweep without directories

The rest of the development runs the sweep on the data directory, where directories are not
represented. What it leaves there are the files it leaves in the trees (`disk_sweep_agrees`).

That a file can be staged or removed does not depend on directories, since the flush creates those
it needs. Only the sweep removes directories, and only its own result depends on them. So the crash
results use the map of files, the convergence of the sweep uses trees, and this module says that
nothing is lost by having both: on the files, each of the two sweeps makes only moves that lead to
the same end.
-/

namespace Orc.SweepTree

open Fault

/-- The files of `tmp/` and `series/` in the data directory. -/
def diskFiles (d : Disk) : Files Parquet := ⟨d.tmp, d.series⟩

section DiskSweep

variable {o : Oracle Op} {w : ℕ} {F : Files Parquet}

private theorem exits_trivial :
    Exits Op.onFiles o (fun _ : Disk ↦ True) ioError (fun _ _ ↦ True) fun _ ↦ True :=
  ⟨fun _ _ ↦ id, fun _ ↦ id⟩

/-- The work done so far, with the staged files still to come. -/
structure DiskRemaining (w : ℕ) (F : Files Parquet) (l : List (Path × Option (ℕ × ℕ × UInt32)))
    (d : Disk) : Prop where
  moves : F.Moves w (diskFiles d)
  range : ∀ x ∈ l, x.1.length = 3 ∧ x.2 = outputRange x.1
  left : ∀ p ∈ d.tmp, p.length = 3 → p ∈ l.map Prod.fst

private theorem disk_settle {x : Path × Option (ℕ × ℕ × UInt32)}
    {l : List (Path × Option (ℕ × ℕ × UInt32))} :
    Triple o (DiskRemaining w F (x :: l)) (Orc.settle w x) (fun _ ↦ DiskRemaining w F l)
      (fun _ _ ↦ True) fun _ ↦ True := by
  refine .intro fun d hd ↦ ?_
  obtain ⟨hlen, hx⟩ := hd.range x List.mem_cons_self
  have hrange := fun y hy ↦ hd.range y (List.mem_cons_of_mem _ hy)
  have hleft : ∀ p ∈ d.tmp.erase x.1, p.length = 3 → p ∈ l.map Prod.fst := by
    intro p hp hlp
    obtain ⟨hne, hp⟩ := mem_erase_iff.1 hp
    exact (List.mem_cons.1 (hd.left p hp hlp)).resolve_left hne
  rw [Orc.settle, hx]
  split
  · next hw =>
    refine promote_triple exits_trivial (fun _ _ ↦ trivial) (fun _ _ ↦ trivial)
      (fun _ _ _ ↦ trivial) ?_
    rintro d f rfl hf
    exact ⟨hd.moves.trans (Files.moves_promote (F := diskFiles d) hf hlen hw), hrange, hleft⟩
  · next hw =>
    refine Io.step_exits exits_trivial (fun _ _ ↦ trivial) ?_
    rintro d rfl
    exact ⟨hd.moves.trans (Files.moves_discard (F := diskFiles d) (.inr ⟨hlen, hw⟩)), hrange, hleft⟩

theorem ignore_step_done (ho : ∀ label, ¬ Failed o label) {label : Op} {act : Disk → Disk}
    {P Q : Disk → Prop} {E : Error → Disk → Prop} (h : ∀ d, P d → Q (act d)) :
    Triple o P (Io.ignore (Io.step label act)) (fun _ ↦ Q) E fun _ ↦ True :=
  .attempt_bind
    (Io.step_triple (fun d _ hd _ ↦ h d hd) (fun _ t n _ hf ↦ absurd ⟨t, n, hf⟩ (ho label))
    fun _ _ _ _ _ ↦ trivial) (fun _ ↦ .ret fun _ ↦ id) fun _ ↦ .ret fun _ ↦ id

private theorem disk_sweepFlat (ho : ∀ label, ¬ Failed o label) :
    Triple o (fun d ↦ F.Moves w (diskFiles d)) sweepFlat
      (fun _ d ↦ F.Moves w (diskFiles d) ∧ ∀ p ∈ d.tmp, p.length ≠ 1) (fun _ _ ↦ True)
      fun _ ↦ True := by
  refine .bind (entries_triple.exits (fun _ _ ↦ id) fun _ _ ↦ trivial) fun flat ↦ .intro ?_
  rintro d₁ ⟨hd₁, hflat⟩
  have hmem : ∀ p, p ∈ flat ↔ p ∈ d₁.tmp ∧ p.length = 1 := by
    intro p
    rw [hflat.resolve_right fun h ↦ ho _ h.2, List.mem_filter, Std.ExtTreeMap.mem_keys,
      decide_eq_true_eq]
  -- the invariant: the flat files there are, are still to come
  refine ((Triple.forM (I := fun l d ↦ (∀ p ∈ l, p.length = 1) ∧ F.Moves w (diskFiles d) ∧
    ∀ p ∈ d.tmp, p.length = 1 → p ∈ l) (fun p l ↦ ignore_step_done ho ?_) flat).pre ?_).post
      fun _ d hd ↦ ⟨hd.2.1, fun p hp hlen ↦ absurd (hd.2.2 p hp hlen) List.not_mem_nil⟩
  · rintro d ⟨hlen, hd, hall⟩
    refine ⟨fun q hq ↦ hlen q (List.mem_cons_of_mem _ hq), hd.trans (Files.moves_discard
      (F := diskFiles d) (.inl (hlen p List.mem_cons_self))), fun q hq hlq ↦ ?_⟩
    obtain ⟨hne, hq⟩ := mem_erase_iff.1 hq
    exact (List.mem_cons.1 (hall q hq hlq)).resolve_left hne
  · rintro _ rfl
    exact ⟨fun p hp ↦ ((hmem p).1 hp).2, hd₁, fun p hp hlen ↦ (hmem p).2 ⟨hp, hlen⟩⟩

private theorem disk_sweepOutput (ho : ∀ label, ¬ Failed o label) :
    Triple o (fun d ↦ F.Moves w (diskFiles d)) (sweepOutput w)
      (fun _ d ↦ F.Moves w (diskFiles d) ∧ ∀ p ∈ d.series, p.length = 3 → ¬ orphaned w p = true)
      (fun _ _ ↦ True) fun _ ↦ True := by
  refine .intro fun d₁ hd₁ ↦ .bind (Orc.outputFiles_triple.exits (fun _ _ ↦ id) fun _ _ ↦ trivial)
    fun out ↦ .intro ?_
  rintro d₂ ⟨rfl, hsound, hall⟩
  -- the invariant: the orphans there are, are still to come
  refine ((Triple.forM (I := fun l d ↦ (∀ x ∈ l, x ∈ out) ∧ F.Moves w (diskFiles d) ∧
    ∀ p ∈ d.series, p.length = 3 → orphaned w p = true → p ∈ l.map Prod.fst) (fun x l ↦ ?_) out).pre
      ?_).post fun _ d hd ↦
        ⟨hd.2.1, fun p hp hlen hw ↦ absurd (hd.2.2 p hp hlen hw) List.not_mem_nil⟩
  · refine .intro ?_
    rintro d ⟨hl, hd, hleft⟩
    obtain ⟨⟨-, hlen⟩, hx⟩ := hsound x (hl x List.mem_cons_self)
    have hl' := fun y hy ↦ hl y (List.mem_cons_of_mem _ hy)
    split
    · next hle =>
      refine .ret ?_
      rintro d' rfl
      refine ⟨hl', hd, fun p hp hlp hw ↦ (List.mem_cons.1 (hleft p hp hlp hw)).resolve_left ?_⟩
      rintro rfl
      exact (not_le_iff_orphaned hx).2 hw hle
    · next hle =>
      refine ignore_step_done ho ?_
      rintro d' rfl
      refine ⟨hl', hd.trans (Files.moves_orphan (F := diskFiles d') hlen
        ((not_le_iff_orphaned hx).1 hle)), fun p hp hlp hw ↦ ?_⟩
      obtain ⟨hne, hp⟩ := mem_erase_iff.1 hp
      exact (List.mem_cons.1 (hleft p hp hlp hw)).resolve_left hne
  · rintro _ rfl
    refine ⟨fun _ ↦ id, hd₁, fun p hp hlen hw ↦ ?_⟩
    obtain ⟨r, hr, -⟩ := (Option.any_eq_true ..).1 hw
    exact List.mem_map.2 ⟨(p, r), hall (ho _) p hp hlen r hr, rfl⟩

private theorem disk_sweepUncommitted (ho : ∀ label, ¬ Failed o label) {d : Disk} :
    Triple o (· = d) (Orc.sweepUncommitted w)
      (fun _ d' ↦ (diskFiles d).Moves w (diskFiles d') ∧ (diskFiles d').Quiet w) (fun _ _ ↦ True)
      fun _ ↦ True := by
  refine .bind (Q := fun _ d' ↦ diskFiles d' = diskFiles d) (((clearRuns_triple
    (P := fun d' ↦ diskFiles d' = diskFiles d) fun _ _ ↦ id).pre ?_).exits (fun _ _ ↦ id)
      fun _ _ ↦ trivial) fun _ ↦ .intro fun d₁ hd₁ ↦ ?_
  · rintro _ rfl
    rfl
  refine .bind (Orc.stagedFiles_triple.exits (fun _ _ ↦ id) fun _ _ ↦ trivial) fun staged ↦
    .intro ?_
  rintro d₂ ⟨rfl, hsound, hall⟩
  refine .bind
    ((Triple.forM (I := DiskRemaining w (diskFiles d)) (fun x l ↦ disk_settle) staged).pre
    ?_) fun _ ↦ .intro fun d₃ hd₃ ↦ ?_
  · rintro d' rfl
    refine ⟨hd₁ ▸ .refl, fun x hx ↦ ⟨(hsound x hx).1.2, (hsound x hx).2⟩, fun p hp hlen ↦ ?_⟩
    exact List.mem_map.2 ⟨_, hall (ho _) p hp hlen, rfl⟩
  refine .bind ((disk_sweepFlat (w := w) (F := diskFiles d₃) ho).pre fun d' hd' ↦
    hd' ▸ .refl) fun _ ↦
    .intro fun d₄ hd₄ ↦ ?_
  refine (disk_sweepOutput (w := w) (F := diskFiles d₄) ho).conseq (fun d' hd' ↦ hd' ▸ .refl) ?_
    (fun _ _ ↦ id) fun _ ↦ id
  intro _ d₅ hd₅
  refine ⟨hd₃.moves.trans (hd₄.1.trans hd₅.1), ⟨?_, ?_, hd₅.2⟩⟩
  · exact fun p hp ↦ hd₄.2 p (hd₅.1.staged p hp)
  · exact fun p hp hlen ↦ absurd (hd₃.left p ((hd₄.1.trans hd₅.1).staged p hp) hlen)
      List.not_mem_nil

/-- **Two models of one sweep.** Where both return, they leave the same files. -/
theorem disk_sweep_agrees {d : Disk} {t : Trees Parquet} (hfiles : diskFiles d = t.files)
    {world : World Disk} (hdisk : Orc.sweepUncommitted w noFault ⟨d, 0⟩ = (.ok (), world))
    (htree : (ends w undisturbed t).1 = .ok ()) :
    diskFiles world.disk = (ends w undisturbed t).2.files := by
  obtain ⟨hmoves, hquiet⟩ := (disk_sweepUncommitted fun _ ↦ not_failed_noFault).of_ok rfl hdisk
  refine hquiet.unique (ends_of_clear (clear_of_ok htree)).2 hmoves ?_
  rw [hfiles]
  exact (ends_works undisturbed).toMoves

end DiskSweep

end Orc.SweepTree
