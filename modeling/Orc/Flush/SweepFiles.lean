import Orc.Flush.Sweep

/-!
# What the sweep is to leave

`settledTmp` and `settledSeries` say what is to stand at each path of `tmp/` and `series/` in the
end, as functions of the files there are now. No step of the sweep changes them (`Moves`), and when
nothing is left to do they are the files themselves (`Quiet`). So every run that is not stopped ends
in the same files, wherever the ones before it were stopped.

Convergence is proved this way round because a sweep can be stopped anywhere. Comparing two runs
would mean to compare every pair of stopping points; a quantity that no step changes makes it enough
to look at one step. Directories have no part in it: they are no function of the files
(`Orc.Flush.SweepTree`).
-/

namespace Orc.SweepTree

variable {β : Type}

/-- The files of `tmp/` and `series/`. -/
@[ext]
structure Files (β : Type) where
  tmp : Std.ExtTreeMap Path β
  series : Std.ExtTreeMap Path β

/-- An engine's file name with its last segment at most the watermark. -/
def committed (watermark : ℕ) (p : Path) : Bool := (outputRange p).any fun r ↦ r.2.1 ≤ watermark

/-- An engine's file name with its last segment past the watermark. -/
def orphaned (watermark : ℕ) (p : Path) : Bool := (outputRange p).any fun r ↦ watermark < r.2.1

theorem not_orphaned_of_committed {w : ℕ} {p : Path} (h : committed w p = true) :
    ¬ orphaned w p = true := by
  obtain ⟨r, hr, hle⟩ := (Option.any_eq_true ..).1 h
  simp only [decide_eq_true_eq] at hle
  simp [orphaned, hr, hle]

theorem mem_erase_iff {m : Std.ExtTreeMap Path β} {p q : Path} :
    q ∈ m.erase p ↔ q ≠ p ∧ q ∈ m := by
  rw [Std.ExtTreeMap.mem_erase]
  refine and_congr_left' (not_congr ⟨fun h ↦ (Std.LawfulEqCmp.eq_of_compare h).symm, fun h ↦ ?_⟩)
  rw [h]
  exact Std.ReflCmp.compare_self

namespace Files

/-- What is to stand in `tmp/`: neither flat files nor staged ones. -/
def settledTmp (F : Files β) (p : Path) : Option β :=
  if p.length = 1 ∨ p.length = 3 then none else F.tmp[p]?

/-- What is to stand in `series/`: committed files in place of what was there, no orphan, and
whatever else there is. -/
def settledSeries (w : ℕ) (F : Files β) (p : Path) : Option β :=
  if p.length = 3 ∧ committed w p then F.tmp[p]?.or F.series[p]?
  else if p.length = 3 ∧ orphaned w p then none
  else F.series[p]?

/-- Work done by the sweep: what is to stand stays as it was, and nothing to do is added. -/
structure Moves (w : ℕ) (F G : Files β) : Prop where
  tmp : ∀ p, G.settledTmp p = F.settledTmp p
  series : ∀ p, G.settledSeries w p = F.settledSeries w p
  staged : ∀ p ∈ G.tmp, p ∈ F.tmp
  orphans : ∀ p ∈ G.series, orphaned w p = true → p ∈ F.series

/-- Nothing is left to do. -/
structure Quiet (w : ℕ) (F : Files β) : Prop where
  flat : ∀ p ∈ F.tmp, p.length ≠ 1
  staged : ∀ p ∈ F.tmp, p.length ≠ 3
  orphans : ∀ p ∈ F.series, p.length = 3 → ¬ orphaned w p = true

/-- `G` is what the sweep is to make of `F`. -/
structure Settles (w : ℕ) (F G : Files β) : Prop where
  /-- No flat file is left in `tmp/`. -/
  flat : ∀ f : String, [f] ∉ G.tmp
  /-- No file is left in a partition of `tmp/`. -/
  staged : ∀ s h f : String, [s, h, f] ∉ G.tmp
  /-- A committed staged file is at its place in `series/`, as it was. -/
  promoted : ∀ (s h f : String) (b : β), committed w [s, h, f] = true →
    F.tmp[[s, h, f]]? = some b → G.series[[s, h, f]]? = some b
  /-- Uncommitted output is gone. -/
  removed : ∀ s h f : String, orphaned w [s, h, f] = true → [s, h, f] ∉ G.series
  /-- Every other file in `series/` is untouched. -/
  untouched : ∀ p, ¬ (p.length = 3 ∧ orphaned w p = true) →
    ¬ (p.length = 3 ∧ committed w p = true ∧ p ∈ F.tmp) → G.series[p]? = F.series[p]?

variable {w : ℕ} {F G H : Files β} {p : Path}

theorem Moves.refl : Moves w F F := ⟨fun _ ↦ rfl, fun _ ↦ rfl, fun _ ↦ id, fun _ h _ ↦ h⟩

theorem Moves.trans (h : Moves w F G) (h' : Moves w G H) : Moves w F H where
  tmp p := (h'.tmp p).trans (h.tmp p)
  series p := (h'.series p).trans (h.series p)
  staged p hp := h.staged p (h'.staged p hp)
  orphans p hp hw := h.orphans p (h'.orphans p hp hw) hw

theorem Moves.getElem?_series (h : Moves w F G) (hp : p.length ≠ 3) :
    G.series[p]? = F.series[p]? := by
  have hs := h.series p
  simpa [settledSeries, hp] using hs

theorem Moves.mem_series (h : Moves w F G) (hp : p.length ≠ 3) : p ∈ G.series ↔ p ∈ F.series := by
  rw [← Std.ExtTreeMap.isSome_getElem?_iff_mem, h.getElem?_series hp,
    Std.ExtTreeMap.isSome_getElem?_iff_mem]

private theorem getElem?_none {m : Std.ExtTreeMap Path β} (h : p ∉ m) : m[p]? = none :=
  Std.ExtTreeMap.getElem?_eq_none h

theorem Quiet.settledTmp_eq (h : F.Quiet w) (p : Path) : F.settledTmp p = F.tmp[p]? := by
  rw [settledTmp]
  split
  · next hp =>
    exact (getElem?_none fun hmem ↦ hp.elim (h.flat p hmem) (h.staged p hmem)).symm
  · rfl

theorem Quiet.settledSeries_eq (h : F.Quiet w) (p : Path) : F.settledSeries w p = F.series[p]? := by
  rw [settledSeries]
  split
  · next hp => rw [getElem?_none fun hmem ↦ h.staged p hmem hp.1, Option.none_or]
  · split
    · next hp => exact (getElem?_none fun hmem ↦ h.orphans p hmem hp.1 hp.2).symm
    · rfl

/-- What is left in the end depends only on what there was. -/
theorem Quiet.unique (hG : G.Quiet w) (hH : H.Quiet w) (h : Moves w F G) (h' : Moves w F H) :
    G = H := by
  refine Files.ext (Std.ExtTreeMap.ext_getElem? fun p ↦ ?_)
    (Std.ExtTreeMap.ext_getElem? fun p ↦ ?_)
  · rw [← hG.settledTmp_eq, ← hH.settledTmp_eq, h.tmp, h'.tmp]
  · rw [← hG.settledSeries_eq, ← hH.settledSeries_eq, h.series, h'.series]

theorem Moves.settles (h : Moves w F G) (hG : G.Quiet w) : Settles w F G where
  flat f hf := hG.flat _ hf rfl
  staged s hr f hf := hG.staged _ hf rfl
  promoted s hr f b hw hb := by
    rw [← hG.settledSeries_eq, h.series, settledSeries, if_pos ⟨rfl, hw⟩, hb, Option.some_or]
  removed s hr f hw hf := hG.orphans _ hf rfl hw
  untouched p ho hc := by
    rw [← hG.settledSeries_eq, h.series, settledSeries, if_neg ho]
    split
    · next hp => rw [getElem?_none fun hmem ↦ hc ⟨hp.1, hp.2, hmem⟩, Option.none_or]
    · rfl

/-! ## The steps -/

/-- A committed file goes to its place. -/
theorem moves_promote {b : β} (hb : F.tmp[p]? = some b) (hlen : p.length = 3)
    (hw : committed w p = true) : Moves w F ⟨F.tmp.erase p, F.series.insert p b⟩ where
  tmp q := by
    simp only [settledTmp]
    split
    · rfl
    · next hq => exact getElem?_erase_of_ne fun h ↦ hq (.inr (h ▸ hlen))
  series q := by
    simp only [settledSeries]
    by_cases hq : p = q
    · subst hq
      simp [hlen, hw, hb]
    · rw [getElem?_erase_of_ne hq, getElem?_insert_of_ne hq]
  staged q hq := Std.ExtTreeMap.mem_of_mem_erase hq
  orphans q hq ho := by
    rcases Std.ExtTreeMap.mem_insert.1 hq with hq | hq
    · obtain rfl := Std.LawfulEqCmp.eq_of_compare hq
      exact absurd ho (not_orphaned_of_committed hw)
    · exact hq

/-- A flat or an uncommitted staged file is removed. -/
theorem moves_discard (h : p.length = 1 ∨ p.length = 3 ∧ ¬ committed w p = true) :
    Moves w F ⟨F.tmp.erase p, F.series⟩ where
  tmp q := by
    simp only [settledTmp]
    split
    · rfl
    · next hq => exact getElem?_erase_of_ne fun heq ↦ hq (heq ▸ h.imp_right And.left)
  series q := by
    simp only [settledSeries]
    split
    · next hq =>
      rw [getElem?_erase_of_ne]
      rintro rfl
      rcases h with h | h
      · omega
      · exact h.2 hq.2
    · rfl
  staged q hq := Std.ExtTreeMap.mem_of_mem_erase hq
  orphans q hq _ := hq

/-- An orphan is removed. -/
theorem moves_orphan (hlen : p.length = 3) (hw : orphaned w p = true) :
    Moves w F ⟨F.tmp, F.series.erase p⟩ where
  tmp q := rfl
  series q := by
    simp only [settledSeries]
    by_cases hq : p = q
    · subst hq
      rw [if_neg (fun h ↦ not_orphaned_of_committed h.2 hw), if_pos ⟨hlen, hw⟩,
        if_neg (fun h ↦ not_orphaned_of_committed h.2 hw), if_pos ⟨hlen, hw⟩]
    · rw [getElem?_erase_of_ne hq]
  staged q hq := hq
  orphans q hq _ := Std.ExtTreeMap.mem_of_mem_erase hq

end Files

end Orc.SweepTree
