import Orc.Engine.Steps

/-!
# What is published is committed

A file of a flush is named after the last segment it holds, and the watermark of the manifest on
disk says up to which segment flushes have been committed. So a file in `series/` that goes beyond
it is one that no manifest stands for: after a restart its segments are flushed again.

The watermark in memory is advanced before the manifest is written, and it is what the sweep of the
next flush goes by. If no operation of a commit fails, the two watermarks are the same after every
event and nothing is published too early (`published_within_watermark`). One failed rename is enough
for the contrary (`publishes_uncommitted`).

## The hypothesis

The hypothesis is on the oracle, and only on the operations that a commit makes. Everything else may
fail, and a crash may come anywhere, also inside a commit: the process is then gone, and the next
one reads its watermark from the disk. What is excluded is a process that goes on after a commit it
knows to have failed.

`Disk.Committed` is the invariant. It is a statement about the watermark on disk, and each effect is
guarded by the one in memory, so the proof carries the equality of the two along with it and uses
the rule for runs of `Orc.Engine.Steps`. The counterexample is a run of two flushes evaluated by the
kernel; it publishes a file under an old watermark, and the segment of that file is still in `wal/`,
above that watermark.
-/

namespace Orc

open Bytes Fault

/-- No file in `series/` goes beyond the watermark on disk. -/
def Disk.Committed (d : Disk) : Prop := ∀ p ∈ d.series, Covered d.watermark p

section Steps

variable {crc : Bytes → UInt32} {o : Oracle Op} {clean : Prop} {active w w' : ℕ} {d d' : Disk}

theorem Disk.Committed.of_series (h : d.Committed) (hseries : ∀ p ∈ d'.series, p ∈ d.series)
    (hw : d.watermark ≤ d'.watermark) : d'.Committed := fun p hp ↦ (h p (hseries p hp)).mono hw

theorem Effect.committed (h : Effect crc o clean active (w, d) (w', d')) (hw : d.watermark = w)
    (hd : d.Committed) : d'.Committed := by
  cases h with
  | scratch hsame =>
    refine hd.of_series (fun p hp ↦ hsame.series ▸ hp) ?_
    rw [Disk.watermark, Disk.watermark, hsame.manifest]
  | commit _ hm =>
    exact hd.of_series (fun _ hp ↦ hp) (hw.le.trans ((le_max_left _ _).trans_eq hm.symm))
  | recommit hm => exact hd.of_series (fun _ hp ↦ hp) hm.ge
  | @promote _ _ q f _ hp =>
    intro p hmem
    rcases Std.ExtTreeMap.mem_insert.1 hmem with heq | hold
    · rw [← Std.LawfulEqCmp.eq_of_compare heq]
      exact hw ▸ hp
    · exact hd p hold
  | discardOutput => exact hd.of_series (fun _ hp ↦ mem_of_mem_erase hp) le_rfl
  | _ => exact hd

theorem Move.committed {x y : ℕ × Site} (h : Move crc o clean x y) (ho : ¬ CommitFails o)
    (hx : x.2.disk.watermark = x.1 ∧ x.2.disk.Committed) :
    y.2.disk.watermark = y.1 ∧ y.2.disk.Committed := by
  cases h with
  | disk h => exact ⟨h.watermark (.inl ho) hx.1, h.committed hx.1 hx.2⟩
  | log => exact hx

theorem Begins.committed {y : ℕ × Site} (h : Begins o d y) (hd : d.Committed) :
    y.2.disk.watermark = y.1 ∧ y.2.disk.Committed := by
  have hrecovered : ∀ {d' : Disk}, Recovered d.watermark d d' → d'.Committed := fun h p hp ↦ by
    have hseries : p ∈ d.series := by cases h <;> exact hp
    exact h.watermark ▸ hd p hseries
  cases h with
  | failed => exact ⟨rfl, hd⟩
  | interrupted h => exact ⟨rfl, hrecovered h⟩
  | created h => exact ⟨rfl, fun p hp ↦ hrecovered h p hp⟩
  | opened h => exact ⟨h.watermark, fun p hp ↦ hrecovered h p hp⟩

theorem Turn.committed {start : Prop} {x z : ℕ × Site} (h : Turn crc o clean start x z)
    (ho : ¬ CommitFails o)
    (hs : Sound x) (hx : x.2.disk.watermark = x.1 ∧ x.2.disk.Committed) :
    z.2.disk.watermark = z.1 ∧ z.2.disk.Committed :=
  (h.keeps (I := fun x ↦ x.2.disk.watermark = x.1 ∧ x.2.disk.Committed)
    (fun _ _ _ hx hmove ↦ hmove.committed ho hx) (fun _ _ _ _ hx _ ↦ ⟨rfl, hx.2⟩)
    (fun _ _ _ _ _ _ hd hbegins ↦ hbegins.committed hd.2) hs hx).2

end Steps

/-- **Published implies committed.** From an empty directory, with any faults and crashes other than
a failed operation of a manifest's commit: after every event, so after every flush and whatever it
returned, the watermark in memory is the one on disk; and in every state a run can be stopped in,
every file in `series/` whose name is one the engine writes ends within the watermark on disk. -/
theorem published_within_watermark (crc : Bytes → UInt32) (lower : String → String) {n : Node}
    (h : Node.Reaches crc lower (fun _ o _ ↦ ¬ CommitFails o) (.down {}) n) :
    (∀ p, n.process = some p → p.manifest.lastFlushedSegment = n.site.disk.watermark) ∧
      ∀ path ∈ n.site.disk.series, ∀ first last epoch,
        outputRange path = some (first, last, epoch) → last ≤ n.site.disk.watermark := by
  have hstart : ∀ p ∈ ({} : Disk).series, Covered 0 p := fun p hp ↦ by
    rw [← Std.ExtTreeMap.isSome_getElem?_iff_mem] at hp
    simp at hp
  obtain ⟨-, -, hw, hcommitted⟩ := h.keeps False
    (I := fun x ↦ x.2.disk.watermark = x.1 ∧ x.2.disk.Committed) (fun _ _ _ _ ↦ False.elim)
    (fun n o e ho hsound _ hI hturn ↦ hturn.committed ho hsound hI) (sound_down {})
    (Node.tidy_down False.elim) ⟨rfl, hstart⟩
  refine ⟨fun p hp ↦ ?_, fun path hpath first last epoch hrange ↦ hcommitted path hpath _ hrange⟩
  have hview : n.view.1 = p.manifest.lastFlushedSegment := by
    rw [Node.view, Node.watermark, hp]
  rw [← hview, ← hw]
  rfl

/-- One series without keys. -/
private def plainConfig : Config := { series := [⟨"t", []⟩] }

private def plainFrame : Bytes := frameOf crc32 "t" 0 ⟨946684800000000, "a", [], [], ""⟩

/-- An engine with one record in its log. -/
private def loaded : Node :=
  ((Node.down {}).after crc32 id noFault (.start plainConfig 0)).after crc32 id noFault
    (.wal (.append plainFrame))

private theorem loaded_reaches {allowed : Node → Oracle Op → Event → Prop}
    (h : ∀ n e, allowed n noFault e) : Node.Reaches crc32 id allowed (.down {}) loaded :=
  (Relation.ReflTransGen.single ⟨noFault, .start plainConfig 0, h _ _, rfl⟩).tail
    ⟨noFault, .wal (.append plainFrame), h _ _, rfl⟩

theorem not_commitFails_noFault : ¬ CommitFails noFault := by
  rintro (h | h | h | h)
  all_goals exact not_failed_noFault h

/-- A flush that succeeds: its file is published and its segment within the watermark. -/
theorem published_within_watermark_flushed :
    Node.Reaches crc32 id (fun _ o _ ↦ ¬ CommitFails o) (.down {})
        (loaded.after crc32 id noFault (.flush 0)) ∧
      (loaded.after crc32 id noFault (.flush 0)).site.disk.series.keys.map outputRange =
        [some (1, 1, 0)] ∧
      ∀ path ∈ (loaded.after crc32 id noFault (.flush 0)).site.disk.series, ∀ first last epoch,
        outputRange path = some (first, last, epoch) →
          last ≤ (loaded.after crc32 id noFault (.flush 0)).site.disk.watermark := by
  have hreach : Node.Reaches crc32 id (fun _ o _ ↦ ¬ CommitFails o) (.down {})
      (loaded.after crc32 id noFault (.flush 0)) :=
    (loaded_reaches fun _ _ ↦ not_commitFails_noFault).tail
      ⟨noFault, .flush 0, not_commitFails_noFault, rfl⟩
  exact ⟨hreach, by decide +kernel, (published_within_watermark crc32 id hreach).2⟩

/-- **A commit that fails is published all the same.** The rename of the manifest fails in one
flush. The watermark in memory is then ahead of the one on disk, and the next flush, in which
nothing fails and there is nothing to do, moves the staged file into `series/`. -/
theorem publishes_uncommitted :
    let failed := loaded.after crc32 id (failing .manifestRename 0) (.flush 0)
    let next := failed.after crc32 id noFault (.flush 0)
    Node.Reaches crc32 id (fun _ _ _ ↦ True) (.down {}) next ∧
      failed.process.map (fun p ↦ p.manifest.lastFlushedSegment) = some 1 ∧
      failed.site.disk.watermark = 0 ∧ failed.site.disk.series.keys = [] ∧
      next.site.disk.watermark = 0 ∧
      next.site.disk.series.keys.map outputRange = [some (1, 1, 0)] :=
  ⟨((loaded_reaches fun _ _ ↦ trivial).tail ⟨_, .flush 0, trivial, rfl⟩).tail
    ⟨noFault, .flush 0, trivial, rfl⟩, by decide +kernel⟩

end Orc
