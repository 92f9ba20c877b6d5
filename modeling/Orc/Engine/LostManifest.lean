import Orc.Engine.Steps

/-!
# A data directory without its manifest

Epochs mean nothing without the manifest: opening a directory that has none mints epoch 0 for the
keys of the config. So a directory with output of a flush but no manifest is refused, and nothing in
it is touched (`lost_manifest_refused`). The guard does not look at `wal/`. If the log is all there
is, the directory is opened, and the frames in it are read by whatever keys the config now declares
under epoch 0 (`log_reinterpreted`).

## What the guard can tell

The guard has to let one kind of directory without a manifest through, namely a new one, and it
tells the two apart by the files that only a flush can have written. An open commits the epochs it
mints before anything is stamped with them, so a file with rows in it, in `series/` or staged in
`tmp/`, means that there was a manifest. Segments mean the same, and the guard could ask for them
too; it does not, and the counterexample is what that leaves open.

The result is an equivalence for starts in which the two directories can be listed. A start that
cannot list them fails for that reason and also changes nothing, which is part of
`openEngine_refuses`. What a start does with a directory that passes the guard is in
`Orc.Engine.Steps`; only the commit of the new manifest matters here (`openManifest_default`).
-/

namespace Orc

open Bytes Fault

section Open

variable {crc : Bytes → UInt32} {lower : String → String} {o : Oracle Op} {clean : Prop} {d : Disk}

/-- **With output** and no manifest, a start fails before it changes anything. -/
theorem openEngine_refuses (crc : Bytes → UInt32) (lower : String → String)
    (hm : d.manifest = none) (hout : d.HasOutput)
    (hseries : ¬ Failed o .seriesList) (htmp : ¬ Failed o .tmpList) (config : Config) (now : ℕ) :
    Triple o (· = ⟨d, {}⟩) (openEngine crc lower config now) (fun _ _ ↦ False)
      (fun _ s ↦ s.disk = d) (fun s ↦ s.disk = d) := by
  have hrequire : Triple o (· = d) requireManifest (fun _ _ ↦ False) (fun _ d' ↦ d' = d)
    (· = d) := by
    refine .look_bind ?_
    rw [hm]
    exact requireManifestForOutput_triple.conseq (fun _ ↦ id)
      (fun _ d' hd' ↦ hd'.2 hseries htmp hout) (fun _ d' hd' ↦ hd'.1) fun _ ↦ id
  have hprepare : Triple o (· = d) (prepareOpen crc lower config) (fun _ _ ↦ False)
      (fun _ d' ↦ d' = d) (· = d) := by
    refine .bind (Q := fun _ d' ↦ d' = d) (.ofExcept (fun _ _ _ hd ↦ hd) fun _ _ _ hd ↦ hd) fun _ ↦
      .bind (Q := fun _ _ ↦ False) (.bind hrequire fun _ ↦ .intro fun _ ↦ False.elim) fun _ ↦
        .intro fun _ ↦ False.elim
  refine .bind (Q := fun _ _ ↦ False) (.zoom fun s hs ↦ ?_) fun _ ↦ .intro fun _ ↦ False.elim
  subst hs
  exact hprepare

private theorem reconcileAll_fresh {series : List SeriesConfig} {m : Manifest} {c : Bool}
    (hnodup : (series.map SeriesConfig.name).Nodup) (hfresh : ∀ s ∈ series, m.history s.name = []) :
    ∃ m', reconcileAll m c series = .ok (m', c || !series.isEmpty) := by
  induction series generalizing m c with
  | nil => exact ⟨m, by rw [reconcileAll]; simp⟩
  | cons s rest ih =>
    rw [List.map_cons, List.nodup_cons] at hnodup
    have hnext : ∀ t ∈ rest, Manifest.history
        { m with series := m.series.insert s.name [⟨0, s.keys⟩] } t.name = [] := by
      intro t ht
      have hne : s.name ≠ t.name := fun heq ↦ hnodup.1 (heq ▸ List.mem_map_of_mem ht)
      rw [Manifest.history_insert, if_neg hne]
      exact hfresh t (List.mem_cons_of_mem _ ht)
    obtain ⟨m', hm'⟩ := ih (c := c || true) hnodup.2 hnext
    refine ⟨m', ?_⟩
    rw [reconcileAll, hfresh s List.mem_cons_self]
    change reconcileAll { m with series := m.series.insert s.name [⟨0, s.keys⟩] } (c || true)
      rest = _
    rw [hm', Bool.or_true]
    simp

private theorem reconcile_default {config : Config} (hvalid : config.validate lower = .ok ())
    (hseries : config.series ≠ []) : ∃ m, Manifest.reconcile {} config = .ok (m, true) := by
  have hempty : ∀ series, Manifest.history {} series = [] := fun series ↦ by
    simp only [Manifest.history, Std.ExtTreeMap.getD_empty]
  have hcheck : ∀ series, checkAllNoRetype {} series = .ok () := by
    intro series
    induction series with
    | nil => rfl
    | cons s rest ih =>
      rw [checkAllNoRetype, hempty, ih]
      rfl
  obtain ⟨m, hm⟩ := reconcileAll_fresh (m := {}) (c := false)
    (Config.validate_series hvalid).names fun s _ ↦ hempty s.name
  refine ⟨m, ?_⟩
  rw [Manifest.reconcile, hcheck]
  change reconcileAll {} false config.series = _
  rw [hm, List.isEmpty_eq_false_iff.2 hseries]
  rfl

/-- **Without output**, a new manifest is committed. -/
theorem openManifest_default (hm : d.manifest = none) (hout : ¬ d.HasOutput) {config : Config}
    (hvalid : config.validate lower = .ok ()) (hseries : config.series ≠ []) :
    Triple noFault (· = d) (openManifest config)
      (fun m d' ↦ m.lastFlushedSegment = d'.watermark ∧ d'.manifest.isSome = true)
      (fun _ _ ↦ False) (fun _ ↦ False) := by
  have hrequire : Triple noFault (· = d) requireManifest (fun _ d' ↦ d' = d) (fun _ _ ↦ False)
      (fun _ ↦ False) := by
    refine .look_bind ?_
    rw [hm]
    exact (requireManifestForOutput_triple.conseq (fun _ ↦ id) (fun _ d' hd' ↦ hd'.1)
      (fun _ d' hd' ↦ hout hd'.2) fun _ ↦ id).uncrashed not_crashes_noFault
  have hload : Triple noFault (· = d) Manifest.load
      (fun m d' ↦ m = {} ∧ d'.manifest = none) (fun _ _ ↦ False) (fun _ ↦ False) := by
    refine .bind (Q := fun _ d' ↦ d'.manifest = none) (Io.step_noFault ?_) fun _ ↦
      Io.read_noFault (fun d' m hd' hread ↦ ?_) fun d' e hd' hread ↦ ?_
    · rintro d' rfl
      exact hm
    · rw [hd'] at hread
      exact ⟨(Except.ok.inj hread).symm, hd'⟩
    · rw [hd'] at hread
      cases hread
  obtain ⟨m, hrec⟩ := reconcile_default hvalid hseries
  refine .bind hrequire fun _ ↦ .bind hload fun m₀ ↦ .intro ?_
  rintro d₁ ⟨rfl, hd₁⟩
  rw [hrec]
  refine .bind (Q := fun r d' ↦ r = (m, true) ∧ d' = d₁) (.ofExcept ?_ nofun) fun r ↦ .intro ?_
  · rintro r hr d' rfl
    exact ⟨(Except.ok.inj hr).symm, rfl⟩
  rintro d' ⟨rfl, rfl⟩
  refine .bind (Q := fun _ d₂ ↦ d₂.manifest = some (.whole m)) ?_ fun _ ↦ .ret fun d₂ hd₂ ↦ ?_
  · refine ((Manifest.commit_triple (P := fun _ ↦ True) (fun _ _ ↦ id) m none).conseq
      (fun _ _ ↦ trivial) ?_ ?_ fun _ ↦ id).uncrashed not_crashes_noFault
    · rintro _ d₂ ⟨d₃, -, rfl⟩
      rfl
    · rintro _ d₂ ⟨-, ⟨-, h | h | h | h⟩ | ⟨-, h⟩⟩
      all_goals exact not_failed_noFault h
  · exact ⟨by rw [Disk.watermark, hd₂], by rw [hd₂]; rfl⟩

end Open

section Kept

variable {crc : Bytes → UInt32} {o : Oracle Op} {clean start : Prop}

theorem Effect.manifest_isSome {active w w' : ℕ} {d d' : Disk}
    (h : Effect crc o clean active (w, d) (w', d')) (hd : d.manifest.isSome = true) :
    d'.manifest.isSome = true := by
  cases h with
  | scratch hsame => exact hsame.manifest ▸ hd
  | commit => rfl
  | recommit => rfl
  | _ => exact hd

theorem Turn.manifest_isSome {x z : ℕ × Site} (h : Turn crc o clean start x z) (hs : Sound x)
    (hx : x.2.disk.manifest.isSome = true) : z.2.disk.manifest.isSome = true := by
  refine (h.keeps (I := fun x ↦ x.2.disk.manifest.isSome = true) (fun x y _ hx hmove ↦ ?_)
    (fun _ _ _ _ hx _ ↦ hx) (fun _ d d₁ y _ _ hd₁ hbegins ↦ ?_) hs hx).2
  · cases hmove with
    | disk h => exact h.manifest_isSome hx
    | log => exact hx
  · cases hbegins with
    | failed => exact hd₁
    | interrupted h => exact h.manifest ▸ hd₁
    | created h => exact h.manifest ▸ hd₁
    | opened h => exact h.manifest ▸ hd₁

end Kept

private theorem openEngine_mints {crc : Bytes → UInt32} {lower : String → String} {d : Disk}
    {config : Config}
    (hm : d.manifest = none) (hout : ¬ d.HasOutput) (hvalid : config.validate lower = .ok ())
    (hseries : config.series ≠ []) (now : ℕ) :
    Triple noFault (· = ⟨d, {}⟩) (openEngine crc lower config now)
      (fun _ s ↦ s.disk.manifest.isSome = true) (fun _ s ↦ s.disk.manifest.isSome = true)
      (fun s ↦ s.disk.manifest.isSome = true) := by
  -- from the commit on, it is a start on the directory with the manifest
  have hturn : ∀ {d₁ : Disk} {z : ℕ × Site}, d₁.manifest.isSome = true →
      Turn crc noFault False True (halted d₁) z → z.2.disk.manifest.isSome = true := fun hd₁ h ↦
    h.manifest_isSome (sound_down _) hd₁
  refine .bind (Q := fun r s ↦ s.log = {} ∧ ∃ d₁, d₁.manifest.isSome = true ∧
      ReadyToOpen crc noFault False d₁ r s.disk) (.zoom fun s hs ↦ ?_) fun r ↦ .intro ?_
  · subst hs
    refine .bind (Q := fun _ d' ↦ d' = d) (.ofExcept (fun _ _ _ hd ↦ hd) fun e he ↦ ?_) fun _ ↦
      .bind ((openManifest_default hm hout hvalid hseries).exits (fun _ _ ↦ False.elim)
        fun _ ↦ False.elim) fun m ↦ .intro ?_
    · rw [hvalid] at he
      cases he
    rintro d₁ ⟨hw, hd₁⟩
    exact (sweepRecover_triple m hw).conseq (fun _ ↦ id) (fun _ d' hd' ↦ ⟨rfl, d₁, hd₁, hd'⟩)
      (fun _ d' hd' ↦ hturn hd₁ hd'.turn) fun d' hd' ↦ hturn hd₁ hd'.turn
  rintro ⟨d', log⟩ ⟨rfl, d₁, hd₁, hready⟩
  refine (openWriter_flush_triple config now False.elim False.elim hready).conseq (fun _ ↦ id)
    ?_ (fun _ s ↦ hturn hd₁) fun s ↦ hturn hd₁
  rintro p s ⟨⟨d₂, d₃, hopens⟩, -⟩
  exact hturn hd₁ hopens.turn

/-- **A lost manifest.** Whatever else happens, a directory without a manifest in which a flush has
left files in `series/` or staged them in `tmp/` is not opened and not changed, if the two
directories can be listed. This is the only case: without such a file, and with a series declared, a
start in which nothing fails writes a new manifest. -/
theorem lost_manifest_refused (crc : Bytes → UInt32) (lower : String → String) {d : Disk}
    (hm : d.manifest = none) (config : Config) (now : ℕ) :
    (d.HasOutput → ∀ o : Oracle Op, ¬ Failed o .seriesList → ¬ Failed o .tmpList →
      (Node.down d).after crc lower o (.start config now) = .down d) ∧
    (config.validate lower = .ok () → config.series ≠ [] →
      ((Node.down d).after crc lower noFault (.start config now) = .down d ↔ d.HasOutput)) := by
  have hrefuses : d.HasOutput → ∀ o : Oracle Op, ¬ Failed o .seriesList → ¬ Failed o .tmpList →
      (Node.down d).after crc lower o (.start config now) = .down d := by
    intro hout o hseries htmp
    have htriple := openEngine_refuses crc lower hm hout hseries htmp config now
    change Node.settle none _ = _
    exact Node.settle_of_triple (R := fun n ↦ n = .down d) htriple (fun _ _ ↦ False.elim)
      (fun _ _ h ↦ congrArg Node.down h) fun _ h ↦ congrArg Node.down h
  refine ⟨hrefuses, fun hvalid hseries ↦ ⟨fun hsame ↦ ?_, fun hout ↦
    hrefuses hout noFault not_failed_noFault not_failed_noFault⟩⟩
  by_contra hout
  have hsome :
    ((Node.down d).after crc lower noFault (.start config now)).site.disk.manifest.isSome = true :=
    Node.settle_of_triple (R := fun n ↦ n.site.disk.manifest.isSome = true)
      (openEngine_mints hm hout hvalid hseries now) (fun _ _ ↦ id) (fun _ _ ↦ id) fun _ ↦ id
  rw [hsame] at hsome
  exact Option.isSome_iff_ne_none.1 hsome hm

/-- One series with one key of the given name. -/
private def keyed (key : String) : Config := { series := [⟨"t", [⟨key, .str, true⟩]⟩] }

private def keyedRow : Bytes := frameOf crc32 "t" 0 ⟨946684800000000, "i", [.str "v"], [], ""⟩

/-- A log with one record, written under the key `a`, and the manifest gone. -/
private def orphaned : Disk where
  wal := ([.start (keyed "a") 0, .wal (.append keyedRow), .wal .close].foldl
    (fun n e ↦ n.after crc32 id noFault e) (Node.down {})).site.disk.wal

/-- Output of a flush, and nothing else. -/
private def published : Disk where
  series := {(["t", "2000-01-01T00", outputFileName 1 1 0], ⟨"t", 0, [], [], true⟩)}

/-- A directory with one published file is refused. -/
theorem lost_manifest_refused_published :
    published.manifest = none ∧ published.HasOutput ∧
      (Node.down published).after crc32 id noFault (.start (keyed "a") 0) = .down published := by
  have hout : published.HasOutput :=
    ⟨["t", "2000-01-01T00", outputFileName 1 1 0], by decide +kernel, rfl, by decide +kernel⟩
  exact ⟨rfl, hout, (lost_manifest_refused crc32 id rfl (keyed "a") 0).1 hout noFault
    not_failed_noFault not_failed_noFault⟩

/-- **The log is read by other keys.** A record is written under epoch 0 with the key `a`. The
manifest is lost, and the engine opened with the key `b` instead: it starts and mints epoch 0 again,
and the flush at startup publishes the value of `a` in a column `b`. -/
theorem log_reinterpreted :
    let n := (Node.down orphaned).after crc32 id noFault (.start (keyed "b") 0)
    let files := n.site.disk.series.toList.map Prod.snd
    orphaned.manifest = none ∧ orphaned.wal.keys = [1] ∧ n.process.isSome = true ∧
      files.map Parquet.schema = [[⟨"b", .str, true⟩]] ∧
      files.map (fun f ↦ f.rows.map FileRow.keys) = [[[.str "v"]]] := by
  decide +kernel

end Orc
