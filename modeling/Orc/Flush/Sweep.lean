import Orc.Flush.Planner

/-!
# Sweeping after an interrupted flush

A file is committed when the last segment of its name is at most the watermark. Committed files left
in `tmp/` are promoted, and uncommitted ones removed from `tmp/` and `series/`. A directory that
cannot be listed is skipped.

Whether a file is committed is read off its name, because that survives a crash and needs no list of
files. So the sweep must not touch what has another name, and the strictness of the parser
(`Orc.Names`) is part of its safety. Removing an uncommitted staged file has to succeed or the sweep
fails, since a later commit would cover the file's name; removing one from `series/` is best effort.
Listings are read level by level, and a level that cannot be listed is empty (`listFiles_triple`).
-/

namespace Orc

open Bytes Fault Order

/-! ## Listings -/

/-- List a directory; one that cannot be listed counts as empty. -/
def entries {α : Type} (label : Op) (f : Disk → List α) : Io (List α) := do
  match ← Prog.attempt (Io.read label fun d ↦ .ok (f d)) with
  | .ok l => return l
  | .error _ => return []

/-- The names below a directory that lead to a file `<series>/<hour>/<file>`. -/
def children (dir : Path) (files : Std.ExtTreeMap Path Parquet) : List String :=
  (files.keys.filterMap fun p ↦
    if p.length = 3 ∧ p.take dir.length = dir then p[dir.length]? else none).dedup

/-- Collect the results of a program over a list. -/
def flatMapIo {α β : Type} (f : α → Io (List β)) (l : List α) : Io (List β) :=
  l.foldlM (fun out a ↦ return out ++ (← f a)) []

/-- What some directories hold, each listed by itself. -/
def subdirs (label : Op) (files : Disk → Std.ExtTreeMap Path Parquet) (dirs : List Path) :
    Io (List Path) :=
  flatMapIo (fun dir ↦ do
    let names ← entries label fun d ↦ children dir (files d)
    return names.map fun name ↦ dir ++ [name]) dirs

/-- The files `<series>/<hour>/<file>` of a directory, sorted. -/
def listFiles (label : Op) (files : Disk → Std.ExtTreeMap Path Parquet) : Io (List Path) := do
  let series ← subdirs label files [[]]
  let hours ← subdirs label files series
  let found ← subdirs label files hours
  return found.insertionSort (· ≤ ·)

/-- The range of segments and the epoch in a file's name. -/
def outputRange (p : Path) : Option (ℕ × ℕ × UInt32) := p.getLast?.bind parseOutputFileName

/-- The flush output in `series/`, with the range of each; other names are left out. -/
def outputFiles : Io (List (Path × (ℕ × ℕ × UInt32))) := do
  let paths ← listFiles .seriesList Disk.series
  return paths.filterMap fun p ↦ (outputRange p).map fun r ↦ (p, r)

/-- The files in `tmp/<series>/<hour>/`, with the range of each if its name has one. -/
def stagedFiles : Io (List (Path × Option (ℕ × ℕ × UInt32))) := do
  let paths ← listFiles .tmpList Disk.tmp
  return paths.map fun p ↦ (p, outputRange p)

/-! ## The sweep -/

/-- Promote a committed staged file, remove another. A failure fails the sweep. -/
def settle (watermark : ℕ) (x : Path × Option (ℕ × ℕ × UInt32)) : Io Unit :=
  if x.2.any fun r ↦ r.2.1 ≤ watermark then
    promote x.1
  else
    Io.step .tmpRemove fun d : Disk ↦ { d with tmp := d.tmp.erase x.1 }

/-- Flat files in `tmp/`, of an older layout, are uncommitted. -/
def sweepFlat : Io Unit := do
  let flat ← entries .tmpList fun d ↦ d.tmp.keys.filter fun p ↦ p.length = 1
  flat.forM fun p ↦ Io.ignore (Io.step .tmpRemove fun d : Disk ↦ { d with tmp := d.tmp.erase p })

/-- Remove uncommitted output from `series/`. -/
def sweepOutput (watermark : ℕ) : Io Unit := do
  let out ← outputFiles
  out.forM fun x ↦
    if x.2.2.1 ≤ watermark then
      pure ()
    else
      Io.ignore (Io.step .seriesRemove fun d : Disk ↦ { d with series := d.series.erase x.1 })

/-- Clean up after an interrupted flush. -/
def sweepUncommitted (watermark : ℕ) : Io Unit := do
  clearRuns
  let staged ← stagedFiles
  staged.forM (settle watermark)
  sweepFlat
  sweepOutput watermark

/-- Refuse a directory with flush output but no manifest. -/
def requireManifestForOutput : Io Unit := do
  let out ← outputFiles
  let staged ← stagedFiles
  let found := out.map Prod.fst ++ (staged.filter fun x ↦ x.2.isSome).map Prod.fst
  match found with
  | [] => pure ()
  | first :: _ => Prog.fail (.config (.manifestLost found.length first))

/-! ## What a listing finds -/

section Triples

variable {o : Oracle Op} {P : Disk → Prop} {E : Error → Disk → Prop} {C : Disk → Prop}

theorem entries_triple {α : Type} {label : Op} {f : Disk → List α} :
    Triple o P (entries label f) (fun l d ↦ P d ∧ (l = f d ∨ l = [] ∧ Failed o label)) E P := by
  refine .attempt_bind (Io.read_triple (Q := fun l d ↦ P d ∧ l = f d)
    (E := fun _ d ↦ P d ∧ Failed o label) ?_ ?_ ?_ fun _ _ _ hd _ ↦ hd)
    (fun l ↦ .ret fun d hd ↦ ⟨hd.1, .inl hd.2⟩) fun e ↦ .ret fun d hd ↦ ⟨hd.1, .inr ⟨rfl, hd.2⟩⟩
  · exact fun d l hd hread ↦ ⟨hd, (Except.ok.inj hread).symm⟩
  · exact fun d e _ hread ↦ nomatch hread
  · exact fun d t n hd ho ↦ ⟨hd, t, n, ho⟩

theorem flatMapIo_triple {α β : Type} {f : α → Io (List β)} {l : List α} {R : α → List β → Prop}
    (h : ∀ a ∈ l, Triple o P (f a) (fun r d ↦ P d ∧ R a r) E C) :
    Triple o P (flatMapIo f l)
      (fun out d ↦ P d ∧ (∀ y ∈ out, ∃ a ∈ l, ∃ r, R a r ∧ y ∈ r) ∧
        ∀ a ∈ l, ∃ r, R a r ∧ ∀ y ∈ r, y ∈ out) E C := by
  -- the invariant: what has been collected from the members seen
  have hloop : ∀ (rest seen : List α) (out : List β), l = seen ++ rest →
      Triple o (fun d ↦ P d ∧ (∀ y ∈ out, ∃ a ∈ seen, ∃ r, R a r ∧ y ∈ r) ∧
          ∀ a ∈ seen, ∃ r, R a r ∧ ∀ y ∈ r, y ∈ out)
        (rest.foldlM (fun out a ↦ do return out ++ (← f a)) out)
        (fun out d ↦ P d ∧ (∀ y ∈ out, ∃ a ∈ l, ∃ r, R a r ∧ y ∈ r) ∧
          ∀ a ∈ l, ∃ r, R a r ∧ ∀ y ∈ r, y ∈ out) E C := by
    intro rest
    induction rest with
    | nil =>
      intro seen out hl
      rw [hl, List.append_nil]
      exact .ret fun _ ↦ id
    | cons a rest ih =>
      intro seen out hl
      have ha : a ∈ l := hl ▸ List.mem_append_right _ List.mem_cons_self
      rw [List.foldlM_cons]
      refine .intro fun d₁ hd₁ ↦ .bind (Q := fun out' d ↦ P d ∧
          (∀ y ∈ out', ∃ b ∈ seen ++ [a], ∃ r, R b r ∧ y ∈ r) ∧
            ∀ b ∈ seen ++ [a], ∃ r, R b r ∧ ∀ y ∈ r, y ∈ out')
        (.bind ((h a ha).pre fun d hd ↦ hd ▸ hd₁.1) fun r ↦ .ret ?_)
        fun out' ↦ ih (seen ++ [a]) out' (by rw [hl]; simp)
      rintro d ⟨hd, hr⟩
      refine ⟨hd, fun y hy ↦ ?_, fun b hb ↦ ?_⟩
      · rcases List.mem_append.1 hy with hy | hy
        · obtain ⟨b, hb, h⟩ := hd₁.2.1 y hy
          exact ⟨b, List.mem_append_left _ hb, h⟩
        · exact ⟨a, by simp, r, hr, hy⟩
      · rcases List.mem_append.1 hb with hb | hb
        · obtain ⟨r', hr', hsub⟩ := hd₁.2.2 b hb
          exact ⟨r', hr', fun y hy ↦ List.mem_append_left _ (hsub y hy)⟩
        · obtain rfl := List.mem_singleton.1 hb
          exact ⟨r, hr, fun y hy ↦ List.mem_append_right _ hy⟩
  exact (hloop l [] [] rfl).pre fun d hd ↦ ⟨hd, by simp, by simp⟩

theorem mem_children {dir : Path} {files : Std.ExtTreeMap Path Parquet} {c : String} :
    c ∈ children dir files ↔
      ∃ p : Path, p ∈ files ∧ p.length = 3 ∧ p.take dir.length = dir ∧
        p[dir.length]? = some c := by
  rw [children, List.mem_dedup, List.mem_filterMap]
  simp only [Std.ExtTreeMap.mem_keys]
  refine exists_congr fun p ↦ and_congr_right fun _ ↦ ?_
  by_cases hp : p.length = 3 ∧ p.take dir.length = dir
  · rw [if_pos hp]
    exact ⟨fun h ↦ ⟨hp.1, hp.2, h⟩, fun h ↦ h.2.2⟩
  · rw [if_neg hp]
    exact ⟨nofun, fun h ↦ absurd ⟨h.1, h.2.1⟩ hp⟩

/-- A listing finds only files that are there, and all of them unless a directory could not be
listed. -/
structure Lists (o : Oracle Op) (label : Op) (files : Std.ExtTreeMap Path Parquet) (l : List Path) :
    Prop where
  sound : ∀ p ∈ l, p ∈ files ∧ p.length = 3
  complete : ¬ Failed o label → ∀ p ∈ files, p.length = 3 → p ∈ l

section Listing

variable {label : Op} {files : Disk → Std.ExtTreeMap Path Parquet} {d : Disk}

theorem subdirs_triple (dirs : List Path) :
    Triple o (· = d) (subdirs label files dirs)
      (fun out d' ↦ d' = d ∧
        (∀ q ∈ out, ∃ dir ∈ dirs, ∃ c ∈ children dir (files d), q = dir ++ [c]) ∧
        (¬ Failed o label → ∀ dir ∈ dirs, ∀ c ∈ children dir (files d), dir ++ [c] ∈ out)) E
      (· = d) := by
  refine (flatMapIo_triple (P := (· = d)) (R := fun dir r ↦
    (∀ q ∈ r, ∃ c ∈ children dir (files d), q = dir ++ [c]) ∧
      (¬ Failed o label → ∀ c ∈ children dir (files d), dir ++ [c] ∈ r)) fun dir _ ↦
    .bind entries_triple fun names ↦ .ret ?_).post ?_
  · rintro d' ⟨rfl, rfl | ⟨rfl, hfailed⟩⟩
    · refine ⟨rfl, fun q hq ↦ ?_, fun _ c hc ↦ List.mem_map_of_mem hc⟩
      obtain ⟨c, hc, rfl⟩ := List.mem_map.1 hq
      exact ⟨c, hc, rfl⟩
    · exact ⟨rfl, by simp, fun hnot ↦ absurd hfailed hnot⟩
  · rintro out d' ⟨rfl, hsound, hall⟩
    refine ⟨rfl, fun q hq ↦ ?_, fun hnot dir hdir c hc ↦ ?_⟩
    · obtain ⟨dir, hdir, r, hr, hqr⟩ := hsound q hq
      exact ⟨dir, hdir, hr.1 q hqr⟩
    · obtain ⟨r, hr, hsub⟩ := hall dir hdir
      exact hsub _ (hr.2 hnot c hc)

private theorem subdirs_below {n : ℕ} {dirs out : List Path} (hn : n < 3) {p : Path}
    (hp : p ∈ files d) (hlen : p.length = 3) (hdir : p.take n ∈ dirs)
    (hout : ∀ dir ∈ dirs, ∀ c ∈ children dir (files d), dir ++ [c] ∈ out) : p.take (n + 1) ∈
      out := by
  have htake : (p.take n).length = n := by
    rw [List.length_take]
    omega
  have hc : p[n] ∈ children (p.take n) (files d) := mem_children.2 ⟨p, hp, hlen, by rw [htake], by
    rw [htake]
    exact List.getElem?_eq_getElem _⟩
  rw [List.take_add_one, List.getElem?_eq_getElem (by omega)]
  exact hout _ hdir _ hc

private theorem mem_of_mem_children {dir : Path} {files : Std.ExtTreeMap Path Parquet} {c : String}
    (h : c ∈ children dir files) (hdir : dir.length = 2) : dir ++ [c] ∈ files := by
  obtain ⟨p, hp, hlen, htake, hc⟩ := mem_children.1 h
  obtain ⟨a, b, e, rfl⟩ := List.length_eq_three.1 hlen
  rw [hdir] at htake hc
  obtain rfl : e = c := Option.some.inj hc
  rw [← htake]
  exact hp

/-- **A listing** reads the tree level by level. -/
theorem listFiles_triple :
    Triple o (· = d) (listFiles label files) (fun l d' ↦ d' = d ∧ Lists o label (files d) l) E
      (· = d) := by
  refine .bind (subdirs_triple [[]]) fun series ↦ .intro ?_
  rintro _ ⟨rfl, hseries, hallSeries⟩
  refine .bind (subdirs_triple series) fun hours ↦ .intro ?_
  rintro _ ⟨rfl, hhours, hallHours⟩
  refine .bind (subdirs_triple hours) fun found ↦ .ret ?_
  rintro _ ⟨rfl, hfound, hallFound⟩
  refine ⟨rfl, fun p hp ↦ ?_, fun hnot p hp hlen ↦ ?_⟩
  · obtain ⟨dir, hdir, c, hc, rfl⟩ := hfound p ((List.mem_insertionSort _).1 hp)
    obtain ⟨s, hs, h, -, rfl⟩ := hhours dir hdir
    obtain ⟨r, hr, s, -, rfl⟩ := hseries s hs
    obtain rfl := List.mem_singleton.1 hr
    exact ⟨mem_of_mem_children hc rfl, rfl⟩
  · have h₁ := subdirs_below (n := 0) (by omega) hp hlen (by simp) (hallSeries hnot)
    have h₂ := subdirs_below (by omega) hp hlen h₁ (hallHours hnot)
    have h₃ := subdirs_below (by omega) hp hlen h₂ (hallFound hnot)
    rw [List.take_of_length_le hlen.le] at h₃
    exact (List.mem_insertionSort _).2 h₃

end Listing

theorem outputFiles_triple {d : Disk} :
    Triple o (· = d) outputFiles
      (fun l d' ↦ d' = d ∧
        (∀ y ∈ l, (y.1 ∈ d.series ∧ y.1.length = 3) ∧ outputRange y.1 = some y.2) ∧
        (¬ Failed o .seriesList → ∀ p ∈ d.series, p.length = 3 → ∀ r, outputRange p = some r →
          (p, r) ∈ l)) E (· = d) := by
  refine .bind listFiles_triple fun paths ↦ .ret ?_
  rintro d' ⟨rfl, hlists⟩
  refine ⟨rfl, fun y hy ↦ ?_, fun hnot p hp hlen r hr ↦ ?_⟩
  · obtain ⟨p, hp, hy⟩ := List.mem_filterMap.1 hy
    obtain ⟨r, hr, rfl⟩ := Option.map_eq_some_iff.1 hy
    exact ⟨hlists.sound p hp, hr⟩
  · exact List.mem_filterMap.2 ⟨p, hlists.complete hnot p hp hlen, by rw [hr]; rfl⟩

theorem stagedFiles_triple {d : Disk} :
    Triple o (· = d) stagedFiles
      (fun l d' ↦ d' = d ∧ (∀ y ∈ l, (y.1 ∈ d.tmp ∧ y.1.length = 3) ∧ y.2 = outputRange y.1) ∧
        (¬ Failed o .tmpList → ∀ p ∈ d.tmp, p.length = 3 → (p, outputRange p) ∈ l)) E (· = d) := by
  refine .bind listFiles_triple fun paths ↦ .ret ?_
  rintro d' ⟨rfl, hlists⟩
  refine ⟨rfl, fun y hy ↦ ?_, fun hnot p hp hlen ↦ ?_⟩
  · obtain ⟨p, hp, rfl⟩ := List.mem_map.1 hy
    exact ⟨hlists.sound p hp, rfl⟩
  · exact List.mem_map.2 ⟨p, hlists.complete hnot p hp hlen, rfl⟩

end Triples

end Orc
