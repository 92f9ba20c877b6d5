import Mathlib.Data.List.Dedup
import Mathlib.Data.List.Induction
import Mathlib.Data.Nat.Basic
import Std.Data.ExtTreeMap.Lemmas
import Std.Data.ExtTreeSet.Lemmas

/-!
# Directory trees

A directory tree with files and directories at the paths below a root, for programs whose result
depends on which directories exist. A tree carries its own well-formedness: what is in it stands in
a directory of it, and no path is both a file and a directory. Each operation is partial, as the
system call is, and gives a tree again.

The root need not exist. A tree without it is empty.

Most of a data directory can be described without a tree: the engine's files have a fixed depth, and
a map from names to contents for each of its directories says all there is. A tree is needed where
directories are made and removed for their own sake, where a program fails because a directory is
missing or still holds something, or where it walks a directory whose entries it does not know.

## Representation

Paths are lists of names, relative to the root, which is the empty list; the directory of an entry
is its path without the last name. Files and directories are two collections with the invariant in
fields, rather than an inductive tree, because the operations address entries by path: looking one
up or changing it is then an operation of a map, and what it leaves alone is said by the lemmas of
the map.
-/

namespace Fault

variable {β : Type}

/-- Files with their contents, and directories, by path below the root. -/
structure DirTree (β : Type) where
  files : Std.ExtTreeMap (List String) β
  dirs : Std.ExtTreeSet (List String)
  file_ne_nil : ∀ p ∈ files, p ≠ []
  file_parent : ∀ p ∈ files, p.dropLast ∈ dirs
  dir_parent : ∀ p ∈ dirs, p.dropLast ∈ dirs
  disjoint : ∀ p ∈ files, p ∉ dirs

namespace DirTree

variable {t t' : DirTree β} {p q : List String} {b : β}

/-- No root, so nothing at all. -/
def empty : DirTree β where
  files := {}
  dirs := {}
  file_ne_nil := by simp
  file_parent := by simp
  dir_parent := by simp
  disjoint := by simp

/-! ## Listing -/

/-- The names in a directory. -/
def names (t : DirTree β) (dir : List String) : List String :=
  (t.files.keys ++ t.dirs.toList).filterMap fun p ↦
    if p ≠ [] ∧ p.dropLast = dir then p.getLast? else none

private theorem mem_name {dir : List String} {c : String} :
    c ∈ (if p ≠ [] ∧ p.dropLast = dir then p.getLast? else none) ↔ p = dir ++ [c] := by
  constructor
  · intro h
    split at h
    · next hp => rw [← hp.2, List.dropLast_append_getLast? c h]
    · cases h
  · rintro rfl
    simp

theorem mem_names {dir : List String} {c : String} :
    c ∈ t.names dir ↔ dir ++ [c] ∈ t.files ∨ dir ++ [c] ∈ t.dirs := by
  rw [names, List.mem_filterMap]
  constructor
  · rintro ⟨p, hp, hc⟩
    obtain rfl := mem_name.1 hc
    simpa using hp
  · exact fun h ↦ ⟨dir ++ [c], by simpa using h, mem_name.2 rfl⟩

private theorem ne_of_compare_ne (h : ¬ compare p q = .eq) : p ≠ q :=
  fun heq ↦ h (heq ▸ Std.ReflCmp.compare_self)

private theorem nodup_names (dir : List String) : (t.names dir).Nodup := by
  refine List.Nodup.filterMap (fun p q c hp hq ↦ (mem_name.1 hp).trans (mem_name.1 hq).symm) ?_
  refine List.nodup_append'.2 ⟨?_, ?_, fun p hp hq ↦ ?_⟩
  · exact Std.ExtTreeMap.nodup_keys
  · exact t.dirs.distinct_toList.imp ne_of_compare_ne
  · exact t.disjoint p (by simpa using hp) (by simpa using hq)

/-- What stands in some directories. -/
def entries (t : DirTree β) (dirs : List (List String)) : List (List String) :=
  dirs.flatMap fun dir ↦ (t.names dir).map fun c ↦ dir ++ [c]

theorem mem_entries {dirs : List (List String)} :
    q ∈ t.entries dirs ↔ ∃ dir ∈ dirs, ∃ c, q = dir ++ [c] ∧ (q ∈ t.files ∨ q ∈ t.dirs) := by
  simp only [entries, List.mem_flatMap, List.mem_map, mem_names]
  refine exists_congr fun dir ↦ and_congr_right fun _ ↦ exists_congr fun c ↦ ?_
  constructor
  · rintro ⟨h, rfl⟩
    exact ⟨rfl, h⟩
  · rintro ⟨rfl, h⟩
    exact ⟨h, rfl⟩

theorem nodup_entries {dirs : List (List String)} (h : dirs.Nodup) : (t.entries dirs).Nodup := by
  refine List.nodup_flatMap.2 ⟨fun dir _ ↦ ?_, ?_⟩
  · exact (nodup_names dir).map fun c c' h ↦ by simpa using h
  · refine h.imp fun hne q hq hq' ↦ hne ?_
    obtain ⟨c, -, rfl⟩ := List.mem_map.1 hq
    obtain ⟨c', -, h⟩ := List.mem_map.1 hq'
    exact (List.append_inj_left' h rfl).symm

/-- Above a file three levels down there are two directories. -/
theorem dirs_of_file {a c e : String} (h : [a, c, e] ∈ t.files ∨ [a, c, e] ∈ t.dirs) :
    [] ∈ t.dirs ∧ [a] ∈ t.dirs ∧ [a, c] ∈ t.dirs := by
  have h₂ : [a, c] ∈ t.dirs := h.elim (t.file_parent _) (t.dir_parent _)
  exact ⟨t.dir_parent _ (t.dir_parent _ h₂), t.dir_parent _ h₂, h₂⟩

/-! ## Changing -/

/-- Create a directory; one that exists is fine. A file in its place is not, nor a missing
parent. -/
def mkdir (p : List String) (t : DirTree β) : Option (DirTree β) :=
  if h : p ∉ t.files ∧ (p = [] ∨ p.dropLast ∈ t.dirs) then
    some { t with
      dirs := t.dirs.insert p
      file_parent := fun q hq ↦ Std.ExtTreeSet.mem_insert.2 (.inr (t.file_parent q hq))
      dir_parent := fun q hq ↦ by
        rcases Std.ExtTreeSet.mem_insert.1 hq with hq | hq
        · obtain rfl := Std.LawfulEqCmp.eq_of_compare hq
          rcases h.2 with rfl | h
          · exact Std.ExtTreeSet.mem_insert_self
          · exact Std.ExtTreeSet.mem_insert.2 (.inr h)
        · exact Std.ExtTreeSet.mem_insert.2 (.inr (t.dir_parent q hq))
      disjoint := fun q hq hd ↦ by
        rcases Std.ExtTreeSet.mem_insert.1 hd with hd | hd
        · exact h.1 (Std.LawfulEqCmp.eq_of_compare hd ▸ hq)
        · exact t.disjoint q hq hd }
  else
    none

/-- Write a file in a directory; one at this path is replaced, a directory there is not. -/
def put (p : List String) (b : β) (t : DirTree β) : Option (DirTree β) :=
  if h : p ≠ [] ∧ p.dropLast ∈ t.dirs ∧ p ∉ t.dirs then
    some { t with
      files := t.files.insert p b
      file_ne_nil := fun q hq ↦ by
        rcases Std.ExtTreeMap.mem_insert.1 hq with hq | hq
        · exact Std.LawfulEqCmp.eq_of_compare hq ▸ h.1
        · exact t.file_ne_nil q hq
      file_parent := fun q hq ↦ by
        rcases Std.ExtTreeMap.mem_insert.1 hq with hq | hq
        · exact Std.LawfulEqCmp.eq_of_compare hq ▸ h.2.1
        · exact t.file_parent q hq
      disjoint := fun q hq ↦ by
        rcases Std.ExtTreeMap.mem_insert.1 hq with hq | hq
        · exact Std.LawfulEqCmp.eq_of_compare hq ▸ h.2.2
        · exact t.disjoint q hq }
  else
    none

/-- Remove a file. -/
def removeFile (p : List String) (t : DirTree β) : Option (DirTree β) :=
  if p ∈ t.files then
    some { t with
      files := t.files.erase p
      file_ne_nil := fun q hq ↦ t.file_ne_nil q (Std.ExtTreeMap.mem_of_mem_erase hq)
      file_parent := fun q hq ↦ t.file_parent q (Std.ExtTreeMap.mem_of_mem_erase hq)
      disjoint := fun q hq ↦ t.disjoint q (Std.ExtTreeMap.mem_of_mem_erase hq) }
  else
    none

/-- Remove a directory below the root, if it is empty. -/
def removeDir (p : List String) (t : DirTree β) : Option (DirTree β) :=
  if h : p ∈ t.dirs ∧ p ≠ [] ∧ t.names p = [] then
    have hparent : ∀ q, q ≠ [] → (q ∈ t.files ∨ q ∈ t.dirs) → q.dropLast ∈ t.dirs →
        q.dropLast ∈ t.dirs.erase p := fun q hne hq hd ↦ by
      refine Std.ExtTreeSet.mem_erase.2 ⟨fun hp ↦ ?_, hd⟩
      obtain rfl := Std.LawfulEqCmp.eq_of_compare hp
      refine absurd (mem_names.2 ?_ : q.getLast hne ∈ t.names q.dropLast) (by simp [h.2.2])
      rwa [List.dropLast_append_getLast]
    some { t with
      dirs := t.dirs.erase p
      file_parent := fun q hq ↦ hparent q (t.file_ne_nil q hq) (.inl hq) (t.file_parent q hq)
      dir_parent := fun q hq ↦ by
        have hq := Std.ExtTreeSet.mem_erase.1 hq
        by_cases hne : q = []
        · subst hne
          exact Std.ExtTreeSet.mem_erase.2 hq
        · exact hparent q hne (.inr hq.2) (t.dir_parent q hq.2)
      disjoint := fun q hq hd ↦ t.disjoint q hq (Std.ExtTreeSet.mem_of_mem_erase hd) }
  else
    none

/-! ## What the operations change -/

theorem mkdir_eq_some (h : t.mkdir p = some t') :
    (p ∉ t.files ∧ (p = [] ∨ p.dropLast ∈ t.dirs)) ∧ t'.files = t.files ∧
      ∀ q, q ∈ t'.dirs ↔ q = p ∨ q ∈ t.dirs := by
  unfold mkdir at h
  split at h
  · next hp =>
    obtain rfl := Option.some.inj h
    refine ⟨hp, rfl, fun q ↦ Std.ExtTreeSet.mem_insert.trans (or_congr_left ?_)⟩
    exact ⟨fun h ↦ (Std.LawfulEqCmp.eq_of_compare h).symm, fun h ↦ h ▸ Std.ReflCmp.compare_self⟩
  · cases h

theorem mkdir_isSome (hfile : p ∉ t.files) (hdir : p = [] ∨ p.dropLast ∈ t.dirs) :
    (t.mkdir p).isSome := by
  rw [mkdir, dif_pos ⟨hfile, hdir⟩]
  rfl

theorem put_eq_some (h : t.put p b = some t') :
    (p ≠ [] ∧ p.dropLast ∈ t.dirs ∧ p ∉ t.dirs) ∧ t'.files = t.files.insert p b ∧
      t'.dirs = t.dirs := by
  unfold put at h
  split at h
  · next hp =>
    obtain rfl := Option.some.inj h
    exact ⟨hp, rfl, rfl⟩
  · cases h

theorem put_isSome (hne : p ≠ []) (hdir : p.dropLast ∈ t.dirs) (hnot : p ∉ t.dirs) :
    (t.put p b).isSome := by
  rw [put, dif_pos ⟨hne, hdir, hnot⟩]
  rfl

theorem removeFile_eq_some (h : t.removeFile p = some t') :
    p ∈ t.files ∧ t'.files = t.files.erase p ∧ t'.dirs = t.dirs := by
  unfold removeFile at h
  split at h
  · next hp =>
    obtain rfl := Option.some.inj h
    exact ⟨hp, rfl, rfl⟩
  · cases h

theorem removeFile_isSome (h : p ∈ t.files) : (t.removeFile p).isSome := by
  rw [removeFile, if_pos h]
  rfl

theorem removeFile_eq_none (h : p ∉ t.files) : t.removeFile p = none := if_neg h

theorem removeDir_eq_some (h : t.removeDir p = some t') :
    t'.files = t.files ∧ ∀ q, q ∈ t'.dirs ↔ q ≠ p ∧ q ∈ t.dirs := by
  unfold removeDir at h
  split at h
  · obtain rfl := Option.some.inj h
    refine ⟨rfl, fun q ↦ Std.ExtTreeSet.mem_erase.trans (and_congr_left' (not_congr ?_))⟩
    exact ⟨fun h ↦ (Std.LawfulEqCmp.eq_of_compare h).symm, fun h ↦ h ▸ Std.ReflCmp.compare_self⟩
  · cases h

/-- Trees with the same files differ only in directories that lead to none of them. -/
theorem no_file_below (h : t.files = t'.files) {dir : List String} (hdir : dir ∉ t'.dirs)
    (hp : p ≠ []) : dir ++ p ∉ t.files := by
  intro hfile
  rw [h] at hfile
  have habove : ∀ (p : List String), dir ++ p ∈ t'.dirs → dir ∈ t'.dirs := by
    intro p
    induction p using List.reverseRecOn with
    | nil => simp
    | append_singleton p c ih =>
      intro h
      refine ih ?_
      simpa [← List.append_assoc] using t'.dir_parent _ h
  refine hdir (habove p.dropLast ?_)
  simpa [List.dropLast_append_of_ne_nil hp] using t'.file_parent _ hfile

end DirTree

end Fault
