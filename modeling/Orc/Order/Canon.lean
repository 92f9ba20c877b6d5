import Mathlib.Data.List.Pairwise
import Mathlib.Data.List.Sort
import Mathlib.Data.Prod.Lex

/-!
# Sorting and keeping the first of each class

`canon k r l` sorts `l` by `k`, ties broken by the rank `r`, and keeps the first member of each run
of equal `k`: for every value of `k` that occurs, the member of least rank. It is the normal form
that a sort followed by an adjacent-duplicate removal computes.

## Independence of the way there

Members are told apart by `k` and `r` together (`Ranked`). Under that hypothesis the normal form is
determined by its members (`eq_of_mem_iff`): it depends only on which elements occur
(`canon_congr`), and normalising a part first changes nothing (`canon_append_canon`). This is what
makes the result of an external sort independent of how the input was split.
-/

namespace Order

variable {α κ ρ : Type*}

/-- Drop each element whose class is that of the last element kept; `last` is the class of the one
kept before the list starts. -/
def keepFirstFrom [DecidableEq κ] (k : α → κ) : Option κ → List α → List α
  | _, [] => []
  | last, a :: as =>
    if last = some (k a) then keepFirstFrom k last as else a :: keepFirstFrom k (some (k a)) as

/-- Keep the first member of each run of equal class. -/
def keepFirst [DecidableEq κ] (k : α → κ) (l : List α) : List α := keepFirstFrom k none l

theorem keepFirstFrom_sublist [DecidableEq κ] (k : α → κ) (last : Option κ) (l : List α) :
    (keepFirstFrom k last l).Sublist l := by
  induction l generalizing last with
  | nil => exact .refl []
  | cons a as ih =>
    rw [keepFirstFrom]
    split_ifs
    · exact (ih last).cons a
    · exact (ih _).cons_cons a

/-- Every class that occurs is represented: by the element kept last, or by a member kept. -/
theorem exists_mem_keepFirstFrom [DecidableEq κ] (k : α → κ) {l : List α} {a : α} (ha : a ∈ l)
    (last : Option κ) : last = some (k a) ∨ ∃ b ∈ keepFirstFrom k last l, k b = k a := by
  induction l generalizing last with
  | nil => simp at ha
  | cons x as ih =>
    rw [keepFirstFrom]
    rcases List.mem_cons.1 ha with rfl | ha
    · split_ifs with h
      · exact .inl h
      · exact .inr ⟨a, List.mem_cons_self, rfl⟩
    · split_ifs with h
      · exact ih ha last
      · rcases ih ha (some (k x)) with heq | ⟨b, hb, hk⟩
        · exact .inr ⟨x, List.mem_cons_self, by simpa using heq⟩
        · exact .inr ⟨b, List.mem_cons_of_mem x hb, hk⟩

/-- On a list whose classes come in order and lie at or above the last class kept, the members kept
are strictly increasing and lie strictly above it. -/
theorem pairwise_keepFirstFrom [DecidableEq κ] [PartialOrder κ] {k : α → κ} {l : List α}
    (h : l.Pairwise fun a b ↦ k a ≤ k b) (last : Option κ) (hlast : ∀ x ∈ last, ∀ a ∈ l, x ≤ k a) :
    (keepFirstFrom k last l).Pairwise (fun a b ↦ k a < k b) ∧
      ∀ x ∈ last, ∀ a ∈ keepFirstFrom k last l, x < k a := by
  induction l generalizing last with
  | nil => exact ⟨.nil, by simp [keepFirstFrom]⟩
  | cons a l ih =>
    rw [List.pairwise_cons] at h
    rw [keepFirstFrom]
    split_ifs with heq
    · exact ih h.2 last fun x hx b hb ↦ hlast x hx b (List.mem_cons_of_mem a hb)
    · obtain ⟨hpw, habove⟩ := ih h.2 (some (k a)) (by simpa using h.1)
      have habove' : ∀ b ∈ keepFirstFrom k (some (k a)) l, k a < k b := habove (k a) rfl
      refine ⟨List.pairwise_cons.2 ⟨habove', hpw⟩, fun x hx b hb ↦ ?_⟩
      have hxa : x < k a := lt_of_le_of_ne (hlast x hx a List.mem_cons_self) fun he ↦ by
        rw [Option.mem_def.1 hx, he] at heq
        exact heq rfl
      rcases List.mem_cons.1 hb with rfl | hb
      · exact hxa
      · exact hxa.trans (habove' b hb)

section Linear

variable [LinearOrder κ] [LinearOrder ρ] (k : α → κ) (r : α → ρ)

/-- The sort order: by class, then by rank. -/
def rankLE (a b : α) : Prop := toLex (k a, r a) ≤ toLex (k b, r b)

instance : DecidableRel (rankLE k r) := fun a b ↦
  inferInstanceAs (Decidable (toLex (k a, r a) ≤ toLex (k b, r b)))

instance : Std.Total (rankLE k r) := ⟨fun a b ↦ le_total (toLex (k a, r a)) (toLex (k b, r b))⟩

instance : IsTrans α (rankLE k r) := ⟨fun _ _ _ h h' ↦ le_trans h h'⟩

theorem rankLE_iff {a b : α} : rankLE k r a b ↔ k a < k b ∨ k a = k b ∧ r a ≤ r b :=
  Prod.Lex.toLex_le_toLex

variable {k r} in
theorem rankLE.class_le {a b : α} (h : rankLE k r a b) : k a ≤ k b := by
  rcases (rankLE_iff k r).1 h with h | ⟨h, -⟩
  · exact h.le
  · exact h.le

/-- Sort by class and rank, then keep the first member of each class. -/
def canon (l : List α) : List α := keepFirst k (l.insertionSort (rankLE k r))

private theorem le_of_mem_keepFirstFrom {l : List α} (hl : l.Pairwise (rankLE k r)) {a b : α}
    (hb : b ∈ l) (hk : k b = k a) :
    ∀ last : Option κ, a ∈ keepFirstFrom k last l → (∀ x ∈ last, ∀ c ∈ l, x ≤ k c) →
      r a ≤ r b := by
  induction l with
  | nil => simp at hb
  | cons x as ih =>
    intro last ha hlast
    have hx := (List.pairwise_cons.1 hl).1
    have htail : ∀ z ∈ last, ∀ c ∈ as, z ≤ k c := fun z hz c hc ↦
      hlast z hz c (List.mem_cons_of_mem x hc)
    have hkept := (pairwise_keepFirstFrom (hl.imp rankLE.class_le) last hlast).2
    rw [keepFirstFrom] at ha hkept
    split_ifs at ha hkept with heq
    · rcases List.mem_cons.1 hb with rfl | hb
      · exact absurd hk (hkept (k b) heq a ha).ne
      · exact ih (List.pairwise_cons.1 hl).2 hb last ha htail
    · rcases List.mem_cons.1 ha with rfl | ha'
      · rcases List.mem_cons.1 hb with rfl | hb
        · exact le_rfl
        · rcases (rankLE_iff k r).1 (hx b hb) with h | ⟨-, h⟩
          · exact absurd hk h.ne'
          · exact h
      · have hx' : ∀ z ∈ some (k x), ∀ c ∈ as, z ≤ k c := fun z hz c hc ↦ by
          obtain rfl := Option.mem_some.1 hz
          exact (hx c hc).class_le
        rcases List.mem_cons.1 hb with rfl | hb
        · have := (pairwise_keepFirstFrom ((List.pairwise_cons.1 hl).2.imp rankLE.class_le) _
            hx').2 (k b) rfl a ha'
          exact absurd hk this.ne
        · exact ih (List.pairwise_cons.1 hl).2 hb _ ha' hx'

/-! ## The normal form -/

/-- Class and rank together tell the members of `l` apart. -/
def Ranked (l : List α) : Prop := ∀ a ∈ l, ∀ b ∈ l, k a = k b → r a = r b → a = b

variable {k r}

omit [LinearOrder κ] [LinearOrder ρ] in
theorem Ranked.mono {l m : List α} (hm : Ranked k r m) (h : ∀ a ∈ l, a ∈ m) : Ranked k r l :=
  fun a ha b hb ↦ hm a (h a ha) b (h b hb)

variable (k r)

theorem pairwise_canon (l : List α) : (canon k r l).Pairwise (k · < k ·) :=
  (pairwise_keepFirstFrom ((List.pairwise_insertionSort (rankLE k r) l).imp rankLE.class_le) none
    (by simp)).1

theorem mem_of_mem_canon {l : List α} {a : α} (ha : a ∈ canon k r l) : a ∈ l :=
  (List.perm_insertionSort _ l).mem_iff.1 ((keepFirstFrom_sublist k none _).subset ha)

theorem length_canon_le (l : List α) : (canon k r l).length ≤ l.length := by
  have h := (keepFirstFrom_sublist k none (l.insertionSort (rankLE k r))).length_le
  rwa [List.length_insertionSort] at h

theorem exists_mem_canon {l : List α} {a : α} (ha : a ∈ l) : ∃ b ∈ canon k r l, k b = k a := by
  have hmem := (List.perm_insertionSort (rankLE k r) l).mem_iff.2 ha
  rcases exists_mem_keepFirstFrom k hmem none with h | h
  · simp at h
  · exact h

theorem mem_canon_of_injective (hk : Function.Injective k) {l : List α} {a : α} :
    a ∈ canon k r l ↔ a ∈ l := by
  refine ⟨mem_of_mem_canon k r, fun ha ↦ ?_⟩
  obtain ⟨b, hb, hba⟩ := exists_mem_canon k r ha
  rwa [← hk hba]

theorem le_of_mem_canon {l : List α} {a b : α} (ha : a ∈ canon k r l) (hb : b ∈ l)
    (hk : k b = k a) : r a ≤ r b :=
  le_of_mem_keepFirstFrom k r (List.pairwise_insertionSort _ l)
    ((List.perm_insertionSort _ l).mem_iff.2 hb) hk none ha (by simp)

variable {k r}

/-- **The members of the normal form** are the members of least rank in their class. -/
theorem mem_canon {l : List α} (hl : Ranked k r l) {a : α} :
    a ∈ canon k r l ↔ a ∈ l ∧ ∀ b ∈ l, k b = k a → r a ≤ r b := by
  refine ⟨fun ha ↦ ⟨mem_of_mem_canon k r ha, fun b hb hk ↦ le_of_mem_canon k r ha hb hk⟩, ?_⟩
  rintro ⟨ha, hmin⟩
  obtain ⟨b, hb, hk⟩ := exists_mem_canon k r ha
  have hbl := mem_of_mem_canon k r hb
  have hr : r a = r b := le_antisymm (hmin b hbl hk) (le_of_mem_canon k r hb ha hk.symm)
  rwa [hl a ha b hbl hk.symm hr]

/-- A list strictly increasing in its class is determined by its members. -/
theorem eq_of_mem_iff {l m : List α} (hl : l.Pairwise (k · < k ·)) (hm : m.Pairwise (k · < k ·))
    (h : ∀ a, a ∈ l ↔ a ∈ m) : l = m := by
  have hne : ∀ {l : List α}, l.Pairwise (k · < k ·) → l.Nodup := fun hl ↦
    hl.imp fun hab ↦ fun heq ↦ hab.ne (congrArg k heq)
  have hperm : l.Perm m := (List.perm_ext_iff_of_nodup (hne hl) (hne hm)).2 h
  exact hperm.eq_of_pairwise (fun a b _ _ hab hba ↦ absurd hab hba.asymm) hl hm

/-- The normal form depends only on which elements occur. -/
theorem canon_congr {l m : List α} (hm : Ranked k r m) (h : ∀ a, a ∈ l ↔ a ∈ m) :
    canon k r l = canon k r m := by
  have hl : Ranked k r l := hm.mono fun a ↦ (h a).1
  refine eq_of_mem_iff (pairwise_canon k r l) (pairwise_canon k r m) fun a ↦ ?_
  simp only [mem_canon hl, mem_canon hm, h]

/-- Normalising a part first changes nothing. -/
theorem canon_append_canon {l m : List α} (h : Ranked k r (l ++ m)) :
    canon k r (canon k r l ++ m) = canon k r (l ++ m) := by
  have hsub : ∀ a ∈ canon k r l ++ m, a ∈ l ++ m := fun a ha ↦ by
    rcases List.mem_append.1 ha with ha | ha
    · exact List.mem_append_left m (mem_of_mem_canon k r ha)
    · exact List.mem_append_right l ha
  refine eq_of_mem_iff (pairwise_canon k r _) (pairwise_canon k r _) fun a ↦ ?_
  rw [mem_canon (h.mono hsub), mem_canon h]
  have hl : Ranked k r l := h.mono fun a ha ↦ List.mem_append_left m ha
  constructor
  · rintro ⟨ha, hmin⟩
    refine ⟨hsub a ha, fun b hb hk ↦ ?_⟩
    rcases List.mem_append.1 hb with hb | hb
    · obtain ⟨c, hc, hkc⟩ := exists_mem_canon k r hb
      exact (hmin c (List.mem_append_left m hc) (hkc.trans hk)).trans
        (le_of_mem_canon k r hc hb hkc.symm)
    · exact hmin b (List.mem_append_right _ hb) hk
  · rintro ⟨ha, hmin⟩
    refine ⟨?_, fun b hb hk ↦ hmin b (hsub b hb) hk⟩
    rcases List.mem_append.1 ha with ha | ha
    · exact List.mem_append_left m ((mem_canon hl).2
        ⟨ha, fun b hb hk ↦ hmin b (List.mem_append_left m hb) hk⟩)
    · exact List.mem_append_right _ ha

private theorem eq_of_class_eq {l : List α} (hl : l.Pairwise (k · < k ·)) {a b : α} (ha : a ∈ l)
    (hb : b ∈ l) (hk : k a = k b) : a = b := by
  by_contra hab
  have hne : l.Pairwise fun x y ↦ k x ≠ k y := hl.imp fun h ↦ h.ne
  have : Std.Symm fun x y : α ↦ k x ≠ k y := ⟨fun _ _ h ↦ h.symm⟩
  exact hne.forall ha hb hab hk

theorem keepFirstFrom_map {β κ : Type*} [DecidableEq κ] (k : β → κ) (f : α → β) (last : Option κ)
    (l : List α) :
    keepFirstFrom k last (l.map f) = (keepFirstFrom (fun a ↦ k (f a)) last l).map f := by
  induction l generalizing last with
  | nil => rfl
  | cons a l ih =>
    rw [List.map_cons, keepFirstFrom, keepFirstFrom]
    split_ifs
    · exact ih last
    · rw [List.map_cons, ih]

/-- Normalising images is taking the images of what normalising by the image keeps. -/
theorem canon_map {β : Type*} (k : β → κ) (r : β → ρ) (f : α → β) (l : List α) :
    canon k r (l.map f) = (canon (fun a ↦ k (f a)) (fun a ↦ r (f a)) l).map f := by
  rw [canon, canon, keepFirst, keepFirst, ← keepFirstFrom_map,
    List.map_insertionSort (rankLE (fun a ↦ k (f a)) (fun a ↦ r (f a))) (rankLE k r) f l
      fun _ _ _ _ ↦ Iff.rfl]

/-- Keeping the first of each class of a sorted list is its normal form, however it was sorted. -/
theorem keepFirst_eq_canon {l m : List α} (hl : Ranked k r l) (hperm : m.Perm l)
    (hsorted : m.Pairwise (rankLE k r)) : keepFirst k m = canon k r l := by
  have hsame : m = l.insertionSort (rankLE k r) := by
    refine (hperm.trans (List.perm_insertionSort _ l).symm).eq_of_pairwise ?_ hsorted
      (List.pairwise_insertionSort _ l)
    intro a b ha hb hab hba
    have heq := le_antisymm (α := κ ×ₗ ρ) hab hba
    have hpair := Prod.mk.inj (toLex.injective heq)
    exact hl a (hperm.subset ha) b ((List.perm_insertionSort _ l).subset hb) hpair.1 hpair.2
  rw [canon, hsame]

/-- A list already strictly increasing in its class is its own normal form. -/
theorem canon_eq_self {l : List α} (hl : l.Pairwise (k · < k ·)) : canon k r l = l := by
  refine eq_of_mem_iff (pairwise_canon k r l) hl fun a ↦ ⟨mem_of_mem_canon k r, fun ha ↦ ?_⟩
  obtain ⟨b, hb, hk⟩ := exists_mem_canon k r ha
  rwa [eq_of_class_eq hl ha (mem_of_mem_canon k r hb) hk.symm]

end Linear

end Order
