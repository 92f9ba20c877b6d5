import Mathlib.Data.List.Induction
import Mathlib.Data.List.TakeWhile
import Orc.Order.Canon

/-!
# Cutting a sorted list into its classes

`cut k l` splits `l` where the class `k` changes. It can be computed from either end (`cut_concat`).
If the classes come in order, each piece is all of `l` in one class, and the pieces are one for each
class that occurs, in order (`cut_eq`).

The last section is about lists of numbers in order: what lies up to a bound, what lies above it,
and the last of them.

Cutting from the right is what a writer does that sees one element after the other, and cutting from
the left is what induction on the list wants; so both are needed, and that they agree.
-/

namespace Order

variable {α κ : Type*} [DecidableEq κ] (k : α → κ)

/-- Put an element in front: into the first piece if it is of the same class. -/
def cutCons (a : α) : List (List α) → List (List α)
  | (b :: bs) :: cs => if k a = k b then (a :: b :: bs) :: cs else [a] :: (b :: bs) :: cs
  | cs => [a] :: cs

/-- The pieces of a list between changes of class. -/
def cut : List α → List (List α)
  | [] => []
  | a :: l => cutCons k a (cut l)

variable {k}

theorem flatten_cut (l : List α) : (cut k l).flatten = l := by
  induction l with
  | nil => rfl
  | cons a l ih =>
    rw [cut]
    generalize cut k l = cs at ih
    subst ih
    rcases cs with _ | ⟨_ | ⟨b, bs⟩, cs⟩
    · rfl
    · rfl
    · rw [cutCons]
      split_ifs <;> rfl

/-- No piece is empty, and a piece has one class. -/
theorem class_eq_of_mem_cut {l c : List α} (hc : c ∈ cut k l) :
    ∃ a as, c = a :: as ∧ ∀ b ∈ as, k b = k a := by
  induction l generalizing c with
  | nil => cases hc
  | cons x l ih =>
    rw [cut] at hc
    rcases hcut : cut k l with _ | ⟨_ | ⟨b, bs⟩, cs⟩
    · rw [hcut] at hc
      exact ⟨x, [], List.mem_singleton.1 hc, by simp⟩
    · obtain ⟨a, as, h, -⟩ := ih (hcut ▸ List.mem_cons_self)
      cases h
    · rw [hcut] at ih hc
      obtain ⟨b', bs', heq, hbs⟩ := ih List.mem_cons_self
      obtain ⟨rfl, rfl⟩ := List.cons.inj heq
      rw [cutCons] at hc
      split_ifs at hc with hk
      · rcases List.mem_cons.1 hc with rfl | hc
        · refine ⟨x, _, rfl, List.forall_mem_cons.2 ⟨hk.symm, fun y hy ↦ ?_⟩⟩
          rw [hbs y hy, hk]
        · exact ih (List.mem_cons_of_mem _ hc)
      · rcases List.mem_cons.1 hc with rfl | hc
        · exact ⟨x, [], rfl, by simp⟩
        · exact ih hc

private theorem cutCons_map {β : Type*} (k : β → κ) (f : α → β) (a : α) (cs : List (List α)) :
    cutCons k (f a) (cs.map (List.map f)) = (cutCons (fun x ↦ k (f x)) a cs).map (List.map f) := by
  rcases cs with _ | ⟨_ | ⟨b, bs⟩, cs⟩
  · rfl
  · rfl
  · simp only [List.map_cons, cutCons]
    split_ifs <;> rfl

/-- Cutting images is taking the images of the pieces. -/
theorem cut_map {β : Type*} (k : β → κ) (f : α → β) (l : List α) :
    cut k (l.map f) = (cut (fun x ↦ k (f x)) l).map (List.map f) := by
  induction l with
  | nil => rfl
  | cons a l ih => rw [List.map_cons, cut, cut, ih, cutCons_map]

/-- Two class functions that agree on which members are alike cut a list alike. -/
theorem cut_congr {κ' : Type*} [DecidableEq κ'] {k' : α → κ'} {l : List α}
    (h : ∀ a ∈ l, ∀ b ∈ l, k a = k b ↔ k' a = k' b) : cut k l = cut k' l := by
  induction l with
  | nil => rfl
  | cons a l ih =>
    have hl := ih fun x hx y hy ↦ h x (List.mem_cons_of_mem a hx) y (List.mem_cons_of_mem a hy)
    rw [cut, cut, ← hl]
    rcases hcut : cut k l with _ | ⟨_ | ⟨b, bs⟩, cs⟩
    · rfl
    · rfl
    · have hb : b ∈ l := by
        have hmem : b ∈ (cut k l).flatten := by
          rw [hcut]
          exact List.mem_cons_self
        rwa [flatten_cut] at hmem
      simp only [cutCons, h a List.mem_cons_self b (List.mem_cons_of_mem a hb)]

/-- From the other end: a last element joins the last piece if it is of the same class. -/
theorem cut_concat (l : List α) (a : α) :
    cut k (l ++ [a]) =
      match (cut k l).getLast? with
      | some c =>
        if c.getLast?.map k = some (k a) then (cut k l).dropLast ++ [c ++ [a]]
        else cut k l ++ [[a]]
      | none => [[a]] := by
  induction l with
  | nil => rfl
  | cons x l ih =>
    rw [List.cons_append, cut, ih, cut]
    rcases hcut : cut k l with _ | ⟨_ | ⟨b, bs⟩, cs⟩
    · simp only [List.getLast?_nil, cutCons, List.getLast?_singleton, Option.map_some,
        Option.some.injEq, List.dropLast_singleton, List.nil_append, List.singleton_append]
    · obtain ⟨_, _, h, -⟩ := class_eq_of_mem_cut (k := k) (l := l) (c := [])
        (hcut ▸ List.mem_cons_self)
      cases h
    · cases cs with
      | nil =>
        simp only [List.getLast?_singleton, List.dropLast_singleton, List.nil_append, cutCons]
        split_ifs <;> simp_all
      | cons c cs =>
        simp only [List.getLast?_cons_cons, List.dropLast_cons_cons, List.cons_append, cutCons]
        cases hlast : (c :: cs).getLast? with
        | none => simp at hlast
        | some d =>
          dsimp only
          split_ifs <;> simp_all

/-- What follows a list leaves its pieces as they are, but for the last, which it may extend. -/
theorem cut_append {l : List α} {front : List (List α)} {c : List α} (h : cut k l = front ++ [c])
    (more : List α) : ∃ c' rest, cut k (l ++ more) = front ++ c' :: rest ∧ c <+: c' := by
  induction more using List.reverseRecOn with
  | nil => exact ⟨c, [], by rw [List.append_nil, h], List.prefix_rfl⟩
  | append_singleton more a ih =>
    obtain ⟨c', rest, hcut, hprefix⟩ := ih
    rw [← List.append_assoc, cut_concat, hcut]
    rcases rest.eq_nil_or_concat' with rfl | ⟨rest, d, rfl⟩
    · rw [List.getLast?_concat, List.dropLast_concat]
      dsimp only
      split_ifs
      · exact ⟨c' ++ [a], [], rfl, hprefix.trans (List.prefix_append _ _)⟩
      · exact ⟨c', [[a]], by rw [List.append_assoc]; rfl, hprefix⟩
    · rw [← List.cons_append, ← List.append_assoc, List.getLast?_concat, List.dropLast_concat]
      dsimp only
      split_ifs
      · exact ⟨c', rest ++ [d ++ [a]], by rw [List.append_assoc]; rfl, hprefix⟩
      · exact ⟨c', rest ++ [d] ++ [[a]], by simp only [List.append_assoc, List.cons_append],
          hprefix⟩

/-- **The pieces of a list whose classes come in order** are one for each class, and each is all of
the list in that class. -/
theorem cut_eq [PartialOrder κ] {l : List α} (h : l.Pairwise fun a b ↦ k a ≤ k b) :
    cut k l = (keepFirst k l).map fun a ↦ l.filter fun b ↦ k b = k a := by
  induction l with
  | nil => rfl
  | cons a l ih =>
    rw [List.pairwise_cons] at h
    have hkept : ∀ b ∈ keepFirstFrom k (some (k a)) l, k a < k b :=
      (pairwise_keepFirstFrom h.2 (some (k a)) (by simpa using h.1)).2 (k a) rfl
    -- the pieces of the other classes do not change
    have hother : (keepFirstFrom k (some (k a)) l).map (fun c ↦ (a :: l).filter fun b ↦ k b = k c) =
        (keepFirstFrom k (some (k a)) l).map fun c ↦ l.filter fun b ↦ k b = k c := by
      refine List.map_congr_left fun c hc ↦ ?_
      rw [List.filter_cons_of_neg (by simpa using (hkept c hc).ne)]
    rw [cut, ih h.2, keepFirst, keepFirst, keepFirstFrom, if_neg (by simp), List.map_cons,
      hother, List.filter_cons_of_pos (by simp)]
    cases l with
    | nil => rfl
    | cons b l =>
      simp only [keepFirstFrom, reduceCtorEq, if_false, List.map_cons, Option.some.injEq]
      by_cases hk : k a = k b
      · rw [if_pos hk, List.filter_cons_of_pos (by simp), cutCons, if_pos hk, hk,
          List.filter_cons_of_pos (by simp)]
      · have hnone : (b :: l).filter (fun x ↦ k x = k a) = [] := by
          rw [List.filter_eq_nil_iff]
          intro x hx hxa
          have hbx : k b ≤ k x := by
            rcases List.mem_cons.1 hx with rfl | hx
            · exact le_rfl
            · exact (List.pairwise_cons.1 h.2).1 x hx
          have hxa' : k x = k a := by simpa using hxa
          exact hk (le_antisymm (h.1 b List.mem_cons_self) (hxa' ▸ hbx))
        rw [if_neg hk, hnone, List.map_cons, List.filter_cons_of_pos (by simp), cutCons, if_neg hk]

/-- A piece of a list whose classes come in order is all of the list in the class of its first. -/
theorem eq_filter_of_mem_cut [PartialOrder κ] {l c : List α} (h : l.Pairwise fun a b ↦ k a ≤ k b)
    (hc : c ∈ cut k l) : ∃ a as, c = a :: as ∧ c = l.filter fun b ↦ k b = k a := by
  obtain ⟨a, as, hcons, -⟩ := class_eq_of_mem_cut hc
  rw [cut_eq h] at hc
  obtain ⟨x, -, rfl⟩ := List.mem_map.1 hc
  have ha : a ∈ l.filter fun b ↦ k b = k x := hcons ▸ List.mem_cons_self
  have hclass : k a = k x := by simpa using (List.mem_filter.1 ha).2
  exact ⟨a, as, hcons, by rw [hclass]⟩

/-- The pieces of a list whose classes come in order are of rising classes. -/
theorem pairwise_cut [PartialOrder κ] {l : List α} (h : l.Pairwise fun a b ↦ k a ≤ k b) :
    (cut k l).Pairwise fun c c' ↦ ∀ a ∈ c, ∀ b ∈ c', k a < k b := by
  rw [cut_eq h, List.pairwise_map]
  refine (pairwise_keepFirstFrom h none (by simp)).1.imp fun {x y} hxy a ha b hb ↦ ?_
  have hax : k a = k x := by simpa using (List.mem_filter.1 ha).2
  have hby : k b = k y := by simpa using (List.mem_filter.1 hb).2
  rwa [hax, hby]

/-- **The classes of a list in order** that lie in a range of numbers, put behind each other, are
the list. -/
theorem flatMap_filter_range' {k : α → ℕ} {n first : ℕ} {l : List α}
    (hsorted : l.Pairwise fun a b ↦ k a ≤ k b) (hrange : ∀ a ∈ l, first ≤ k a ∧ k a < first + n) :
    (List.range' first n).flatMap (fun i ↦ l.filter (k · = i)) = l := by
  induction n generalizing first l with
  | zero =>
    have hnil : l = [] := List.eq_nil_iff_forall_not_mem.2 fun a ha ↦ by
      have := hrange a ha
      omega
    rw [hnil]
    rfl
  | succ n ih =>
    -- the first class is a first part of the list, and the others are the classes of the rest
    have hsplit : l = l.filter (k · = first) ++ l.filter (k · ≠ first) := by
      clear ih
      induction l with
      | nil => rfl
      | cons a l ihl =>
        rw [List.pairwise_cons] at hsorted
        rw [List.forall_mem_cons] at hrange
        by_cases ha : k a = first
        · simpa [ha] using ihl hsorted.2 hrange.2
        · have hall : ∀ b ∈ a :: l, k b ≠ first := List.forall_mem_cons.2 ⟨ha, fun b hb ↦ by
            have := hsorted.1 b hb
            omega⟩
          have hempty : (a :: l).filter (k · = first) = [] := by simpa using hall
          have hfull : (a :: l).filter (k · ≠ first) = a :: l :=
            List.filter_eq_self.2 fun b hb ↦ by simpa using hall b hb
          rw [hempty, hfull, List.nil_append]
    have hrest : (List.range' (first + 1) n).flatMap
        (fun i ↦ (l.filter (k · ≠ first)).filter (k · = i)) = l.filter (k · ≠ first) :=
      ih (hsorted.filter _) fun a ha ↦ by
        have := hrange a (List.mem_of_mem_filter ha)
        have hne : k a ≠ first := by simpa using (List.mem_filter.1 ha).2
        omega
    rw [List.range'_succ, List.flatMap_cons]
    conv_rhs => rw [hsplit, ← hrest]
    congr 1
    refine List.flatMap_congr fun i hi ↦ ?_
    have hlt : first < i := by
      have := List.mem_range'_1.1 hi
      omega
    rw [List.filter_filter]
    refine List.filter_congr fun a _ ↦ ?_
    by_cases h : k a = i
    · simp [h, hlt.ne']
    · simp [h]

/-! ## Numbers in order -/

/-- The numbers up to a bound are a first part of a list in order. -/
theorem mem_takeWhile_le {l : List ℕ} (h : l.Pairwise (· < ·)) {n a : ℕ} :
    a ∈ l.takeWhile (· ≤ n) ↔ a ∈ l ∧ a ≤ n := by
  induction l with
  | nil => simp
  | cons b l ih =>
    rw [List.pairwise_cons] at h
    by_cases hb : b ≤ n
    · rw [List.takeWhile_cons_of_pos (by simpa using hb), List.mem_cons, List.mem_cons, ih h.2]
      constructor
      · rintro (rfl | ha)
        · exact ⟨.inl rfl, hb⟩
        · exact ⟨.inr ha.1, ha.2⟩
      · rintro ⟨rfl | ha, hle⟩
        · exact .inl rfl
        · exact .inr ⟨ha, hle⟩
    · rw [List.takeWhile_cons_of_neg (by simpa using hb), List.mem_cons]
      constructor
      · intro ha
        cases ha
      · rintro ⟨rfl | ha, hle⟩
        · exact absurd hle hb
        · have := h.1 a ha
          omega

theorem mem_dropWhile_le {l : List ℕ} (h : l.Pairwise (· < ·)) {n a : ℕ} :
    a ∈ l.dropWhile (· ≤ n) ↔ a ∈ l ∧ n < a := by
  induction l with
  | nil => simp
  | cons b l ih =>
    rw [List.pairwise_cons] at h
    by_cases hb : b ≤ n
    · rw [List.dropWhile_cons_of_pos (by simpa using hb), List.mem_cons, ih h.2]
      constructor
      · exact fun ha ↦ ⟨.inr ha.1, ha.2⟩
      · rintro ⟨rfl | ha, hlt⟩
        · omega
        · exact ⟨ha, hlt⟩
    · rw [List.dropWhile_cons_of_neg (by simpa using hb), List.mem_cons]
      constructor
      · rintro (rfl | ha)
        · exact ⟨.inl rfl, by omega⟩
        · have := h.1 a ha
          exact ⟨.inr ha, by omega⟩
      · exact fun ha ↦ ha.1

/-- The last number of a list in order is the greatest. -/
theorem getLast?_eq_some_iff {l : List ℕ} (h : l.Pairwise (· < ·)) {m : ℕ} :
    l.getLast? = some m ↔ m ∈ l ∧ ∀ a ∈ l, a ≤ m := by
  induction l using List.reverseRecOn with
  | nil => simp
  | append_singleton l b _ =>
    have hlast := (List.pairwise_append.1 h).2.2
    rw [List.getLast?_concat, Option.some.injEq]
    constructor
    · rintro rfl
      refine ⟨by simp, fun a ha ↦ ?_⟩
      rcases List.mem_append.1 ha with ha | ha
      · exact (hlast a ha b (by simp)).le
      · exact (List.mem_singleton.1 ha).le
    · rintro ⟨hmem, hmax⟩
      rcases List.mem_append.1 hmem with hm | hm
      · have := hlast m hm b (by simp)
        have := hmax b (by simp)
        omega
      · exact (List.mem_singleton.1 hm).symm

end Order
