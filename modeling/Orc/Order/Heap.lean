import Mathlib.Data.List.Basic
import Mathlib.Data.List.Perm.Basic
import Mathlib.Order.Lattice
import Mathlib.Order.Nat

/-!
# A binary min-heap in a list

Position `p` has its children at `2 * p + 1` and `2 * p + 2`. Elements are compared by a key.

`Ordered k lo h` says that every child whose parent stands at `lo` or later has a key no smaller
than its parent's. `siftDown` repairs the order at one position (`siftDown_ordered`) from
`OrderedBut`, which leaves that position out and asks of its children only that they be no smaller
than its parent. `build` makes a heap of any list, and in a heap the first element has the least key
(`le_of_ordered`). `replaceTop` puts another element in its place and `removeTop` takes it out; both
leave a heap of what remains.
-/

namespace Order

variable {α κ : Type*} [LinearOrder κ] (k : α → κ)

/-- The first position if it exists and its element has a smaller key, the second otherwise. -/
def lesser (h : List α) (j m : ℕ) : ℕ :=
  match h[j]?, h[m]? with
  | some a, some b => if k a < k b then j else m
  | _, _ => m

/-- The position among `i` and its children whose element has the least key, the earliest such. -/
def minChild (h : List α) (i : ℕ) : ℕ := lesser k h (2 * i + 2) (lesser k h (2 * i + 1) i)

/-- Exchange the elements at two positions. -/
def swap (h : List α) (i j : ℕ) : List α :=
  match h[i]?, h[j]? with
  | some a, some b => (h.set i b).set j a
  | _, _ => h

/-- Move the element at `i` down until no child has a smaller key. -/
def siftDown : ℕ → List α → ℕ → List α
  | 0, h, _ => h
  | fuel + 1, h, i =>
    if minChild k h i = i then h else siftDown fuel (swap h i (minChild k h i)) (minChild k h i)

/-- Sift down from every position below `n`, the last one first. -/
def build : ℕ → List α → List α
  | 0, h => h
  | n + 1, h => build n (siftDown k h.length h n)

/-- Put an element in place of the first. -/
def replaceTop (h : List α) (b : α) : List α := siftDown k h.length (h.set 0 b) 0

/-- Take the first element out, with the last one in its place. -/
def removeTop (h : List α) : List α :=
  siftDown k h.length (swap h 0 (h.length - 1)).dropLast 0

/-! ## Exchanging two elements -/

theorem swap_eq {h : List α} {i j : ℕ} {a b : α} (hi : h[i]? = some a) (hj : h[j]? = some b) :
    swap h i j = (h.set i b).set j a := by rw [swap, hi, hj]

theorem length_swap (h : List α) (i j : ℕ) : (swap h i j).length = h.length := by
  unfold swap
  split
  · rw [List.length_set, List.length_set]
  · rfl

private theorem getElem?_swap_left {h : List α} {i j : ℕ} {a b : α} (hij : i ≠ j)
    (hi : h[i]? = some a) (hj : h[j]? = some b) : (swap h i j)[i]? = some b := by
  rw [swap_eq hi hj, List.getElem?_set_ne hij.symm,
    List.getElem?_set_self (List.getElem?_eq_some_iff.1 hi).1]

theorem getElem?_swap_right {h : List α} {i j : ℕ} {a b : α} (hi : h[i]? = some a)
    (hj : h[j]? = some b) : (swap h i j)[j]? = some a := by
  rw [swap_eq hi hj, List.getElem?_set_self]
  rw [List.length_set]
  exact (List.getElem?_eq_some_iff.1 hj).1

theorem getElem?_swap_of_ne {h : List α} {i j m : ℕ} (hi : m ≠ i) (hj : m ≠ j) :
    (swap h i j)[m]? = h[m]? := by
  unfold swap
  split
  · rw [List.getElem?_set_ne hj.symm, List.getElem?_set_ne hi.symm]
  · rfl

theorem perm_swap (h : List α) (i j : ℕ) : (swap h i j).Perm h := by
  unfold swap
  split
  next a b hi hj =>
    obtain ⟨hilt, rfl⟩ := List.getElem?_eq_some_iff.1 hi
    obtain ⟨hjlt, rfl⟩ := List.getElem?_eq_some_iff.1 hj
    exact List.set_set_perm hilt hjlt
  next => exact .refl h

/-! ## The heap order -/

/-- `c` is a child of `p`. -/
def IsChild (c p : ℕ) : Prop := c = 2 * p + 1 ∨ c = 2 * p + 2

theorem IsChild.lt {c p : ℕ} (h : IsChild c p) : p < c := by
  unfold IsChild at h
  omega

theorem IsChild.unique {c p p' : ℕ} (h : IsChild c p) (h' : IsChild c p') : p = p' := by
  unfold IsChild at h h'
  omega

/-- Every child whose parent stands at `lo` or later has a key no smaller than its parent's. -/
def Ordered (lo : ℕ) (h : List α) : Prop :=
  ∀ p c a b, lo ≤ p → IsChild c p → h[p]? = some a → h[c]? = some b → k a ≤ k b

/-- As `Ordered`, but nothing is asked of the element at `i` and its children except that the
children be no smaller than the parent of `i`. -/
structure OrderedBut (lo i : ℕ) (h : List α) : Prop where
  pairs : ∀ p c a b, lo ≤ p → p ≠ i → IsChild c p → h[p]? = some a → h[c]? = some b → k a ≤ k b
  grand : ∀ p c a b, lo ≤ p → IsChild i p → IsChild c i → h[p]? = some a → h[c]? = some b →
    k a ≤ k b

variable {k}

theorem lesser_spec {h : List α} {j m : ℕ} {a : α} (hm : h[m]? = some a) :
    ∃ y, h[lesser k h j m]? = some y ∧ k y ≤ k a ∧ (∀ b, h[j]? = some b → k y ≤ k b) ∧
      (lesser k h j m = m ∨ lesser k h j m = j ∧ k y < k a) := by
  unfold lesser
  cases hj : h[j]? with
  | none => exact ⟨a, hm, le_rfl, by simp, .inl rfl⟩
  | some b =>
    simp only [hm, Option.some.injEq, forall_eq']
    split_ifs with hlt
    · exact ⟨b, hj, hlt.le, le_rfl, .inr ⟨rfl, hlt⟩⟩
    · exact ⟨a, hm, le_rfl, not_lt.1 hlt, .inl rfl⟩

theorem minChild_spec {h : List α} {i : ℕ} {a : α} (hi : h[i]? = some a) :
    ∃ y, h[minChild k h i]? = some y ∧ (∀ c b, IsChild c i → h[c]? = some b → k y ≤ k b) ∧
      (minChild k h i = i ∨ IsChild (minChild k h i) i ∧ k y < k a) := by
  obtain ⟨y, hy, hya, hyl, hl⟩ := lesser_spec (k := k) (j := 2 * i + 1) hi
  obtain ⟨z, hz, hzy, hzr, hr⟩ := lesser_spec (k := k) (j := 2 * i + 2) hy
  refine ⟨z, hz, ?_, ?_⟩
  · rintro c b (rfl | rfl) hb
    · exact hzy.trans (hyl b hb)
    · exact hzr b hb
  · rw [minChild]
    rcases hr with hr | ⟨hr, hlt⟩
    · rw [hr] at hz ⊢
      obtain rfl := Option.some.inj (hz.symm.trans hy)
      exact hl.imp_right fun h ↦ ⟨.inl h.1, h.2⟩
    · exact .inr ⟨.inr hr, hlt.trans_le hya⟩

theorem perm_siftDown (fuel : ℕ) (h : List α) (i : ℕ) : (siftDown k fuel h i).Perm h := by
  induction fuel generalizing h i with
  | zero => exact .refl h
  | succ fuel ih =>
    rw [siftDown]
    split_ifs
    · exact .refl h
    · exact (ih _ _).trans (perm_swap h i _)

/-- One step down: the smaller child takes the place of its parent, and only the position it left
remains to be repaired. -/
theorem OrderedBut.swap {lo i m : ℕ} {h : List α} {a y : α} (ho : OrderedBut k lo i h)
    (hlo : lo ≤ i) (hi : h[i]? = some a) (hm : h[m]? = some y) (hchild : IsChild m i)
    (hlt : k y < k a) (hmin : ∀ c b, IsChild c i → h[c]? = some b → k y ≤ k b) :
    OrderedBut k lo m (swap h i m) := by
  have him := hchild.lt
  have hleft := getElem?_swap_left him.ne hi hm
  have hright := getElem?_swap_right hi hm
  refine ⟨fun p c x z hp hpm hc hx hz ↦ ?_, fun p c x z _ hp hc hx hz ↦ ?_⟩
  · by_cases hpi : p = i
    · subst hpi
      obtain rfl := Option.some.inj (hx.symm.trans hleft)
      by_cases hcm : c = m
      · subst hcm
        obtain rfl := Option.some.inj (hz.symm.trans hright)
        exact hlt.le
      · rw [getElem?_swap_of_ne hc.lt.ne' hcm] at hz
        exact hmin c z hc hz
    · rw [getElem?_swap_of_ne hpi hpm] at hx
      by_cases hci : c = i
      · subst hci
        obtain rfl := Option.some.inj (hz.symm.trans hleft)
        exact ho.grand p m x z hp hc hchild hx hm
      · have hcm : c ≠ m := fun heq ↦ hpi ((heq ▸ hc).unique hchild)
        rw [getElem?_swap_of_ne hci hcm] at hz
        exact ho.pairs p c x z hp hpi hc hx hz
  -- the parent of the position left is the one just filled
  · obtain rfl := hp.unique hchild
    obtain rfl := Option.some.inj (hx.symm.trans hleft)
    have := hc.lt
    rw [getElem?_swap_of_ne (by omega) (by omega)] at hz
    exact ho.pairs m c x z (by omega) (by omega) hc hm hz

/-- **Sifting down** restores the order, given as many steps as there are positions below. -/
theorem siftDown_ordered {fuel lo i : ℕ} {h : List α} (ho : OrderedBut k lo i h) (hlo : lo ≤ i)
    (hfuel : h.length ≤ fuel + i) : Ordered k lo (siftDown k fuel h i) := by
  induction fuel generalizing h i with
  | zero =>
    intro p c a b hp hc ha hb
    have hlt : p < h.length := (List.getElem?_eq_some_iff.1 ha).1
    exact ho.pairs p c a b hp (by omega) hc ha hb
  | succ fuel ih =>
    rw [siftDown]
    by_cases hi : i < h.length
    · obtain ⟨y, hy, hmin, hcases⟩ := minChild_spec (k := k) (List.getElem?_eq_getElem hi)
      split_ifs with heq
      · intro p c a b hp hc ha hb
        by_cases hpi : p = i
        · subst hpi
          rw [heq] at hy
          obtain rfl := Option.some.inj (ha.symm.trans hy)
          exact hmin c b hc hb
        · exact ho.pairs p c a b hp hpi hc ha hb
      · obtain ⟨hchild, hlt⟩ := hcases.resolve_left heq
        have hlt' := hchild.lt
        refine ih (ho.swap hlo (List.getElem?_eq_getElem hi) hy hchild hlt hmin) (by omega) ?_
        rw [length_swap]
        omega
    · have hself : minChild k h i = i := by
        have hnone : h[i]? = none := List.getElem?_eq_none (not_lt.1 hi)
        simp [minChild, lesser, hnone]
      rw [if_pos hself]
      intro p c a b hp hc ha hb
      refine ho.pairs p c a b hp (fun heq ↦ hi ?_) hc ha hb
      exact heq ▸ (List.getElem?_eq_some_iff.1 ha).1

/-! ## Building a heap -/

theorem perm_build (n : ℕ) (h : List α) : (build k n h).Perm h := by
  induction n generalizing h with
  | zero => exact .refl h
  | succ n ih => exact (ih _).trans (perm_siftDown _ h n)

private theorem build_ordered {n : ℕ} {h : List α} (ho : Ordered k n h) :
    Ordered k 0 (build k n h) := by
  induction n generalizing h with
  | zero => exact ho
  | succ n ih =>
    refine ih (siftDown_ordered ⟨fun p c a b hp hne hc ha hb ↦ ?_, fun p c a b hp hpar ↦ ?_⟩ le_rfl
      (Nat.le_add_right _ _))
    · exact ho p c a b (by omega) hc ha hb
    · exact absurd hpar.lt (by omega)

/-- Positions past the middle have no children, so building from the middle makes a heap. -/
theorem build_half_ordered (h : List α) : Ordered k 0 (build k (h.length / 2) h) :=
  build_ordered fun p c a b hp hc _ hb ↦ by
    have := (List.getElem?_eq_some_iff.1 hb).1
    unfold IsChild at hc
    omega

/-! ## The first element -/

theorem OrderedBut.of_agree {h h' : List α} (ho : Ordered k 0 h)
    (hagree : ∀ p a, 0 < p → h'[p]? = some a → h[p]? = some a) : OrderedBut k 0 0 h' := by
  refine ⟨fun p c a b _ hp hc ha hb ↦ ?_, fun p c a b _ hp ↦ absurd hp.lt (Nat.not_lt_zero p)⟩
  have hpos : 0 < p := Nat.pos_of_ne_zero hp
  exact ho p c a b (Nat.zero_le p) hc (hagree p a hpos ha) (hagree c b (hpos.trans hc.lt) hb)

theorem perm_replaceTop (a b : α) (t : List α) : (replaceTop k (a :: t) b).Perm (b :: t) :=
  perm_siftDown _ _ _

theorem replaceTop_ordered {h : List α} (ho : Ordered k 0 h) (b : α) :
    Ordered k 0 (replaceTop k h b) := by
  refine siftDown_ordered (.of_agree ho fun p a hp ha ↦ ?_) le_rfl ?_
  · rwa [List.getElem?_set_ne hp.ne] at ha
  · rw [List.length_set, Nat.add_zero]

private theorem getElem?_dropLast_swap {h : List α} {p : ℕ} {a : α} (hp : 0 < p)
    (ha : (swap h 0 (h.length - 1)).dropLast[p]? = some a) : h[p]? = some a := by
  have hlt : p < (swap h 0 (h.length - 1)).length - 1 := by
    rw [← List.length_dropLast]
    exact (List.getElem?_eq_some_iff.1 ha).1
  rw [length_swap] at hlt
  rw [List.getElem?_dropLast, if_pos (by rwa [length_swap]),
    getElem?_swap_of_ne hp.ne' hlt.ne] at ha
  exact ha

theorem perm_removeTop (a : α) (t : List α) : (removeTop k (a :: t)).Perm t := by
  refine (perm_siftDown _ _ _).trans ?_
  have hlast : (swap (a :: t) 0 ((a :: t).length - 1)).getLast? = some a := by
    rw [List.getLast?_eq_getElem?, length_swap]
    exact getElem?_swap_right rfl (List.getElem?_eq_getElem (by simp))
  have hperm := perm_swap (a :: t) 0 ((a :: t).length - 1)
  rw [← List.dropLast_append_getLast? a hlast] at hperm
  exact List.perm_cons a |>.1 ((List.perm_append_singleton a _).symm.trans hperm)

theorem removeTop_ordered {h : List α} (ho : Ordered k 0 h) : Ordered k 0 (removeTop k h) := by
  refine siftDown_ordered (.of_agree ho fun p a hp ha ↦ getElem?_dropLast_swap hp ha) le_rfl ?_
  rw [List.length_dropLast, length_swap]
  omega

/-- **The first element of a heap has the least key.** -/
theorem le_of_ordered {h : List α} (ho : Ordered k 0 h) {a b : α} (ha : h[0]? = some a)
    (hb : b ∈ h) : k a ≤ k b := by
  obtain ⟨j, hj⟩ := List.mem_iff_getElem?.1 hb
  clear hb
  induction j using Nat.strong_induction_on generalizing b with
  | _ j ih =>
    by_cases hj0 : j = 0
    · subst hj0
      exact (congrArg k (Option.some.inj (ha.symm.trans hj))).le
    · have hlt := (List.getElem?_eq_some_iff.1 hj).1
      have hpar : (j - 1) / 2 < h.length := by omega
      have hget := List.getElem?_eq_getElem hpar
      exact (ih _ (by omega) hget).trans
        (ho _ j _ b (Nat.zero_le _) (by unfold IsChild; omega) hget hj)

end Order
