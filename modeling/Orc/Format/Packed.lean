import Mathlib.Data.List.Basic

/-!
# Packed lists

A list of lists kept as one buffer, with the end offset of each member. `Packed.of` is the packing
of a list of lists. Pushing a member onto a packing packs it at the end (`push_of`), and a range of
members is read back from one slice of the buffer (`arrays_of`).

Reading is checked: `none` is an offset out of range.

A packing is how a columnar writer keeps many short strings without an allocation for each. All that
can go wrong is an offset, so the lemmas are stated for offsets that are in order and within the
buffer, which those of a packing are.
-/

namespace Orc.Format

variable {α : Type}

/-- The elements from `a` up to `b`, if there are that many. -/
def slice (xs : List α) (a b : ℕ) : Option (List α) :=
  if a ≤ b ∧ b ≤ xs.length then some ((xs.drop a).take (b - a)) else none

private theorem slice_eq_some {xs : List α} {a b : ℕ} (hab : a ≤ b) (hb : b ≤ xs.length) :
    slice xs a b = some ((xs.drop a).take (b - a)) := if_pos ⟨hab, hb⟩

theorem slice_append (xs ys zs : List α) :
    slice (xs ++ (ys ++ zs)) xs.length (xs.length + ys.length) = some ys := by
  rw [slice_eq_some (Nat.le_add_right _ _) (by simp), List.drop_left, Nat.add_sub_cancel_left,
    List.take_left]

/-- One buffer for all members, and where each of them ends. -/
structure Packed (α : Type) where
  buffer : List α := []
  ends : List ℕ := []
  deriving DecidableEq, Repr

namespace Packed

/-- Add a member at the end. -/
def push (p : Packed α) (x : List α) : Packed α :=
  ⟨p.buffer ++ x, p.ends ++ [(p.buffer ++ x).length]⟩

/-- Where a member starts: where the one before it ends. -/
def start (p : Packed α) (i : ℕ) : Option ℕ := if i = 0 then some 0 else p.ends[i - 1]?

/-- The members from `a` up to `b`, each cut out of the slice that holds them all. -/
def arrays (p : Packed α) (a b : ℕ) : Option (List (List α)) :=
  if b ≤ a then
    some []
  else do
    let base ← p.start a
    let last ← p.ends[b - 1]?
    let shared ← slice p.buffer base last
    (List.range' a (b - a)).mapM fun i ↦ do
      let first ← p.start i
      let last ← p.ends[i]?
      if base ≤ first ∧ base ≤ last then slice shared (first - base) (last - base) else none

/-- The packing of a list of lists. -/
def of (ls : List (List α)) : Packed α :=
  ⟨ls.flatten, (List.range ls.length).map fun i ↦ (ls.take (i + 1)).flatten.length⟩

@[simp] theorem of_nil : of ([] : List (List α)) = {} := rfl

@[simp] theorem length_ends_of (ls : List (List α)) : (of ls).ends.length = ls.length := by
  simp [of]

theorem ends_of {ls : List (List α)} {i : ℕ} (h : i < ls.length) :
    (of ls).ends[i]? = some (ls.take (i + 1)).flatten.length := by
  simp [of, h]

private theorem start_of {ls : List (List α)} {i : ℕ} (h : i ≤ ls.length) :
    (of ls).start i = some (ls.take i).flatten.length := by
  cases i with
  | zero => rfl
  | succ i => exact (if_neg (Nat.succ_ne_zero i)).trans (ends_of h)

/-- **Pushing** packs the new member at the end. -/
theorem push_of (ls : List (List α)) (x : List α) : (of ls).push x = of (ls ++ [x]) := by
  have hends : ∀ i ∈ List.range ls.length, (ls.take (i + 1)).flatten.length =
      ((ls ++ [x]).take (i + 1)).flatten.length := fun i hi ↦ by
    rw [List.take_append_of_le_length (List.mem_range.1 hi)]
  simp only [push, of, List.flatten_append, List.flatten_singleton, List.length_append,
    List.length_singleton, List.range_succ, List.map_append, List.map_singleton,
    List.map_congr_left hends]
  rw [List.take_of_length_le (by simp)]
  simp

private theorem mapM_range' {β : Type} {f : ℕ → Option β} {a : ℕ} {ys : List β}
    (h : ∀ i (hi : i < ys.length), f (a + i) = some ys[i]) :
    (List.range' a ys.length).mapM f = some ys := by
  induction ys generalizing a with
  | nil => rfl
  | cons y ys ih =>
    have hfirst : f a = some y := h 0 (Nat.succ_pos _)
    have hrest : (List.range' (a + 1) ys.length).mapM f = some ys := ih fun i hi ↦ by
      rw [Nat.add_right_comm]
      exact h (i + 1) (Nat.succ_lt_succ hi)
    rw [List.length_cons, List.range'_succ, List.mapM_cons, hfirst, hrest]
    rfl

private theorem slice_flatten {ls : List (List α)} {j : ℕ} (hj : j < ls.length) :
    slice ls.flatten (ls.take j).flatten.length (ls.take (j + 1)).flatten.length =
      some ls[j] := by
  have hsplit : ls.flatten =
      (ls.take j).flatten ++ (ls[j] ++ (ls.drop (j + 1)).flatten) := by
    rw [← List.flatten_cons, ← List.drop_eq_getElem_cons hj, ← List.flatten_append,
      List.take_append_drop]
  have hend : (ls.take (j + 1)).flatten.length =
      (ls.take j).flatten.length + ls[j].length := by
    rw [List.take_succ_eq_append_getElem hj, List.flatten_append, List.length_append,
      List.flatten_singleton]
  rw [hend, hsplit, slice_append]

/-- **Reading a range** of a packing gives the members that were packed. -/
theorem arrays_of (xs ys zs : List (List α)) :
    (of (xs ++ (ys ++ zs))).arrays xs.length (xs.length + ys.length) = some ys := by
  cases hys : ys with
  | nil => rw [List.length_nil, arrays, if_pos (Nat.le_of_eq (Nat.add_zero _))]
  | cons y ys' =>
  have hpos : 0 < ys.length := by simp [hys]
  rw [← hys, arrays, if_neg (by omega)]
  have hstart : ∀ j, j ≤ ys.length → (of (xs ++ (ys ++ zs))).start (xs.length + j) =
      some (xs.flatten.length + (ys.take j).flatten.length) := fun j hj ↦ by
    rw [start_of (by simp; omega), List.take_length_add_append,
      List.take_append_of_le_length hj, List.flatten_append, List.length_append]
  have hend : ∀ j, j < ys.length → (of (xs ++ (ys ++ zs))).ends[xs.length + j]? =
      some (xs.flatten.length + (ys.take (j + 1)).flatten.length) := fun j hj ↦ by
    rw [ends_of (by simp; omega), Nat.add_assoc, List.take_length_add_append,
      List.take_append_of_le_length hj, List.flatten_append, List.length_append]
  have hbase := hstart 0 (Nat.zero_le _)
  have hlast := hend (ys.length - 1) (Nat.sub_lt hpos Nat.one_pos)
  rw [Nat.sub_add_cancel hpos, List.take_length, ← Nat.add_sub_assoc hpos] at hlast
  simp only [Nat.add_zero, List.take_zero, List.flatten_nil, List.length_nil] at hbase
  have hshared : slice (of (xs ++ (ys ++ zs))).buffer xs.flatten.length
      (xs.flatten.length + ys.flatten.length) = some ys.flatten := by
    rw [of, List.flatten_append, List.flatten_append, slice_append]
  simp only [hbase, hlast, hshared, Option.bind_eq_bind, Option.bind_some, Nat.add_sub_cancel_left]
  refine mapM_range' fun j hj ↦ ?_
  rw [hstart j (Nat.le_of_lt hj), hend j hj]
  simp only [Option.bind_some, Nat.le_add_right, and_self, if_true, Nat.add_sub_cancel_left,
    slice_flatten hj]

end Packed

end Orc.Format
