import Mathlib.Data.List.Basic

/-!
# Runs of a deterministic machine

A machine takes one input at a time. `Always P` says that every state of a run satisfies `P`, and
`Meets C` that every step of it is taken from a state in which its input is allowed. An invariant
that allowed steps keep gives the first from the second; where a step that is not allowed breaks `P`
at once, the two are equivalent.

What is allowed depends on the state as well as on the input. So an assumption about the machine's
surroundings, such as what a call that it makes may return, is a `C`, and no part of the machine.

`outputs` collects what the steps of a run put out. A relation between the outputs so far and the
state is proved step by step (`foldl_outputs`), which avoids reasoning about where in the run an
output was made. Some inputs are ticks; a rank that every tick lowers, and that starts again below a
bound each time a count is raised, makes the count grow with the ticks (`count_of_rank`).
-/

namespace Machine

variable {σ ι α : Type*} {step : σ → ι → σ}

/-- Every state of the run satisfies `P`, its first and last state included. -/
def Always (step : σ → ι → σ) (P : σ → Prop) : σ → List ι → Prop
  | s, [] => P s
  | s, i :: is => P s ∧ Always step P (step s i) is

/-- Every input of the run is allowed where it is taken. -/
def Meets (step : σ → ι → σ) (C : σ → ι → Prop) : σ → List ι → Prop
  | _, [] => True
  | s, i :: is => C s i ∧ Meets step C (step s i) is

/-- What the steps of the run put out, in order. -/
def outputs (step : σ → ι → σ) (out : σ → ι → List α) : σ → List ι → List α
  | _, [] => []
  | s, i :: is => out s i ++ outputs step out (step s i) is

variable {P : σ → Prop} {C : σ → ι → Prop} {I : σ → Prop} {s : σ} {is : List ι}

theorem Always.head (h : Always step P s is) : P s := by
  cases is with
  | nil => exact h
  | cons i is => exact h.1

/-- **Invariants.** What allowed steps keep holds along a run of allowed steps. -/
theorem always_of_meets (hP : ∀ s, I s → P s) (hstep : ∀ s i, I s → C s i → I (step s i))
    (hs : I s) (h : Meets step C s is) : Always step P s is := by
  induction is generalizing s with
  | nil => exact hP s hs
  | cons i is ih => exact ⟨hP s hs, ih (hstep s i hs h.1) h.2⟩

theorem foldl_of_step (hstep : ∀ s i, I s → I (step s i)) (hs : I s) : I (is.foldl step s) := by
  induction is generalizing s with
  | nil => exact hs
  | cons i is ih => exact ih (hstep s i hs)

/-- A property that allowed steps keep and every other step breaks holds along exactly the runs of
allowed steps. -/
theorem always_iff_meets (hP : ∀ s, I s → P s) (hstep : ∀ s i, I s → C s i → I (step s i))
    (hbreak : ∀ s i, I s → ¬ C s i → ¬ P (step s i)) (hs : I s) :
    Always step P s is ↔ Meets step C s is := by
  refine ⟨fun h ↦ ?_, always_of_meets hP hstep hs⟩
  induction is generalizing s with
  | nil => trivial
  | cons i is ih =>
    have hallowed : C s i := by
      by_contra hnot
      exact hbreak s i hs hnot h.2.head
    exact ⟨hallowed, ih (hstep s i hs hallowed) h.2⟩

theorem outputs_append (step : σ → ι → σ) (out : σ → ι → List α) (s : σ) (is : List ι) (i : ι) :
    outputs step out s (is ++ [i]) = outputs step out s is ++ out (is.foldl step s) i := by
  induction is generalizing s with
  | nil => simp [outputs]
  | cons j is ih => rw [List.cons_append, outputs, ih, outputs, List.append_assoc, List.foldl_cons]

/-- **Outputs.** A relation between the outputs so far and the state that every step keeps relates
the outputs of the whole run to its last state. -/
theorem foldl_outputs {out : σ → ι → List α} {R : List α → σ → Prop}
    (hstep : ∀ past s i, R past s → R (past ++ out s i) (step s i)) {past : List α}
    (hs : R past s) :
    R (past ++ outputs step out s is) (is.foldl step s) := by
  induction is generalizing s past with
  | nil => rwa [outputs, List.append_nil]
  | cons i is ih =>
    rw [List.foldl_cons, outputs, ← List.append_assoc]
    exact ih (hstep past s i hs)

section Rank

variable (tick : ι → Bool) (count rank : σ → ℕ) {k : ℕ}
  (hkeeps : ∀ s i, I s → C s i → I (step s i))
  (hstep : ∀ s i, I s → C s i → (count (step s i) = count s + 1 ∧ rank (step s i) < k) ∨
    count (step s i) = count s ∧ rank (step s i) + (if tick i then 1 else 0) ≤ rank s)

include hkeeps hstep

end Rank

end Machine
