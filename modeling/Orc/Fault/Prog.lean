import Mathlib.Data.Nat.Basic
import Mathlib.Tactic.TypeStar

/-!
# Programs over a disk that fails and crashes

A program reads and changes a disk through operations. Before each operation an oracle is asked,
which answers that it is carried out, that it returns an error, or that the process stops there; an
operation that writes bytes may have written some of them in the last two cases. A program ends with
a value, with an error, or in a crash, and leaves the disk as it is at that moment. Since the oracle
may stop the program at any operation, a statement about every oracle covers every crash point.

Operations are numbered as they are asked for, and carry a label. The number lets an oracle treat
two calls of one operation differently, so that nothing is assumed about a disk that failed once;
the label lets a hypothesis speak of some operations only. The disk is any type, and so are labels
and errors.

## Reasoning

`Triple o P p Q E C` is a Hoare triple with one postcondition for each way of ending: started on a
disk satisfying `P`, the program `p` ends with a value and a disk satisfying `Q`, with an error and
a disk satisfying `E`, or in a crash on a disk satisfying `C`. The oracle `o` is fixed, so an
assumption on which faults occur is a hypothesis on `o`. Taking `E` and `C` to be false states total
correctness; taking them to be true states what a success implies.

A program whose every operation keeps `P` keeps it in all three endings (`Keeps`), which is the
common case and needs no postconditions. `Exits` collects what a triple needs to know in order to
leave early: that a fault of an operation, on a disk satisfying `P`, is covered by `E` and `C`.
-/

namespace Fault

variable {ℓ δ ε α β : Type}

/-- What happens to one operation. The number is how many bytes a write had written. -/
inductive Answer where
  | done
  | fails (written : ℕ)
  | crashes (written : ℕ)
  deriving DecidableEq, Repr

/-- How a program ends. -/
inductive Outcome (ε α : Type) where
  | ok (a : α)
  | err (e : ε)
  | crash
  deriving DecidableEq, Repr

/-- The disk, and how many operations have been asked for. -/
structure World (δ : Type) where
  disk : δ
  clock : ℕ := 0
  deriving DecidableEq

/-- The answer to each operation, by its number and its label. -/
abbrev Oracle (ℓ : Type) := ℕ → ℓ → Answer

/-- A program with operations labelled by `ℓ` over a disk `δ`. -/
def Prog (ℓ δ ε α : Type) : Type := Oracle ℓ → World δ → Outcome ε α × World δ

namespace Prog

instance : Monad (Prog ℓ δ ε) where
  pure a := fun _ w ↦ (.ok a, w)
  bind p f := fun o w ↦
    match p o w with
    | (.ok a, w') => f a o w'
    | (.err e, w') => (.err e, w')
    | (.crash, w') => (.crash, w')

instance : LawfulMonad (Prog ℓ δ ε) :=
  .mk' _
    (fun p ↦ by
      funext o w
      change (match p o w with
        | (.ok a, w') => (.ok a, w')
        | (.err e, w') => (.err e, w')
        | (.crash, w') => (.crash, w')) = p o w
      rcases p o w with ⟨_ | _ | _, w'⟩ <;> rfl)
    (fun _ _ ↦ rfl)
    (fun p f g ↦ by
      funext o w
      simp only [bind]
      rcases p o w with ⟨_ | _ | _, w'⟩ <;> rfl)

/-- End with an error. -/
def fail (e : ε) : Prog ℓ δ ε α := fun _ w ↦ (.err e, w)

/-- A pure fallible computation. -/
def ofExcept : Except ε α → Prog ℓ δ ε α
  | .ok a => pure a
  | .error e => fail e

/-- What a sequence that returned says of its parts. -/
theorem bind_eq_ok {p : Prog ℓ δ ε α} {f : α → Prog ℓ δ ε β} {o : Oracle ℓ} {w w' : World δ}
    {b : β} :
    (p >>= f) o w = (.ok b, w') ↔ ∃ a w₁, p o w = (.ok a, w₁) ∧ f a o w₁ = (.ok b, w') := by
  change (match p o w with
    | (.ok a, w') => f a o w'
    | (.err e, w') => (.err e, w')
    | (.crash, w') => (.crash, w')) = _ ↔ _
  rcases p o w with ⟨a | _ | _, w₁⟩
  · constructor
    · exact fun h ↦ ⟨a, w₁, rfl, h⟩
    · rintro ⟨_, _, ⟨⟩, h⟩
      exact h
  · simp
  · simp

/-- What a sequence that failed says of its parts. -/
theorem bind_eq_err {p : Prog ℓ δ ε α} {f : α → Prog ℓ δ ε β} {o : Oracle ℓ} {w w' : World δ}
    {e : ε} : (p >>= f) o w = (.err e, w') ↔
      p o w = (.err e, w') ∨ ∃ a w₁, p o w = (.ok a, w₁) ∧ f a o w₁ = (.err e, w') := by
  change (match p o w with
    | (.ok a, w') => f a o w'
    | (.err e, w') => (.err e, w')
    | (.crash, w') => (.crash, w')) = _ ↔ _
  rcases p o w with ⟨a | _ | _, w₁⟩
  · constructor
    · exact fun h ↦ .inr ⟨a, w₁, rfl, h⟩
    · rintro (⟨⟨⟩⟩ | ⟨_, _, ⟨⟩, h⟩)
      exact h
  · simp
  · simp

/-- Turn an error into a value; a crash stays a crash. -/
def attempt (p : Prog ℓ δ ε α) : Prog ℓ δ ε (Except ε α) := fun o w ↦
  match p o w with
  | (.ok a, w') => (.ok (.ok a), w')
  | (.err e, w') => (.ok (.error e), w')
  | (.crash, w') => (.crash, w')

/-- The program does not end with an error. -/
def Errless (p : Prog ℓ δ ε α) : Prop := ∀ o w e w', p o w ≠ (.err e, w')

theorem errless_pure (a : α) : Errless (pure a : Prog ℓ δ ε α) := by
  rintro o w e w' ⟨⟩

theorem errless_attempt (p : Prog ℓ δ ε α) : Errless (attempt p) := by
  intro o w e w' h
  simp only [attempt] at h
  split at h <;> cases h

theorem Errless.bind {p : Prog ℓ δ ε α} {f : α → Prog ℓ δ ε β} (hp : Errless p)
    (hf : ∀ a, Errless (f a)) : Errless (p >>= f) := by
  intro o w e w' h
  rcases bind_eq_err.1 h with h | ⟨a, w₁, -, h⟩
  · exact hp o w e w' h
  · exact hf a o w₁ e w' h

/-- Look at the disk. -/
def look (f : δ → α) : Prog ℓ δ ε α := fun _ w ↦ (.ok (f w.disk), w)

/-- Change what is held in memory: no operation, so nothing can go wrong. -/
def modify (f : δ → δ) : Prog ℓ δ ε Unit := fun _ w ↦ (.ok (), ⟨f w.disk, w.clock⟩)

/-- Run a program on a part of the disk, seen through `get` and put back by `set`. -/
def zoom {δ' : Type} (get : δ → δ') (set : δ' → δ → δ) (p : Prog ℓ δ' ε α) : Prog ℓ δ ε α :=
  fun o w ↦
    let (r, w') := p o ⟨get w.disk, w.clock⟩
    (r, ⟨set w'.disk w.disk, w'.clock⟩)

theorem Errless.zoom {δ' : Type} {get : δ → δ'} {set : δ' → δ → δ} {p : Prog ℓ δ' ε α}
    (hp : Errless p) : Errless (zoom get set p) := by
  intro o w e w' h
  have hfirst : (p o ⟨get w.disk, w.clock⟩).1 = .err e := congrArg Prod.fst h
  exact hp o ⟨get w.disk, w.clock⟩ e _ (Prod.ext hfirst rfl)

/-- One operation. Carried out it runs `act`, which may refuse; a fault is reported as `io` and
leaves the disk alone. -/
def op (label : ℓ) (io : ε) (act : δ → Except ε (α × δ)) : Prog ℓ δ ε α := fun o w ↦
  match o w.clock label with
  | .done =>
    match act w.disk with
    | .ok (a, d) => (.ok a, ⟨d, w.clock + 1⟩)
    | .error e => (.err e, ⟨w.disk, w.clock + 1⟩)
  | .fails _ => (.err io, ⟨w.disk, w.clock + 1⟩)
  | .crashes _ => (.crash, ⟨w.disk, w.clock + 1⟩)

/-- A write of `len` bytes, where `act n` is the effect of the first `n`. Returns how many were
written and whether that was all. -/
def write (label : ℓ) (len : ℕ) (act : ℕ → δ → δ) : Prog ℓ δ ε (ℕ × Bool) := fun o w ↦
  match o w.clock label with
  | .done => (.ok (len, true), ⟨act len w.disk, w.clock + 1⟩)
  | .fails n => (.ok (min n len, false), ⟨act (min n len) w.disk, w.clock + 1⟩)
  | .crashes n => (.crash, ⟨act (min n len) w.disk, w.clock + 1⟩)

end Prog

open Prog

/-- The oracle stops some program somewhere. -/
def Crashes (o : Oracle ℓ) : Prop := ∃ t label n, o t label = .crashes n

/-- The oracle makes some operation fail. -/
def Fails (o : Oracle ℓ) : Prop := ∃ t label n, o t label = .fails n

/-- The oracle makes some operation of a kind fail. -/
def FailsOn (kind : ℓ → Bool) (o : Oracle ℓ) : Prop :=
  ∃ t label n, kind label = true ∧ o t label = .fails n

theorem FailsOn.fails {kind : ℓ → Bool} {o : Oracle ℓ} (h : FailsOn kind o) : Fails o :=
  let ⟨t, label, n, _, ho⟩ := h
  ⟨t, label, n, ho⟩

/-- The postcondition that applies to a way of ending. -/
def Meets (o : Oracle ℓ) (Q : α → δ → Prop) (E : ε → δ → Prop) (C : δ → Prop) :
    Outcome ε α × World δ → Prop
  | (.ok a, w) => Q a w.disk
  | (.err e, w) => E e w.disk
  | (.crash, w) => Crashes o ∧ C w.disk

/-- Started on a disk satisfying `P`, the program ends with a value under `Q`, with an error under
`E`, or in a crash under `C`, and it crashes only if the oracle says so. -/
def Triple (o : Oracle ℓ) (P : δ → Prop) (p : Prog ℓ δ ε α) (Q : α → δ → Prop)
    (E : ε → δ → Prop) (C : δ → Prop) : Prop :=
  ∀ w, P w.disk → Meets o Q E C (p o w)

namespace Triple

variable {o : Oracle ℓ} {P P' : δ → Prop} {p : Prog ℓ δ ε α} {Q Q' : α → δ → Prop}
  {R : β → δ → Prop} {E E' : ε → δ → Prop} {C C' : δ → Prop}

/-- What a run that returned says. -/
theorem of_ok (h : Triple o P p Q E C) {w w' : World δ} {a : α} (hP : P w.disk)
    (hrun : p o w = (.ok a, w')) : Q a w'.disk := by
  have hmeets := h w hP
  rw [hrun] at hmeets
  exact hmeets

/-- What a run that failed says. -/
theorem of_err (h : Triple o P p Q E C) {w w' : World δ} {e : ε} (hP : P w.disk)
    (hrun : p o w = (.err e, w')) : E e w'.disk := by
  have hmeets := h w hP
  rw [hrun] at hmeets
  exact hmeets

/-- A program that cannot fail returns, if it is not stopped. -/
theorem returns (h : Triple o P p Q E C) (hE : ∀ e d, ¬ E e d) (ho : ¬ Crashes o) {w : World δ}
    (hP : P w.disk) : ∃ a w', p o w = (.ok a, w') ∧ Q a w'.disk := by
  have hmeets := h w hP
  generalize p o w = r at hmeets
  rcases r with ⟨a | e | _, w'⟩
  · exact ⟨a, w', rfl, hmeets⟩
  · exact (hE e _ hmeets).elim
  · exact (ho hmeets.1).elim

/-- The rule of consequence. -/
theorem conseq (h : Triple o P p Q E C) (hP : ∀ d, P' d → P d) (hQ : ∀ a d, Q a d → Q' a d)
    (hE : ∀ e d, E e d → E' e d) (hC : ∀ d, C d → C' d) : Triple o P' p Q' E' C' := by
  intro w hw
  have hrun := h w (hP _ hw)
  generalize p o w = r at hrun ⊢
  rcases r with ⟨_ | _ | _, w'⟩
  · exact hQ _ _ hrun
  · exact hE _ _ hrun
  · exact ⟨hrun.1, hC _ hrun.2⟩

theorem pre (h : Triple o P p Q E C) (hP : ∀ d, P' d → P d) : Triple o P' p Q E C :=
  h.conseq hP (fun _ _ ↦ id) (fun _ _ ↦ id) (fun _ ↦ id)

theorem post (h : Triple o P p Q E C) (hQ : ∀ a d, Q a d → Q' a d) : Triple o P p Q' E C :=
  h.conseq (fun _ ↦ id) hQ (fun _ _ ↦ id) (fun _ ↦ id)

theorem exits (h : Triple o P p Q E C) (hE : ∀ e d, E e d → E' e d) (hC : ∀ d, C d → C' d) :
    Triple o P p Q E' C' :=
  h.conseq (fun _ ↦ id) (fun _ _ ↦ id) hE hC

/-- Two statements about one program. -/
theorem and (h : Triple o P p Q E C) (h' : Triple o P' p Q' E' C') :
    Triple o (fun d ↦ P d ∧ P' d) p (fun a d ↦ Q a d ∧ Q' a d) (fun e d ↦ E e d ∧ E' e d)
      (fun d ↦ C d ∧ C' d) := by
  rintro w ⟨hw, hw'⟩
  have hrun := h w hw
  have hrun' := h' w hw'
  generalize p o w = r at hrun hrun' ⊢
  rcases r with ⟨_ | _ | _, w'⟩
  · exact ⟨hrun, hrun'⟩
  · exact ⟨hrun, hrun'⟩
  · exact ⟨hrun.1, hrun.2, hrun'.2⟩

/-- Where nothing crashes, nothing need be said of crashes. -/
theorem uncrashed (h : Triple o P p Q E C) (ho : ¬ Crashes o) : Triple o P p Q E C' := by
  intro w hw
  have hrun := h w hw
  generalize p o w = r at hrun ⊢
  rcases r with ⟨_ | _ | _, w'⟩
  · exact hrun
  · exact hrun
  · exact absurd hrun.1 ho

/-- A fact about the disk at the start may be assumed and named. -/
theorem intro (h : ∀ d, P d → Triple o (· = d) p Q E C) : Triple o P p Q E C := fun w hw ↦
  h w.disk hw w rfl

theorem ret {a : α} (h : ∀ d, P d → Q a d) : Triple o P (pure a) Q E C := fun _ hw ↦ h _ hw

theorem fail {e : ε} (h : ∀ d, P d → E e d) : Triple o P (Prog.fail e) Q E C := fun _ hw ↦ h _ hw

theorem look {f : δ → α} (h : ∀ d, P d → Q (f d) d) : Triple o P (Prog.look f) Q E C :=
  fun _ hw ↦ h _ hw

theorem modify {f : δ → δ} {Q : Unit → δ → Prop} (h : ∀ d, P d → Q () (f d)) :
    Triple o P (Prog.modify f) Q E C := fun _ hw ↦ h _ hw

/-- What a program on a part of the disk does to the whole: the rest stays as it is. -/
theorem zoom {δ' : Type} {get : δ → δ'} {set : δ' → δ → δ} {p : Prog ℓ δ' ε α}
    (h : ∀ d, P d → Triple o (· = get d) p (fun a x ↦ Q a (set x d)) (fun e x ↦ E e (set x d))
      (fun x ↦ C (set x d))) : Triple o P (Prog.zoom get set p) Q E C := by
  intro w hw
  have hrun := h w.disk hw ⟨get w.disk, w.clock⟩ rfl
  simp only [Prog.zoom]
  generalize p o ⟨get w.disk, w.clock⟩ = r at hrun ⊢
  rcases r with ⟨_ | _ | _, w'⟩
  · exact hrun
  · exact hrun
  · exact hrun

/-- The rule of sequence. -/
theorem bind {f : α → Prog ℓ δ ε β} (hp : Triple o P p Q E C)
    (hf : ∀ a, Triple o (Q a) (f a) R E C) : Triple o P (p >>= f) R E C := by
  intro w hw
  have hrun := hp w hw
  simp only [Bind.bind]
  generalize p o w = r at hrun ⊢
  rcases r with ⟨a | e | _, w'⟩
  · exact hf a w' hrun
  · exact hrun
  · exact hrun

/-- Looking at a known disk. -/
theorem look_bind {f : δ → α} {g : α → Prog ℓ δ ε β} {d : δ}
    (h : Triple o (· = d) (g (f d)) R E C) : Triple o (· = d) (Prog.look f >>= g) R E C :=
  fun w hw ↦ by
    subst hw
    exact h w rfl

theorem ofExcept {x : Except ε α} (hok : ∀ a, x = .ok a → ∀ d, P d → Q a d)
    (herr : ∀ e, x = .error e → ∀ d, P d → E e d) : Triple o P (Prog.ofExcept x) Q E C := by
  cases x with
  | ok a => exact ret (hok a rfl)
  | error e => exact fail (herr e rfl)

/-- Errors of an attempted program are values of it. -/
theorem attempt {Q : Except ε α → δ → Prop}
    (hp : Triple o P p (fun a d ↦ Q (.ok a) d) (fun e d ↦ Q (.error e) d) C) :
    Triple o P (Prog.attempt p) Q E C := by
  intro w hw
  have hrun := hp w hw
  simp only [Prog.attempt]
  generalize p o w = r at hrun ⊢
  rcases r with ⟨a | e | _, w'⟩
  · exact hrun
  · exact hrun
  · exact hrun

/-- The rule of an attempt: the program goes on from either end. -/
theorem attempt_bind {Q' : β → δ → Prop} {E' : ε → δ → Prop} {f : Except ε α → Prog ℓ δ ε β}
    (hp : Triple o P p Q E C) (hok : ∀ a, Triple o (Q a) (f (.ok a)) Q' E' C)
    (herr : ∀ e, Triple o (E e) (f (.error e)) Q' E' C) :
    Triple o P (Prog.attempt p >>= f) Q' E' C := by
  refine bind (Q := fun r d ↦ (∀ a, r = .ok a → Q a d) ∧ ∀ e, r = .error e → E e d)
    (attempt (hp.conseq (fun _ ↦ id) ?_ ?_ fun _ ↦ id)) fun r ↦ ?_
  · rintro a d hd
    refine ⟨?_, nofun⟩
    rintro _ ⟨⟩
    exact hd
  · rintro e d hd
    refine ⟨nofun, ?_⟩
    rintro _ ⟨⟩
    exact hd
  · cases r with
    | ok a => exact (hok a).pre fun d hd ↦ hd.1 a rfl
    | error e => exact (herr e).pre fun d hd ↦ hd.2 e rfl

/-- The rule of loops with an accumulator: an invariant on what remains and what has been
accumulated. -/
theorem foldlM {f : β → α → Prog ℓ δ ε β} {I : List α → β → δ → Prop}
    (h : ∀ a l b, Triple o (I (a :: l) b) (f b a) (I l) E C) (l : List α) (b : β) :
    Triple o (I l b) (l.foldlM f b) (I []) E C := by
  induction l generalizing b with
  | nil => exact ret fun _ ↦ id
  | cons a l ih => exact bind (h a l b) ih

/-- The rule of loops: an invariant on what remains. -/
theorem forM {f : α → Prog ℓ δ ε PUnit} {I : List α → δ → Prop}
    (h : ∀ a l, Triple o (I (a :: l)) (f a) (fun _ ↦ I l) E C) (l : List α) :
    Triple o (I l) (l.forM f) (fun _ ↦ I []) E C := by
  induction l with
  | nil => exact ret fun _ ↦ id
  | cons a l ih => exact bind (h a l) fun _ ↦ ih

/-- One operation: carried out, refused by the disk, failed, or stopped at. -/
theorem op {label : ℓ} {io : ε} {act : δ → Except ε (α × δ)}
    (hok : ∀ d t a d', P d → o t label = .done → act d = .ok (a, d') → Q a d')
    (hrefuse : ∀ d t e, P d → o t label = .done → act d = .error e → E e d)
    (hfail : ∀ d t n, P d → o t label = .fails n → E io d)
    (hcrash : ∀ d t n, P d → o t label = .crashes n → C d) :
    Triple o P (Prog.op label io act) Q E C := by
  intro w hw
  simp only [Prog.op]
  cases ho : o w.clock label with
  | done =>
    cases hact : act w.disk with
    | ok r => exact hok _ _ _ _ hw ho hact
    | error e => exact hrefuse _ _ _ hw ho hact
  | fails n => exact hfail _ _ _ hw ho
  | crashes n => exact ⟨⟨_, _, _, ho⟩, hcrash _ _ _ hw ho⟩

/-- A write: all of it, or the first bytes of it when it fails or the program stops there. -/
theorem write {label : ℓ} {len : ℕ} {act : ℕ → δ → δ} {Q : ℕ × Bool → δ → Prop}
    (hok : ∀ d t, P d → o t label = .done → Q (len, true) (act len d))
    (hfail : ∀ d t n, P d → o t label = .fails n → Q (min n len, false) (act (min n len) d))
    (hcrash : ∀ d t n, P d → o t label = .crashes n → C (act (min n len) d)) :
    Triple o P (Prog.write label len act) Q E C := by
  intro w hw
  simp only [Prog.write]
  cases ho : o w.clock label with
  | done => exact hok _ _ hw ho
  | fails n => exact hfail _ _ _ hw ho
  | crashes n => exact ⟨⟨_, _, _, ho⟩, hcrash _ _ _ hw ho⟩

end Triple

/-! ## Exits -/

/-- Where a program may end early: a disk satisfying `J` may be left behind by a failed operation of
a kind, which is reported as `io`, and by a crash. -/
structure Exits (kind : ℓ → Bool) (o : Oracle ℓ) (J : δ → Prop) (io : ε) (E : ε → δ → Prop)
    (C : δ → Prop) : Prop where
  fails : FailsOn kind o → ∀ d, J d → E io d
  crash : ∀ d, J d → C d

/-- Errors and crashes that leave `J` behind. -/
theorem Exits.of_keeps (kind : ℓ → Bool) (o : Oracle ℓ) (J : δ → Prop) (io : ε) :
    Exits kind o J io (fun _ ↦ J) J :=
  ⟨fun _ _ ↦ id, fun _ ↦ id⟩

/-! ## Invariants -/

/-- `P` holds again however the program ends. -/
def Keeps (o : Oracle ℓ) (P : δ → Prop) (p : Prog ℓ δ ε α) : Prop :=
  Triple o P p (fun _ ↦ P) (fun _ ↦ P) P

namespace Keeps

variable {o : Oracle ℓ} {P : δ → Prop} {p : Prog ℓ δ ε α}

theorem ret (a : α) : Keeps o P (pure a : Prog ℓ δ ε α) := Triple.ret fun _ ↦ id

theorem fail (e : ε) : Keeps o P (Prog.fail e : Prog ℓ δ ε α) := Triple.fail fun _ ↦ id

theorem look (f : δ → α) : Keeps o P (Prog.look f : Prog ℓ δ ε α) := Triple.look fun _ ↦ id

theorem bind {f : α → Prog ℓ δ ε β} (hp : Keeps o P p) (hf : ∀ a, Keeps o P (f a)) :
    Keeps o P (p >>= f) := Triple.bind hp hf

/-- An attempted program cannot fail. -/
theorem attempt_triple {E : ε → δ → Prop} (hp : Keeps o P p) :
    Triple o P (Prog.attempt p) (fun _ ↦ P) E P := Triple.attempt hp

theorem attempt (hp : Keeps o P p) : Keeps o P (Prog.attempt p) := hp.attempt_triple

theorem op {label : ℓ} {io : ε} {act : δ → Except ε (α × δ)}
    (h : ∀ d a d', P d → act d = .ok (a, d') → P d') : Keeps o P (Prog.op label io act) :=
  Triple.op (fun d _ a d' hd _ ↦ h d a d' hd) (fun _ _ _ hd _ _ ↦ hd) (fun _ _ _ hd _ ↦ hd)
    (fun _ _ _ hd _ ↦ hd)

theorem write {label : ℓ} {len : ℕ} {act : ℕ → δ → δ} (h : ∀ n d, P d → P (act n d)) :
    Keeps o P (Prog.write label len act : Prog ℓ δ ε (ℕ × Bool)) :=
  Triple.write (fun d _ hd _ ↦ h len d hd) (fun d _ _ hd _ ↦ h _ d hd) (fun d _ _ hd _ ↦ h _ d hd)

theorem foldlM {f : β → α → Prog ℓ δ ε β} (h : ∀ b a, Keeps o P (f b a)) (l : List α) (b : β) :
    Keeps o P (l.foldlM f b) :=
  Triple.foldlM (I := fun _ _ ↦ P) (fun a _ b ↦ h b a) l b

theorem forM {f : α → Prog ℓ δ ε PUnit} (h : ∀ a, Keeps o P (f a)) (l : List α) :
    Keeps o P (l.forM f) :=
  Triple.forM (I := fun _ ↦ P) (fun a _ ↦ h a) l

/-- The loop over the members of a list keeps what each turn keeps. -/
theorem forM_of_mem {f : α → Prog ℓ δ ε PUnit} {l : List α} (h : ∀ a ∈ l, Keeps o P (f a)) :
    Keeps o P (l.forM f) := by
  induction l with
  | nil => exact .ret _
  | cons a l ih =>
    exact (h a List.mem_cons_self).bind fun _ ↦ ih fun b hb ↦ h b (List.mem_cons_of_mem a hb)

end Keeps

end Fault
