import Orc.Bytes.Basic

/-!
# Reading and writing byte strings

A `Cursor` is a bounds-checked reader: it is given the bytes not read yet and returns a value and
the bytes left, or an error. An `Emitter` appends to an output buffer, which survives an error with
whatever had been written; the encoder of frames relies on that when it cuts a failed frame off.

Two judgements describe a reader. `Reads p b a` says that `p` consumes exactly `b` and returns `a`,
whatever follows; it composes along `>>=` by concatenating what is consumed, so the round trip of a
format is assembled section by section. `Exact p P enc` is the converse: whatever `p` accepts is the
encoding `enc a` of the value it returns, so a value has at most one accepted encoding. The two are
kept apart because they are needed apart: a round trip is `Reads`, and that a damaged or foreign
buffer is not taken for a frame is `Exact`.

`FailsWith E p` says how `p` fails, when it does. Callers tell a buffer that is too short from one
that is corrupt, so the kind of an error is part of the contract.

`Emits w P b` says of a writer when it succeeds and what it then appends; a failed writer has
appended something, and never removed anything.
-/

/-- A sequence of fallible computations succeeds when both do. -/
theorem Except.bind_eq_ok {ε α β : Type} {x : Except ε α} {f : α → Except ε β} {b : β} :
    (x >>= f) = .ok b ↔ ∃ a, x = .ok a ∧ f a = .ok b := by
  cases x <;> simp [bind, Except.bind]

namespace Bytes

variable {ε α β : Type}

/-- A reader over the bytes not consumed so far. -/
abbrev Cursor (ε α : Type) := StateT Bytes (Except ε) α

namespace Cursor

/-- Consume the next `n` bytes, or fail with `short` if there are not that many. -/
def take (short : ε) (n : ℕ) : Cursor ε Bytes := fun s ↦
  if n ≤ s.length then .ok (s.take n, s.drop n) else .error short

/-- Consume a little-endian number of `n` bytes. -/
def le (short : ε) (n : ℕ) : Cursor ε ℕ := leNat <$> take short n

/-- Run a reader `n` times, collecting the values. -/
def many (p : Cursor ε α) : ℕ → Cursor ε (List α)
  | 0 => pure []
  | n + 1 => do
    let a ← p
    let as ← many p n
    pure (a :: as)

/-- A sequence of two readers succeeds when both do, one after the other. -/
theorem bind_eq_ok {p : Cursor ε α} {f : α → Cursor ε β} {s rest : Bytes} {b : β} :
    (p >>= f) s = .ok (b, rest) ↔
      ∃ a mid, p s = .ok (a, mid) ∧ f a mid = .ok (b, rest) := by
  simp only [bind, StateT.bind, Except.bind]
  cases hp : p s with
  | error e => simp
  | ok r =>
    obtain ⟨a, mid⟩ := r
    simp

theorem map_eq_ok {p : Cursor ε α} {f : α → β} {s rest : Bytes} {b : β} :
    (f <$> p) s = .ok (b, rest) ↔ ∃ a, p s = .ok (a, rest) ∧ f a = b := by
  simp only [Functor.map, StateT.map, bind, Except.bind, pure, Except.pure]
  cases hp : p s with
  | error e => simp
  | ok r =>
    obtain ⟨a, mid⟩ := r
    simp only [Except.ok.injEq, Prod.mk.injEq]
    constructor
    · rintro ⟨rfl, rfl⟩
      exact ⟨a, ⟨rfl, rfl⟩, rfl⟩
    · rintro ⟨a', ⟨rfl, rfl⟩, rfl⟩
      exact ⟨rfl, rfl⟩

@[simp] theorem throw_ne_ok {e : ε} {s rest : Bytes} {a : α} :
    (throw e : Cursor ε α) s ≠ .ok (a, rest) := by
  simp [throw, throwThe, MonadExceptOf.throw, StateT.lift, bind, Except.bind]

@[simp] theorem pure_eq_ok {s rest : Bytes} {a b : α} :
    (pure a : Cursor ε α) s = .ok (b, rest) ↔ a = b ∧ s = rest := by
  change (Except.ok (a, s) : Except ε (α × Bytes)) = .ok (b, rest) ↔ _
  rw [Except.ok.injEq, Prod.mk.injEq]

theorem take_eq_ok {short : ε} {n : ℕ} {s b rest : Bytes} :
    take short n s = .ok (b, rest) ↔ s = b ++ rest ∧ b.length = n := by
  unfold take
  split_ifs with h
  · simp only [Except.ok.injEq, Prod.mk.injEq]
    constructor
    · rintro ⟨rfl, rfl⟩
      exact ⟨(List.take_append_drop n s).symm, List.length_take_of_le h⟩
    · rintro ⟨rfl, rfl⟩
      exact ⟨List.take_left, List.drop_left⟩
  · simp only [false_iff, not_and]
    rintro rfl rfl
    simp at h

/-! ## What a reader consumes -/

/-- `p` consumes exactly `b`, whatever follows, and returns `a`. -/
def Reads (p : Cursor ε α) (b : Bytes) (a : α) : Prop :=
  ∀ rest, p (b ++ rest) = .ok (a, rest)

namespace Reads

theorem pure (a : α) : Reads (pure a : Cursor ε α) [] a := fun _ ↦ rfl

theorem bind {p : Cursor ε α} {f : α → Cursor ε β} {b c : Bytes} {x : α} {y : β}
    (hp : Reads p b x) (hf : Reads (f x) c y) : Reads (p >>= f) (b ++ c) y := by
  intro rest
  rw [bind_eq_ok]
  exact ⟨x, c ++ rest, by rw [List.append_assoc, hp], hf rest⟩

theorem map {p : Cursor ε α} {b : Bytes} {x : α} (f : α → β) (hp : Reads p b x) :
    Reads (f <$> p) b (f x) := fun rest ↦ map_eq_ok.2 ⟨x, hp rest, rfl⟩

/-- The last reader of a sequence, whose value is only returned. -/
theorem bindPure {p : Cursor ε α} {b : Bytes} {x : α} (f : α → β) (hp : Reads p b x) :
    Reads (p >>= fun a ↦ Pure.pure (f a)) b (f x) := by
  have h := hp.bind (f := fun a ↦ Pure.pure (f a)) (pure (f x))
  rwa [List.append_nil] at h

theorem take {b : Bytes} {n : ℕ} (short : ε) (h : b.length = n) :
    Reads (Cursor.take short n) b b := fun _ ↦ take_eq_ok.2 ⟨rfl, h⟩

theorem le {n v : ℕ} (short : ε) (h : v < 256 ^ n) :
    Reads (Cursor.le short n) (leBytes n v) v := by
  have hread := (take short (length_leBytes n v)).map leNat
  rwa [leNat_leBytes_of_lt h] at hread

/-- Reading a list is reading its members one after the other. -/
theorem many {p : Cursor ε α} {enc : α → Bytes} :
    ∀ {as : List α}, (∀ a ∈ as, Reads p (enc a) a) →
      Reads (Cursor.many p as.length) (as.flatMap enc) as
  | [], _ => pure []
  | a :: as, h => by
    have htail : ∀ x ∈ as, Reads p (enc x) x := fun x hx ↦ h x (List.mem_cons_of_mem a hx)
    exact (h a List.mem_cons_self).bind ((many htail).bindPure (a :: ·))

end Reads

/-! ## What a reader accepts -/

/-- Whatever `p` accepts is the encoding of the value it returns, and the value is one of `P`. -/
def Exact (p : Cursor ε α) (P : α → Prop) (enc : α → Bytes) : Prop :=
  ∀ ⦃s rest a⦄, p s = .ok (a, rest) → s = enc a ++ rest ∧ P a

namespace Exact

theorem le (short : ε) (n : ℕ) : Exact (Cursor.le short n) (· < 256 ^ n) (leBytes n) := by
  intro s rest v h
  obtain ⟨b, hb, rfl⟩ := map_eq_ok.1 h
  obtain ⟨rfl, hlen⟩ := take_eq_ok.1 hb
  exact ⟨by rw [leBytes_leNat_of_length hlen], by rw [← hlen]; exact leNat_lt b⟩

theorem many {p : Cursor ε α} {P : α → Prop} {enc : α → Bytes} (hp : Exact p P enc) :
    ∀ n, Exact (Cursor.many p n) (fun as ↦ as.length = n ∧ ∀ a ∈ as, P a) (List.flatMap enc)
  | 0 => by
    intro s rest as h
    obtain ⟨rfl, rfl⟩ := pure_eq_ok.1 h
    exact ⟨rfl, rfl, by simp⟩
  | n + 1 => by
    intro s rest as h
    obtain ⟨a, mid, ha, h⟩ := bind_eq_ok.1 h
    obtain ⟨as', mid', has, h⟩ := bind_eq_ok.1 h
    obtain ⟨rfl, rfl⟩ := pure_eq_ok.1 h
    obtain ⟨rfl, hPa⟩ := hp ha
    obtain ⟨rfl, hlen, hall⟩ := many hp n has
    exact ⟨by rw [List.flatMap_cons, List.append_assoc], by rw [List.length_cons, hlen],
      List.forall_mem_cons.2 ⟨hPa, hall⟩⟩

end Exact

/-! ## How a reader fails -/

/-- Every error of `p` is one of `E`. -/
def FailsWith (E : ε → Prop) (p : Cursor ε α) : Prop := ∀ ⦃s e⦄, p s = .error e → E e

namespace FailsWith

variable {E : ε → Prop}

theorem pure (a : α) : FailsWith E (Pure.pure a : Cursor ε α) := fun _ _ h ↦ by cases h

theorem throw {e : ε} (he : E e) : FailsWith E (MonadExcept.throw e : Cursor ε α) := by
  intro s e' h
  obtain rfl := Except.error.inj h
  exact he

theorem bind {p : Cursor ε α} {f : α → Cursor ε β} (hp : FailsWith E p)
    (hf : ∀ a, FailsWith E (f a)) : FailsWith E (p >>= f) := by
  intro s e h
  simp only [Bind.bind, StateT.bind, Except.bind] at h
  cases hps : p s with
  | error e' =>
    rw [hps] at h
    obtain rfl := Except.error.inj h
    exact hp hps
  | ok r =>
    rw [hps] at h
    exact hf r.1 h

theorem map {p : Cursor ε α} (f : α → β) (hp : FailsWith E p) : FailsWith E (f <$> p) :=
  hp.bind fun a ↦ pure (f a)

theorem take {short : ε} (h : E short) (n : ℕ) : FailsWith E (Cursor.take short n) := by
  intro s e herr
  unfold Cursor.take at herr
  split_ifs at herr
  obtain rfl := Except.error.inj herr
  exact h

theorem le {short : ε} (h : E short) (n : ℕ) : FailsWith E (Cursor.le short n) :=
  (take h n).map leNat

theorem many {p : Cursor ε α} (hp : FailsWith E p) : ∀ n, FailsWith E (Cursor.many p n)
  | 0 => pure []
  | n + 1 => hp.bind fun a ↦ (many hp n).bind fun as ↦ pure (a :: as)

end FailsWith

end Cursor

/-! ## Writers -/

deriving instance DecidableEq for EStateM.Result

section State

variable {σ ε : Type}

theorem get_apply (s : σ) : (get : EStateM ε σ σ) s = .ok s s := rfl

theorem set_apply (s' s : σ) : (set s' : EStateM ε σ PUnit) s = .ok ⟨⟩ s' := rfl

theorem modify_apply (g : σ → σ) (s : σ) : (modify g : EStateM ε σ PUnit) s = .ok ⟨⟩ (g s) := rfl

end State

/-- A writer that appends to an output buffer; the buffer survives an error. -/
abbrev Emitter (ε α : Type) := EStateM ε Bytes α

namespace Emitter

/-- Append bytes; this never fails. -/
def put (b : Bytes) : Emitter ε Unit := fun out ↦ .ok () (out ++ b)

/-- Fail with `e` unless `P` holds, writing nothing. -/
def guard (P : Prop) [Decidable P] (e : ε) : Emitter ε Unit := if P then pure () else throw e

/-- Run a writer over each member of a list. -/
def each (w : α → Emitter ε Unit) : List α → Emitter ε Unit
  | [] => pure ()
  | a :: as => do
    w a
    each w as

/-- The writer succeeds exactly when `P` holds, and has then appended `b`; a writer that fails has
appended something. -/
structure Emits (w : Emitter ε Unit) (P : Prop) (b : Bytes) : Prop where
  ok : P → ∀ out, w out = .ok () (out ++ b)
  err : ¬ P → ∀ out, ∃ e c, w out = .error e (out ++ c)

namespace Emits

theorem pure : Emits (Pure.pure () : Emitter ε Unit) True [] :=
  ⟨fun _ out ↦ by rw [List.append_nil]; rfl, fun h ↦ absurd trivial h⟩

theorem put (b : Bytes) : Emits (Emitter.put b : Emitter ε Unit) True b :=
  ⟨fun _ _ ↦ rfl, fun h ↦ absurd trivial h⟩

theorem guard (P : Prop) [Decidable P] (e : ε) : Emits (Emitter.guard P e) P [] := by
  refine ⟨fun h out ↦ ?_, fun h out ↦ ⟨e, [], ?_⟩⟩
  · rw [Emitter.guard, if_pos h, List.append_nil]
    rfl
  · rw [Emitter.guard, if_neg h, List.append_nil]
    rfl

theorem seq {w w' : Emitter ε Unit} {P P' : Prop} {b b' : Bytes} (h : Emits w P b)
    (h' : Emits w' P' b') : Emits (do w; w') (P ∧ P') (b ++ b') := by
  refine ⟨fun ⟨hP, hP'⟩ out ↦ ?_, fun hn out ↦ ?_⟩
  · simp only [bind, EStateM.bind, h.ok hP out, h'.ok hP', List.append_assoc]
  · by_cases hP : P
    · obtain ⟨e, c, he⟩ := h'.err (fun hP' ↦ hn ⟨hP, hP'⟩) (out ++ b)
      exact ⟨e, b ++ c, by simp only [bind, EStateM.bind, h.ok hP out, he, List.append_assoc]⟩
    · obtain ⟨e, c, he⟩ := h.err hP out
      exact ⟨e, c, by simp only [bind, EStateM.bind, he]⟩

theorem congr {w : Emitter ε Unit} {P P' : Prop} {b b' : Bytes} (h : Emits w P b) (hP : P ↔ P')
    (hb : b = b') : Emits w P' b' := by
  subst hb
  exact ⟨fun h' ↦ h.ok (hP.2 h'), fun h' ↦ h.err (mt hP.1 h')⟩

theorem each {w : α → Emitter ε Unit} {P : α → Prop} {b : α → Bytes}
    (h : ∀ a, Emits (w a) (P a) (b a)) :
    ∀ as, Emits (Emitter.each w as) (∀ a ∈ as, P a) (as.flatMap b)
  | [] => pure.congr (by simp) rfl
  | a :: as => ((h a).seq (each h as)).congr (by simp) rfl

end Emits

end Emitter

end Bytes
