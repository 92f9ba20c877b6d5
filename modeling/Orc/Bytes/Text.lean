import Mathlib.Algebra.Ring.Nat
import Mathlib.Data.List.Basic
import Mathlib.Data.List.Induction

/-!
# Decimal fields in file names and dates

Texts are lists of characters here. `pad w n` writes a number in decimal, with zeros in front up to
width `w`; `parseDec` reads a nonempty string of digits back. Reading a padded number returns the
number, whatever the width, so a padded field determines the number in it.

The width is a least width: a number that needs more digits gets them. That is what the program's
formatting does, and it is why the parsers of file names have to look at the width themselves. It is
also why the order of names is a theorem with a condition: numbers are ordered as their texts only
where both fill the same width (`pad_lt_pad`).

The splitting functions are those of Rust's `str`: `splitOnce` at the first occurrence of a
character, `rsplitOnce` at the last occurrence of a pattern. File names are taken apart by both, and
which occurrence is meant matters for names the engine did not write.
-/

namespace Text

/-- The decimal digits of `n`, with zeros in front up to width `w`. -/
def pad (w n : ℕ) : List Char :=
  List.replicate (w - (Nat.toDigits 10 n).length) '0' ++ Nat.toDigits 10 n

/-- All characters are ASCII digits, and there is one. -/
def isDigits (cs : List Char) : Bool := !cs.isEmpty && cs.all Char.isDigit

/-- The number a nonempty string of digits spells. -/
def parseDec (cs : List Char) : Option ℕ :=
  if isDigits cs then some (Nat.ofDigitChars 10 cs 0) else none

/-- Split at the first occurrence of a character, which belongs to neither part. -/
def splitOnce (sep : Char) : List Char → Option (List Char × List Char)
  | [] => none
  | c :: cs =>
    if c = sep then some ([], cs) else (splitOnce sep cs).map fun (a, b) ↦ (c :: a, b)

/-- Split at the last occurrence of a pattern, which belongs to neither part. -/
def rsplitOnce (pat : List Char) : List Char → Option (List Char × List Char)
  | [] => if pat = [] then some ([], []) else none
  | c :: cs =>
    match rsplitOnce pat cs with
    | some (a, b) => some (c :: a, b)
    | none => if pat <+: c :: cs then some ([], (c :: cs).drop pat.length) else none

/-- Remove a suffix, if it is one. -/
def stripSuffix (suf cs : List Char) : Option (List Char) :=
  if suf <:+ cs then some (cs.take (cs.length - suf.length)) else none

theorem isDigit_of_mem_pad {w n : ℕ} {c : Char} (h : c ∈ pad w n) : c.isDigit = true := by
  rcases List.mem_append.1 h with h | h
  · rw [List.eq_of_mem_replicate h]
    rfl
  · exact Nat.isDigit_of_mem_toDigits (by decide) (by decide) h

theorem pad_ne_nil (w n : ℕ) : pad w n ≠ [] := fun h ↦
  Nat.toDigits_ne_nil (List.append_eq_nil_iff.1 h).2

@[simp] theorem isDigits_pad (w n : ℕ) : isDigits (pad w n) = true := by
  rw [isDigits, Bool.and_eq_true, Bool.not_eq_true', List.isEmpty_eq_false_iff, List.all_eq_true]
  exact ⟨pad_ne_nil w n, fun c hc ↦ isDigit_of_mem_pad hc⟩

/-- Reading a padded number returns the number. -/
@[simp] theorem parseDec_pad (w n : ℕ) : parseDec (pad w n) = some n := by
  rw [parseDec, if_pos (isDigits_pad w n), pad, Nat.ofDigitChars_append,
    Nat.ofDigitChars_replicate_zero, Nat.mul_zero, Nat.ofDigitChars_toDigits (by decide)
      (by decide)]

theorem pad_injective (w : ℕ) : Function.Injective (pad w) := fun m n h ↦ by
  have := parseDec_pad w m
  rw [h, parseDec_pad] at this
  exact (Option.some.inj this).symm

/-- A number that fits the width fills it exactly. -/
theorem length_pad {w n : ℕ} (hw : 0 < w) (h : n < 10 ^ w) : (pad w n).length = w := by
  have hle := (Nat.length_toDigits_le_iff (by decide : 1 < 10) hw).2 h
  rw [pad, List.length_append, List.length_replicate]
  omega

/-- The digits of a positive number do not start with a zero. -/
theorem head?_toDigits_ne_zero {n : ℕ} (h : 0 < n) : (Nat.toDigits 10 n).head? ≠ some '0' := by
  induction n using Nat.strongRecOn with
  | ind n ih =>
    by_cases hlt : n < 10
    · rw [Nat.toDigits_of_lt_base hlt]
      have hdigits : ∀ m < 10, 0 < m → [m.digitChar].head? ≠ some '0' := by decide
      exact hdigits n hlt h
    · have hdiv : 0 < n / 10 := Nat.div_pos (Nat.not_lt.1 hlt) (by decide)
      rw [Nat.toDigits_of_base_le (by decide) (Nat.not_lt.1 hlt),
        List.head?_append_of_ne_nil _ Nat.toDigits_ne_nil]
      exact ih (n / 10) (Nat.div_lt_self h (by decide)) hdiv

theorem le_length_pad (w n : ℕ) : w ≤ (pad w n).length := by
  rw [pad, List.length_append, List.length_replicate]
  omega

theorem splitOnce_append {sep : Char} {a b : List Char} (h : sep ∉ a) :
    splitOnce sep (a ++ sep :: b) = some (a, b) := by
  induction a with
  | nil => simp [splitOnce]
  | cons c a ih =>
    rw [List.mem_cons, not_or] at h
    rw [List.cons_append, splitOnce, if_neg (Ne.symm h.1), ih h.2]
    rfl

/-- Splitting at the last occurrence of a pattern whose first character does not come again. -/
theorem rsplitOnce_append {p : Char} {pat a b : List Char} (h : p ∉ pat ++ b) :
    rsplitOnce (p :: pat) (a ++ (p :: pat ++ b)) = some (a, b) := by
  have hnone : ∀ cs : List Char, p ∉ cs → rsplitOnce (p :: pat) cs = none := by
    intro cs hcs
    induction cs with
    | nil => rfl
    | cons c cs ih =>
      rw [List.mem_cons, not_or] at hcs
      rw [rsplitOnce, ih hcs.2]
      simp [List.cons_prefix_cons, hcs.1]
  induction a with
  | nil =>
    rw [List.nil_append, List.cons_append, rsplitOnce, hnone _ h]
    simp
  | cons c a ih => rw [List.cons_append, rsplitOnce, ih]

theorem stripSuffix_append (a suf : List Char) : stripSuffix suf (a ++ suf) = some a := by
  rw [stripSuffix, if_pos (List.suffix_append a suf)]
  simp

/-! ## What is read -/

theorem isDigits_iff {cs : List Char} :
    isDigits cs = true ↔ cs ≠ [] ∧ ∀ c ∈ cs, c.isDigit = true := by
  rw [isDigits, Bool.and_eq_true, Bool.not_eq_true', List.isEmpty_eq_false_iff, List.all_eq_true]

theorem parseDec_eq_some_iff {cs : List Char} {n : ℕ} :
    parseDec cs = some n ↔ isDigits cs = true ∧ Nat.ofDigitChars 10 cs 0 = n := by
  rw [parseDec]
  split_ifs with h
  · rw [Option.some.injEq]
    exact ⟨fun heq ↦ ⟨h, heq⟩, And.right⟩
  · exact ⟨nofun, fun hn ↦ absurd hn.1 h⟩

theorem digit_bounds {c : Char} (h : c.isDigit = true) : 48 ≤ c.toNat ∧ c.toNat ≤ 57 := by
  rw [Char.isDigit, Bool.and_eq_true, decide_eq_true_eq, decide_eq_true_eq] at h
  exact h

private theorem eq_of_ofDigitChars_eq {cs ds : List Char} (hc : ∀ c ∈ cs, c.isDigit = true)
    (hd : ∀ d ∈ ds, d.isDigit = true) (hlen : cs.length = ds.length)
    (h : Nat.ofDigitChars 10 cs 0 = Nat.ofDigitChars 10 ds 0) : cs = ds := by
  induction cs using List.reverseRecOn generalizing ds with
  | nil => exact (List.length_eq_zero_iff.1 hlen.symm).symm
  | append_singleton cs c ih =>
    obtain ⟨ds, d, rfl⟩ := (List.eq_nil_or_concat' ds).resolve_left (by rintro rfl; simp at hlen)
    rw [List.length_append, List.length_append, List.length_singleton,
      List.length_singleton] at hlen
    have hcd := digit_bounds (hc c (by simp))
    have hdd := digit_bounds (hd d (by simp))
    rw [Nat.ofDigitChars_append, Nat.ofDigitChars_append, Nat.ofDigitChars_cons,
      Nat.ofDigitChars_cons, Nat.ofDigitChars_nil, Nat.ofDigitChars_nil] at h
    have hzero : '0'.toNat = 48 := rfl
    have hchar : c.toNat = d.toNat := by omega
    rw [ih (fun c hc' ↦ hc c (List.mem_append_left _ hc'))
      (fun d hd' ↦ hd d (List.mem_append_left _ hd')) (by omega) (by omega), Char.toNat_inj.1 hchar]

theorem ofDigitChars_lt {cs : List Char} (h : ∀ c ∈ cs, c.isDigit = true) :
    Nat.ofDigitChars 10 cs 0 < 10 ^ cs.length := by
  induction cs using List.reverseRecOn with
  | nil => simp
  | append_singleton cs c ih =>
    have hc := digit_bounds (h c (by simp))
    have hcs := ih fun c hc' ↦ h c (List.mem_append_left _ hc')
    have hzero : '0'.toNat = 48 := rfl
    rw [Nat.ofDigitChars_append, Nat.ofDigitChars_cons, Nat.ofDigitChars_nil, List.length_append,
      List.length_singleton, Nat.pow_succ]
    omega

/-- **What a string of digits is**: the number it spells, padded to its length. -/
theorem pad_of_parseDec {cs : List Char} {n : ℕ} (h : parseDec cs = some n) :
    pad cs.length n = cs := by
  obtain ⟨hdigits, rfl⟩ := parseDec_eq_some_iff.1 h
  obtain ⟨hne, hall⟩ := isDigits_iff.1 hdigits
  refine eq_of_ofDigitChars_eq (fun c hc ↦ isDigit_of_mem_pad hc) hall
    (length_pad (List.length_pos_iff.2 hne) (ofDigitChars_lt hall)) ?_
  exact (parseDec_eq_some_iff.1 (parseDec_pad _ _)).2

theorem splitOnce_eq_some {sep : Char} {cs a b : List Char} (h : splitOnce sep cs = some (a, b)) :
    cs = a ++ sep :: b ∧ sep ∉ a := by
  induction cs generalizing a with
  | nil => cases h
  | cons c cs ih =>
    rw [splitOnce] at h
    split_ifs at h with hc
    · cases h
      exact ⟨by rw [hc]; rfl, List.not_mem_nil⟩
    · obtain ⟨⟨a', b'⟩, hsplit, heq⟩ := Option.map_eq_some_iff.1 h
      cases heq
      obtain ⟨rfl, hnot⟩ := ih hsplit
      exact ⟨rfl, fun hmem ↦ (List.mem_cons.1 hmem).elim (fun heq ↦ hc heq.symm) hnot⟩

theorem splitOnce_eq_none {sep : Char} {cs : List Char} : splitOnce sep cs = none ↔ sep ∉ cs := by
  induction cs with
  | nil => simp [splitOnce]
  | cons c cs ih =>
    rw [splitOnce, List.mem_cons, not_or]
    split_ifs with hc
    · simp [hc]
    · rw [Option.map_eq_none_iff, ih]
      exact ⟨fun h ↦ ⟨Ne.symm hc, h⟩, And.right⟩

theorem rsplitOnce_eq_some {pat cs a b : List Char} (h : rsplitOnce pat cs = some (a, b)) :
    cs = a ++ (pat ++ b) := by
  induction cs generalizing a with
  | nil =>
    rw [rsplitOnce] at h
    split_ifs at h with hpat
    cases h
    simp [hpat]
  | cons c cs ih =>
    rw [rsplitOnce] at h
    cases hrest : rsplitOnce pat cs with
    | some r =>
      obtain ⟨a', b'⟩ := r
      rw [hrest] at h
      cases h
      rw [ih hrest]
      rfl
    | none =>
      simp only [hrest] at h
      split_ifs at h with hpat
      cases h
      obtain ⟨t, ht⟩ := hpat
      rw [List.nil_append, ← ht, List.drop_left]

theorem stripSuffix_eq_some {suf cs a : List Char} :
    stripSuffix suf cs = some a ↔ cs = a ++ suf := by
  constructor
  · intro h
    rw [stripSuffix] at h
    split_ifs at h with hsuf
    cases h
    obtain ⟨t, rfl⟩ := hsuf
    rw [List.length_append, Nat.add_sub_cancel, List.take_left]
  · rintro rfl
    exact stripSuffix_append a suf

/-! ## Order -/

theorem lt_append_of_length_eq {α : Type} [LT α] {a a' : List α} (h : a < a')
    (hlen : a.length = a'.length) (b b' : List α) : a ++ b < a' ++ b' := by
  induction a generalizing a' with
  | nil =>
    obtain rfl := List.length_eq_zero_iff.1 hlen.symm
    cases h
  | cons x a ih =>
    cases a' with
    | nil => cases hlen
    | cons x' a' =>
      rcases List.cons_lt_cons_iff.1 h with hx | ⟨rfl, ha⟩
      · exact List.cons_lt_cons_iff.2 (.inl hx)
      · exact List.cons_lt_cons_iff.2 (.inr ⟨rfl, ih ha (Nat.succ.inj hlen)⟩)

private theorem pad_succ {w n : ℕ} (hw : 0 < w) :
    pad (w + 1) n = pad w (n / 10) ++ [(n % 10).digitChar] := by
  by_cases hn : n < 10
  · rw [Nat.div_eq_of_lt hn, Nat.mod_eq_of_lt hn, pad, pad, Nat.toDigits_of_lt_base hn,
      Nat.toDigits_of_lt_base (by decide)]
    have hone : ∀ c : Char, [c].length = 1 := fun _ ↦ rfl
    rw [hone, hone, Nat.add_sub_cancel]
    obtain ⟨k, rfl⟩ := Nat.exists_eq_succ_of_ne_zero (Nat.ne_of_gt hw)
    rw [Nat.succ_sub_one, List.replicate_succ']
    rfl
  · rw [pad, pad, Nat.toDigits_of_base_le (by decide) (Nat.not_lt.1 hn), List.length_append,
      List.length_singleton, Nat.add_sub_add_right, List.append_assoc]

/-- **Numbers padded to one width** are ordered as texts. -/
theorem pad_lt_pad {w m n : ℕ} (hw : 0 < w) (hn : n < 10 ^ w) (h : m < n) : pad w m < pad w n := by
  induction w, hw using Nat.le_induction generalizing m n with
  | base =>
    have hdigits : ∀ n < 10, ∀ m < n, pad 1 m < pad 1 n := by decide
    exact hdigits n hn m h
  | succ w hw ih =>
    rw [pad_succ hw, pad_succ hw]
    have hlen : ∀ k, k < 10 ^ (w + 1) → (pad w (k / 10)).length = w := fun k hk ↦
      length_pad hw (by rw [Nat.pow_succ] at hk; omega)
    by_cases hdiv : m / 10 = n / 10
    · rw [hdiv]
      refine List.append_left_lt ?_
      have hdigits : ∀ n < 10, ∀ m < n, [m.digitChar] < [n.digitChar] := by decide
      exact hdigits _ (by omega) _ (by omega)
    · refine lt_append_of_length_eq (ih (by rw [Nat.pow_succ] at hn; omega) (by omega)) ?_ _ _
      rw [hlen m (by omega), hlen n hn]

end Text
