import Mathlib.Data.List.Basic
import Mathlib.Data.List.ReduceOption

/-!
# Definition and repetition levels

A column of nested records is stored as the values that are there and, for each of its slots, two
levels. The definition level says how much of the path to the value is there: a slot has a value
exactly when its level is the largest. The repetition level says at which list the slot continues: a
record starts at level `0`. A list that is empty still has one slot.

`readOptional` and `readRepeated` read a column without a list on its path, and one with a single
list whose entries are there from definition level `entryDef` on. Both refuse levels that do not fit
the values, and a column that starts inside a record. `stripeDefs`, `stripeReps` and `stripeValues`
are the column of a list of records, which is read back as those records (`readRepeated_stripe`).
-/

namespace Orc.Format

variable {α β : Type}

/-! ## Reading -/

/-- The values put on the slots of a column. -/
def attach (maxDef : ℕ) : List ℕ → List α → Option (List (ℕ × Option α))
  | [], [] => some []
  | [], _ :: _ => none
  | d :: ds, vs =>
    if d < maxDef then
      (attach maxDef ds vs).map ((d, none) :: ·)
    else if maxDef < d then
      none
    else
      vs.head?.bind fun v ↦ (attach maxDef ds vs.tail).map ((d, some v) :: ·)

/-- Cut a list into records at repetition level `0`; what stands in front of the first record is
returned beside them. -/
def cut : List (ℕ × β) → Option (List β × List (List β))
  | [] => some ([], [])
  | (0, x) :: rest => (cut rest).map fun (front, rs) ↦ ([], (x :: front) :: rs)
  | (1, x) :: rest => (cut rest).map fun (front, rs) ↦ (x :: front, rs)
  | _ :: _ => none

/-- The records of a list, which starts with one. -/
def records (slots : List (ℕ × β)) : Option (List (List β)) :=
  match cut slots with
  | some ([], rs) => some rs
  | _ => none

/-- The entries of one record: a single slot below `entryDef` is an empty list. -/
def entries (entryDef : ℕ) (slots : List (ℕ × Option α)) : Option (List (Option α)) :=
  if slots.length = 1 ∧ ∀ s ∈ slots, s.1 < entryDef then
    some []
  else if ∀ s ∈ slots, entryDef ≤ s.1 then
    some (slots.map Prod.snd)
  else
    none

/-- A column without a list on its path, row by row. -/
def readOptional (maxDef : ℕ) (defs : List ℕ) (values : List α) : Option (List (Option α)) :=
  (attach maxDef defs values).map (List.map Prod.snd)

/-- A column with one list on its path, record by record. -/
def readRepeated (maxDef entryDef : ℕ) (defs reps : List ℕ) (values : List α) :
    Option (List (List (Option α))) :=
  if defs.length = reps.length then do
    let slots ← attach maxDef defs values
    let rs ← records (reps.zip slots)
    rs.mapM (entries entryDef)
  else
    none

/-! ## Writing -/

/-- The definition level of an entry that is there, with a value or without. -/
def defLevel (maxDef : ℕ) (x : Option α) : ℕ := if x.isSome then maxDef else maxDef - 1

/-- The slots of a record. -/
def slots (maxDef entryDef : ℕ) : List (Option α) → List (ℕ × Option α)
  | [] => [(entryDef - 1, none)]
  | x :: xs => (x :: xs).map fun x ↦ (defLevel maxDef x, x)

/-- The repetition levels of a record. -/
def recordReps : List β → List ℕ
  | [] => [0]
  | _ :: xs => 0 :: List.replicate xs.length 1

/-- The definition levels of a list of records. -/
def stripeDefs (maxDef entryDef : ℕ) (rs : List (List (Option α))) : List ℕ :=
  rs.flatMap fun r ↦ (slots maxDef entryDef r).map Prod.fst

/-- The repetition levels of a list of records. -/
def stripeReps (rs : List (List β)) : List ℕ := rs.flatMap recordReps

/-- The values of a list of records. -/
def stripeValues (rs : List (List (Option α))) : List α := rs.flatMap List.reduceOption

/-- The definition levels of a record whose entries all have values. -/
theorem map_fst_slots_some (maxDef entryDef : ℕ) (xs : List α) :
    (slots maxDef entryDef (xs.map some)).map Prod.fst =
      if xs.length = 0 then [entryDef - 1] else List.replicate xs.length maxDef := by
  cases xs with
  | nil => rfl
  | cons x xs =>
    rw [List.map_cons, slots, if_neg (by simp), ← List.map_cons, List.map_map, List.map_map]
    exact List.map_eq_replicate_iff.2 fun _ _ ↦ rfl

theorem recordReps_eq (xs : List β) :
    recordReps xs = if xs.length = 0 then [0] else 0 :: List.replicate (xs.length - 1) 1 := by
  cases xs <;> rfl

/-! ## Columns without a list -/

private theorem attach_append {maxDef : ℕ} {ds ds' : List ℕ} {vs vs' : List α}
    {ss : List (ℕ × Option α)} (h : attach maxDef ds vs = some ss) :
    attach maxDef (ds ++ ds') (vs ++ vs') = (attach maxDef ds' vs').map (ss ++ ·) := by
  induction ds generalizing vs ss with
  | nil =>
    cases vs with
    | nil =>
      cases h
      simp
    | cons v vs => cases h
  | cons d ds ih =>
    rw [List.cons_append, attach]
    rw [attach] at h
    split_ifs at h ⊢ with hlt hgt
    · obtain ⟨ss, hss, rfl⟩ := Option.map_eq_some_iff.1 h
      rw [ih hss]
      simp [Function.comp_def]
    · cases vs with
      | nil => cases h
      | cons v vs =>
        obtain ⟨ss, hss, rfl⟩ := Option.map_eq_some_iff.1 h
        rw [List.tail_cons] at hss
        rw [List.cons_append, List.head?_cons, Option.bind_some, List.tail_cons, ih hss]
        simp [Function.comp_def]

theorem attach_entries {maxDef : ℕ} {xs : List (Option α)} (h : none ∈ xs → 0 < maxDef) :
    attach maxDef (xs.map (defLevel maxDef)) xs.reduceOption =
      some (xs.map fun x ↦ (defLevel maxDef x, x)) := by
  induction xs with
  | nil => rfl
  | cons x xs ih =>
    have hih := ih fun hmem ↦ h (List.mem_cons_of_mem x hmem)
    cases x with
    | none =>
      have hpos := h List.mem_cons_self
      have hlevel : defLevel maxDef (none : Option α) = maxDef - 1 := rfl
      rw [List.map_cons, List.reduceOption_cons_of_none, attach, hlevel, if_pos (by omega), hih]
      rfl
    | some v =>
      have hlevel : defLevel maxDef (some v) = maxDef := rfl
      rw [List.map_cons, List.reduceOption_cons_of_some, attach, hlevel,
        if_neg (Nat.lt_irrefl _), if_neg (Nat.lt_irrefl _), List.head?_cons, Option.bind_some,
        List.tail_cons, hih]
      rfl

/-- **Optional columns** are read back row by row. -/
theorem readOptional_stripe {maxDef : ℕ} {xs : List (Option α)} (h : none ∈ xs → 0 < maxDef) :
    readOptional maxDef (xs.map (defLevel maxDef)) xs.reduceOption = some xs := by
  rw [readOptional, attach_entries h, Option.map_some, List.map_map]
  exact congrArg some (List.map_id xs)

/-! ## Columns with a list -/

section

variable {maxDef entryDef : ℕ}

theorem length_recordReps (r : List (Option α)) :
    (recordReps r).length = (slots maxDef entryDef r).length := by
  cases r <;> simp [recordReps, slots]

private theorem attach_slots (hentry : 0 < entryDef) (hmax : entryDef ≤ maxDef)
    (r : List (Option α)) : attach maxDef ((slots maxDef entryDef r).map Prod.fst) r.reduceOption =
      some (slots maxDef entryDef r) := by
  cases r with
  | nil =>
    rw [slots, List.map_singleton, attach, if_pos (by omega)]
    rfl
  | cons x xs =>
    rw [slots, List.map_map]
    exact attach_entries fun _ ↦ by omega

private theorem attach_stripe (hentry : 0 < entryDef) (hmax : entryDef ≤ maxDef)
    (rs : List (List (Option α))) :
    attach maxDef (stripeDefs maxDef entryDef rs) (stripeValues rs) =
      some (rs.flatMap (slots maxDef entryDef)) := by
  induction rs with
  | nil => rfl
  | cons r rs ih =>
    rw [stripeDefs, stripeValues, List.flatMap_cons, List.flatMap_cons,
      attach_append (attach_slots hentry hmax r)]
    exact congrArg (Option.map _) ih

private theorem cut_ones {xs : List β} {rest : List (ℕ × β)} {front : List β} {rs : List (List β)}
    (h : cut rest = some (front, rs)) :
    cut ((List.replicate xs.length 1).zip xs ++ rest) = some (xs ++ front, rs) := by
  induction xs with
  | nil => exact h
  | cons x xs ih =>
    rw [List.length_cons, List.replicate_succ, List.zip_cons_cons, List.cons_append, cut, ih]
    rfl

private theorem cut_record {r : List (Option α)} {rest : List (ℕ × (ℕ × Option α))}
    {rs : List (List (ℕ × Option α))} (h : cut rest = some ([], rs)) :
    cut ((recordReps r).zip (slots maxDef entryDef r) ++ rest) =
      some ([], slots maxDef entryDef r :: rs) := by
  cases r with
  | nil =>
    rw [recordReps, slots, List.zip_cons_cons, List.zip_nil_left, List.cons_append,
      List.nil_append, cut, h]
    rfl
  | cons x xs =>
    have hones : cut ((List.replicate (xs.map fun x ↦ (defLevel maxDef x, x)).length 1).zip
        (xs.map fun x ↦ (defLevel maxDef x, x)) ++ rest) = _ := cut_ones h
    rw [List.length_map, List.append_nil] at hones
    rw [recordReps, slots, List.map_cons, List.zip_cons_cons, List.cons_append, cut, hones]
    rfl

private theorem records_stripe (rs : List (List (Option α))) :
    records ((stripeReps rs).zip (rs.flatMap (slots maxDef entryDef))) =
      some (rs.map (slots maxDef entryDef)) := by
  have hcut : cut ((stripeReps rs).zip (rs.flatMap (slots maxDef entryDef))) =
      some ([], rs.map (slots maxDef entryDef)) := by
    induction rs with
    | nil => rfl
    | cons r rs ih =>
      rw [stripeReps, List.flatMap_cons, List.flatMap_cons, List.zip_append (length_recordReps r)]
      exact cut_record ih
  rw [records, hcut]

private theorem entries_slots (hentry : 0 < entryDef) {r : List (Option α)}
    (hmax : entryDef ≤ maxDef) (hnull : none ∈ r → entryDef < maxDef) :
    entries entryDef (slots maxDef entryDef r) = some r := by
  cases r with
  | nil => rw [entries, slots, if_pos ⟨rfl, by simp; omega⟩]
  | cons x xs =>
    have hall : ∀ s ∈ slots maxDef entryDef (x :: xs), entryDef ≤ s.1 := by
      intro s hs
      obtain ⟨y, hy, rfl⟩ := List.mem_map.1 hs
      cases y with
      | none =>
        have hlt := hnull hy
        exact Nat.le_sub_one_of_lt hlt
      | some v => exact hmax
    rw [entries, if_neg, if_pos hall]
    · rw [slots, List.map_map]
      exact congrArg some (List.map_id _)
    · rintro ⟨-, hlt⟩
      have hmem : (defLevel maxDef x, x) ∈ slots maxDef entryDef (x :: xs) := List.mem_cons_self
      exact absurd (hlt _ hmem) (Nat.not_lt.2 (hall _ hmem))

/-- **Repeated columns** are read back record by record. -/
theorem readRepeated_stripe (hentry : 0 < entryDef) (hmax : entryDef ≤ maxDef)
    {rs : List (List (Option α))} (hnull : ∀ r ∈ rs, none ∈ r → entryDef < maxDef) :
    readRepeated maxDef entryDef (stripeDefs maxDef entryDef rs) (stripeReps rs)
      (stripeValues rs) = some rs := by
  have hlen : (stripeDefs maxDef entryDef rs).length = (stripeReps rs).length := by
    rw [stripeDefs, stripeReps, List.length_flatMap, List.length_flatMap]
    refine congrArg List.sum (List.map_congr_left fun r _ ↦ ?_)
    rw [List.length_map, length_recordReps]
  have hentries : (rs.map (slots maxDef entryDef)).mapM (entries entryDef) = some rs := by
    clear hlen
    induction rs with
    | nil => rfl
    | cons r rs ih =>
      rw [List.forall_mem_cons] at hnull
      rw [List.map_cons, List.mapM_cons, entries_slots hentry hmax hnull.1, ih hnull.2]
      rfl
  simp only [readRepeated, hlen, if_true, attach_stripe hentry hmax, records_stripe, hentries,
    Option.bind_eq_bind, Option.bind_some]

end

end Orc.Format
