import Orc.Codec.RoundTrip
import Orc.Flush.Columns

/-!
# Canonical extra pairs

The encoder and the builder of Parquet rows both bring the extra pairs of a row into one form, each
with a scratch of indices: the indices are sorted by the pairs they point at, by a sort that need
not be stable, and of each run of equal names the first is kept. A list in that form already is
taken as it is. `Encoder.encode` is the encoder with its scratch; `encode` is what it does to the
buffer (`Encoder.encode_out`).

The form is what makes a frame a function of the pairs as a set. An unstable sort would break this
if two pairs of one name could come in either order, so the comparison goes on to the values; then
only equal pairs are left to it, and which of two equal pairs is kept cannot be seen. The sort is a
parameter (`IndexSort`), and all that is asked of it is that it permutes its input and that the
result is in order (`IndexSort.Lawful`). The sort of the standard library is one such; an insertion
sort is another, with which the definitions can be run.

The scratch is kept from one call to the next, so the result must not depend on what it holds. That
is said by an equation for every scratch: forgetting it, the encoder is `encode`.
-/

namespace Orc

open Bytes Order

/-! ## Sorting indices -/

/-- The pair an index points at. -/
def pairAt (extra : List (String × String)) (i : ℕ) : String × String := extra.getD i ("", "")

/-- A sort of indices by the pairs they point at. -/
abbrev IndexSort := List (String × String) → List ℕ → List ℕ

/-- What `sort_unstable_by_key` promises: the same indices, in the order of their pairs; indices of
equal pairs come in any order. -/
def IndexSort.Lawful (sort : IndexSort) : Prop :=
  ∀ extra order, (sort extra order).Perm order ∧ (sort extra order).Pairwise
    (rankLE (fun i ↦ utf8 (pairAt extra i).1) fun i ↦ utf8 (pairAt extra i).2)

/-- Collapse each run of equal names to its first member. -/
def collapse (extra : List (String × String)) (order : List ℕ) : List ℕ :=
  keepFirst (fun i ↦ utf8 (pairAt extra i).1) order

theorem map_pairAt_range (extra : List (String × String)) :
    (List.range extra.length).map (pairAt extra) = extra := by
  refine List.ext_getElem (by simp) fun i hi hi' ↦ ?_
  simp [pairAt, List.getD_eq_getElem?_getD, hi']

theorem ranked_pairs (extra : List (String × String)) :
    Ranked (fun p : String × String ↦ utf8 p.1) (fun p ↦ utf8 p.2) extra :=
  fun _ _ _ _ h h' ↦ Prod.ext (utf8_injective h) (utf8_injective h')

/-- **The index sort** leads to the canonical form of the pairs it is given indices of, whatever it
does with equal pairs. -/
theorem map_collapse_sort_indices {sort : IndexSort} (hsort : sort.Lawful)
    (extra : List (String × String)) (order : List ℕ) :
    (collapse extra (sort extra order)).map (pairAt extra) =
      canonicalExtra (order.map (pairAt extra)) := by
  obtain ⟨hperm, hsorted⟩ := hsort extra order
  have hmap := hperm.map (pairAt extra)
  rw [collapse, keepFirst, ← keepFirstFrom_map (fun p : String × String ↦ utf8 p.1) (pairAt extra)]
  rw [canonicalExtra, ← keepFirst_eq_canon (ranked_pairs _) hmap (List.pairwise_map.2 hsorted)]
  unfold keepFirst
  congr

theorem map_collapse_sort {sort : IndexSort} (hsort : sort.Lawful)
    (extra : List (String × String)) :
    (collapse extra (sort extra (List.range extra.length))).map (pairAt extra) =
      canonicalExtra extra := by
  rw [map_collapse_sort_indices hsort, map_pairAt_range]

/-! ## The encoder with its scratch -/

/-- The output buffer, and the scratch of the encoder: the order of the last list it sorted. -/
structure Encoder where
  out : Bytes
  order : List ℕ
  deriving DecidableEq

namespace Encoder

/-- A writer of the buffer. -/
def write (w : Emitter Error Unit) : EStateM Error Encoder Unit := fun s ↦
  match w s.out with
  | .ok () out => .ok () { s with out }
  | .error e out => .error e { s with out }

/-- The `extra` section. -/
def putExtra (sort : IndexSort) (extra : List (String × String)) : EStateM Error Encoder Unit := do
  write (Emitter.guard (extra.length ≤ u16Max) (.recordTooLarge extra.length u16Max))
  if isCanonical extra then
    write (Emitter.put (leBytes 2 extra.length))
    write (Emitter.each putPair extra)
  else
    modify fun s ↦ { s with order := [] }
    modify fun s ↦ { s with order := s.order ++ List.range extra.length }
    modify fun s ↦ { s with order := sort extra s.order }
    modify fun s ↦ { s with order := collapse extra s.order }
    let order := (← get).order
    write (Emitter.put (leBytes 2 order.length))
    write (Emitter.each putPair (order.map (pairAt extra)))

/-- The sections of a frame, from `ts` to `data`. -/
def putPayload (sort : IndexSort) (series : String) (epoch : UInt32) (row : Row) :
    EStateM Error Encoder Unit := do
  write (Emitter.put (leBytes 8 row.ts.toNat))
  write (Emitter.put (leBytes 4 epoch.toNat))
  write (putStr16 series)
  write (putStr16 row.id)
  write (Emitter.each putValue row.keys)
  putExtra sort row.extra
  write (putStr32 row.data)

variable (crc : Bytes → UInt32)

/-- Append one frame. -/
def encodeInner (sort : IndexSort) (series : String) (epoch : UInt32) (row : Row) :
    EStateM Error Encoder Unit := do
  let start := (← get).out.length
  write (Emitter.put (List.replicate frameHeaderBytes 0))
  putPayload sort series epoch row
  write (backfill crc start)

/-- Append one frame; on an error the buffer is cut back to its length on entry. -/
def encode (sort : IndexSort) (series : String) (epoch : UInt32) (row : Row) :
    EStateM Error Encoder Unit := fun s ↦
  match encodeInner crc sort series epoch row s with
  | .ok () s' => .ok () s'
  | .error e s' => .error e { s' with out := s'.out.take s.out.length }

end Encoder

/-- What a result is without the scratch. -/
def forget : EStateM.Result Error Encoder Unit → EStateM.Result Error Bytes Unit
  | .ok () s => .ok () s.out
  | .error e s => .error e s.out

/-- A writer with a scratch does to the buffer what another does, whatever is in the scratch. -/
def Writes (w : EStateM Error Encoder Unit) (v : Emitter Error Unit) : Prop :=
  ∀ s, forget (w s) = v s.out

namespace Writes

variable {w w' : EStateM Error Encoder Unit} {v v' : Emitter Error Unit}

theorem write (v : Emitter Error Unit) : Writes (Encoder.write v) v := by
  intro s
  rw [Encoder.write]
  cases v s.out <;> rfl

theorem seq (h : Writes w v) (h' : Writes w' v') : Writes (do w; w') (do v; v') := by
  intro s
  have hs := h s
  change forget (EStateM.bind w (fun _ ↦ w') s) = EStateM.bind v (fun _ ↦ v') s.out
  rw [EStateM.bind, EStateM.bind]
  cases hw : w s with
  | ok a s' =>
    rw [hw] at hs
    rw [← hs]
    exact h' s'
  | error e s' =>
    rw [hw] at hs
    rw [← hs]
    rfl

end Writes

namespace Encoder

variable {sort : IndexSort}

private theorem writes_putExtra (hsort : sort.Lawful) (extra : List (String × String)) :
    Writes (putExtra sort extra) (Orc.putExtra extra) := by
  refine (Writes.write _).seq ?_
  split_ifs with hcanonical
  · exact (Writes.write _).seq (.write _)
  · intro s
    -- the scratch is cleared first, so what was in it does not matter
    change forget ((do
        write (Emitter.put
          (leBytes 2 (collapse extra (sort extra (List.range extra.length))).length))
        write (Emitter.each putPair
          ((collapse extra (sort extra (List.range extra.length))).map (pairAt extra))))
      (⟨s.out, collapse extra (sort extra (List.range extra.length))⟩ : Encoder)) = _
    have hlen := congrArg List.length (map_collapse_sort hsort extra)
    rw [List.length_map] at hlen
    rw [map_collapse_sort hsort, hlen]
    exact ((Writes.write _).seq (.write _)) _

private theorem writes_putPayload (hsort : sort.Lawful) (series : String) (epoch : UInt32)
    (row : Row) : Writes (putPayload sort series epoch row) (Orc.putPayload series epoch row) :=
  (Writes.write _).seq ((Writes.write _).seq ((Writes.write _).seq ((Writes.write _).seq
    ((Writes.write _).seq ((writes_putExtra hsort row.extra).seq (.write _))))))

private theorem writes_encodeInner (crc : Bytes → UInt32) (hsort : sort.Lawful) (series : String)
    (epoch : UInt32) (row : Row) :
    Writes (encodeInner crc sort series epoch row) (Orc.encodeInner crc series epoch row) := fun s ↦
  (Writes.write (Emitter.put (List.replicate frameHeaderBytes 0))).seq
    ((writes_putPayload hsort series epoch row).seq (.write (backfill crc s.out.length))) s

/-- **The encoder with its scratch** does to the buffer what `encode` does, whatever it has encoded
before. -/
theorem encode_out (crc : Bytes → UInt32) (hsort : sort.Lawful) (series : String) (epoch : UInt32)
    (row : Row) : Writes (encode crc sort series epoch row) (Orc.encode crc series epoch row) := by
  intro s
  have hinner := writes_encodeInner crc hsort series epoch row s
  rw [encode, Orc.encode, ← hinner]
  cases encodeInner crc sort series epoch row s <;> rfl

end Encoder

/-! ## The same pairs, the same bytes -/

private theorem putExtra_eq {extra : List (String × String)} (h : extra.length ≤ u16Max) :
    putExtra extra = (do
      Emitter.put (leBytes 2 (canonicalExtra extra).length)
      Emitter.each putPair (canonicalExtra extra)) := by
  rw [putExtra, Emitter.guard, if_pos h]
  split_ifs with hcanonical
  · rw [canonicalExtra_eq_self hcanonical]
    rfl
  · rfl

theorem canonicalExtra_congr {extra extra' : List (String × String)}
    (h : ∀ p, p ∈ extra' ↔ p ∈ extra) : canonicalExtra extra' = canonicalExtra extra :=
  canon_congr (ranked_pairs extra) h

/-- What is written depends only on which pairs there are. -/
theorem encode_congr (crc : Bytes → UInt32) (series : String) (epoch : UInt32) {row : Row}
    {extra : List (String × String)} (hlen : row.extra.length ≤ u16Max)
    (hlen' : extra.length ≤ u16Max) (h : ∀ p, p ∈ extra ↔ p ∈ row.extra) :
    encode crc series epoch { row with extra } = encode crc series epoch row := by
  have hextra : putExtra extra = putExtra row.extra := by
    rw [putExtra_eq hlen, putExtra_eq hlen', canonicalExtra_congr h]
  have hpayload : putPayload series epoch { row with extra } = putPayload series epoch row := by
    simp only [putPayload, hextra]
  funext out
  simp only [encode, encodeInner, hpayload]

private theorem canonicalExtra_canonicalExtra (extra : List (String × String)) :
    canonicalExtra (canonicalExtra extra) = canonicalExtra extra :=
  canonicalExtra_eq_self (isCanonical_iff.2 (isCanonicalForm_canonicalExtra extra).sorted)

theorem stamped_row (series : String) (epoch : UInt32) (row : Row) :
    stamped series epoch (stamped series epoch row).row = stamped series epoch row := by
  simp only [stamped, RecordRef.row, canonicalExtra_canonicalExtra]

/-- Insertion sort by the pairs is such a sort. -/
def insertionIndexSort : IndexSort := fun extra order ↦
  order.insertionSort (rankLE (fun i ↦ utf8 (pairAt extra i).1) fun i ↦ utf8 (pairAt extra i).2)

theorem insertionIndexSort_lawful : insertionIndexSort.Lawful := fun _ order ↦
  ⟨List.perm_insertionSort _ order, List.pairwise_insertionSort _ order⟩

end Orc
