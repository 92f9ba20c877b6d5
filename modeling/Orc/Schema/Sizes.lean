import Orc.Schema.Config
import Orc.Timestamp

/-!
# The sizes a validated config promises

A segment and a batch must each hold one record of the largest size. `validate` compares
`wal.segment_max_bytes` and `server.max_batch_bytes` with sums of `limits.max_record_bytes` and a
header, computed in 64 bits. A release build wraps such a sum and a debug build panics, so what is
promised depends on whether it fits.

`Tunable` gathers the checks that come before the sums, since a config that one of them refuses
never gets there. The result is an equivalence, so it says for which configs the promise fails, and
`hugeRecords` is one of them. No record comes near such a limit; but every bound on records further
on rests on this check.
-/

namespace Orc

open Bytes

namespace Config

/-- The checks in front of the sizes pass: the timestamp, and the tunables that are compared with
constants. -/
def Tunable (c : Config) : Prop :=
  c.limits.tsMinUs.toOption.isSome ∧ c.limits.maxRecordBytes ≠ 0 ∧ ¬ c.flush.mergeFanIn < 2 ∧
    c.flush.memoryBudgetBytes ≠ 0 ∧ c.flush.rowGroupRows ≠ 0 ∧
    ¬ maxFlushIntervalMs < c.flush.intervalMs ∧ c.wal.fsyncIntervalMs ≠ 0 ∧ c.wal.fsyncBytes ≠ 0

instance decidableTunable (c : Config) : Decidable c.Tunable := by
  unfold Tunable
  infer_instance

/-- The additions of sizes that `validate` evaluates, in order. A check that fails ends it. -/
def additions (c : Config) : List (UInt64 × UInt64) :=
  if ¬ c.Tunable then
    []
  else
    (c.limits.maxRecordBytes, UInt64.ofNat segmentHeaderBytes) ::
      if c.wal.segmentMaxBytes < c.limits.maxRecordBytes + UInt64.ofNat segmentHeaderBytes ∨
          c.server.maxBatchBytes ≤ 0 then
        []
      else
        [(c.limits.maxRecordBytes, UInt64.ofNat batchHeaderBytes)]

/-- No addition overflows: neither those of sizes nor those that make a time of `ts_min`, a sum of
naturals that fits if its value does. -/
def SumsFit (c : Config) : Prop :=
  (∀ t, c.limits.tsMinUs = .ok t → t ≤ u64Max) ∧
    ∀ s ∈ c.additions, s.1.toNat + s.2.toNat ≤ u64Max

/-- As integers, a segment and a batch hold one record of the largest size. -/
def HoldsRecord (c : Config) : Prop :=
  (c.limits.maxRecordBytes.toNat + segmentHeaderBytes : ℤ) ≤ c.wal.segmentMaxBytes.toNat ∧
    (c.limits.maxRecordBytes.toNat + batchHeaderBytes : ℤ) ≤ c.server.maxBatchBytes.toInt

variable {lower : String → String} {c : Config}

theorem validate_sizes (h : c.validate lower = .ok ()) :
    c.Tunable ∧ ¬ c.wal.segmentMaxBytes < c.limits.maxRecordBytes +
      UInt64.ofNat segmentHeaderBytes ∧ ¬ c.server.maxBatchBytes ≤ 0 ∧
      ¬ c.server.maxBatchBytes.toUInt64 < c.limits.maxRecordBytes +
        UInt64.ofNat batchHeaderBytes := by
  simp only [validate, Except.bind_eq_ok] at h
  obtain ⟨t, ht, _, hbounds, -⟩ := h
  simp only [checkBounds, ite_error_eq_ok] at hbounds
  obtain ⟨h₁, h₂, h₃, h₄, h₅, h₆, h₇, hseg, hpos, huse, -⟩ := hbounds
  refine ⟨⟨?_, h₁, h₂, h₃, h₄, h₅, h₆, h₇⟩, hseg, hpos, huse⟩
  rw [ht]
  rfl

private theorem tsMinUs_le {l : LimitsConfig} {t : ℕ} (h : l.tsMinUs = .ok t) : t ≤ u64Max := by
  obtain ⟨f, hspells, hvalid, ht⟩ := parseRfc3339Utc_eq_ok_iff.1 h
  obtain ⟨_, _, _, _, _, _, _, -, -, -, hfrac⟩ := hspells
  have hmicros := Fields.micros?_eq hvalid hfrac.lt ht
  simp only [Fields.micros?, u64, Option.bind_eq_bind, Option.bind_eq_some_iff,
    Option.ite_none_right_eq_some] at hmicros
  obtain ⟨_, -, _, -, _, -, _, -, _, -, _, -, _, -, _, -, _, -, hle, ht⟩ := hmicros
  exact Option.some.inj ht ▸ hle

private theorem toNat_add {a : UInt64} {n : ℕ} (h : a.toNat + n ≤ u64Max) :
    (a + UInt64.ofNat n).toNat = a.toNat + n := by
  have hmax : u64Max = UInt64.size - 1 := rfl
  have hsize : UInt64.size = 2 ^ 64 := rfl
  rw [UInt64.toNat_add, UInt64.toNat_ofNat_of_lt' (by omega), Nat.mod_eq_of_lt (by omega)]

private theorem toNat_toUInt64 {x : Int64} (h : ¬ x ≤ 0) : (x.toUInt64.toNat : ℤ) = x.toInt := by
  rw [Int64.le_iff_toInt_le] at h
  change (x.toBitVec.toNat : ℤ) = x.toBitVec.toInt
  have hpos : ¬ x.toBitVec.toInt ≤ 0 := h
  rw [BitVec.toInt_eq_toNat_cond] at hpos ⊢
  split_ifs at hpos ⊢
  · rfl
  · omega

private theorem holdsRecord_of_fits (h : c.validate lower = .ok ())
    (hfits : c.limits.maxRecordBytes.toNat + segmentHeaderBytes ≤ u64Max) : c.HoldsRecord := by
  obtain ⟨-, hseg, hpos, huse⟩ := validate_sizes h
  rw [UInt64.lt_iff_toNat_lt, toNat_add hfits] at hseg
  have hle : batchHeaderBytes ≤ segmentHeaderBytes := by decide
  rw [UInt64.lt_iff_toNat_lt, toNat_add (by omega)] at huse
  have hcast := toNat_toUInt64 hpos
  exact ⟨by omega, by omega⟩

/-- **The sizes hold unless the first sum wraps.** Whatever is validated holds one record of the
largest size and no addition overflows, exactly unless the largest record and a segment header
exceed 64 bits and no check in front of their sum refuses the config. -/
theorem validate_sizes_iff (lower : String → String) (c : Config) :
    ((c.validate lower = .ok () → c.HoldsRecord) ∧ c.SumsFit) ↔
      ¬ (c.Tunable ∧ u64Max < c.limits.maxRecordBytes.toNat + segmentHeaderBytes) := by
  have hheader : (UInt64.ofNat segmentHeaderBytes).toNat = segmentHeaderBytes := by decide
  have hbatch : (UInt64.ofNat batchHeaderBytes).toNat = batchHeaderBytes := by decide
  constructor
  · rintro ⟨-, -, hsums⟩ ⟨htunable, hover⟩
    have hfirst := hsums (c.limits.maxRecordBytes, UInt64.ofNat segmentHeaderBytes) (by
      rw [additions, if_neg (not_not.2 htunable)]
      exact List.mem_cons_self)
    exact absurd (hheader ▸ hfirst) (not_le.2 hover)
  · intro hnot
    have hfits : c.Tunable → c.limits.maxRecordBytes.toNat + segmentHeaderBytes ≤ u64Max :=
      fun htunable ↦ not_lt.1 fun hover ↦ hnot ⟨htunable, hover⟩
    refine ⟨fun h ↦ holdsRecord_of_fits h (hfits (validate_sizes h).1), fun t ↦ tsMinUs_le, ?_⟩
    intro s hs
    rw [additions] at hs
    split at hs
    · cases hs
    · next htunable =>
      have hfits := hfits (not_not.1 htunable)
      have hle : batchHeaderBytes ≤ segmentHeaderBytes := by decide
      have hs' : s.1 = c.limits.maxRecordBytes ∧ s.2.toNat ≤ segmentHeaderBytes := by
        split at hs <;> simp only [List.mem_cons, List.not_mem_nil, or_false] at hs
        · rw [hs]
          exact ⟨rfl, hheader.le⟩
        · rcases hs with hs | hs
          · rw [hs]
            exact ⟨rfl, hheader.le⟩
          · rw [hs]
            exact ⟨rfl, hbatch.le.trans hle⟩
      rw [hs'.1]
      omega

theorem validate_sizes_iff_default : ({} : Config).HoldsRecord ∧ ({} : Config).SumsFit := by
  obtain ⟨hholds, hfit⟩ := (validate_sizes_iff id {}).2 fun h ↦ absurd h.2 (by decide +kernel)
  exact ⟨hholds (by decide +kernel), hfit⟩

/-- The largest `usize`, with everything else left at its default. -/
def hugeRecords : Config := { limits := { maxRecordBytes := 18446744073709551615 } }

/-- A release build accepts it: the sums have wrapped to 13 and 9. -/
theorem huge_records_accepted :
    hugeRecords.validate id = .ok () ∧ ¬ hugeRecords.HoldsRecord ∧ ¬ hugeRecords.SumsFit := by
  refine ⟨by decide +kernel, by unfold HoldsRecord; decide +kernel, fun h ↦ ?_⟩
  have hsum := h.2 (18446744073709551615, UInt64.ofNat segmentHeaderBytes) (by decide +kernel)
  exact absurd hsum (by decide +kernel)

end Config

end Orc
