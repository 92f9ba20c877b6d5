import Orc.Bytes.Basic

/-!
# What CRC-32 detects

That a checksum detects a change cannot be shown from its width: there are more byte strings than
checksums. It is shown here for the one kind of damage the program's documentation promises
something about, a single byte.

The register of the reflected division loses nothing: its top bit after a step is its low bit
before, because the polynomial has its top bit set (`getLsbD_crcBit`). So a step is injective, and
feeding a byte is injective both in the register and in the byte. Two byte strings that differ in
one position therefore leave the register different there, and whatever follows keeps it so
(`crc32_ne`).

The argument is about registers and never evaluates a checksum, so it needs no table and holds for
strings of any length.
-/

namespace Bytes

theorem and_one_eq_one_iff (c : UInt32) : c &&& 1 = 1 ↔ c.toBitVec.getLsbD 0 = true := by
  have h : c.toBitVec &&& (1 : UInt32).toBitVec =
      (BitVec.ofBool (c.toBitVec.getLsbD 0)).setWidth 32 :=
        BitVec.and_one_eq_setWidth_ofBool_getLsbD
  rw [← UInt32.toBitVec_inj, UInt32.toBitVec_and, h]
  cases c.toBitVec.getLsbD 0 <;> decide

theorem toBitVec_crcBit (c : UInt32) :
    (crcBit c).toBitVec =
      if c.toBitVec.getLsbD 0 then (c.toBitVec >>> 1) ^^^ 0xEDB88320#32 else c.toBitVec >>> 1 := by
  unfold crcBit
  by_cases h : c &&& 1 = 1
  · rw [if_pos h, if_pos ((and_one_eq_one_iff c).1 h)]
    simp
  · rw [if_neg h, if_neg (mt (and_one_eq_one_iff c).2 h)]
    simp

private theorem getLsbD_crcBit (c : UInt32) :
    (crcBit c).toBitVec.getLsbD 31 = c.toBitVec.getLsbD 0 := by
  rw [toBitVec_crcBit]
  cases h : c.toBitVec.getLsbD 0 <;> simp

theorem crcBit_injective : Function.Injective crcBit := by
  intro c d h
  have hlow : c.toBitVec.getLsbD 0 = d.toBitVec.getLsbD 0 := by
    rw [← getLsbD_crcBit, h, getLsbD_crcBit]
  -- with the same low bit, the same was added to the shifted registers
  have hshift : c.toBitVec >>> 1 = d.toBitVec >>> 1 := by
    have hbits := congrArg UInt32.toBitVec h
    rw [toBitVec_crcBit, toBitVec_crcBit, ← hlow] at hbits
    split_ifs at hbits
    · exact (BitVec.xor_left_inj _).1 hbits
    · exact hbits
  refine UInt32.toBitVec_inj.1 (BitVec.eq_of_getLsbD_eq fun i hi ↦ ?_)
  cases i with
  | zero => exact hlow
  | succ i =>
    have hbit := congrArg (fun b : BitVec 32 ↦ b.getLsbD i) hshift
    simpa [BitVec.getLsbD_ushiftRight, Nat.add_comm] using hbit

private theorem crcByte_left_injective (b : UInt8) : Function.Injective (crcByte · b) := fun _ _ h ↦
  (UInt32.xor_left_inj _).1 (crcBit_injective.iterate 8 h)

private theorem crcByte_right_injective (c : UInt32) : Function.Injective (crcByte c) := by
  intro a b h
  have hword : a.toUInt32 = b.toUInt32 := (UInt32.xor_right_inj _).1 (crcBit_injective.iterate 8 h)
  have hnat := congrArg UInt32.toNat hword
  exact UInt8.toNat_inj.1 (by simpa using hnat)

private theorem foldl_crcByte_injective (bytes : Bytes) :
    Function.Injective (bytes.foldl crcByte) := by
  induction bytes with
  | nil => exact fun _ _ h ↦ h
  | cons b bytes ih => exact fun c d h ↦ crcByte_left_injective b (ih h)

/-- **One byte changed** changes the checksum. -/
theorem crc32_ne (before after : Bytes) {a b : UInt8} (h : a ≠ b) :
    crc32 (before ++ a :: after) ≠ crc32 (before ++ b :: after) := by
  intro heq
  unfold crc32 at heq
  rw [List.foldl_append, List.foldl_append, List.foldl_cons, List.foldl_cons] at heq
  exact h (crcByte_right_injective _
    (foldl_crcByte_injective after ((UInt32.xor_left_inj _).1 heq)))

end Bytes
