import Mathlib.Data.List.Lex
import Mathlib.Data.Nat.Basic
import Mathlib.Order.Lattice
import Mathlib.Data.UInt
import Mathlib.Tactic.Ring

/-!
# Byte strings, little-endian numbers and UTF-8

Byte strings are lists of `UInt8`, ordered lexicographically as slices of bytes are. Lists and not
arrays: nothing in the program depends on how a buffer is stored, and what is proved about formats
is about taking buffers apart at the front, which is what lists are good at.

`leBytes n v` writes the low `n` bytes of `v`, least significant first, and `leNat` reads a byte
string back as a number. The two are inverse to each other in both directions: reading what was
written loses exactly the digits above `256 ^ n`, and writing what was read restores the bytes. The
width is an argument and the value a natural number, so that one pair of lemmas serves the `u16`,
`u32` and `u64` fields of the formats, and a value that does not fit is truncated where it is
written and nowhere else.

`utf8` and `fromUtf8` pass between strings and their encodings. Strings are compared through `utf8`,
that is bytewise, as the program compares them.

`crc32` is the CRC-32 of IEEE 802.3, bit by bit. Only the results on damaged frames need to know
which checksum it is; everything else takes the checksum as a parameter.
-/

/-- A string of bytes: the contents of a file, of a message, of a frame. -/
abbrev Bytes := List UInt8

instance Bytes.linearOrderUInt8 : LinearOrder UInt8 where
  le_refl := UInt8.le_refl
  le_trans _ _ _ := UInt8.le_trans
  le_antisymm _ _ := UInt8.le_antisymm
  le_total := UInt8.le_total
  lt_iff_le_not_ge a b := by
    simp only [UInt8.lt_iff_toNat_lt, UInt8.le_iff_toNat_le]
    omega
  toDecidableLE := inferInstance
  toDecidableEq := inferInstance
  toDecidableLT := inferInstance

namespace Bytes

/-- The `n` low-order bytes of `v`, least significant first. -/
def leBytes : ℕ → ℕ → Bytes
  | 0, _ => []
  | n + 1, v => UInt8.ofNat v :: leBytes n (v / 256)

/-- The number whose little-endian digits are the given bytes. -/
def leNat : Bytes → ℕ
  | [] => 0
  | b :: bs => b.toNat + 256 * leNat bs

@[simp] theorem length_leBytes (n v : ℕ) : (leBytes n v).length = n := by
  induction n generalizing v with
  | zero => rfl
  | succ n ih => simp [leBytes, ih]

theorem leNat_lt (bs : Bytes) : leNat bs < 256 ^ bs.length := by
  induction bs with
  | nil => simp [leNat]
  | cons b bs ih =>
    have hb := b.toNat_lt
    simp only [leNat, List.length_cons, pow_succ]
    omega

/-- Reading back what was written keeps the digits that fit. -/
@[simp] theorem leNat_leBytes (n v : ℕ) : leNat (leBytes n v) = v % 256 ^ n := by
  induction n generalizing v with
  | zero => simp [leBytes, leNat, Nat.mod_one]
  | succ n ih =>
    rw [leBytes, leNat, ih, pow_succ, mul_comm (256 ^ n), Nat.mod_mul, UInt8.toNat_ofNat']

theorem leNat_leBytes_of_lt {n v : ℕ} (h : v < 256 ^ n) : leNat (leBytes n v) = v := by
  rw [leNat_leBytes, Nat.mod_eq_of_lt h]

@[simp] theorem leBytes_leNat (bs : Bytes) : leBytes bs.length (leNat bs) = bs := by
  induction bs with
  | nil => rfl
  | cons b bs ih =>
    have hb := b.toNat_lt
    have hdiv : (b.toNat + 256 * leNat bs) / 256 = leNat bs := by omega
    have hmod : UInt8.ofNat (b.toNat + 256 * leNat bs) = b := by
      rw [← UInt8.toNat_inj, UInt8.toNat_ofNat']
      omega
    rw [List.length_cons, leNat, leBytes, hdiv, ih, hmod]

theorem leBytes_leNat_of_length {bs : Bytes} {n : ℕ} (h : bs.length = n) :
    leBytes n (leNat bs) = bs := by
  rw [← h, leBytes_leNat]

/-! ## UTF-8 -/

/-- The UTF-8 encoding of a string. -/
def utf8 (s : String) : Bytes := s.toByteArray.data.toList

/-- The string a byte string encodes, if it is valid UTF-8. -/
def fromUtf8 (b : Bytes) : Option String := String.fromUTF8? ⟨b.toArray⟩

/-- A byte string decodes to a string exactly when it is the encoding of it. -/
theorem fromUtf8_eq_some {b : Bytes} {s : String} : fromUtf8 b = some s ↔ b = utf8 s := by
  unfold fromUtf8 utf8 String.fromUTF8?
  split_ifs with h
  · rw [Option.some.injEq, ← String.toByteArray_inj]
    constructor
    · intro heq
      rw [← heq]
      rfl
    · rintro rfl
      rfl
  · simp only [false_iff]
    rintro rfl
    exact h s.isValidUTF8

@[simp] theorem fromUtf8_utf8 (s : String) : fromUtf8 (utf8 s) = some s := fromUtf8_eq_some.2 rfl

theorem utf8_injective : Function.Injective utf8 := fun s t h ↦ by
  have := fromUtf8_utf8 s
  rw [h, fromUtf8_utf8] at this
  exact (Option.some.inj this).symm

@[simp] theorem utf8_inj {s t : String} : utf8 s = utf8 t ↔ s = t := utf8_injective.eq_iff

theorem utf8_ofList_ascii {cs : List Char} (h : ∀ c ∈ cs, c.toNat < 128) :
    utf8 (String.ofList cs) = cs.map fun c ↦ UInt8.ofNat c.toNat := by
  have hone : ∀ c ∈ cs, String.utf8EncodeChar c = [UInt8.ofNat c.toNat] := by
    intro c hc
    have hsize : c.utf8Size = 1 := Char.utf8Size_eq_one_iff.2 (Nat.le_of_lt_succ (h c hc))
    rw [String.utf8EncodeChar_eq_singleton hsize]
    rfl
  rw [utf8, String.toByteArray_ofList, List.utf8Encode, List.toList_data_toByteArray,
    List.flatMap_congr hone]
  exact List.flatMap_pure_eq_map _ cs

/-- Texts of ASCII characters are ordered as their encodings. -/
theorem utf8_lt_of_ascii {a b : List Char} (ha : ∀ c ∈ a, c.toNat < 128)
    (hb : ∀ c ∈ b, c.toNat < 128) (h : a < b) :
    utf8 (String.ofList a) < utf8 (String.ofList b) := by
  rw [utf8_ofList_ascii ha, utf8_ofList_ascii hb]
  induction a generalizing b with
  | nil =>
    cases b with
    | nil => cases h
    | cons d b => exact .nil
  | cons c a ih =>
    cases b with
    | nil => cases h
    | cons d b =>
      rw [List.forall_mem_cons] at ha hb
      rcases List.cons_lt_cons_iff.1 h with hcd | ⟨rfl, hab⟩
      · refine List.cons_lt_cons_iff.2 (.inl ?_)
        have hlt : c.toNat < d.toNat := hcd
        rw [UInt8.lt_iff_toNat_lt, UInt8.toNat_ofNat', UInt8.toNat_ofNat']
        omega
      · exact List.cons_lt_cons_iff.2 (.inr ⟨rfl, ih ha.2 hb.2 hab⟩)

/-! ## CRC-32 -/

/-- One bit of the reflected division by the IEEE polynomial. -/
def crcBit (c : UInt32) : UInt32 :=
  if c &&& 1 = 1 then (c >>> 1) ^^^ 0xEDB88320 else c >>> 1

/-- Feed one byte. -/
def crcByte (c : UInt32) (b : UInt8) : UInt32 := crcBit^[8] (c ^^^ b.toUInt32)

/-- The CRC-32 checksum of a byte string. -/
def crc32 (b : Bytes) : UInt32 := b.foldl crcByte 0xFFFFFFFF ^^^ 0xFFFFFFFF

example : crc32 (utf8 "123456789") = 0xCBF43926 := by decide +kernel

end Bytes
