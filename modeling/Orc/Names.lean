import Orc.Bytes.Text
import Orc.Record

/-!
# File names

Segments are `<id>.wal` and flush output is `<first>-<last>.e<epoch>.parquet`, with ids zero-padded
to ten digits. The parsers are strict about the width of an id, so that a name the engine did not
write is left alone: a segment id has one spelling (`parseSegmentField_eq_some_iff`), and what the
engine wrote is always read back (`parseOutputFileName_outputFileName`).

Ten digits are a minimum: an id that needs more is written with more, and then has no zero in front.
Padding makes the order of names the order of ids as long as ten digits suffice, which nothing here
relies on. The epoch is parsed as any unsigned number is, so zeros in front of it are accepted, and
two names may stand for one range and epoch (`output_name_strict_iff`).
-/

namespace Orc

open Text

/-- Zero-pad width of segment ids in file names. -/
def segmentIdDigits : ℕ := 10

/-- A segment id in a file name: at least ten digits, and no leading zero beyond ten. -/
def parseSegmentField (s : List Char) : Option ℕ :=
  if !isDigits s then
    none
  else if s.length < segmentIdDigits ∨ (s.length ≠ segmentIdDigits ∧ s.head? = some '0') then
    none
  else
    (parseDec s).filter (· ≤ u64Max)

/-- `<id, zero-padded>.wal`. -/
def segmentName (id : ℕ) : String := String.ofList (pad segmentIdDigits id ++ ".wal".toList)

/-- The id a segment file name encodes, or `none` if it is not one of ours. -/
def parseSegmentName (name : String) : Option ℕ := do
  parseSegmentField (← stripSuffix ".wal".toList name.toList)

/-- Flush output name: segment range and epoch tag. -/
def outputFileName (first last : ℕ) (epoch : UInt32) : String :=
  String.ofList (pad segmentIdDigits first ++ '-' :: (pad segmentIdDigits last ++
    ('.' :: 'e' :: pad 0 epoch.toNat) ++ ".parquet".toList))

/-- The range and epoch of a flush output name, or `none` for a name the engine does not write. -/
def parseOutputFileName (name : String) : Option (ℕ × ℕ × UInt32) := do
  let rest ← stripSuffix ".parquet".toList name.toList
  let (range, epoch) ← rsplitOnce ['.', 'e'] rest
  let (first, last) ← splitOnce '-' range
  if !isDigits epoch then
    none
  else
    let first ← parseSegmentField first
    let last ← parseSegmentField last
    let epoch ← (parseDec epoch).filter (· ≤ u32Max)
    return (first, last, UInt32.ofNat epoch)

theorem parseSegmentField_pad (id : ℕ) :
    parseSegmentField (pad segmentIdDigits id) = if id ≤ u64Max then some id else none := by
  rw [parseSegmentField, isDigits_pad, if_neg (by simp), if_neg, parseDec_pad, Option.filter_some]
  · simp
  · rintro (hlt | ⟨hne, hzero⟩)
    · exact absurd (le_length_pad segmentIdDigits id) (by omega)
    -- wider than ten digits, the number is not padded and does not start with a zero
    · have hwide : 10 ^ segmentIdDigits ≤ id := by
        by_contra hlt
        exact hne (length_pad (by decide) (not_le.1 hlt))
      have hlen : segmentIdDigits < (Nat.toDigits 10 id).length := by
        by_contra hle
        have := (Nat.length_toDigits_le_iff (by decide : 1 < 10)
          (by decide : 0 < segmentIdDigits)).1 (not_lt.1 hle)
        omega
      rw [pad, Nat.sub_eq_zero_of_le hlen.le, List.replicate_zero, List.nil_append] at hzero
      exact head?_toDigits_ne_zero ((by decide : 0 < 10 ^ segmentIdDigits).trans_le hwide) hzero

/-- **A segment id in a name** has one spelling. -/
theorem parseSegmentField_eq_some_iff {s : List Char} {id : ℕ} :
    parseSegmentField s = some id ↔ id ≤ u64Max ∧ s = pad segmentIdDigits id := by
  constructor
  · intro h
    rw [parseSegmentField] at h
    split_ifs at h with hdigits hwidth
    obtain ⟨hparse, hle⟩ := Option.filter_eq_some_iff.1 h
    refine ⟨of_decide_eq_true hle, ?_⟩
    have hpad := pad_of_parseDec hparse
    obtain ⟨hlong, hzero⟩ := not_or.1 hwidth
    by_cases hlen : s.length = segmentIdDigits
    · rw [← hlen, hpad]
    · -- wider than ten digits and without a zero in front, the digits are those of the number
      have hhead : s.head? ≠ some '0' := fun h0 ↦ hzero ⟨hlen, h0⟩
      rw [pad] at hpad
      have hnone : s.length - (Nat.toDigits 10 id).length = 0 := by
        by_contra hne
        obtain ⟨k, hk⟩ := Nat.exists_eq_succ_of_ne_zero hne
        rw [hk, List.replicate_succ, List.cons_append] at hpad
        exact hhead (by rw [← hpad]; rfl)
      have hlt : segmentIdDigits < s.length := by omega
      rw [hnone, List.replicate_zero, List.nil_append] at hpad
      rw [pad, hpad, Nat.sub_eq_zero_of_le hlt.le]
      rfl
  · rintro ⟨hle, rfl⟩
    exact (parseSegmentField_pad id).trans (if_pos hle)

/-- A flush output name with zeros in front of the epoch. The engine writes none. -/
def paddedFileName (zeros first last : ℕ) (epoch : UInt32) : String :=
  String.ofList (pad segmentIdDigits first ++ '-' :: (pad segmentIdDigits last ++
    ('.' :: 'e' :: (List.replicate zeros '0' ++ pad 0 epoch.toNat)) ++ ".parquet".toList))

private theorem paddedFileName_zero (first last : ℕ) (epoch : UInt32) :
    paddedFileName 0 first last epoch = outputFileName first last epoch := rfl

theorem paddedFileName_injective {zeros zeros' first last : ℕ} {epoch : UInt32}
    (h : paddedFileName zeros first last epoch = paddedFileName zeros' first last epoch) :
    zeros = zeros' := by
  have hlen := congrArg List.length (String.ofList_inj.1 h)
  simp only [List.length_append, List.length_cons, List.length_replicate] at hlen
  omega

private theorem replicate_append_pad (zeros n : ℕ) :
    List.replicate zeros '0' ++ pad 0 n = pad (zeros + (Nat.toDigits 10 n).length) n := by
  rw [pad, pad, Nat.zero_sub, List.replicate_zero, List.nil_append, Nat.add_sub_cancel]

theorem parseOutputFileName_padded (zeros first last : ℕ) (epoch : UInt32) :
    parseOutputFileName (paddedFileName zeros first last epoch) =
      if first ≤ u64Max ∧ last ≤ u64Max then some (first, last, epoch) else none := by
  have hall : isDigits (List.replicate zeros '0' ++ pad 0 epoch.toNat) = true := by
    rw [replicate_append_pad, isDigits_pad]
  have hvalue : parseDec (List.replicate zeros '0' ++ pad 0 epoch.toNat) = some epoch.toNat := by
    rw [replicate_append_pad, parseDec_pad]
  generalize hdigits : List.replicate zeros '0' ++ pad 0 epoch.toNat = digits at hall hvalue
  have hdash : '-' ∉ pad segmentIdDigits first := fun h ↦
    absurd (isDigit_of_mem_pad h) (by decide)
  have hdot : '.' ∉ ['e'] ++ digits := fun h ↦ by
    rcases List.mem_append.1 h with h | h
    · exact absurd h (by decide)
    · exact absurd ((isDigits_iff.1 hall).2 _ h) (by decide)
  have hepoch : epoch.toNat ≤ u32Max := Nat.le_of_lt_succ epoch.toNat_lt
  have htext : (paddedFileName zeros first last epoch).toList =
      ((pad segmentIdDigits first ++ '-' :: pad segmentIdDigits last) ++
        (('.' :: ['e']) ++ digits)) ++ ".parquet".toList := by
    rw [paddedFileName, String.toList_ofList, hdigits]
    simp only [List.append_assoc, List.cons_append, List.nil_append]
  simp only [parseOutputFileName, htext, stripSuffix_append, Option.bind_eq_bind, Option.bind_some,
    rsplitOnce_append hdot, splitOnce_append hdash, hall, Bool.not_true, Bool.false_eq_true,
    if_false, parseSegmentField_pad, hvalue]
  rw [Option.filter_some, if_pos (decide_eq_true hepoch)]
  by_cases hfirst : first ≤ u64Max <;> by_cases hlast : last ≤ u64Max <;> simp [hfirst, hlast]

theorem parseOutputFileName_eq (first last : ℕ) (epoch : UInt32) :
    parseOutputFileName (outputFileName first last epoch) =
      if first ≤ u64Max ∧ last ≤ u64Max then some (first, last, epoch) else none :=
  parseOutputFileName_padded 0 first last epoch

/-- **What the engine writes is read back**: the range and the epoch of an output name. -/
theorem parseOutputFileName_outputFileName {first last : ℕ} (epoch : UInt32)
    (hfirst : first ≤ u64Max) (hlast : last ≤ u64Max) :
    parseOutputFileName (outputFileName first last epoch) = some (first, last, epoch) :=
  (parseOutputFileName_eq first last epoch).trans (if_pos ⟨hfirst, hlast⟩)

/-- The epoch of an output name is told from the name. -/
theorem epoch_of_outputFileName {first last : ℕ} (hfirst : first ≤ u64Max) (hlast : last ≤ u64Max)
    {epoch epoch' : UInt32}
    (h : outputFileName first last epoch = outputFileName first last epoch') :
    epoch = epoch' := by
  have hparse := parseOutputFileName_outputFileName epoch hfirst hlast
  rw [h, parseOutputFileName_outputFileName epoch' hfirst hlast] at hparse
  simpa using hparse.symm

/-- An output name is read as nothing but what was written. -/
theorem eq_of_parseOutputFileName {first last : ℕ} {epoch : UInt32} {r : ℕ × ℕ × UInt32}
    (h : parseOutputFileName (outputFileName first last epoch) = some r) :
    r = (first, last, epoch) := by
  rw [parseOutputFileName_eq] at h
  split_ifs at h
  exact (Option.some.inj h).symm

/-! ## The names that are read -/

/-- **What is read** are the names the engine writes, and the same with zeros in front of the
epoch. -/
theorem parseOutputFileName_eq_some_iff {name : String} {first last : ℕ} {epoch : UInt32} :
    parseOutputFileName name = some (first, last, epoch) ↔
      (first ≤ u64Max ∧ last ≤ u64Max) ∧ ∃ zeros, name = paddedFileName zeros first last epoch := by
  constructor
  · intro h
    simp only [parseOutputFileName, Option.bind_eq_bind, Option.bind_eq_some_iff] at h
    obtain ⟨rest, hrest, ⟨range, digits⟩, hsplit, ⟨f, l⟩, hrange, h⟩ := h
    dsimp only at hrange h
    split_ifs at h with hdigits
    simp only [Option.bind_eq_some_iff] at h
    obtain ⟨f', hf, l', hl, e, he, h⟩ := h
    obtain ⟨he, hmax⟩ := Option.filter_eq_some_iff.1 he
    have hepoch : (UInt32.ofNat e).toNat = e :=
      UInt32.toNat_ofNat_of_lt' (Nat.lt_succ_of_le (of_decide_eq_true hmax))
    cases h
    obtain ⟨hfirst, rfl⟩ := parseSegmentField_eq_some_iff.1 hf
    obtain ⟨hlast, rfl⟩ := parseSegmentField_eq_some_iff.1 hl
    have htext := stripSuffix_eq_some.1 hrest
    rw [rsplitOnce_eq_some hsplit, (splitOnce_eq_some hrange).1] at htext
    -- the epoch may be longer than its number, and is then padded
    have hpad : List.replicate (digits.length - (Nat.toDigits 10 e).length) '0' ++ pad 0 e =
        digits := by
      conv_rhs => rw [← pad_of_parseDec he]
      rw [pad, pad, Nat.zero_sub, List.replicate_zero, List.nil_append]
    refine ⟨⟨hfirst, hlast⟩, digits.length - (Nat.toDigits 10 e).length, ?_⟩
    rw [← String.toList_inj, htext, paddedFileName, hepoch, hpad]
    simp only [String.toList_ofList, List.append_assoc, List.cons_append, List.nil_append]
  · rintro ⟨hmax, zeros, rfl⟩
    exact (parseOutputFileName_padded zeros first last epoch).trans (if_pos hmax)

/-- **Names are read strictly but for the epoch.** A name is read as a range and an epoch exactly
when it is the name the engine writes for them, unless it is that name with zeros in front of the
epoch. -/
theorem output_name_strict_iff (name : String) {first last : ℕ} (epoch : UInt32)
    (hfirst : first ≤ u64Max) (hlast : last ≤ u64Max) :
    (parseOutputFileName name = some (first, last, epoch) ↔
        name = outputFileName first last epoch) ↔
      ∀ zeros, 0 < zeros → name ≠ paddedFileName zeros first last epoch := by
  rw [parseOutputFileName_eq_some_iff, ← paddedFileName_zero]
  constructor
  · rintro h zeros hpos rfl
    have hzero := paddedFileName_injective (h.1 ⟨⟨hfirst, hlast⟩, zeros, rfl⟩)
    omega
  · refine fun h ↦ ⟨?_, fun heq ↦ ⟨⟨hfirst, hlast⟩, 0, heq⟩⟩
    rintro ⟨-, zeros, rfl⟩
    by_cases hpos : 0 < zeros
    · exact absurd rfl (h zeros hpos)
    · rw [Nat.eq_zero_of_not_pos hpos]

/-- An epoch written with a zero in front is read as well. -/
theorem zero_padded_epoch_read :
    parseOutputFileName "0000000041-0000000042.e03.parquet" = some (41, 42, 3) ∧
      "0000000041-0000000042.e03.parquet" ≠ outputFileName 41 42 3 := by
  decide +kernel

/-- The name of an output file of the engine. -/
theorem output_name_strict_iff_written :
    parseOutputFileName "0000000041-0000000042.e3.parquet" = some (41, 42, 3) ↔
      "0000000041-0000000042.e3.parquet" = outputFileName 41 42 3 := by
  have hname : "0000000041-0000000042.e3.parquet" = paddedFileName 0 41 42 3 := by decide +kernel
  refine (output_name_strict_iff _ 3 (by decide) (by decide)).2 fun zeros hpos h ↦ ?_
  rw [hname] at h
  exact hpos.ne (paddedFileName_injective h)

end Orc
