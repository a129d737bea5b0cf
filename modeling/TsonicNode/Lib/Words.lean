import Mathlib.Data.List.Basic
import Mathlib.Data.Nat.Bitwise

/-!
# Words in bytes

A word is written as the bytes at its shifts, the least significant first or
last, and gathered from them again. `gather_parts` says that what is gathered
is the low end of what was written.
-/

namespace TsonicNode.Lib.Words

/-- Where in the word the byte at an index belongs. -/
def shift (width : Nat) (little : Bool) (index : Nat) : Nat := 8 * (if little then index else width - index - 1)

def part (word : BitVec 64) (shift : Nat) : UInt8 := ⟨((word >>> shift) &&& 0xFF#64).setWidth 8⟩

def gather (width : Nat) (little : Bool) (byte : Nat → UInt8) : BitVec 64 :=
  (List.range width).foldl
    (fun word index => word ||| (byte index).toBitVec.setWidth 64 <<< shift width little index) 0

theorem getLsbD_mask (bit : Nat) : (0xFF#64).getLsbD bit = decide (bit < 8) := by
  have hmask : Nat.testBit 0xFF bit = decide (bit < 8) := Nat.testBit_two_pow_sub_one 8 bit
  rw [BitVec.getLsbD_ofNat, hmask]
  by_cases hbit : bit < 8
  · rw [decide_eq_true hbit, Bool.and_true, decide_eq_true_eq]
    omega
  · rw [decide_eq_false hbit, Bool.and_false]

theorem getLsbD_part (word : BitVec 64) (shift bit : Nat) :
    (part word shift).toBitVec.getLsbD bit = (decide (bit < 8) && word.getLsbD (shift + bit)) := by
  rw [part, BitVec.getLsbD_setWidth, BitVec.getLsbD_and, BitVec.getLsbD_ushiftRight, getLsbD_mask,
    Bool.and_comm (word.getLsbD _), ← Bool.and_assoc, Bool.and_self]

theorem getLsbD_fold (byte : Nat → UInt8) (place : Nat → Nat) (count bit : Nat) :
    ((List.range count).foldl (fun (word : BitVec 64) index =>
        word ||| (byte index).toBitVec.setWidth 64 <<< place index) 0).getLsbD bit = true ↔
      bit < 64 ∧ ∃ index < count, place index ≤ bit ∧ (byte index).toBitVec.getLsbD (bit - place index) = true := by
  induction count with
  | zero => simp
  | succ count ih =>
    rw [List.range_succ, List.foldl_append, List.foldl_cons, List.foldl_nil, BitVec.getLsbD_or, Bool.or_eq_true, ih,
      BitVec.getLsbD_shiftLeft, BitVec.getLsbD_setWidth]
    simp only [Bool.and_eq_true, Bool.not_eq_true', decide_eq_true_eq, decide_eq_false_iff_not, not_lt]
    constructor
    · rintro (⟨hbit, index, hindex, hplace⟩ | ⟨⟨hbit, hle⟩, -, hbyte⟩)
      · exact ⟨hbit, index, by omega, hplace⟩
      · exact ⟨hbit, count, by omega, hle, hbyte⟩
    · rintro ⟨hbit, index, hindex, hle, hbyte⟩
      by_cases hlast : index = count
      · subst hlast
        exact .inr ⟨⟨hbit, hle⟩, by omega, hbyte⟩
      · exact .inl ⟨hbit, index, by omega, hle, hbyte⟩

/-- The bits that were written are read. -/
theorem gather_parts {width : Nat} (hwidth : width ≤ 8) (little : Bool) (word : BitVec 64) (bit : Nat) :
    (gather width little fun index => part word (shift width little index)).getLsbD bit =
      (decide (bit < 8 * width) && word.getLsbD bit) := by
  rw [Bool.eq_iff_iff, gather, getLsbD_fold, Bool.and_eq_true, decide_eq_true_eq]
  simp only [getLsbD_part, Bool.and_eq_true, decide_eq_true_eq, shift]
  constructor
  · rintro ⟨hbit, index, hindex, hle, hlow, hword⟩
    rw [Nat.add_sub_cancel' hle] at hword
    refine ⟨?_, hword⟩
    cases little <;> simp only [if_true, if_false, Bool.false_eq_true] at hle hlow <;> omega
  · rintro ⟨hbit, hword⟩
    refine ⟨by omega, if little then bit / 8 else width - bit / 8 - 1, ?_⟩
    cases little
    · simp only [if_false, Bool.false_eq_true]
      have hplace : width - (width - bit / 8 - 1) - 1 = bit / 8 := by omega
      rw [hplace]
      refine ⟨by omega, by omega, by omega, ?_⟩
      rw [Nat.add_sub_cancel' (by omega)]
      exact hword
    · simp only [if_true]
      refine ⟨by omega, by omega, by omega, ?_⟩
      rw [Nat.add_sub_cancel' (by omega)]
      exact hword

theorem gather_eq {width : Nat} (hwidth : width ≤ 8) (little : Bool) (word : BitVec 64) :
    gather width little (fun index => part word (shift width little index)) =
      (word.setWidth (8 * width)).setWidth 64 := by
  apply BitVec.eq_of_getLsbD_eq
  intro bit hbit
  rw [gather_parts hwidth, BitVec.getLsbD_setWidth, BitVec.getLsbD_setWidth, decide_eq_true hbit, Bool.true_and]

/-- A word is gathered from the bytes that are read of it. -/
theorem gather_congr {width : Nat} {little : Bool} {byte byte' : Nat → UInt8}
    (h : ∀ index < width, byte index = byte' index) : gather width little byte = gather width little byte' := by
  refine List.foldl_ext _ _ _ fun word index hindex => ?_
  rw [h index (List.mem_range.mp hindex)]

/-- In the other order the bytes are read from behind. -/
theorem gather_reverse (width : Nat) (byte : Nat → UInt8) :
    gather width false (fun index => byte (width - index - 1)) = gather width true byte := by
  apply BitVec.eq_of_getLsbD_eq
  intro bit _
  rw [Bool.eq_iff_iff, gather, gather, getLsbD_fold, getLsbD_fold]
  refine and_congr_right fun _ => ⟨?_, ?_⟩
  · rintro ⟨index, hindex, hplace⟩
    exact ⟨width - index - 1, by omega, hplace⟩
  · rintro ⟨index, hindex, hplace⟩
    have hback : width - (width - index - 1) - 1 = index := by omega
    refine ⟨width - index - 1, by omega, ?_⟩
    simp only [shift, if_true, if_false, Bool.false_eq_true, hback] at hplace ⊢
    exact hplace

/-- A word in bytes. -/
def bytes (width : Nat) (little : Bool) (word : BitVec 64) : List UInt8 :=
  (List.range width).map fun index => part word (shift width little index)

@[simp] theorem length_bytes (width : Nat) (little : Bool) (word : BitVec 64) :
    (bytes width little word).length = width := by
  simp [bytes]

theorem getD_bytes {width index : Nat} (h : index < width) (little : Bool) (word : BitVec 64) :
    (bytes width little word).getD index 0 = part word (shift width little index) := by
  rw [List.getD_eq_getElem _ _ (by simpa using h)]
  simp [bytes]

/-- The two orders are reversals of each other. -/
theorem bytes_reverse (width : Nat) (word : BitVec 64) :
    bytes width false word = (bytes width true word).reverse := by
  refine List.ext_getElem (by simp) fun index hindex hindex' => ?_
  simp only [length_bytes] at hindex
  simp only [bytes, List.getElem_map, List.getElem_range, List.getElem_reverse, List.length_map, List.length_range,
    shift, if_true, if_false, Bool.false_eq_true]
  rw [Nat.sub_right_comm]

end TsonicNode.Lib.Words
