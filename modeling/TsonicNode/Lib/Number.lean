import Mathlib.Algebra.Order.Floor.Ring
import Mathlib.Data.Rat.Floor

/-!
# Numbers of the source language

A `Number` is what a double stands for: no number, an infinity, or a rational.
`truncate` drops the fraction, `toUint32` reads a number modulo 4294967296.
-/

namespace TsonicNode.Lib

inductive Number where
  | nan
  | infinity (negative : Bool)
  | finite (value : ℚ)
  deriving DecidableEq

/-- Towards zero. -/
def truncate (value : ℚ) : ℤ := if value < 0 then ⌈value⌉ else ⌊value⌋

theorem truncate_of_nonneg {value : ℚ} (h : 0 ≤ value) : truncate value = ⌊value⌋ :=
  if_neg (not_lt.mpr h)

theorem truncate_natCast (n : Nat) : truncate n = n := by
  rw [truncate_of_nonneg (Nat.cast_nonneg n)]
  exact Int.floor_natCast n

theorem truncate_intCast (n : ℤ) : truncate n = n := by
  unfold truncate
  rw [Int.ceil_intCast, Int.floor_intCast, ite_self]

theorem truncate_le {v w : ℚ} (hle : v ≤ w) : truncate v ≤ truncate w := by
  unfold truncate
  by_cases hv : v < 0
  · rw [if_pos hv]
    by_cases hw : w < 0
    · rw [if_pos hw]
      exact Int.ceil_le_ceil hle
    · rw [if_neg hw]
      have hceil : ⌈v⌉ ≤ 0 := Int.ceil_le.mpr (by exact_mod_cast hv.le)
      exact hceil.trans (Int.floor_nonneg.mpr (not_lt.mp hw))
  · have hw : ¬ w < 0 := not_lt.mpr ((not_lt.mp hv).trans hle)
    rw [if_neg hv, if_neg hw]
    exact Int.floor_le_floor hle

/-- A number cut to whole bounds is cut to them without its fraction. -/
theorem truncate_clamp (value : ℚ) (low high : ℤ) :
    truncate (min (max value low) high) = min (max (truncate value) low) high := by
  have hmono : Monotone truncate := fun _ _ => truncate_le
  rw [hmono.map_min, hmono.map_max, truncate_intCast, truncate_intCast]

namespace Number

instance (n : Nat) : OfNat Number n := ⟨.finite n⟩

def plus : Number → Nat → Number
  | .finite value, n => .finite (value + n)
  | value, _ => value

@[simp] theorem natCast_plus (m n : Nat) : (finite m).plus n = finite (m + n : Nat) := by
  unfold plus
  rw [Nat.cast_add]

/-- `source_number_to_uint32`. -/
def toUint32 : Number → Nat
  | .finite value => (truncate value % 4294967296).toNat
  | _ => 0

/-- The number, if it lies between two bounds. -/
def between (low high : ℚ) : Number → Option ℚ
  | .finite value => if low ≤ value ∧ value ≤ high then some value else none
  | _ => none

theorem between_spec {low high value : ℚ} {number : Number} (h : number.between low high = some value) :
    number = .finite value ∧ low ≤ value ∧ value ≤ high := by
  unfold between at h
  split at h
  · split_ifs at h with hbounds
    cases h
    exact ⟨rfl, hbounds⟩
  · cases h

/-- Half of a size read modulo 4294967296 is no more than the size. -/
theorem toUint32_le {value : ℚ} (h : 0 ≤ value) : (Number.finite value).toUint32 ≤ (truncate value).toNat := by
  have hpos : 0 ≤ truncate value := by
    rw [truncate_of_nonneg h]
    exact Int.floor_nonneg.mpr h
  show (truncate value % 4294967296).toNat ≤ _
  omega

end Number

end TsonicNode.Lib
