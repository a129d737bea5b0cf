import Mathlib.Data.List.Basic

/-!
# Digits of six bits

`unpack` writes bytes as digits of six bits, three bytes as four digits; `pack`
reads them back. What is left of fewer than eight bits makes no byte.
-/

namespace TsonicNode.Lib

def pack : List Nat → List UInt8
  | a :: b :: c :: d :: rest =>
    UInt8.ofNat (a * 4 + b / 16) :: UInt8.ofNat (b % 16 * 16 + c / 4) :: UInt8.ofNat (c % 4 * 64 + d) ::
      pack rest
  | [a, b, c] => [UInt8.ofNat (a * 4 + b / 16), UInt8.ofNat (b % 16 * 16 + c / 4)]
  | [a, b] => [UInt8.ofNat (a * 4 + b / 16)]
  | _ => []

def unpack : List UInt8 → List Nat
  | [] => []
  | [a] => [a.toNat / 4, a.toNat % 4 * 16]
  | [a, b] => [a.toNat / 4, a.toNat % 4 * 16 + b.toNat / 16, b.toNat % 16 * 4]
  | a :: b :: c :: rest =>
    a.toNat / 4 :: (a.toNat % 4 * 16 + b.toNat / 16) :: (b.toNat % 16 * 4 + c.toNat / 64) ::
      c.toNat % 64 :: unpack rest

theorem length_pack (digits : List Nat) : (pack digits).length = digits.length * 3 / 4 := by
  fun_induction pack digits with
  | case1 a b c d rest ih =>
    simp only [List.length_cons, ih]
    omega
  | case2 | case3 => simp
  | case4 digits hfour hthree htwo =>
    rcases digits with _ | ⟨a, _ | ⟨b, _ | ⟨c, _ | ⟨d, rest⟩⟩⟩⟩
    · simp
    · simp
    · exact absurd rfl (htwo a b)
    · exact absurd rfl (hthree a b c)
    · exact absurd rfl (hfour a b c d rest)

theorem length_unpack (bytes : List UInt8) : (unpack bytes).length = (bytes.length * 4 + 2) / 3 := by
  fun_induction unpack bytes with
  | case1 | case2 | case3 => simp
  | case4 a b c rest ih =>
    simp only [List.length_cons, ih]
    omega

theorem unpack_lt (bytes : List UInt8) : ∀ digit ∈ unpack bytes, digit < 64 := by
  fun_induction unpack bytes with
  | case1 => exact fun _ h => absurd h List.not_mem_nil
  | case2 a =>
    have ha := a.toNat_lt
    simp only [List.mem_cons, List.not_mem_nil, or_false, forall_eq_or_imp, forall_eq]
    omega
  | case3 a b =>
    have ha := a.toNat_lt
    have hb := b.toNat_lt
    simp only [List.mem_cons, List.not_mem_nil, or_false, forall_eq_or_imp, forall_eq]
    omega
  | case4 a b c rest ih =>
    have ha := a.toNat_lt
    have hb := b.toNat_lt
    have hc := c.toNat_lt
    simp only [List.mem_cons, forall_eq_or_imp]
    exact ⟨by omega, by omega, by omega, by omega, ih⟩

/-- The value of a byte from its parts. -/
theorem ofNat_eq {a : UInt8} {n : Nat} (h : n = a.toNat) : UInt8.ofNat n = a := by
  rw [h, UInt8.ofNat_toNat]

theorem pack_unpack (bytes : List UInt8) : pack (unpack bytes) = bytes := by
  fun_induction unpack bytes with
  | case1 => rfl
  | case2 a =>
    show [UInt8.ofNat (a.toNat / 4 * 4 + a.toNat % 4 * 16 / 16)] = [a]
    rw [ofNat_eq (a := a) (by omega)]
  | case3 a b =>
    have hb := b.toNat_lt
    show [UInt8.ofNat (a.toNat / 4 * 4 + (a.toNat % 4 * 16 + b.toNat / 16) / 16),
      UInt8.ofNat ((a.toNat % 4 * 16 + b.toNat / 16) % 16 * 16 + b.toNat % 16 * 4 / 4)] = [a, b]
    rw [ofNat_eq (a := a) (by omega), ofNat_eq (a := b) (by omega)]
  | case4 a b c rest ih =>
    have hb := b.toNat_lt
    have hc := c.toNat_lt
    rw [pack, ih, ofNat_eq (a := a) (by omega), ofNat_eq (a := b) (by omega), ofNat_eq (a := c) (by omega)]

end TsonicNode.Lib
