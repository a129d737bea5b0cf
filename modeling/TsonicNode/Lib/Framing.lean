import Mathlib.Tactic.Common
import Mathlib.Algebra.Ring.Nat

/-!
# Frames in a byte stream

An encoding is self-delimiting when no encoded frame goes on as another; a
stream of such frames can be read in one way only (`frames_unique`).
`leBytes` and `leValue` are the little-endian bytes of a number.
-/

namespace TsonicNode.Lib

/-! ## Self-delimiting encodings -/

section
variable {φ β : Type}

/-- Frames in `Ok` that start the same stream are equal, and none is encoded by nothing. -/
structure SelfDelimiting (encode : φ → List β) (Ok : φ → Prop) : Prop where
  eq : ∀ {f g : φ} {x y : List β}, Ok f → Ok g → encode f ++ x = encode g ++ y → f = g
  ne_nil : ∀ f : φ, encode f ≠ []

/-- Frames read from the start of a stream are the frames written to it, in their order. -/
theorem frames_unique {encode : φ → List β} {Ok : φ → Prop} (h : SelfDelimiting encode Ok)
    {read written : List φ} {rest : List β} (hread : ∀ f ∈ read, Ok f)
    (hwritten : ∀ f ∈ written, Ok f)
    (heq : read.flatMap encode ++ rest = written.flatMap encode) :
    ∃ later, written = read ++ later ∧ rest = later.flatMap encode := by
  induction read generalizing written with
  | nil => exact ⟨written, rfl, by simpa using heq⟩
  | cons f read ih =>
    cases written with
    | nil =>
      have hnil : encode f = [] := by
        simp only [List.flatMap_cons, List.flatMap_nil, List.append_eq_nil_iff] at heq
        exact heq.1.1
      exact absurd hnil (h.ne_nil f)
    | cons g written =>
      simp only [List.flatMap_cons, List.append_assoc] at heq
      obtain rfl := h.eq (hread f (by simp)) (hwritten g (by simp)) heq
      obtain ⟨later, hlater, hrest⟩ := ih (fun k hk => hread k (by simp [hk]))
        (fun k hk => hwritten k (by simp [hk])) (List.append_cancel_left heq)
      exact ⟨later, by rw [hlater, List.cons_append], hrest⟩

end

/-! ## Little-endian numbers -/

/-- The lowest `n` bytes of a number, the lowest first. -/
def leBytes : Nat → Nat → List UInt8
  | 0, _ => []
  | n + 1, value => UInt8.ofNat value :: leBytes n (value / 256)

def leValue : List UInt8 → Nat
  | [] => 0
  | b :: bs => b.toNat + 256 * leValue bs

theorem leBytes_length (n value : Nat) : (leBytes n value).length = n := by
  induction n generalizing value with
  | zero => rfl
  | succ n ih => simp only [leBytes, List.length_cons, ih]

theorem leValue_leBytes {n value : Nat} (h : value < 256 ^ n) :
    leValue (leBytes n value) = value := by
  induction n generalizing value with
  | zero =>
    simp only [Nat.pow_zero, Nat.lt_one_iff] at h
    rw [h]
    rfl
  | succ n ih =>
    have hdiv : value / 256 < 256 ^ n := by
      rw [Nat.pow_succ] at h
      exact Nat.div_lt_of_lt_mul (by rwa [Nat.mul_comm])
    simp only [leBytes, leValue, ih hdiv, UInt8.toNat_ofNat']
    omega

theorem leBytes_leValue (bs : List UInt8) : leBytes bs.length (leValue bs) = bs := by
  induction bs with
  | nil => rfl
  | cons b bs ih =>
    have hb : b.toNat < 256 := b.toNat_lt
    have hhead : UInt8.ofNat (b.toNat + 256 * leValue bs) = b := by
      apply UInt8.toNat.inj
      rw [UInt8.toNat_ofNat']
      omega
    have htail : (b.toNat + 256 * leValue bs) / 256 = leValue bs := by omega
    simp only [List.length_cons, leBytes, leValue, hhead, htail, ih]

/-- Setting bits above the ones in use adds. -/
theorem or_shiftLeft {value i : Nat} (h : value < 2 ^ i) (b : Nat) :
    value ||| b <<< i = value + b * 2 ^ i := by
  have key := Nat.two_pow_add_eq_or_of_lt h b
  rw [Nat.shiftLeft_eq, Nat.or_comm, Nat.mul_comm b, ← key, Nat.add_comm]

end TsonicNode.Lib
