import Mathlib.Data.Int.CardIntervalMod
import Mathlib.Data.Set.Card
import TsonicNode.Lib.Number
import TsonicNode.Runtime

/-!
# Random integers

`random_int` draws raw values of 64 bits until one is below `limit`, the greatest
multiple of the width that does not exceed the highest raw value, and takes its
remainder. The calls of `tsonic_node_random_bytes` are a list of what they deliver.
-/

namespace TsonicNode.Crypto

open TsonicNode.Lib

/-! ## The model -/

/-- An integer as a double: of more than 53 bits it goes to the nearest, from halfway to an even one. -/
def float64 (value : Int64) : ℚ :=
  let magnitude := value.toInt.natAbs
  let unit := 2 ^ (magnitude.log2 - 52)
  let low := magnitude / unit
  let rest := magnitude % unit
  let rounded := if 2 * rest > unit ∨ 2 * rest = unit ∧ low % 2 = 1 then low + 1 else low
  ((value.toInt.sign * (rounded * unit : Nat) : ℤ) : ℚ)

def highest : UInt64 := ~~~0

def limit (width : UInt64) : UInt64 := highest - highest % width

def widthOf (first last : Int64) : UInt64 := (last - first).toUInt64

/-- The bounds of `random_int`, checked. -/
def bounds (minimum maximum : Number) : Except Error (Int64 × Int64) :=
  match minimum, maximum with
  | .finite minimum, .finite maximum =>
    if !(minimum ≥ -9007199254740991 ∧ maximum ≤ 9007199254740991 ∧ maximum > minimum) then
      .error ⟨"Random integer bounds must be ordered safe integers"⟩
    else
      let first := Int64.ofInt (truncate minimum)
      let last := Int64.ofInt (truncate maximum)
      if float64 first ≠ minimum ∨ float64 last ≠ maximum then .error ⟨"Random integer bounds must be integers"⟩
      else if widthOf first last ≥ (1 : UInt64) <<< 48 then .error ⟨"Random integer range must be smaller than 2**48"⟩
      else .ok (first, last)
  -- a comparison with no number is false, and an infinity is not between the bounds
  | _, _ => .error ⟨"Random integer bounds must be ordered safe integers"⟩

/-- What an accepted raw value becomes. -/
def sample (first : Int64) (width value : UInt64) : Int64 := first + (value % width).toInt64

/-- The loop of `random_int`; a failed call delivers nothing. It has no outcome while every raw value is rejected. -/
def draw (first : Int64) (width : UInt64) : List (Option UInt64) → Option (Except Error ℚ)
  | [] => none
  | none :: _ => some (.error ⟨"Unable to obtain cryptographically secure random bytes"⟩)
  | some value :: calls =>
    if value < limit width then some (.ok (float64 (sample first width value))) else draw first width calls

def randomInt (minimum maximum : Number) (calls : List (Option UInt64)) : Option (Except Error ℚ) :=
  match bounds minimum maximum with
  | .error error => some (.error error)
  | .ok (first, last) => draw first (widthOf first last) calls

/-! ## Bounds -/

/-- Safe integers are doubles. -/
theorem float64_safe {value : Int64} (h : value.toInt.natAbs < 2 ^ 53) : float64 value = value.toInt := by
  have hunit : value.toInt.natAbs.log2 - 52 = 0 := by
    by_cases hzero : value.toInt.natAbs = 0
    · rw [hzero]
      rfl
    · have := (Nat.log2_lt hzero).mpr h
      omega
  have hround : ¬ (2 * (value.toInt.natAbs % 1) > 1 ∨ 2 * (value.toInt.natAbs % 1) = 1 ∧
      value.toInt.natAbs / 1 % 2 = 1) := by omega
  unfold float64
  dsimp only
  rw [hunit, pow_zero, if_neg hround, Nat.div_one, Nat.mul_one, Int.sign_mul_natAbs]

/-- What `random_int` computes with after its checks. -/
structure Admitted (minimum maximum : Number) (first last : Int64) : Prop where
  minimum : minimum = .finite first.toInt
  maximum : maximum = .finite last.toInt
  low : -9007199254740991 ≤ first.toInt
  high : last.toInt ≤ 9007199254740991
  ordered : first.toInt < last.toInt
  /-- The width is not wrapped. -/
  width : ((widthOf first last).toNat : ℤ) = last.toInt - first.toInt
  small : (widthOf first last).toNat < 2 ^ 48

theorem difference_toInt {first last : Int64} (hlow : -9007199254740991 ≤ first.toInt)
    (hhigh : last.toInt ≤ 9007199254740991) (hle : first.toInt ≤ last.toInt) :
    (last - first).toInt = last.toInt - first.toInt := by
  rw [Int64.toInt_sub]
  exact Int.bmod_eq_of_le (by omega) (by omega)

theorem widthOf_toNat {first last : Int64} (hlow : -9007199254740991 ≤ first.toInt)
    (hhigh : last.toInt ≤ 9007199254740991) (hle : first.toInt ≤ last.toInt) :
    ((widthOf first last).toNat : ℤ) = last.toInt - first.toInt := by
  have hsub := difference_toInt hlow hhigh hle
  have hpos : 0 ≤ last - first := by
    rw [Int64.le_iff_toInt_le, hsub]
    show (0 : ℤ) ≤ _
    omega
  unfold widthOf
  rw [Int64.toNat_toUInt64_of_le hpos, ← hsub, Int64.toNatClampNeg]
  have := Int64.le_iff_toInt_le.mp hpos
  exact Int.toNat_of_nonneg this

/-- A bound between the safe integers is converted without loss. -/
theorem convert_toInt {value : ℚ} (hlow : -9007199254740991 ≤ value) (hhigh : value ≤ 9007199254740991) :
    -9007199254740991 ≤ (Int64.ofInt (truncate value)).toInt ∧
      (Int64.ofInt (truncate value)).toInt ≤ 9007199254740991 := by
  have hlow' : truncate (-9007199254740991 : ℤ) ≤ truncate value := truncate_le (by exact_mod_cast hlow)
  have hhigh' : truncate value ≤ truncate (9007199254740991 : ℤ) := truncate_le (by exact_mod_cast hhigh)
  rw [truncate_intCast] at hlow' hhigh'
  rw [Int64.toInt_ofInt_of_le (by omega) (by omega)]
  exact ⟨hlow', hhigh'⟩

theorem bounds_admitted {minimum maximum : Number} {first last : Int64}
    (h : bounds minimum maximum = .ok (first, last)) : Admitted minimum maximum first last := by
  cases minimum with
  | nan => cases h
  | infinity negative => cases h
  | finite minimum =>
    cases maximum with
    | nan => cases h
    | infinity negative => cases h
    | finite maximum =>
      unfold bounds at h
      dsimp only at h
      split_ifs at h with hordered hinteger hwidth
      cases h
      obtain ⟨hmin, hmax, hlt⟩ : -9007199254740991 ≤ minimum ∧ maximum ≤ 9007199254740991 ∧ minimum < maximum := by
        simpa using hordered
      obtain ⟨hfirst, hlast⟩ := not_or.mp hinteger
      have hlow := convert_toInt hmin (hlt.le.trans hmax)
      have hhigh := convert_toInt (hmin.trans hlt.le) hmax
      rw [not_not, float64_safe (by omega)] at hfirst hlast
      have hle : (Int64.ofInt (truncate minimum)).toInt < (Int64.ofInt (truncate maximum)).toInt := by
        rw [← hfirst, ← hlast] at hlt
        exact_mod_cast hlt
      refine ⟨by rw [hfirst], by rw [hlast], hlow.1, hhigh.2, hle, widthOf_toNat hlow.1 hhigh.2 hle.le, ?_⟩
      exact UInt64.lt_iff_toNat_lt.mp (UInt64.not_le.mp hwidth)

/-- All safe integers less than 2 ^ 48 apart are admitted. -/
theorem bounds_integers {lower upper : ℤ} (hlow : -9007199254740991 ≤ lower) (hhigh : upper ≤ 9007199254740991)
    (hlt : lower < upper) (hwidth : upper - lower < 2 ^ 48) :
    bounds (.finite lower) (.finite upper) = .ok (.ofInt lower, .ofInt upper) := by
  have hfirst : (Int64.ofInt lower).toInt = lower := Int64.toInt_ofInt_of_le (by omega) (by omega)
  have hlast : (Int64.ofInt upper).toInt = upper := Int64.toInt_ofInt_of_le (by omega) (by omega)
  have hordered : (lower : ℚ) ≥ -9007199254740991 ∧ (upper : ℚ) ≤ 9007199254740991 ∧ (upper : ℚ) > lower := by
    exact_mod_cast And.intro hlow (And.intro hhigh hlt)
  have hintegers : ¬ (float64 (.ofInt lower) ≠ lower ∨ float64 (.ofInt upper) ≠ upper) := by
    rw [float64_safe (by omega), float64_safe (by omega), hfirst, hlast]
    simp
  have hsmall : ¬ widthOf (.ofInt lower) (.ofInt upper) ≥ (1 : UInt64) <<< 48 := by
    have htoNat : ((widthOf (.ofInt lower) (.ofInt upper)).toNat : ℤ) = _ :=
      widthOf_toNat (by omega) (by omega) (by omega)
    rw [ge_iff_le, UInt64.le_iff_toNat_le]
    show ¬ 2 ^ 48 ≤ _
    omega
  unfold bounds
  dsimp only
  rw [truncate_intCast, truncate_intCast, if_neg hintegers, if_neg hsmall, if_neg]
  rw [decide_eq_true hordered]
  simp

/-! ## Raw values -/

namespace Admitted

variable {minimum maximum : Number} {first last : Int64}

theorem width_pos (h : Admitted minimum maximum first last) : 0 < (widthOf first last).toNat := by
  have hwidth := h.width
  have hordered := h.ordered
  omega

end Admitted

theorem limit_toNat (width : UInt64) : (limit width).toNat = highest.toNat - highest.toNat % width.toNat := by
  have hle : highest % width ≤ highest := by
    rw [UInt64.le_iff_toNat_le, UInt64.toNat_mod]
    exact Nat.mod_le _ _
  unfold limit
  rw [UInt64.toNat_sub_of_le _ _ hle, UInt64.toNat_mod]

theorem highest_toNat : highest.toNat = 2 ^ 64 - 1 := rfl

/-- The limit is a multiple of the width. -/
theorem limit_eq_mul (width : UInt64) : (limit width).toNat = width.toNat * (highest.toNat / width.toNat) := by
  have hdiv := Nat.div_add_mod highest.toNat width.toNat
  rw [limit_toNat]
  omega

/-- What is added to the lower bound. -/
theorem offset_toInt {width value : UInt64} (hpos : 0 < width.toNat) (hsmall : width.toNat < 2 ^ 48) :
    (value % width).toInt64.toInt = value.toNat % width.toNat := by
  have hlt : value.toNat % width.toNat < width.toNat := Nat.mod_lt _ hpos
  have hmod : (value % width).toNat = value.toNat % width.toNat := UInt64.toNat_mod _ _
  rw [← Int64.toInt_toBitVec, UInt64.toBitVec_toInt64, BitVec.toInt_eq_toNat_of_lt]
  · show ((value % width).toNat : ℤ) = _
    rw [hmod]
    rfl
  · show 2 * (value % width).toNat < 2 ^ 64
    omega

/-- No integer of the computation is wrapped, whatever the raw value. -/
structure Exact (first last : Int64) : Prop where
  difference : (last - first).toInt = last.toInt - first.toInt
  width : ((widthOf first last).toNat : ℤ) = last.toInt - first.toInt
  /-- Nothing is divided by zero. -/
  positive : 0 < (widthOf first last).toNat
  limit : (limit (widthOf first last)).toNat = highest.toNat - highest.toNat % (widthOf first last).toNat
  offset : ∀ value : UInt64,
    (value % widthOf first last).toInt64.toInt = value.toNat % (widthOf first last).toNat
  sample : ∀ value : UInt64,
    (sample first (widthOf first last) value).toInt = first.toInt + value.toNat % (widthOf first last).toNat

theorem Admitted.exact {minimum maximum : Number} {first last : Int64} (h : Admitted minimum maximum first last) :
    Exact first last where
  difference := difference_toInt h.low h.high h.ordered.le
  width := h.width
  positive := h.width_pos
  limit := limit_toNat _
  offset _ := offset_toInt h.width_pos h.small
  sample value := by
    have hlt : value.toNat % (widthOf first last).toNat < (widthOf first last).toNat := Nat.mod_lt _ h.width_pos
    have hwidth := h.width
    have hlow := h.low
    have hhigh := h.high
    unfold Crypto.sample
    rw [Int64.toInt_add, offset_toInt h.width_pos h.small]
    exact Int.bmod_eq_of_le (by omega) (by omega)

/-- A raw value is taken to a safe integer between the bounds. -/
theorem Admitted.float64_sample {minimum maximum : Number} {first last : Int64}
    (h : Admitted minimum maximum first last) (value : UInt64) :
    float64 (sample first (widthOf first last) value) =
      ((first.toInt + value.toNat % (widthOf first last).toNat : ℤ) : ℚ) := by
  have hlt : value.toNat % (widthOf first last).toNat < (widthOf first last).toNat := Nat.mod_lt _ h.width_pos
  have hwidth := h.width
  have hlow := h.low
  have hhigh := h.high
  have hsample := h.exact.sample value
  rw [float64_safe (by omega), hsample]

/-! ## Counting raw values -/

theorem ncard_below (bound : UInt64) (P : Nat → Prop) [DecidablePred P] :
    {value : UInt64 | value < bound ∧ P value.toNat}.ncard = Nat.count P bound.toNat := by
  have himage : UInt64.toNat '' {value : UInt64 | value < bound ∧ P value.toNat} =
      ((Finset.range bound.toNat).filter P : Finset Nat) := by
    ext n
    simp only [Set.mem_image, Set.mem_ofPred_eq, Finset.coe_filter, Finset.mem_range]
    constructor
    · rintro ⟨value, ⟨hlt, hP⟩, rfl⟩
      exact ⟨UInt64.lt_iff_toNat_lt.mp hlt, hP⟩
    · rintro ⟨hlt, hP⟩
      have hvalue : (UInt64.ofNat n).toNat = n := UInt64.toNat_ofNat_of_lt' (Nat.lt_trans hlt bound.toNat_lt)
      refine ⟨.ofNat n, ⟨UInt64.lt_iff_toNat_lt.mpr (by rw [hvalue]; exact hlt), by rw [hvalue]; exact hP⟩, hvalue⟩
  have hinjective : Function.Injective UInt64.toNat := fun _ _ h => UInt64.toNat_inj.mp h
  rw [← Set.ncard_image_of_injective _ hinjective, himage, Set.ncard_coe_finset, Nat.count_eq_card_filter_range]

/-- Each remainder is that of equally many raw values below the limit. -/
theorem ncard_residue {width : UInt64} {r : Nat} (hr : r < width.toNat) :
    {value : UInt64 | value < limit width ∧ value.toNat % width.toNat = r}.ncard =
      highest.toNat / width.toNat := by
  have hpos : 0 < width.toNat := Nat.zero_lt_of_lt hr
  have hmod : (fun n => n % width.toNat = r) = fun n => n ≡ r [MOD width.toNat] := by
    funext n
    rw [Nat.ModEq, Nat.mod_eq_of_lt hr]
  rw [ncard_below (limit width) (fun n => n % width.toNat = r)]
  simp only [hmod]
  rw [Nat.count_modEq_card _ hpos, limit_eq_mul, Nat.mul_div_cancel_left _ hpos, Nat.mul_mod_right,
    if_neg (Nat.not_lt_zero _), Nat.add_zero]

theorem ncard_accepted (width : UInt64) : {value : UInt64 | value < limit width}.ncard = (limit width).toNat := by
  have hcount := ncard_below (limit width) fun _ => True
  rw [Nat.count_true] at hcount
  simpa using hcount

/-! ## Draws -/

theorem draw_some (first : Int64) (width value : UInt64) (calls : List (Option UInt64)) :
    draw first width (some value :: calls) =
      if value < limit width then some (.ok (float64 (sample first width value))) else draw first width calls := rfl

/-- A rejected raw value changes nothing. -/
theorem draw_cons (first : Int64) (width value : UInt64) (calls : List (Option UInt64)) :
    draw first width (some value :: calls) = (draw first width [some value]).or (draw first width calls) := by
  rw [draw_some, draw_some]
  split_ifs
  · rfl
  · rfl

theorem draw_ok {first : Int64} {width : UInt64} {calls : List (Option UInt64)} {result : ℚ}
    (h : draw first width calls = some (.ok result)) :
    ∃ value, value < limit width ∧ result = float64 (sample first width value) := by
  induction calls with
  | nil => cases h
  | cons call calls ih =>
    cases call with
    | none => cases h
    | some value =>
      unfold draw at h
      split_ifs at h with haccepted
      · cases h
        exact ⟨value, haccepted, rfl⟩
      · exact ih h

namespace Admitted

variable {minimum maximum : Number} {first last : Int64}

theorem draw_single (h : Admitted minimum maximum first last) (value : UInt64) :
    draw first (widthOf first last) [some value] =
      if value < limit (widthOf first last) then
        some (.ok ((first.toInt + value.toNat % (widthOf first last).toNat : ℤ) : ℚ)) else none := by
  rw [draw_some, h.float64_sample]
  rfl

/-- The raw values that yield an integer have its remainder. -/
theorem draw_single_eq (h : Admitted minimum maximum first last) {n : ℤ} (hlow : first.toInt ≤ n) (value : UInt64) :
    draw first (widthOf first last) [some value] = some (.ok (n : ℚ)) ↔
      value < limit (widthOf first last) ∧
        value.toNat % (widthOf first last).toNat = (n - first.toInt).toNat := by
  rw [h.draw_single]
  constructor
  · intro hvalue
    split_ifs at hvalue with haccepted
    have hn : first.toInt + value.toNat % (widthOf first last).toNat = n := by
      exact_mod_cast Except.ok.inj (Option.some.inj hvalue)
    exact ⟨haccepted, by omega⟩
  · rintro ⟨haccepted, hmod⟩
    have hn : first.toInt + value.toNat % (widthOf first last).toNat = n := by omega
    rw [if_pos haccepted, hn]

theorem draw_range (h : Admitted minimum maximum first last) {calls : List (Option UInt64)} {result : ℚ}
    (hresult : draw first (widthOf first last) calls = some (.ok result)) :
    ∃ n : ℤ, result = n ∧ first.toInt ≤ n ∧ n < last.toInt := by
  obtain ⟨value, -, rfl⟩ := draw_ok hresult
  have hlt : value.toNat % (widthOf first last).toNat < (widthOf first last).toNat := Nat.mod_lt _ h.width_pos
  have hwidth := h.width
  exact ⟨_, h.float64_sample value, by omega, by omega⟩

theorem ncard_result (h : Admitted minimum maximum first last) {n : ℤ} (hlow : first.toInt ≤ n)
    (hhigh : n < last.toInt) :
    {value : UInt64 | draw first (widthOf first last) [some value] = some (.ok (n : ℚ))}.ncard =
      highest.toNat / (widthOf first last).toNat := by
  have hwidth := h.width
  simp only [h.draw_single_eq hlow]
  exact ncard_residue (by omega)

theorem half_accepted (h : Admitted minimum maximum first last) :
    2 ^ 64 ≤ 2 * {value : UInt64 | (draw first (widthOf first last) [some value]).isSome}.ncard := by
  have hset : {value : UInt64 | (draw first (widthOf first last) [some value]).isSome} =
      {value : UInt64 | value < limit (widthOf first last)} := by
    ext value
    rw [Set.mem_ofPred_eq, Set.mem_ofPred_eq, h.draw_single]
    split_ifs with haccepted
    · simp [haccepted]
    · simp [haccepted]
  have hmod : highest.toNat % (widthOf first last).toNat < (widthOf first last).toNat := Nat.mod_lt _ h.width_pos
  have hsmall := h.small
  rw [hset, ncard_accepted, limit_toNat]
  rw [highest_toNat] at hmod ⊢
  omega

end Admitted

theorem randomInt_ok {minimum maximum : Number} {first last : Int64} (h : bounds minimum maximum = .ok (first, last))
    (calls : List (Option UInt64)) : randomInt minimum maximum calls = draw first (widthOf first last) calls := by
  unfold randomInt
  rw [h]

/-- For all bounds that `random_int` admits, each integer between them is the result of equally many
accepted raw values, and nothing else is a result; all safe integers less than 2 ^ 48 apart are admitted. -/
theorem random_int_uniform {minimum maximum : Number} {first last : Int64}
    (h : bounds minimum maximum = .ok (first, last)) :
    minimum = .finite first.toInt ∧ maximum = .finite last.toInt ∧ first.toInt < last.toInt ∧
    (∀ calls result, randomInt minimum maximum calls = some (.ok result) →
      ∃ n : ℤ, result = n ∧ first.toInt ≤ n ∧ n < last.toInt) ∧
    (∃ count > 0, ∀ n : ℤ, first.toInt ≤ n → n < last.toInt →
      {value : UInt64 | randomInt minimum maximum [some value] = some (.ok (n : ℚ))}.ncard = count) ∧
    2 ^ 64 ≤ 2 * {value : UInt64 | (randomInt minimum maximum [some value]).isSome}.ncard ∧
    (∀ value calls, randomInt minimum maximum (some value :: calls) =
      (randomInt minimum maximum [some value]).or (randomInt minimum maximum calls)) ∧
    Exact first last ∧
    ∀ lower upper : ℤ, -9007199254740991 ≤ lower → upper ≤ 9007199254740991 → lower < upper → upper - lower < 2 ^ 48 →
      bounds (.finite lower) (.finite upper) = .ok (.ofInt lower, .ofInt upper) := by
  have hadmitted := bounds_admitted h
  simp only [randomInt_ok h]
  refine ⟨hadmitted.minimum, hadmitted.maximum, hadmitted.ordered, ?_, ?_, hadmitted.half_accepted,
    draw_cons first (widthOf first last), hadmitted.exact, fun _ _ => bounds_integers⟩
  · intro calls result hresult
    exact hadmitted.draw_range hresult
  · have hsmall := hadmitted.small
    refine ⟨highest.toNat / (widthOf first last).toNat, Nat.div_pos ?_ hadmitted.width_pos, ?_⟩
    · rw [highest_toNat]
      omega
    · intro n hlow hhigh
      exact hadmitted.ncard_result hlow hhigh

/-- A die; the highest raw value is rejected. -/
theorem random_int_uniform_die :
    bounds 1 7 = .ok (1, 7) ∧ randomInt 1 7 [some highest, some 20] = some (.ok 3) ∧
    2 ^ 64 ≤ 2 * {value : UInt64 | (randomInt 1 7 [some value]).isSome}.ncard :=
  have h : bounds 1 7 = .ok (1, 7) := by decide +kernel
  ⟨h, by decide +kernel, (random_int_uniform h).2.2.2.2.2.1⟩

end TsonicNode.Crypto
