import Mathlib.Algebra.BigOperators.Group.List.Basic
import Mathlib.Algebra.Order.BigOperators.Group.List
import Mathlib.Algebra.Order.Field.Basic
import Mathlib.Algebra.BigOperators.Ring.List
import Mathlib.Data.Rat.Cast.Order
import Mathlib.Tactic.Positivity
import Mathlib.Tactic.Ring

/-!
# Lists of texts, weighed

`weigh symbol base texts` gives each text the weight `base⁻¹ ^ n`, where `n` counts
a symbol in it. Texts put together in every way weigh the product
(`weigh_product`), and for a large base a text with one symbol more weighs as
little as we like.
-/

namespace TsonicNode.Lib

variable {α β : Type} [DecidableEq α]

def weigh (symbol : α) (base : ℚ) (texts : List (List α)) : ℚ :=
  (texts.map fun text => base⁻¹ ^ text.count symbol).sum

variable {symbol : α} {base : ℚ}

theorem weigh_nil : weigh symbol base [] = 0 := rfl

theorem weigh_cons (text : List α) (texts : List (List α)) :
    weigh symbol base (text :: texts) = base⁻¹ ^ text.count symbol + weigh symbol base texts := by
  simp [weigh]

theorem weigh_append (texts texts' : List (List α)) :
    weigh symbol base (texts ++ texts') = weigh symbol base texts + weigh symbol base texts' := by
  simp [weigh]

theorem weigh_flatMap (l : List β) (f : β → List (List α)) :
    weigh symbol base (l.flatMap f) = (l.map fun x => weigh symbol base (f x)).sum := by
  induction l with
  | nil => rfl
  | cons x l ih => rw [List.flatMap_cons, weigh_append, ih, List.map_cons, List.sum_cons]

theorem weigh_behind (front : List α) (texts : List (List α)) :
    weigh symbol base (texts.map (front ++ ·)) =
      base⁻¹ ^ front.count symbol * weigh symbol base texts := by
  induction texts with
  | nil => simp [weigh_nil]
  | cons text texts ih =>
    rw [List.map_cons, weigh_cons, ih, weigh_cons, List.count_append, pow_add]
    ring

theorem weigh_perm {texts texts' : List (List α)} (h : texts.Perm texts') :
    weigh symbol base texts = weigh symbol base texts' :=
  (h.map _).sum_eq

/-- Texts put together in every way. -/
theorem weigh_product (fronts texts : List (List α)) :
    weigh symbol base (fronts.flatMap fun front => texts.map (front ++ ·)) =
      weigh symbol base fronts * weigh symbol base texts := by
  simp only [weigh_flatMap, weigh_behind, List.sum_map_mul_right]
  rfl

theorem weigh_nonneg (hbase : 0 < base) (texts : List (List α)) : 0 ≤ weigh symbol base texts := by
  refine List.sum_nonneg fun weight hweight => ?_
  obtain ⟨text, -, rfl⟩ := List.mem_map.mp hweight
  positivity

theorem weigh_pos (hbase : 0 < base) {texts : List (List α)} (h : texts ≠ []) :
    0 < weigh symbol base texts := by
  obtain ⟨text, texts, rfl⟩ := List.exists_cons_of_ne_nil h
  rw [weigh_cons]
  have := @weigh_nonneg _ _ symbol _ hbase texts
  positivity

/-- Each front in front of texts of its own, none of which weigh more than `weight`. -/
theorem weigh_fronts_le (hbase : 0 < base) {fronts : List (List α)} {texts : List α → List (List α)}
    {weight : ℚ} (h : ∀ front ∈ fronts, weigh symbol base (texts front) ≤ weight) :
    weigh symbol base (fronts.flatMap fun front => (texts front).map (front ++ ·)) ≤
      weigh symbol base fronts * weight := by
  rw [weigh_flatMap, weigh, ← List.sum_map_mul_right]
  refine List.sum_le_sum fun front hfront => ?_
  rw [weigh_behind]
  exact mul_le_mul_of_nonneg_left (h front hfront) (by positivity)

theorem weigh_fronts_lt (hbase : 0 < base) {fronts : List (List α)} {texts : List α → List (List α)}
    {weight : ℚ} (h : ∀ front ∈ fronts, weigh symbol base (texts front) ≤ weight)
    (hless : ∃ front ∈ fronts, weigh symbol base (texts front) < weight) :
    weigh symbol base (fronts.flatMap fun front => (texts front).map (front ++ ·)) <
      weigh symbol base fronts * weight := by
  rw [weigh_flatMap, weigh, ← List.sum_map_mul_right]
  obtain ⟨front, hfront, hless⟩ := hless
  refine List.sum_lt_sum _ _ (fun front hfront => ?_) ⟨front, hfront, ?_⟩
  · rw [weigh_behind]
    exact mul_le_mul_of_nonneg_left (h front hfront) (by positivity)
  · rw [weigh_behind]
    exact mul_lt_mul_of_pos_left hless (by positivity)

theorem weigh_le_length (hbase : 1 ≤ base) (texts : List (List α)) :
    weigh symbol base texts ≤ texts.length := by
  induction texts with
  | nil => simp [weigh_nil]
  | cons text texts ih =>
    rw [weigh_cons, List.length_cons, Nat.cast_succ, add_comm]
    have hinv : 0 ≤ base⁻¹ := inv_nonneg.mpr (le_trans zero_le_one hbase)
    exact add_le_add ih (pow_le_one₀ hinv (inv_le_one_of_one_le₀ hbase))

end TsonicNode.Lib
