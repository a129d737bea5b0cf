import Mathlib.Data.List.Basic

/-!
# Totals over a list

`total worth xs` adds up what the members of a list are worth; it follows one
member that is replaced (`total_set`) and is compared member by member.
-/

namespace TsonicNode.Lib

variable {α : Type} {f g : α → Nat}

def total (worth : α → Nat) : List α → Nat
  | [] => 0
  | x :: xs => worth x + total worth xs

@[simp] theorem total_nil : total f [] = 0 := rfl

@[simp] theorem total_cons (x : α) (xs : List α) : total f (x :: xs) = f x + total f xs := rfl

@[simp] theorem total_append (xs ys : List α) : total f (xs ++ ys) = total f xs + total f ys := by
  induction xs with
  | nil => simp
  | cons x xs ih => rw [List.cons_append, total_cons, ih, total_cons, Nat.add_assoc]

theorem total_set {xs : List α} {i : Nat} {x : α} (h : xs[i]? = some x) (y : α) :
    total f (xs.set i y) + f x = total f xs + f y := by
  induction xs generalizing i with
  | nil => simp at h
  | cons z xs ih =>
    cases i with
    | zero =>
      obtain rfl : z = x := by simpa using h
      simp only [List.set_cons_zero, total_cons]
      omega
    | succ i =>
      have := ih (i := i) (by simpa using h)
      simp only [List.set_cons_succ, total_cons]
      omega

theorem le_total {xs : List α} {x : α} (h : x ∈ xs) : f x ≤ total f xs := by
  induction xs with
  | nil => cases h
  | cons z xs ih =>
    rw [total_cons]
    rcases List.mem_cons.mp h with rfl | h
    · omega
    · have := ih h
      omega

/-- Two members. -/
theorem add_le_total {xs : List α} {i j : Nat} {x y : α} (hx : xs[i]? = some x) (hy : xs[j]? = some y) (hlt : i < j) :
    f x + f y ≤ total f xs := by
  induction xs generalizing i j with
  | nil => simp at hx
  | cons z xs ih =>
    obtain ⟨j, rfl⟩ := Nat.exists_eq_succ_of_ne_zero (Nat.ne_zero_of_lt hlt)
    rw [List.getElem?_cons_succ] at hy
    rw [total_cons]
    cases i with
    | zero =>
      obtain rfl : z = x := by simpa using hx
      have := @le_total _ f _ _ (List.mem_of_getElem? hy)
      omega
    | succ i =>
      have := ih (List.getElem?_cons_succ ▸ hx) hy (Nat.lt_of_succ_lt_succ hlt)
      omega

theorem total_le {xs : List α} (h : ∀ x ∈ xs, f x ≤ g x) : total f xs ≤ total g xs := by
  induction xs with
  | nil => exact Nat.le_refl 0
  | cons z xs ih =>
    have hz := h z List.mem_cons_self
    have hxs := ih fun x hx => h x (List.mem_cons_of_mem z hx)
    simp only [total_cons]
    omega

theorem total_add (xs : List α) : total (fun x => f x + g x) xs = total f xs + total g xs := by
  induction xs with
  | nil => rfl
  | cons z xs ih =>
    simp only [total_cons, ih]
    omega

theorem total_mul (c : Nat) (xs : List α) : total (fun x => c * f x) xs = c * total f xs := by
  induction xs with
  | nil => rfl
  | cons z xs ih => rw [total_cons, ih, total_cons, Nat.mul_add]

theorem total_eq_zero {xs : List α} (h : ∀ x ∈ xs, f x = 0) : total f xs = 0 := by
  induction xs with
  | nil => rfl
  | cons z xs ih =>
    rw [total_cons, h z List.mem_cons_self, ih fun x hx => h x (List.mem_cons_of_mem z hx)]

end TsonicNode.Lib
