import Mathlib.Data.List.Induction
import Mathlib.Data.List.InsertIdx
import Mathlib.Data.List.Pairwise

/-!
# Insertion from behind

A list kept in order takes a new entry by counting down from its end past the
entries that belong after the new one (`settle`). The list stays in order and has
gained that entry only.
-/

namespace TsonicNode.Lib

variable {α : Type}

/-- The place reached from `n` by counting down while the entry before the place belongs after. -/
def settle (after : α → Bool) (l : List α) : Nat → Nat
  | 0 => 0
  | n + 1 => if (l[n]?).any after then settle after l n else n + 1

/-- The list with a new entry, past which go the entries at the end that belong after it. -/
def insertBehind (after : α → Bool) (entry : α) (l : List α) : List α :=
  l.insertIdx (settle after l l.length) entry

variable {after : α → Bool} {entry : α} {l : List α}

theorem settle_le (l : List α) (n : Nat) : settle after l n ≤ n := by
  induction n with
  | zero => exact Nat.le_refl 0
  | succ n ih =>
    unfold settle
    split
    · exact Nat.le_succ_of_le ih
    · exact Nat.le_refl (n + 1)

/-- What stands from there on is not looked at. -/
theorem settle_append (l : List α) (x : α) {n : Nat} (h : n ≤ l.length) :
    settle after (l ++ [x]) n = settle after l n := by
  induction n with
  | zero => rfl
  | succ n ih =>
    unfold settle
    rw [List.getElem?_append_left h, ih (Nat.le_of_succ_le h)]

theorem insertIdx_between (front back : List α) (entry : α) :
    (front ++ back).insertIdx front.length entry = front ++ entry :: back := by
  induction front with
  | nil => rfl
  | cons x front ih => rw [List.cons_append, List.length_cons, List.insertIdx_succ_cons, ih, List.cons_append]

/-- The place is behind what does not have to follow the entry and before what has to. -/
theorem settle_split (after : α → Bool) (l : List α) :
    ∃ front back, l = front ++ back ∧ settle after l l.length = front.length ∧
      (∀ x ∈ back, after x = true) ∧ ∀ x, front.getLast? = some x → after x = false := by
  induction l using List.reverseRecOn with
  | nil => exact ⟨[], [], rfl, rfl, by simp, by simp⟩
  | append_singleton l x ih =>
    have hstep : settle after (l ++ [x]) (l ++ [x]).length =
        if after x then settle after l l.length else l.length + 1 := by
      rw [List.length_append, List.length_singleton, settle, settle_append l x (Nat.le_refl _)]
      simp
    cases hx : after x with
    | false =>
      refine ⟨l ++ [x], [], by simp, by rw [hstep, hx]; simp, by simp, ?_⟩
      intro y hy
      rw [List.getLast?_concat] at hy
      cases hy
      exact hx
    | true =>
      obtain ⟨front, back, hl, hplace, hback, hfront⟩ := ih
      refine ⟨front, back ++ [x], by rw [hl, List.append_assoc], ?_, ?_, hfront⟩
      · rw [hstep, if_pos hx, hplace]
      · intro y hy
        rcases List.mem_append.mp hy with hy | hy
        · exact hback y hy
        · rw [List.mem_singleton.mp hy]
          exact hx

theorem insertBehind_perm (after : α → Bool) (entry : α) (l : List α) :
    (insertBehind after entry l).Perm (entry :: l) :=
  List.perm_insertIdx entry l (settle_le l l.length)

/-- A list in order stays in order. -/
theorem insertBehind_sorted {before : α → α → Prop} (htrans : ∀ x y z, before x y → before y z → before x z)
    (hafter : ∀ x, after x = true → before entry x) (hbefore : ∀ x, after x = false → before x entry)
    (h : l.Pairwise before) : (insertBehind after entry l).Pairwise before := by
  obtain ⟨front, back, rfl, hplace, hback, hfront⟩ := settle_split after l
  obtain ⟨hpairs, hrest, hcross⟩ := List.pairwise_append.mp h
  have hentry : ∀ x ∈ front, before x entry := by
    intro x hx
    induction front using List.reverseRecOn with
    | nil => cases hx
    | append_singleton front y _ =>
      have hy : before y entry := hbefore y (hfront y (List.getLast?_concat))
      rcases List.mem_append.mp hx with hx | hx
      · exact htrans x y entry ((List.pairwise_append.mp hpairs).2.2 x hx y (List.mem_singleton_self y)) hy
      · rw [List.mem_singleton.mp hx]
        exact hy
  unfold insertBehind
  rw [hplace, insertIdx_between, List.pairwise_append, List.pairwise_cons]
  refine ⟨hpairs, ⟨fun x hx => hafter x (hback x hx), hrest⟩, ?_⟩
  intro x hx y hy
  rcases List.mem_cons.mp hy with rfl | hy
  · exact hentry x hx
  · exact hcross x hx y hy

end TsonicNode.Lib
