import Mathlib.Order.Bounds.Basic

/-!
# Pieces one behind the other

A list of pieces is written one behind the other; `Starts` says where a piece
starts or the last one ends. Where every piece has one width these are its
multiples (`starts_uniform`); where a mark tells the first of a piece from the
others it tells the starts too (`starts_marked`).
-/

namespace TsonicNode.Lib

variable {α : Type} {pieces : List (List α)}

def Starts (pieces : List (List α)) (n : Nat) : Prop := ∃ k, n = (pieces.take k).flatten.length

theorem starts_zero (pieces : List (List α)) : Starts pieces 0 := ⟨0, rfl⟩

theorem starts_length (pieces : List (List α)) : Starts pieces pieces.flatten.length :=
  ⟨pieces.length, by rw [List.take_length]⟩

theorem Starts.le {n : Nat} (h : Starts pieces n) : n ≤ pieces.flatten.length := by
  obtain ⟨k, rfl⟩ := h
  conv_rhs => rw [← List.take_append_drop k pieces, List.flatten_append, List.length_append]
  exact Nat.le_add_right _ _

theorem starts_cons {piece : List α} {n : Nat} :
    Starts (piece :: pieces) n ↔ n = 0 ∨ ∃ m, Starts pieces m ∧ n = piece.length + m := by
  constructor
  · rintro ⟨k, rfl⟩
    cases k with
    | zero => exact .inl rfl
    | succ k =>
      refine .inr ⟨_, ⟨k, rfl⟩, ?_⟩
      rw [List.take_succ_cons, List.flatten_cons, List.length_append]
  · rintro (rfl | ⟨m, ⟨k, rfl⟩, rfl⟩)
    · exact starts_zero _
    · refine ⟨k + 1, ?_⟩
      rw [List.take_succ_cons, List.flatten_cons, List.length_append]

section
variable {width : Nat}

theorem length_uniform (h : ∀ piece ∈ pieces, piece.length = width) :
    pieces.flatten.length = pieces.length * width := by
  induction pieces with
  | nil => simp
  | cons piece pieces ih =>
    rw [List.flatten_cons, List.length_append, h piece List.mem_cons_self,
      ih fun other hother => h other (List.mem_cons_of_mem _ hother), List.length_cons, Nat.succ_mul, Nat.add_comm]

/-- Pieces of one width start at its multiples. -/
theorem starts_uniform (h : ∀ piece ∈ pieces, piece.length = width) {n : Nat} :
    Starts pieces n ↔ width ∣ n ∧ n ≤ pieces.flatten.length := by
  constructor
  · intro hstart
    refine ⟨?_, hstart.le⟩
    obtain ⟨k, rfl⟩ := hstart
    rw [length_uniform fun piece hpiece => h piece (List.mem_of_mem_take hpiece)]
    exact Nat.dvd_mul_left _ _
  · rintro ⟨⟨k, rfl⟩, hle⟩
    refine ⟨k, ?_⟩
    rw [length_uniform h] at hle
    rw [length_uniform fun piece hpiece => h piece (List.mem_of_mem_take hpiece), List.length_take]
    rcases Nat.eq_zero_or_pos width with rfl | hwidth
    · simp
    · rw [Nat.mul_comm] at hle
      rw [Nat.min_eq_left (Nat.le_of_mul_le_mul_right hle hwidth), Nat.mul_comm]

/-- The last one up to a limit. -/
theorem greatest_uniform (hwidth : 0 < width) (h : ∀ piece ∈ pieces, piece.length = width) {limit : Nat}
    (hlimit : limit ≤ pieces.flatten.length) :
    IsGreatest {n | n ≤ limit ∧ Starts pieces n} (limit - limit % width) := by
  refine ⟨⟨Nat.sub_le _ _, (starts_uniform h).mpr ⟨Nat.dvd_sub_mod limit, ?_⟩⟩, ?_⟩
  · exact (Nat.sub_le _ _).trans hlimit
  · rintro n ⟨hn, hstart⟩
    obtain ⟨k, rfl⟩ := ((starts_uniform h).mp hstart).1
    have hdivide := Nat.div_add_mod limit width
    have hk : k ≤ limit / width := (Nat.le_div_iff_mul_le hwidth).mpr (by rwa [Nat.mul_comm])
    have := Nat.mul_le_mul_left width hk
    omega

end

/-- The first of a piece without the mark, the others with it. -/
def Marked (mark : α → Bool) (piece : List α) : Prop :=
  ∃ first rest, piece = first :: rest ∧ mark first = false ∧ ∀ a ∈ rest, mark a = true

/-- What has no mark starts a piece. -/
theorem starts_marked {mark : α → Bool} (h : ∀ piece ∈ pieces, Marked mark piece) {n : Nat} {a : α}
    (ha : pieces.flatten[n]? = some a) : Starts pieces n ↔ mark a = false := by
  induction pieces generalizing n with
  | nil => cases ha
  | cons piece pieces ih =>
    obtain ⟨first, rest, rfl, hfirst, hrest⟩ := h piece List.mem_cons_self
    have ih := @ih fun other hother => h other (List.mem_cons_of_mem _ hother)
    rw [List.flatten_cons, List.getElem?_append] at ha
    rw [starts_cons]
    by_cases hin : n < (first :: rest).length
    · rw [if_pos hin] at ha
      cases n with
      | zero =>
        obtain rfl : first = a := Option.some.inj ha
        simp [hfirst]
      | succ n =>
        -- within the piece
        have hmark : mark a = true := hrest a (List.mem_of_getElem? ha)
        rw [hmark]
        refine iff_of_false ?_ Bool.true_eq_false.mp
        rintro (hn | ⟨m, -, hn⟩)
        · omega
        · omega
    · rw [if_neg hin] at ha
      rw [← ih ha]
      constructor
      · rintro (hn | ⟨m, hm, hn⟩)
        · rw [List.length_cons] at hin
          omega
        · have hback : n - (first :: rest).length = m := by omega
          rw [hback]
          exact hm
      · intro hstart
        exact .inr ⟨_, hstart, by omega⟩

end TsonicNode.Lib
