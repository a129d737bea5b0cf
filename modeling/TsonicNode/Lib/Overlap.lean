import Mathlib.Order.Bounds.Basic

/-!
# Overlaps of a pattern with a text

A pattern overlaps a text before a place by `k` items when its first `k` items
are the last `k` of the text there. The overlaps of a pattern with itself are
its borders. Of the overlaps at one place the shorter ones are the borders of
the longest, so the longest at the next place is found by going from border to
border until one goes on with the next item.
-/

namespace TsonicNode.Lib

variable {α : Type*}

/-- The first `k` items of the pattern are the last `k` of the text before `stop`, and none of these
stands before `start`. -/
def Overlap (pattern text : ℕ → α) (start stop k : ℕ) : Prop :=
  start + k ≤ stop ∧ ∀ d < k, text (stop - k + d) = pattern d

/-- An overlap of the first `m` items with themselves, shorter than `m`. -/
abbrev Border (pattern : ℕ → α) (m k : ℕ) : Prop := Overlap pattern pattern 1 m k

/-- The longest overlap of at most `limit` items. -/
def Longest (pattern text : ℕ → α) (start limit stop k : ℕ) : Prop :=
  IsGreatest {j | j ≤ limit ∧ Overlap pattern text start stop j} k

variable {pattern text : ℕ → α} {start stop limit m k j : ℕ}

@[simp] theorem overlap_zero : Overlap pattern text start stop 0 ↔ start ≤ stop := by
  constructor
  · intro h
    exact h.1
  · intro h
    exact ⟨h, fun d hd => absurd hd (Nat.not_lt_zero d)⟩

theorem overlap_succ : Overlap pattern text start (stop + 1) (k + 1) ↔
    Overlap pattern text start stop k ∧ text stop = pattern k := by
  constructor
  · rintro ⟨hle, hitems⟩
    have hlast := hitems k (Nat.lt_succ_self k)
    rw [show stop + 1 - (k + 1) + k = stop by omega] at hlast
    refine ⟨⟨by omega, fun d hd => ?_⟩, hlast⟩
    rw [show stop - k + d = stop + 1 - (k + 1) + d by omega]
    exact hitems d (by omega)
  · rintro ⟨⟨hle, hitems⟩, hlast⟩
    refine ⟨by omega, fun d hd => ?_⟩
    obtain hd | rfl := Nat.lt_succ_iff_lt_or_eq.mp hd
    · rw [show stop + 1 - (k + 1) + d = stop - k + d by omega]
      exact hitems d hd
    · rw [show stop + 1 - (d + 1) + d = stop by omega]
      exact hlast

/-- Of two overlaps the shorter is a border of the longer. -/
theorem Overlap.shorter (h : Overlap pattern text start stop m) (hk : k < m) :
    Overlap pattern text start stop k ↔ Border pattern m k := by
  obtain ⟨hle, hitems⟩ := h
  have hplace : ∀ d < k, text (stop - k + d) = pattern (m - k + d) := fun d hd => by
    have hd := hitems (m - k + d) (by omega)
    rwa [show stop - m + (m - k + d) = stop - k + d by omega] at hd
  constructor
  · rintro ⟨-, hshort⟩
    refine ⟨by omega, fun d hd => ?_⟩
    rw [← hplace d hd]
    exact hshort d hd
  · rintro ⟨-, hborder⟩
    refine ⟨by omega, fun d hd => ?_⟩
    rw [hplace d hd]
    exact hborder d hd

/-- Below an overlap the next is its longest border. -/
theorem Overlap.falls (h : Overlap pattern text start stop m) (hm : 0 < m)
    (hk : Longest pattern pattern 1 (m - 1) m k) :
    k < m ∧ Overlap pattern text start stop k ∧
      ∀ j < m, Overlap pattern text start stop j → j ≤ k := by
  obtain ⟨⟨hle, hborder⟩, hgreatest⟩ := hk
  have hlt : k < m := by omega
  refine ⟨hlt, (h.shorter hlt).mpr hborder, fun j hj hoverlap => ?_⟩
  exact hgreatest ⟨by omega, (h.shorter hj).mp hoverlap⟩

theorem Longest.below (h : Longest pattern text start limit stop m) (hk : m ≤ k) (hlimit : k ≤ limit) :
    Longest pattern text start k stop m := by
  refine ⟨⟨hk, h.1.2⟩, fun j hj => h.2 ⟨by have := hj.1; omega, hj.2⟩⟩

/-- An overlap that goes on with the next item, and with no longer one that does. -/
structure Resumes (pattern text : ℕ → α) (start stop m k : ℕ) : Prop where
  overlap : Overlap pattern text start stop k
  le : k ≤ m
  goesOn : k = 0 ∨ text stop = pattern k
  longest : ∀ j ≤ m, Overlap pattern text start stop j → text stop = pattern j → j ≤ k

/-- It is searched for from border to border. -/
theorem Resumes.of_fall (h : Overlap pattern text start stop m) (hm : 0 < m)
    (hk : Longest pattern pattern 1 (m - 1) m k) (hne : text stop ≠ pattern m)
    (hresumes : Resumes pattern text start stop k j) : Resumes pattern text start stop m j := by
  obtain ⟨hlt, -, hnext⟩ := h.falls hm hk
  refine ⟨hresumes.overlap, hresumes.le.trans hlt.le, hresumes.goesOn, fun i hi hoverlap hitem => ?_⟩
  have him : i < m := lt_of_le_of_ne hi (fun heq => hne (heq ▸ hitem))
  exact hresumes.longest i (hnext i him hoverlap) hoverlap hitem

/-- The longest overlap is found from the one before by one more item. -/
theorem Resumes.longest_succ [DecidableEq α] (hm : Longest pattern text start limit stop m)
    (h : Resumes pattern text start stop m k) :
    Longest pattern text start (limit + 1) (stop + 1) (if text stop = pattern k then k + 1 else k) := by
  have hle : k ≤ limit := h.le.trans hm.1.1
  have hstart : start ≤ stop := by
    have := h.overlap.1
    omega
  by_cases hitem : text stop = pattern k
  · rw [if_pos hitem]
    refine ⟨⟨by omega, overlap_succ.mpr ⟨h.overlap, hitem⟩⟩, ?_⟩
    rintro j ⟨hj, hoverlap⟩
    cases j with
    | zero => omega
    | succ j =>
      obtain ⟨hoverlap, hj'⟩ := overlap_succ.mp hoverlap
      have hjm : j ≤ m := hm.2 ⟨by omega, hoverlap⟩
      have := h.longest j hjm hoverlap hj'
      omega
  · rw [if_neg hitem]
    have hzero : k = 0 := h.goesOn.resolve_right hitem
    subst hzero
    refine ⟨⟨by omega, overlap_zero.mpr (by omega)⟩, ?_⟩
    rintro j ⟨hj, hoverlap⟩
    cases j with
    | zero => exact Nat.le_refl 0
    | succ j =>
      obtain ⟨hoverlap, hj'⟩ := overlap_succ.mp hoverlap
      have hjm : j ≤ m := hm.2 ⟨by omega, hoverlap⟩
      have hj0 := h.longest j hjm hoverlap hj'
      rw [Nat.le_zero.mp hj0] at hj'
      exact absurd hj' hitem

end TsonicNode.Lib
