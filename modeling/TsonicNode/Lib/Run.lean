import Mathlib.Tactic.Common
import Mathlib.Data.List.Basic

/-!
# Runs of a labelled machine

A machine is a total function `step : σ → ι → σ`: the label carries every
choice the environment makes, and a label that is not enabled leaves the state
as it is. `run` follows a list of labels; `Meets C` says that each step of the
run, seen as its state before and its label, satisfies `C`. An invariant is
proved for one step and holds of every run (`run_invariant`); a reflexive and
transitive relation that one step respects relates the two ends of a run
(`run_relation`); and what holds by one event of a run only is traced back to it
(`run_iff`).
-/

namespace TsonicNode.Lib

variable {σ ι : Type} {step : σ → ι → σ}

/-- The state after a list of labels. -/
def run (step : σ → ι → σ) : σ → List ι → σ
  | s, [] => s
  | s, l :: ls => run step (step s l) ls

/-- Every step of the run satisfies `C`. -/
def Meets (step : σ → ι → σ) (C : σ → ι → Prop) : σ → List ι → Prop
  | _, [] => True
  | s, l :: ls => C s l ∧ Meets step C (step s l) ls

@[simp] theorem run_nil (s : σ) : run step s [] = s := rfl

@[simp] theorem run_cons (s : σ) (l : ι) (ls : List ι) :
    run step s (l :: ls) = run step (step s l) ls := rfl

theorem run_append (s : σ) (ls ms : List ι) :
    run step s (ls ++ ms) = run step (run step s ls) ms := by
  induction ls generalizing s with
  | nil => rfl
  | cons l ls ih => exact ih (step s l)

theorem Meets.append {C : σ → ι → Prop} {s : σ} {ls ms : List ι} :
    Meets step C s (ls ++ ms) ↔ Meets step C s ls ∧ Meets step C (run step s ls) ms := by
  induction ls generalizing s with
  | nil => simp [Meets]
  | cons l ls ih => simp only [List.cons_append, Meets, ih, run_cons, and_assoc]

/-- What one conditioned step preserves, a run of such steps preserves. -/
theorem run_invariant {C : σ → ι → Prop} {P : σ → Prop} (h : ∀ s l, P s → C s l → P (step s l))
    {s : σ} {ls : List ι} (hs : P s) (hC : Meets step C s ls) : P (run step s ls) := by
  induction ls generalizing s with
  | nil => exact hs
  | cons l ls ih => exact ih (h s l hs hC.1) hC.2

/-- What every step preserves, every run preserves. -/
theorem run_preserves {P : σ → Prop} (h : ∀ s l, P s → P (step s l)) {s : σ} (hs : P s)
    (ls : List ι) : P (run step s ls) := by
  induction ls generalizing s with
  | nil => exact hs
  | cons l ls ih => exact ih (h s l hs)

/-- What every step by a label of a list preserves, runs over such labels preserve. -/
theorem run_within {P : σ → Prop} {all : List ι} (h : ∀ s, ∀ l ∈ all, P s → P (step s l)) {s : σ} (hs : P s)
    (ls : List ι) (hls : ls ⊆ all) : P (run step s ls) := by
  induction ls generalizing s with
  | nil => exact hs
  | cons l ls ih =>
    obtain ⟨hmem, hls⟩ := List.cons_subset.mp hls
    exact ih (h s l hmem hs) hls

/-- What no conditioned step changes, where `P` holds, a run of such steps does not change. -/
theorem run_constant {β : Type} {C : σ → ι → Prop} {P : σ → Prop} {f : σ → β}
    (h : ∀ s l, P s → C s l → P (step s l) ∧ f (step s l) = f s) {s : σ} {ls : List ι} (hs : P s)
    (hC : Meets step C s ls) : f (run step s ls) = f s := by
  induction ls generalizing s with
  | nil => rfl
  | cons l ls ih =>
    obtain ⟨hP, hf⟩ := h s l hs hC.1
    exact (ih hP hC.2).trans hf

/-- A condition that always holds is met. -/
theorem Meets.of_forall {C : σ → ι → Prop} (h : ∀ s l, C s l) (s : σ) (ls : List ι) :
    Meets step C s ls := by
  induction ls generalizing s with
  | nil => trivial
  | cons l ls ih => exact ⟨h s l, ih (step s l)⟩

/-- A preorder that steps respect relates the ends of a run. -/
theorem run_relation {R : σ → σ → Prop} (hrefl : ∀ s, R s s)
    (htrans : ∀ {a b c}, R a b → R b c → R a c) (h : ∀ s l, R s (step s l)) (s : σ)
    (ls : List ι) : R s (run step s ls) := by
  induction ls generalizing s with
  | nil => exact hrefl s
  | cons l ls ih => exact htrans (h s l) (ih (step s l))

/-- What steps only add, by a certain event, holds behind a run where it held before or one of the steps was it. -/
theorem run_iff {I P : σ → Prop} {E : σ → ι → Prop} (hI : ∀ s l, I s → I (step s l))
    (h : ∀ s l, I s → (P (step s l) ↔ P s ∨ E s l)) {s : σ} (hs : I s) (ls : List ι) :
    P (run step s ls) ↔ P s ∨ ∃ before l after, ls = before ++ l :: after ∧ E (run step s before) l := by
  induction ls generalizing s with
  | nil => simp
  | cons l ls ih =>
    rw [run_cons, ih (hI s l hs), h s l hs, or_assoc]
    refine or_congr_right ⟨?_, ?_⟩
    · rintro (hevent | ⟨before, l', after, rfl, hevent⟩)
      · exact ⟨[], l, ls, rfl, hevent⟩
      · exact ⟨l :: before, l', after, rfl, hevent⟩
    · rintro ⟨before, l', after, hls, hevent⟩
      rcases List.cons_eq_append_iff.mp hls with ⟨rfl, hfirst⟩ | ⟨before, rfl, rfl⟩
      · cases hfirst
        exact .inl hevent
      · exact .inr ⟨before, l', after, rfl, hevent⟩

/-- Some run leads from one state to the other. -/
def Reaches (step : σ → ι → σ) (s t : σ) : Prop := ∃ ls, run step s ls = t

theorem Reaches.refl (s : σ) : Reaches step s s := ⟨[], rfl⟩

theorem Reaches.single (s : σ) (l : ι) : Reaches step s (step s l) := ⟨[l], rfl⟩

theorem Reaches.trans {a b c : σ} (h : Reaches step a b) (h' : Reaches step b c) :
    Reaches step a c := by
  obtain ⟨ls, rfl⟩ := h
  obtain ⟨ms, rfl⟩ := h'
  exact ⟨ls ++ ms, run_append a ls ms⟩

end TsonicNode.Lib
