import Mathlib.Tactic.Common

/-!
# Stateful computations that may raise

A computation `EStateM ε σ α` runs from a state and either returns a value or
raises an error; a raise keeps the state it happened in (nothing is rolled
back). `wp m Q E s` says that `m`, run from `s`, either returns a value and a
state satisfying `Q` or raises an error in a state satisfying `E`. The simp
lemmas below compute `wp` of straight-line code; a call is replaced by its
specification with `wp_mono`.
-/

namespace TsonicNode.Lib

variable {ε σ τ α β : Type}

/-- Weakest precondition of `m` for the postconditions `Q` (return) and `E` (raise). -/
def wp (m : EStateM ε σ α) (Q : α → σ → Prop) (E : ε → σ → Prop) (s : σ) : Prop :=
  match m s with
  | .ok a s' => Q a s'
  | .error e s' => E e s'

/-- The state a computation ends in, returning or raising. -/
def finalState : EStateM.Result ε σ α → σ
  | .ok _ s => s
  | .error _ s => s

/-- Whether a computation returned. -/
def returned : EStateM.Result ε σ α → Bool
  | .ok _ _ => true
  | .error _ _ => false

/-- Run `m` on a component of the state. -/
def zoom (get : σ → τ) (put : τ → σ → σ) (m : EStateM ε τ α) : EStateM ε σ α := fun s =>
  match m (get s) with
  | .ok a t => .ok a (put t s)
  | .error e t => .error e (put t s)

section
variable {m : EStateM ε σ α} {Q Q' : α → σ → Prop} {E E' : ε → σ → Prop} {s s' : σ}

theorem wp_mono (h : wp m Q E s) (hQ : ∀ a t, Q a t → Q' a t) (hE : ∀ e t, E e t → E' e t) :
    wp m Q' E' s := by
  unfold wp at h ⊢
  cases hm : m s with
  | ok a t => rw [hm] at h; exact hQ a t h
  | error e t => rw [hm] at h; exact hE e t h

theorem wp_and {Q₁ : α → σ → Prop} {E₁ : ε → σ → Prop} (h : wp m Q E s) (h₁ : wp m Q₁ E₁ s) :
    wp m (fun a t => Q a t ∧ Q₁ a t) (fun e t => E e t ∧ E₁ e t) s := by
  unfold wp at h h₁ ⊢
  cases hm : m s with
  | ok a t => rw [hm] at h h₁; exact ⟨h, h₁⟩
  | error e t => rw [hm] at h h₁; exact ⟨h, h₁⟩

theorem wp_ok {a : α} (h : wp m Q E s) (hm : m s = .ok a s') : Q a s' := by
  unfold wp at h; rw [hm] at h; exact h

theorem wp_error {e : ε} (h : wp m Q E s) (hm : m s = .error e s') : E e s' := by
  unfold wp at h; rw [hm] at h; exact h

theorem wp_final {P : σ → Prop} (h : wp m (fun _ t => P t) (fun _ t => P t) s) :
    P (finalState (m s)) := by
  unfold wp at h
  cases hm : m s with
  | ok a t => rw [hm] at h; exact h
  | error e t => rw [hm] at h; exact h

/-- What holds of every outcome. -/
theorem wp_of_forall (hQ : ∀ a t, Q a t) (hE : ∀ e t, E e t) : wp m Q E s := by
  unfold wp
  cases m s with
  | ok a t => exact hQ a t
  | error e t => exact hE e t

theorem wp_run : wp m (fun a t => m s = .ok a t) (fun e t => m s = .error e t) s := by
  unfold wp
  cases m s <;> rfl

/-- A computation returns exactly under a condition that its outcomes tell. -/
theorem returned_iff {P : Prop} (h : wp m (fun _ _ => P) (fun _ _ => ¬P) s) : returned (m s) = true ↔ P := by
  unfold wp at h
  cases hm : m s with
  | ok a t => rw [hm] at h; exact ⟨fun _ => h, fun _ => rfl⟩
  | error e t => rw [hm] at h; exact ⟨nofun, fun hP => absurd hP h⟩

theorem exists_of_returned (h : returned (m s) = true) : ∃ a t, m s = .ok a t := by
  cases hm : m s with
  | ok a t => exact ⟨a, t, rfl⟩
  | error e t => rw [hm] at h; cases h

/-- A computation that returns `a` in `t` has exactly that outcome. -/
theorem wp_of_ok {a : α} (hm : m s = .ok a s') : wp m Q E s ↔ Q a s' := by
  unfold wp; rw [hm]

theorem wp_of_error {e : ε} (hm : m s = .error e s') : wp m Q E s ↔ E e s' := by
  unfold wp; rw [hm]

end

section
variable {Q : α → σ → Prop} {E : ε → σ → Prop} {s : σ}

@[simp] theorem wp_pure (a : α) : wp (pure a : EStateM ε σ α) Q E s = Q a s := rfl

@[simp] theorem wp_throw (e : ε) : wp (throw e : EStateM ε σ α) Q E s = E e s := rfl

@[simp] theorem wp_get {Q : σ → σ → Prop} : wp (get : EStateM ε σ σ) Q E s = Q s s := rfl

@[simp] theorem wp_set {Q : PUnit → σ → Prop} (t : σ) :
    wp (set t : EStateM ε σ PUnit) Q E s = Q ⟨⟩ t := rfl

@[simp] theorem wp_modify {Q : PUnit → σ → Prop} (f : σ → σ) :
    wp (modify f : EStateM ε σ PUnit) Q E s = Q ⟨⟩ (f s) := rfl

@[simp] theorem wp_bind (m : EStateM ε σ β) (f : β → EStateM ε σ α) :
    wp (m >>= f) Q E s = wp m (fun b t => wp (f b) Q E t) E s := by
  simp only [wp, bind, EStateM.bind]
  cases m s <;> rfl

@[simp] theorem wp_ite (c : Prop) [Decidable c] (m n : EStateM ε σ α) :
    wp (if c then m else n) Q E s = if c then wp m Q E s else wp n Q E s := by
  split <;> rfl

@[simp] theorem wp_tryCatch (m : EStateM ε σ α) (h : ε → EStateM ε σ α) :
    wp (tryCatch m h) Q E s = wp m Q (fun e t => wp (h e) Q E t) s := by
  simp only [wp, tryCatch, tryCatchThe, MonadExceptOf.tryCatch, EStateM.tryCatch]
  cases m s <;> rfl

@[simp] theorem wp_tryFinally (m : EStateM ε σ α) (h : EStateM ε σ β) :
    wp (tryFinally m h) Q E s =
      wp m (fun a t => wp h (fun _ u => Q a u) E t) (fun e t => wp h (fun _ u => E e u) E t) s := by
  simp only [tryFinally, tryFinally', wp, Functor.map, EStateM.map]
  cases hm : m s with
  | ok a t => cases hh : h t <;> simp only [hh]
  | error e t => cases hh : h t <;> simp only [hh]

@[simp] theorem wp_zoom (get : σ → τ) (put : τ → σ → σ) (m : EStateM ε τ α) :
    wp (zoom get put m) Q E s =
      wp m (fun a t => Q a (put t s)) (fun e t => E e (put t s)) (get s) := by
  simp only [wp, zoom]
  cases m (get s) <;> rfl

end

/-! ## Outcomes -/

section
variable (s : σ)

theorem get_run : (get : EStateM ε σ σ) s = .ok s s := rfl

theorem modify_run (f : σ → σ) : (modify f : EStateM ε σ PUnit) s = .ok ⟨⟩ (f s) := rfl

theorem bind_run (m : EStateM ε σ β) (f : β → EStateM ε σ α) :
    (m >>= f) s =
      match m s with
      | .ok b t => f b t
      | .error e t => .error e t := rfl

theorem tryCatch_run (m : EStateM ε σ α) (h : ε → EStateM ε σ α) :
    (tryCatch m h) s =
      match m s with
      | .ok a t => .ok a t
      | .error e t => h e t := by
  simp only [tryCatch, tryCatchThe, MonadExceptOf.tryCatch, EStateM.tryCatch]
  cases m s <;> rfl

end

/-! ## Final states -/

section
variable {s t : σ}

/-- A cleanup that always returns acts on the final state, however the body ended. -/
theorem finalState_tryFinally (m : EStateM ε σ α) (f : σ → σ) (s : σ) :
    finalState ((tryFinally m (modify f) : EStateM ε σ α) s) = f (finalState (m s)) := by
  simp only [tryFinally, tryFinally', Functor.map, EStateM.map]
  cases m s <;> rfl

theorem finalState_bind_pure (m : EStateM ε σ α) (b : β) (s : σ) :
    finalState ((do let _ ← m; pure b : EStateM ε σ β) s) = finalState (m s) := by
  simp only [bind, EStateM.bind]
  cases m s <;> rfl

end

end TsonicNode.Lib
