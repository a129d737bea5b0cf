import TsonicNode.Timers.Model
import Mathlib.Data.List.Basic

/-!
# What a poll retains

`pollTimers` ends by installing the list `retained`, which it built from the
handles that were in the list when it started. Everything it does in between,
callbacks included, is a `Step`: handles are only appended to the list, a timer
that is inactive stays so (`Decays`), and the timers opened since the poll
started are active exactly when they were not closed again (`Tracked`).

`pollTimers_retains_iff`: the poll loses no timer if and only if every timer
its callbacks open is closed again by them before it returns.
-/

namespace TsonicNode.Timers

open TsonicNode.Lib

variable {C : Type}

/-- Every listed handle points at an allocated state. -/
def World.Valid (w : World C) : Prop := ∀ t ∈ w.timers, t.state < w.heap.length

/-- `t` was opened and afterwards closed in `log`. -/
def OpenedThenClosed (log : List ApiCall) (t : Timeout) : Prop :=
  [.opened t, .closed t].Sublist log

theorem openedThenClosed_append {log : List ApiCall} {c : ApiCall} {t : Timeout} :
    OpenedThenClosed (log ++ [c]) t ↔
      OpenedThenClosed log t ∨ .opened t ∈ log ∧ c = .closed t := by
  unfold OpenedThenClosed
  constructor
  · intro h
    rw [List.sublist_append_iff] at h
    obtain ⟨l₁, l₂, hl, h₁, h₂⟩ := h
    rcases List.sublist_singleton.mp h₂ with rfl | rfl
    · rw [List.append_nil] at hl
      exact .inl (hl ▸ h₁)
    · have hl' : [ApiCall.opened t] ++ [ApiCall.closed t] = l₁ ++ [c] := hl
      obtain ⟨rfl, hc⟩ := List.append_inj' hl' rfl
      cases hc
      exact .inr ⟨List.singleton_sublist.mp h₁, rfl⟩
  · rintro (h | ⟨h, rfl⟩)
    · exact h.trans (List.sublist_append_left _ _)
    · exact (List.singleton_sublist.mpr h).append (List.Sublist.refl [ApiCall.closed t])

/-- The API calls made between two states. -/
def callsSince (w w' : World C) : List ApiCall := w'.calls.drop w.calls.length

/-- A later state: the list and the heap have only grown, and no timer became active. -/
structure Decays (w w' : World C) : Prop where
  heap : w.heap.length ≤ w'.heap.length
  timers : w.timers <+: w'.timers
  active : ∀ t, t.state < w.heap.length → w'.active t = true → w.active t = true

/-- Of the states from `base` on, exactly those not opened and closed again are active;
`calls` is the record of API calls when the heap had `base` states. -/
structure Tracked (base : Nat) (calls : List ApiCall) (w : World C) : Prop where
  base_le : base ≤ w.heap.length
  log : ∃ log, w.calls = calls ++ log ∧
    (∀ t, .opened t ∈ log → base ≤ t.state ∧ t.state < w.heap.length) ∧
    ∀ t, base ≤ t.state → t.state < w.heap.length →
      .opened t ∈ log ∧ (w.active t = true ↔ ¬ OpenedThenClosed log t)

/-- One step of a poll, as the rest of the poll sees it. -/
structure Step (base : Nat) (calls : List ApiCall) (w w' : World C) : Prop where
  decays : Decays w w'
  tracked : Tracked base calls w → Tracked base calls w'

theorem Decays.refl (w : World C) : Decays w w :=
  ⟨Nat.le_refl _, List.prefix_refl _, fun _ _ h => h⟩

theorem Decays.trans {a b c : World C} (h₁ : Decays a b) (h₂ : Decays b c) : Decays a c :=
  ⟨Nat.le_trans h₁.heap h₂.heap, h₁.timers.trans h₂.timers,
    fun t ht h => h₁.active t ht (h₂.active t (Nat.lt_of_lt_of_le ht h₁.heap) h)⟩

theorem Step.refl {base : Nat} {calls : List ApiCall} (w : World C) : Step base calls w w :=
  ⟨.refl w, id⟩

theorem Step.trans {base : Nat} {calls : List ApiCall} {a b c : World C}
    (h₁ : Step base calls a b) (h₂ : Step base calls b c) : Step base calls a c :=
  ⟨h₁.decays.trans h₂.decays, h₂.tracked ∘ h₁.tracked⟩

/-! ## Writing through a handle -/

@[simp] theorem write_timers (w : World C) (t : Timeout) (f : TimerState C → TimerState C) :
    (w.write t f).timers = w.timers := rfl

@[simp] theorem write_calls (w : World C) (t : Timeout) (f : TimerState C → TimerState C) :
    (w.write t f).calls = w.calls := rfl

@[simp] theorem write_heap_length (w : World C) (t : Timeout)
    (f : TimerState C → TimerState C) : (w.write t f).heap.length = w.heap.length := by
  simp [World.write]

theorem active_write (w : World C) (t u : Timeout) (f : TimerState C → TimerState C) :
    (w.write t f).active u =
      if t = u then ((w.heap[u.state]?).map f).any (·.active) else w.active u := by
  unfold World.active World.write
  simp only [List.getElem?_modify]
  by_cases h : t = u
  · subst h
    cases w.heap[t.state]? <;> simp
  · have hs : t.state ≠ u.state := fun e => h (by cases t; cases u; simp_all)
    simp [h, hs]

/-- A write that keeps `active` changes no timer's activity. -/
theorem active_write_same {w : World C} {t : Timeout} {f : TimerState C → TimerState C}
    (hf : ∀ s, (f s).active = s.active) (u : Timeout) : (w.write t f).active u = w.active u := by
  rw [active_write]
  split
  · unfold World.active
    cases w.heap[u.state]? <;> simp [hf]
  · rfl

/-- A write that clears `active` deactivates its timer and no other. -/
theorem active_write_clear {w : World C} {t : Timeout} {f : TimerState C → TimerState C}
    (hf : ∀ s, (f s).active = false) (u : Timeout) :
    (w.write t f).active u = if t = u then false else w.active u := by
  rw [active_write]
  split
  · cases w.heap[u.state]? <;> simp [hf]
  · rfl

theorem step_write_same {base : Nat} {calls : List ApiCall} (w : World C) (t : Timeout)
    {f : TimerState C → TimerState C} (hf : ∀ s, (f s).active = s.active) :
    Step base calls w (w.write t f) where
  decays := ⟨by simp, by simp, fun u _ h => by rwa [active_write_same hf] at h⟩
  tracked h := by
    obtain ⟨hb, log, hc, ho, ht⟩ := h
    refine ⟨by simpa using hb, log, by simpa using hc, by simpa using ho, fun u hu hl => ?_⟩
    rw [active_write_same hf]
    exact ht u hu (by simpa using hl)

/-- The poll itself deactivates only timers that are older than `base`. -/
theorem step_write_clear {base : Nat} {calls : List ApiCall} (w : World C) {t : Timeout}
    {f : TimerState C → TimerState C} (hf : ∀ s, (f s).active = false) (hold : t.state < base) :
    Step base calls w (w.write t f) where
  decays := ⟨by simp, by simp, fun u _ h => by
    rw [active_write_clear hf] at h; split at h
    · cases h
    · exact h⟩
  tracked h := by
    obtain ⟨hb, log, hc, ho, ht⟩ := h
    refine ⟨by simpa using hb, log, by simpa using hc, by simpa using ho, fun u hu hl => ?_⟩
    have hne : t ≠ u := fun e => by subst e; omega
    rw [active_write_clear hf, if_neg hne]
    exact ht u hu (by simpa using hl)

/-! ## The API -/

theorem step_reading {base : Nat} {calls : List ApiCall} (w : World C) (n : Nat) :
    Step base calls w { w with readings := n } :=
  ⟨⟨Nat.le_refl _, List.prefix_refl _, fun _ _ h => h⟩, fun h => ⟨h.base_le, h.log⟩⟩

theorem step_close {base : Nat} {calls : List ApiCall} (w : World C) (t : Timeout)
    {f : TimerState C → TimerState C} (hf : ∀ s, (f s).active = false) :
    Step base calls w { w.write t f with calls := w.calls ++ [.closed t] } := by
  have hact : ∀ u, ({ w.write t f with calls := w.calls ++ [.closed t] } : World C).active u =
      if t = u then false else w.active u := active_write_clear (w := w) hf
  refine ⟨⟨by simp, by simp, fun u _ h => ?_⟩, fun ⟨hb, log, hc, ho, htr⟩ => ?_⟩
  · rw [hact] at h
    split at h
    · cases h
    · exact h
  · refine ⟨by simpa using hb, log ++ [.closed t], by simp [hc], fun u hu => ?_, fun u hu hl => ?_⟩
    · simpa using ho u (by simpa using hu)
    · obtain ⟨hopen, hiff⟩ := htr u hu (by simpa using hl)
      refine ⟨by simp [hopen], ?_⟩
      rw [hact, openedThenClosed_append]
      by_cases e : t = u
      · simp [e, hopen]
      · simp [e, hiff]

theorem step_schedule {base : Nat} {calls : List ApiCall} (w : World C) {s : TimerState C}
    (hs : s.active = true) :
    Step base calls w
      { w with
        heap := w.heap ++ [s]
        timers := w.timers ++ [⟨w.heap.length⟩]
        calls := w.calls ++ [.opened ⟨w.heap.length⟩] } := by
  have hold : ∀ u : Timeout, u.state < w.heap.length →
      World.active { w with
        heap := w.heap ++ [s]
        timers := w.timers ++ [⟨w.heap.length⟩]
        calls := w.calls ++ [.opened ⟨w.heap.length⟩] } u = w.active u := by
    intro u hu
    simp only [World.active, List.getElem?_append_left hu]
  refine ⟨⟨by simp, List.prefix_append _ _, fun u hu h => by rwa [hold u hu] at h⟩,
    fun ⟨hb, log, hc, ho, htr⟩ => ?_⟩
  refine ⟨by simp only [List.length_append]; omega, log ++ [.opened ⟨w.heap.length⟩], by simp [hc],
    fun u hu => ?_, fun u hu hl => ?_⟩
  · simp only [List.mem_append, List.mem_singleton, ApiCall.opened.injEq] at hu
    rcases hu with hu | rfl
    · have := ho u hu
      exact ⟨this.1, by simp only [List.length_append]; omega⟩
    · exact ⟨hb, by simp⟩
  · rw [openedThenClosed_append]
    rcases Nat.lt_or_ge u.state w.heap.length with hlt | hge
    · obtain ⟨hopen, hiff⟩ := htr u hu hlt
      exact ⟨by simp [hopen], by rw [hold u hlt, hiff]; simp⟩
    · have he : u = ⟨w.heap.length⟩ := by
        simp only [List.length_append, List.length_singleton] at hl
        cases u
        simp only [Timeout.mk.injEq] at hge hl ⊢
        omega
      subst he
      have hnew : ¬ OpenedThenClosed log ⟨w.heap.length⟩ := fun h => by
        have := ho ⟨w.heap.length⟩ (h.subset (by simp))
        exact Nat.lt_irrefl _ this.2
      exact ⟨by simp, by simp [World.active, hs, hnew]⟩

/-! ## Callbacks -/

section
variable (base : Nat) (calls : List ApiCall)

theorem schedule_step (w : World C) (callback : C) (delayMs : Int) (interval : Bool) :
    wp (schedule callback delayMs interval) (fun _ => Step base calls w)
      (fun _ => Step base calls w) w := by
  simp only [schedule, monotonic, wp_bind, wp_get, wp_ite, wp_throw, wp_modify, wp_pure]
  split
  · exact .refl w
  · exact (step_reading w (w.readings + 1)).trans
      (step_schedule { w with readings := w.readings + 1 } rfl)

theorem perform_step (action : Action C) (w : World C) :
    wp action.perform (fun _ => Step base calls w) (fun _ => Step base calls w) w := by
  cases action with
  | setTimeout callback delayMs =>
    simp only [Action.perform, setTimeout, wp_bind, wp_pure]
    exact schedule_step base calls w callback delayMs false
  | setInterval callback delayMs =>
    simp only [Action.perform, setInterval, wp_bind, wp_pure]
    exact schedule_step base calls w callback delayMs true
  | close timer =>
    simp only [Action.perform, Timeout.close, wp_bind, wp_get, wp_ite, wp_modify, wp_pure]
    split
    · exact step_close w timer fun _ => rfl
    · exact .refl w
  | refresh timer =>
    simp only [Action.perform, Timeout.refresh, monotonic, wp_bind, wp_get, wp_modify, wp_pure]
    exact (step_reading w _).trans (step_write_same _ timer fun _ => rfl)
  | ref timer => exact step_write_same w timer fun _ => rfl
  | unref timer => exact step_write_same w timer fun _ => rfl

theorem performAll_step : ∀ (actions : List (Action C)) (w : World C),
    wp (performAll actions) (fun _ => Step base calls w) (fun _ => Step base calls w) w
  | [], w => Step.refl w
  | action :: rest, w => by
    have hrest : ∀ w₁, Step base calls w w₁ →
        wp (performAll rest) (fun _ => Step base calls w) (fun _ => Step base calls w) w₁ :=
      fun w₁ h => wp_mono (performAll_step rest w₁) (fun _ _ => h.trans) (fun _ _ => h.trans)
    simp only [performAll, wp_bind, wp_tryCatch, wp_pure]
    exact wp_mono (perform_step base calls action w) (fun _ => hrest) (fun _ => hrest)

theorem call_step (behaviour : Behaviour C) (w : World C) :
    wp behaviour.call (fun _ => Step base calls w) (fun _ => Step base calls w) w := by
  simp only [Behaviour.call, wp_bind]
  refine wp_mono (performAll_step base calls behaviour.actions w) (fun _ w₁ h => ?_) (fun _ _ h => h)
  cases behaviour.raises <;> exact h

/-! ## The loop -/

/-- A turn of the loop keeps every timer it leaves active. -/
theorem visit_step (behaviour : Behaviour C) (now : Int) {timer : Timeout} (w : World C)
    (hold : timer.state < base) :
    wp (visit behaviour now timer)
      (fun r w' => Step base calls w w' ∧ (w'.active timer = true → r.2 = true))
      (fun _ _ => True) w := by
  simp only [visit, wp_bind, wp_get, wp_ite, wp_pure, wp_modify]
  split
  · split
    · refine wp_mono (call_step base calls behaviour w) (fun _ w₁ h₁ => ?_) (fun _ _ _ => trivial)
      split
      · exact ⟨h₁.trans (step_write_same w₁ timer fun _ => rfl), id⟩
      · exact ⟨h₁.trans (step_write_clear w₁ (fun _ => rfl) hold), id⟩
    · exact ⟨.refl w, id⟩
  · rename_i hinactive
    exact ⟨.refl w, fun h => absurd h hinactive⟩

/-- Every timer already visited that is still active has been retained. -/
def Retains (visited retained : List Timeout) (w : World C) : Prop :=
  (∀ t ∈ retained, t ∈ visited) ∧ ∀ t ∈ visited, w.active t = true → t ∈ retained

theorem pollFrom_step (behaviour : Nat → Behaviour C) (now : Int) {listed : List Timeout}
    (hbase : ∀ t ∈ listed, t.state < base) :
    ∀ (remaining index : Nat) (didWork : Bool) (retained : List Timeout) (w : World C),
      index + remaining = listed.length → listed <+: w.timers → base ≤ w.heap.length →
      Retains (listed.take index) retained w →
      wp (pollFrom behaviour now remaining index didWork retained)
        (fun r w' => Step base calls w w' ∧ Retains listed r.2 w') (fun _ _ => True) w
  | 0, index, didWork, retained, w, hlen, _, _, hret => by
    have hi : index = listed.length := by omega
    rw [hi, List.take_length] at hret
    exact ⟨.refl w, hret⟩
  | remaining + 1, index, didWork, retained, w, hlen, hpre, hheap, hret => by
    have hi : index < listed.length := by omega
    have hget : w.timers[index]? = some listed[index] := by
      rw [← List.getElem?_eq_getElem hi]
      exact (List.prefix_iff_getElem?.mp hpre index hi).trans (List.getElem?_eq_getElem hi).symm
    have htimer : listed[index].state < base := hbase _ (List.getElem_mem hi)
    simp only [pollFrom, wp_bind, wp_get, hget]
    refine wp_mono (visit_step base calls (behaviour index) now w htimer) (fun r w₁ h => ?_)
      (fun _ _ _ => trivial)
    obtain ⟨hstep, hkeep⟩ := h
    have hret₁ : Retains (listed.take (index + 1))
        (if r.2 = true then retained ++ [listed[index]] else retained) w₁ := by
      rw [List.take_add_one, List.getElem?_eq_getElem hi]
      refine ⟨fun t ht => ?_, fun t ht hact => ?_⟩
      · split at ht
        · rcases List.mem_append.mp ht with ht | ht
          · exact List.mem_append_left _ (hret.1 t ht)
          · exact List.mem_append_right _ (by simpa using ht)
        · exact List.mem_append_left _ (hret.1 t ht)
      · rcases List.mem_append.mp ht with ht | ht
        · have hlt : t.state < w.heap.length :=
            Nat.lt_of_lt_of_le (hbase t (List.mem_of_mem_take ht)) hheap
          have := hret.2 t ht (hstep.decays.active t hlt hact)
          split
          · exact List.mem_append_left _ this
          · exact this
        · have ht' : t = listed[index] := by simpa using ht
          subst ht'
          rw [if_pos (hkeep hact)]
          simp
    refine wp_mono (pollFrom_step behaviour now hbase remaining (index + 1) _ _ w₁ (by omega)
      (hpre.trans hstep.decays.timers) (Nat.le_trans hheap hstep.decays.heap) hret₁)
      (fun _ _ h₂ => ⟨hstep.trans h₂.1, h₂.2⟩) (fun _ _ h₂ => h₂)

end

/-! ## The poll -/

/-- Nothing is lost between two states: every timer that was listed or has been opened since,
and is active, is listed. -/
def LosesNothing (w w' : World C) : Prop :=
  ∀ t : Timeout, (t ∈ w.timers ∨ w.heap.length ≤ t.state ∧ t.state < w'.heap.length) →
    w'.active t = true → t ∈ w'.timers

/-- What a poll leaves behind: the list it built, and the record of the timers opened in it. -/
theorem pollTimers_step (behaviour : Nat → Behaviour C) {w : World C} (hw : w.Valid) :
    wp (pollTimers behaviour)
      (fun _ w' => Retains w.timers w'.timers w' ∧ Tracked w.heap.length w.calls w')
      (fun _ _ => True) w := by
  have hinit : Tracked w.heap.length w.calls w :=
    ⟨Nat.le_refl _, [], by simp, by simp, fun t h₁ h₂ => absurd h₂ (by omega)⟩
  simp only [pollTimers, monotonic, wp_bind, wp_get, wp_modify, wp_pure]
  refine wp_mono (pollFrom_step w.heap.length w.calls behaviour _ hw w.timers.length 0 false [] _ (by simp)
    (List.prefix_refl _) (Nat.le_refl _) ⟨by simp, by simp⟩) (fun r w₁ h => ?_) (fun _ _ h => h)
  have ht := h.1.tracked ⟨hinit.base_le, hinit.log⟩
  exact ⟨h.2, ⟨ht.base_le, ht.log⟩⟩

/-- **A poll loses no timer exactly when its callbacks close every timer they open.** -/
theorem pollTimers_retains_iff (behaviour : Nat → Behaviour C) {w w' : World C} {didWork : Bool}
    (hw : w.Valid) (hpoll : pollTimers behaviour w = .ok didWork w') :
    LosesNothing w w' ↔
      ∀ t, .opened t ∈ callsSince w w' → OpenedThenClosed (callsSince w w') t := by
  obtain ⟨hret, hb, log, hc, ho, htr⟩ := wp_ok (pollTimers_step behaviour hw) hpoll
  have hsince : callsSince w w' = log := by simp [callsSince, hc]
  rw [hsince]
  constructor
  · intro hlose t hopen
    obtain ⟨hge, hlt⟩ := ho t hopen
    by_contra hnot
    have hact := (htr t hge hlt).2.mpr hnot
    have hlisted := hret.1 t (hlose t (.inr ⟨hge, hlt⟩) hact)
    exact absurd (hw t hlisted) (by omega)
  · rintro hclosed t (hlisted | ⟨hge, hlt⟩) hact
    · exact hret.2 t hlisted hact
    · obtain ⟨hopen, hiff⟩ := htr t hge hlt
      exact absurd (hclosed t hopen) (hiff.mp hact)

/-- One listed one-shot timer that is due. -/
def oneShotDue : World Unit where
  heap := [⟨(), 0, 0, false, true, true⟩]
  timers := [⟨0⟩]
  clock := fun _ => 0
  readings := 0
  calls := []

/-- A callback that schedules the next timeout and closes it again. -/
theorem pollTimers_retains_closed :
    LosesNothing oneShotDue
      (finalState (pollTimers (fun _ => ⟨[.setTimeout () 0, .close ⟨1⟩], none⟩) oneShotDue)) :=
  (pollTimers_retains_iff (fun _ => ⟨[.setTimeout () 0, .close ⟨1⟩], none⟩)
    (by unfold World.Valid; decide) rfl).mpr (by
      intro t ht
      have ht' : ApiCall.opened t ∈ [ApiCall.opened ⟨1⟩, ApiCall.closed ⟨1⟩] := ht
      obtain rfl : t = ⟨1⟩ := by simpa using ht'
      exact List.Sublist.refl [ApiCall.opened ⟨1⟩, ApiCall.closed ⟨1⟩])

/-- A callback that schedules the next timeout: the new timer is active and in no list. -/
theorem pollTimers_loses_rescheduled :
    ∃ w', pollTimers (fun _ => ⟨[.setTimeout () 0], none⟩) oneShotDue = .ok true w' ∧
      oneShotDue.Valid ∧ w'.active ⟨1⟩ = true ∧ w'.timers = [] ∧ ¬ LosesNothing oneShotDue w' := by
  refine ⟨_, rfl, by unfold World.Valid; decide, rfl, rfl, fun h => ?_⟩
  have := h ⟨1⟩ (.inr (by decide)) rfl
  cases this

end TsonicNode.Timers
