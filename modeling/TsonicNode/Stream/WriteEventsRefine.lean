import TsonicNode.Stream.WritableView

/-!
# The events never lack capacity

`Owns held w`: every reservation of an event, and those in `held`, can be spent.
`Ready w`: the events that may still happen have their reservations. Under both
no transition of the events can raise, and each acts on the view as the
function of the same name does (`.._done`). `prepare` makes a stream `Ready`, or
raises and leaves it as it was; `Kept` is what remains between operations.
-/

namespace TsonicNode.Stream

open TsonicNode.Lib TsonicNode.Internal

/-! ## Reservations -/

/-- The events' reservations and the ones in `held` are live and all different. -/
structure Owns (held : List ReservationId) (w : World) : Prop where
  consistent : w.completions.Consistent
  active : ∀ event r, w.reservations event = some r → r ∈ w.completions.queue.active
  once : ∀ event event' r, w.reservations event = some r → w.reservations event' = some r →
    event = event'
  live : ∀ r ∈ held, r ∈ w.completions.queue.active
  nodup : held.Nodup
  apart : ∀ event r, w.reservations event = some r → r ∉ held

section
variable {held : List ReservationId} {w : World} {r : ReservationId} {event : Event}

theorem Owns.perm {held' : List ReservationId} (h : Owns held w) (hperm : held.Perm held') :
    Owns held' w :=
  ⟨h.consistent, h.active, h.once, fun r hr => h.live r (hperm.mem_iff.mpr hr),
    hperm.nodup_iff.mp h.nodup, fun e r hr hmem => h.apart e r hr (hperm.mem_iff.mpr hmem)⟩

/-- Another state with the same reservations and queue. -/
theorem Owns.state (h : Owns held w) (state : WritableState) : Owns held { w with state } :=
  ⟨h.consistent, h.active, h.once, h.live, h.nodup, h.apart⟩

/-- An event gives its reservation away. -/
theorem Owns.take (h : Owns held w) (hr : w.reservations event = some r) :
    Owns (r :: held)
      { w with reservations := Function.update w.reservations event none } := by
  have hkeep : ∀ e s, Function.update w.reservations event none e = some s →
      e ≠ event ∧ w.reservations e = some s := by
    intro e s he
    by_cases heq : e = event
    · subst heq
      rw [Function.update_self] at he
      cases he
    · exact ⟨heq, by rwa [Function.update_of_ne heq] at he⟩
  refine ⟨h.consistent, fun e s he => h.active e s (hkeep e s he).2,
    fun e e' s he he' => h.once e e' s (hkeep e s he).2 (hkeep e' s he').2, ?_, ?_, ?_⟩
  · intro s hs
    rcases List.mem_cons.mp hs with rfl | hs
    · exact h.active event s hr
    · exact h.live s hs
  · exact List.nodup_cons.mpr ⟨h.apart event r hr, h.nodup⟩
  · intro e s he hmem
    obtain ⟨hne, he⟩ := hkeep e s he
    rcases List.mem_cons.mp hmem with rfl | hmem
    · exact hne (h.once e event s he hr)
    · exact h.apart e s he hmem

/-- An event is given a reservation. -/
theorem Owns.store (h : Owns (r :: held) w) :
    Owns held { w with reservations := Function.update w.reservations event (some r) } := by
  have hnodup := List.nodup_cons.mp h.nodup
  have hkeep : ∀ e s, Function.update w.reservations event (some r) e = some s →
      (e = event ∧ s = r) ∨ (e ≠ event ∧ w.reservations e = some s) := by
    intro e s he
    by_cases heq : e = event
    · subst heq
      rw [Function.update_self] at he
      exact .inl ⟨rfl, (Option.some.inj he).symm⟩
    · exact .inr ⟨heq, by rwa [Function.update_of_ne heq] at he⟩
  refine ⟨h.consistent, ?_, ?_, fun s hs => h.live s (by simp [hs]), hnodup.2, ?_⟩
  · intro e s he
    rcases hkeep e s he with ⟨-, rfl⟩ | ⟨-, hold⟩
    · exact h.live s (by simp)
    · exact h.active e s hold
  · intro e e' s he he'
    rcases hkeep e s he with ⟨rfl, rfl⟩ | ⟨-, hold⟩
    · rcases hkeep e' s he' with ⟨rfl, -⟩ | ⟨-, hold'⟩
      · rfl
      · exact absurd (List.mem_cons_self ..) (h.apart e' s hold')
    · rcases hkeep e' s he' with ⟨-, rfl⟩ | ⟨-, hold'⟩
      · exact absurd (List.mem_cons_self ..) (h.apart e _ hold)
      · exact h.once e e' s hold hold'
  · intro e s he hmem
    rcases hkeep e s he with ⟨-, rfl⟩ | ⟨-, hold⟩
    · exact hnodup.1 hmem
    · exact h.apart e s hold (by simp [hmem])

/-- A held reservation leaves the queue's books, whatever else happens to the queue. -/
theorem Owns.spend (h : Owns (r :: held) w) {m : Machine Entry} (hm : m.Consistent)
    (hactive : m.queue.active = w.completions.queue.active.erase r) :
    Owns held { w with completions := m } := by
  have hnodup := List.nodup_cons.mp h.nodup
  have hkeep : ∀ s, s ≠ r → s ∈ w.completions.queue.active → s ∈ m.queue.active := by
    intro s hne hs
    rw [hactive]
    exact Finset.mem_erase.mpr ⟨hne, hs⟩
  refine ⟨hm, ?_, h.once, ?_, hnodup.2, ?_⟩
  · intro e s he
    refine hkeep s ?_ (h.active e s he)
    rintro rfl
    exact h.apart e s he (List.mem_cons_self ..)
  · intro s hs
    refine hkeep s ?_ (h.live s (by simp [hs]))
    rintro rfl
    exact hnodup.1 hs
  · intro e s he hmem
    exact h.apart e s he (by simp [hmem])

theorem Owns.took (h : Owns held w) (hroom : w.completions.HasRoom) :
    Owns (w.completions.queue.allocated :: held) { w with completions := w.completions.took } := by
  have hfresh : ∀ s ∈ w.completions.queue.active, s ≠ w.completions.queue.allocated := by
    rintro s hs rfl
    exact Nat.lt_irrefl _ (h.consistent.fresh _ hs)
  refine ⟨h.consistent.took hroom, ?_, h.once, ?_, ?_, ?_⟩
  · intro e s he
    exact Finset.mem_insert_of_mem (h.active e s he)
  · intro s hs
    rcases List.mem_cons.mp hs with rfl | hs
    · exact Finset.mem_insert_self ..
    · exact Finset.mem_insert_of_mem (h.live s hs)
  · refine List.nodup_cons.mpr ⟨fun hmem => ?_, h.nodup⟩
    exact hfresh _ (h.live _ hmem) rfl
  · intro e s he hmem
    rcases List.mem_cons.mp hmem with rfl | hmem
    · exact hfresh _ (h.active e _ he) rfl
    · exact h.apart e s he hmem

end

/-! ## Operations of the queue -/

/-- A computation that cannot raise ends in `Q`. -/
abbrev Always {α : Type} (m : M α) (Q : α → World → Prop) (w : World) : Prop :=
  wp m Q (fun _ _ => False) w

section
variable {held : List ReservationId} {w : World} {r : ReservationId} {event : Event}

theorem commit_spec (h : Owns (r :: held) w) (entry : Entry) :
    Always (onQueue (Machine.commit r entry))
      (fun _ w' => Owns held w' ∧ w'.view = w.view.commit [entry] ∧
        w'.reservations = w.reservations) w := by
  have hr : r ∈ w.completions.queue.active := h.live r (List.mem_cons_self ..)
  simp only [onQueue, Always, wp_zoom]
  rw [wp_of_ok (Machine.commit_ok hr entry)]
  exact ⟨h.spend (h.consistent.delivered hr entry) rfl, rfl, trivial⟩

theorem drop_spec (h : Owns (r :: held) w) :
    Always (onQueue (Machine.drop r))
      (fun _ w' => Owns held w' ∧ w'.view = w.view ∧ w'.reservations = w.reservations) w := by
  have hr : r ∈ w.completions.queue.active := h.live r (List.mem_cons_self ..)
  simp only [onQueue, Always, wp_zoom]
  rw [wp_of_ok (Machine.drop_active hr)]
  exact ⟨h.spend (h.consistent.released hr) rfl, rfl, trivial⟩

/-- Reserving takes a new reservation, or raises and leaves everything as it was. -/
theorem reserve_spec (h : Owns held w) :
    wp (onQueue Machine.reserve : M ReservationId)
      (fun r w' => Owns (r :: held) w' ∧ w'.view = w.view ∧ w'.reservations = w.reservations)
      (fun _ w' => w' = w) w := by
  simp only [onQueue, wp_zoom]
  by_cases hroom : w.completions.HasRoom
  · rw [wp_of_ok (Machine.reserve_ok hroom)]
    exact ⟨h.took hroom, rfl, trivial⟩
  · unfold wp
    rw [Machine.reserve_error hroom]

theorem discard_spec (h : Owns held w) :
    Always (WriteEvents.discard event)
      (fun _ w' => Owns held w' ∧ w'.view = w.view ∧
        w'.reservations = Function.update w.reservations event none) w := by
  simp only [WriteEvents.discard, Always, wp_bind, wp_get]
  cases hr : w.reservations event with
  | none =>
    simp only [wp_pure]
    exact ⟨h, trivial, (Function.update_eq_self_iff.mpr hr.symm).symm⟩
  | some r =>
    simp only [wp_bind, setReservation, wp_modify]
    exact drop_spec (h.take hr)

theorem reserveEvent_spec (h : Owns held w) (hr : (w.reservations event).isSome) :
    Always (WriteEvents.reserve event)
      (fun r w' => Owns (r :: held) w' ∧ w'.view = w.view ∧
        w'.reservations = Function.update w.reservations event none) w := by
  obtain ⟨r, hr⟩ := Option.isSome_iff_exists.mp hr
  simp only [WriteEvents.reserve, Always, wp_bind, wp_get, hr, setReservation, wp_modify, wp_pure]
  exact ⟨h.take hr, rfl, trivial⟩

theorem completeAll_spec (error : Option TsError) (completions : List StreamCompletion)
    (h : Owns (completions.map StreamCompletion.reservation ++ held) w) :
    Always (StreamCompletion.completeAll error completions)
      (fun _ w' => Owns held w' ∧ w'.view = w.view.completeAll error completions ∧
        w'.reservations = w.reservations) w := by
  induction completions generalizing w with
  | nil =>
    simp only [StreamCompletion.completeAll, Always, wp_pure]
    exact ⟨h, by simp [View.completeAll, View.completing, View.commit], trivial⟩
  | cons completion completions ih =>
    simp only [StreamCompletion.completeAll, Always, wp_bind]
    refine wp_mono (commit_spec h _) ?_ (fun _ _ h => h.elim)
    rintro - w₁ ⟨h₁, hview₁, hres₁⟩
    refine wp_mono (ih h₁) ?_ (fun _ _ h => h.elim)
    rintro - w₂ ⟨h₂, hview₂, hres₂⟩
    refine ⟨h₂, ?_, hres₂.trans hres₁⟩
    rw [hview₂, hview₁]
    simp [View.completeAll, View.completing, View.commit]

end

/-! ## Events -/

@[simp] theorem wp_setState {Q : PUnit → World → Prop} {E : Error → World → Prop} {w : World}
    (f : WritableState → WritableState) :
    wp (setState f) Q E w = Q ⟨⟩ { w with state := f w.state } := rfl

@[simp] theorem wp_setEvents {Q : PUnit → World → Prop} {E : Error → World → Prop} {w : World}
    (f : WriteEventState → WriteEventState) :
    wp (setEvents f) Q E w =
      Q ⟨⟩ { w with state := { w.state with events := f w.state.events } } := rfl

@[simp] theorem wp_setReservation {Q : PUnit → World → Prop} {E : Error → World → Prop} {w : World}
    (event : Event) (r : Option ReservationId) :
    wp (setReservation event r) Q E w =
      Q ⟨⟩ { w with reservations := Function.update w.reservations event r } := rfl

/-- Every event that may still happen has its reservation. -/
structure Ready (w : World) : Prop where
  error : w.state.events.errorScheduled = false → w.state.events.closed = false →
    (w.reservations .error).isSome
  complete : w.state.events.finishScheduled = false → w.state.events.error = none →
    w.state.events.cancelled = false → (w.reservations .complete).isSome
  finish : w.state.events.finished = false → w.state.events.error = none →
    w.state.events.cancelled = false → (w.reservations .finish).isSome
  drain : w.state.events.drainScheduled = false → w.state.events.finishScheduled = false →
    w.state.events.error = none → w.state.events.cancelled = false →
    (w.reservations .drain).isSome
  close : w.state.events.closeQueued = false → (w.reservations .close).isSome

/-- The reservations that stay from one operation to the next. -/
structure Kept (w : World) : Prop where
  finish : w.state.events.finishScheduled = true → w.state.events.finished = false →
    w.state.events.error = none → w.state.events.cancelled = false →
    (w.reservations .finish).isSome
  close : w.state.events.closeScheduled = true → w.state.events.closeQueued = false →
    (w.reservations .close).isSome

theorem Ready.kept {w : World} (h : Ready w) : Kept w :=
  ⟨fun _ => h.finish, fun _ => h.close⟩

/-- The outcome of an operation that had what it needed. -/
structure Done (held : List ReservationId) (v : View) (w : World) : Prop where
  owns : Owns held w
  ready : Ready w
  view : w.view = v

section
variable {held : List ReservationId} {w : World}

/-- Only the flags of the events matter to what must be reserved. -/
theorem Ready.of_same {w' : World} (h : Ready w) (hres : w'.reservations = w.reservations)
    (hflags : { w'.state.events with endCompletions := [], emitted := [] } =
      { w.state.events with endCompletions := [], emitted := [] }) : Ready w' := by
  obtain ⟨h₁, h₂, h₃, h₄, h₅⟩ := h
  simp only [WriteEventState.mk.injEq] at hflags
  obtain ⟨herror, hes, hfs, hf, hcs, hcq, hc, hds, -, hca, -⟩ := hflags
  exact ⟨by rwa [hes, hc, hres], by rwa [hfs, herror, hca, hres], by rwa [hf, herror, hca, hres],
    by rwa [hds, hfs, herror, hca, hres], by rwa [hcq, hres]⟩

theorem World.state_of_view {w' : World} {v : View} (h : w'.view = v) : w'.state = v.state :=
  congrArg View.state h

theorem Done.state {v : View} (hd : Done held v w) : w.state = v.state :=
  World.state_of_view hd.view

theorem Done.perm {held' : List ReservationId} {v : View} (hd : Done held v w)
    (hperm : held.Perm held') : Done held' v w :=
  ⟨hd.owns.perm hperm, hd.ready, hd.view⟩

/-- A change of the state that leaves the flags of the events as they are. -/
theorem Done.setState {v : View} (hd : Done held v w) (f : WritableState → WritableState)
    (hflags : { (f v.state).events with endCompletions := [], emitted := [] } =
      { v.state.events with endCompletions := [], emitted := [] }) :
    Done held (v.setState f) { w with state := f v.state } := by
  obtain ⟨h, hr, rfl⟩ := hd
  exact ⟨h.state _, hr.of_same rfl hflags, rfl⟩

theorem Done.modify {v : View} {f : WritableState → WritableState} (hd : Done held v w)
    (hflags : { (f v.state).events with endCompletions := [], emitted := [] } =
      { v.state.events with endCompletions := [], emitted := [] }) :
    Always (Stream.setState f) (fun _ => Done held (v.setState f)) w := by
  simp only [Always, wp_setState, hd.state]
  exact hd.setState f hflags

theorem Done.setEvents {v : View} (hd : Done held v w) (f : WriteEventState → WriteEventState)
    (hflags : { f v.state.events with endCompletions := [], emitted := [] } =
      { v.state.events with endCompletions := [], emitted := [] }) :
    Done held (v.setEvents f)
      { w with state := { v.state with events := f v.state.events } } :=
  hd.setState (fun state => { state with events := f state.events }) hflags

/-- What always happens may be followed up. -/
theorem Always.then {α : Type} {m : M α} {Q R : α → World → Prop} (h : Always m Q w)
    (hQ : ∀ a w', Q a w' → R a w') : Always m R w :=
  wp_mono h hQ fun _ _ h => h.elim

theorem Always.bind {α β : Type} {m : M β} {f : β → M α} {Q : β → World → Prop}
    {R : α → World → Prop} {E : Error → World → Prop} (h : Always m Q w)
    (hf : ∀ b w', Q b w' → wp (f b) R E w') : wp (m >>= f) R E w := by
  rw [wp_bind]
  exact wp_mono h hf fun _ _ h => h.elim

theorem wp_read {α : Type} {f : World → M α} {R : α → World → Prop} {E : Error → World → Prop}
    (h : wp (f w) R E w) : wp (get >>= f) R E w := h

theorem Done.completeAll {v : View} (error : Option TsError) (completions : List StreamCompletion)
    (hd : Done (completions.map StreamCompletion.reservation ++ held) v w) :
    Always (StreamCompletion.completeAll error completions)
      (fun _ => Done held (v.completeAll error completions)) w := by
  obtain ⟨h, hr, rfl⟩ := hd
  refine wp_mono (completeAll_spec error completions h) ?_ (fun _ _ h => h.elim)
  rintro - w₁ ⟨h₁, hview, hres⟩
  refine ⟨h₁, hr.of_same hres ?_, hview⟩
  rw [World.state_of_view hview]
  rfl

theorem Done.completeEnd {v : View} (error : Option TsError) {completions : List StreamCompletion}
    (hd : Done (completions.map StreamCompletion.reservation ++ held) v w)
    (hend : v.state.events.endCompletions = completions) :
    Always (WriteEvents.completeEnd error) (fun _ => Done held (v.completeEnd error)) w := by
  subst hend
  simp only [WriteEvents.completeEnd, Always, wp_bind, wp_get, wp_setEvents, hd.state]
  exact (hd.setEvents _ rfl).completeAll error _

theorem Done.fail {v : View} (error : TsError) (hd : Done held v w) :
    Always (WriteEvents.fail error) (fun _ => Done held (v.failEvents error)) w := by
  obtain ⟨h, hr, rfl⟩ := hd
  simp only [WriteEvents.fail, Always, wp_bind, wp_get, wp_ite]
  by_cases hc : w.state.events.errorScheduled = true ∨ w.state.events.closed = true
  · rw [if_pos hc]
    exact ⟨h, hr, (if_pos hc).symm⟩
  · have hview : w.view.failEvents error = _ := if_neg hc
    rw [if_neg hc, hview]
    simp only [not_or, Bool.not_eq_true] at hc
    refine wp_mono (reserveEvent_spec h (hr.error hc.1 hc.2)) ?_ (fun _ _ h => h.elim)
    rintro r w₁ ⟨h₁, hview₁, hres₁⟩
    simp only [wp_setEvents]
    refine wp_mono (discard_spec (h₁.state _)) ?_ (fun _ _ h => h.elim)
    rintro - w₂ ⟨h₂, hview₂, hres₂⟩
    refine wp_mono (discard_spec h₂) ?_ (fun _ _ h => h.elim)
    rintro - w₃ ⟨h₃, hview₃, hres₃⟩
    refine wp_mono (discard_spec h₃) ?_ (fun _ _ h => h.elim)
    rintro - w₄ ⟨h₄, hview₄, hres₄⟩
    refine wp_mono (commit_spec h₄ _) ?_ (fun _ _ h => h.elim)
    rintro - w₅ ⟨h₅, hview₅, hres₅⟩
    have hdone : w₅.view = (w.view.setEvents fun events =>
        { events with error := some error, errorScheduled := true }).commit [.event .error] := by
      rw [hview₅, hview₄, hview₃, hview₂, ← hview₁]
      rfl
    have hstate := World.state_of_view hdone
    refine ⟨h₅, ⟨?_, ?_, ?_, ?_, ?_⟩, hdone⟩
    · intro he
      rw [hstate] at he
      cases he
    · intro _ he
      rw [hstate] at he
      cases he
    · intro _ he
      rw [hstate] at he
      cases he
    · intro _ _ he
      rw [hstate] at he
      cases he
    · intro hq
      rw [hstate] at hq
      simp only [hres₅, hres₄, hres₃, hres₂, hres₁, Function.update_apply, reduceCtorEq, if_false]
      exact hr.close hq

theorem Done.finish {v : View} (hd : Done held v w) :
    Always WriteEvents.finish (fun _ => Done held v.finishEvents) w := by
  obtain ⟨h, hr, rfl⟩ := hd
  simp only [WriteEvents.finish, Always, wp_bind, wp_get, wp_ite]
  by_cases hc : w.state.events.finishScheduled = true ∨ w.state.events.error.isSome = true ∨
      w.state.events.cancelled = true
  · rw [if_pos hc]
    exact ⟨h, hr, (if_pos hc).symm⟩
  · have hview : w.view.finishEvents = _ := if_neg hc
    rw [if_neg hc, hview]
    simp only [not_or, Bool.not_eq_true, Option.isSome_eq_false_iff, Option.isNone_iff_eq_none]
      at hc
    obtain ⟨hfinish, herror, hcancelled⟩ := hc
    refine wp_mono (reserveEvent_spec h (hr.complete hfinish herror hcancelled)) ?_
      (fun _ _ h => h.elim)
    rintro r w₁ ⟨h₁, hview₁, hres₁⟩
    simp only [wp_setEvents]
    refine wp_mono (discard_spec (h₁.state _)) ?_ (fun _ _ h => h.elim)
    rintro - w₂ ⟨h₂, hview₂, hres₂⟩
    refine wp_mono (commit_spec h₂ _) ?_ (fun _ _ h => h.elim)
    rintro - w₃ ⟨h₃, hview₃, hres₃⟩
    have hdone : w₃.view = (w.view.setEvents fun events =>
        { events with finishScheduled := true }).commit [.event .complete] := by
      rw [hview₃, hview₂, ← hview₁]
      rfl
    have hstate := World.state_of_view hdone
    refine ⟨h₃, ⟨?_, ?_, ?_, ?_, ?_⟩, hdone⟩
    · intro he hc
      rw [hstate] at he hc
      simp only [hres₃, hres₂, hres₁, Function.update_apply, reduceCtorEq, if_false]
      exact hr.error he hc
    · intro hf
      rw [hstate] at hf
      cases hf
    · intro hf he hc
      rw [hstate] at hf
      simp only [hres₃, hres₂, hres₁, Function.update_apply, reduceCtorEq, if_false]
      exact hr.finish hf herror hcancelled
    · intro _ hf
      rw [hstate] at hf
      cases hf
    · intro hq
      rw [hstate] at hq
      simp only [hres₃, hres₂, hres₁, Function.update_apply, reduceCtorEq, if_false]
      exact hr.close hq

/-- Queueing `close` changes that flag only. -/
theorem View.queueClose_events (v : View) :
    v.queueClose.state.events =
      { v.state.events with closeQueued := v.queueClose.state.events.closeQueued } ∧
    (v.queueClose.state.events.closeQueued = false → v.state.events.closeQueued = false) := by
  unfold queueClose
  split
  · exact ⟨rfl, id⟩
  · exact ⟨rfl, fun h => by cases h⟩

theorem queueClose_spec (h : Owns held w)
    (hclose : w.state.events.closeScheduled = true → w.state.events.closeQueued = false →
      (w.reservations .close).isSome) :
    Always WriteEvents.queueClose
      (fun _ w' => Owns held w' ∧ w'.view = w.view.queueClose ∧
        (∀ event ≠ Event.close, w'.reservations event = w.reservations event) ∧
        (w'.state.events.closeQueued = false →
          w'.reservations .close = w.reservations .close)) w := by
  simp only [WriteEvents.queueClose, Always, wp_bind, wp_get, wp_ite]
  by_cases hc : ¬ w.state.events.closeScheduled = true ∨ w.state.events.closeQueued = true
  · rw [if_pos hc]
    exact ⟨h, (if_pos hc).symm, fun _ _ => rfl, fun _ => rfl⟩
  · have hview : w.view.queueClose = _ := if_neg hc
    rw [if_neg hc, hview]
    simp only [not_or, Bool.not_eq_true, Bool.not_eq_false] at hc
    refine wp_mono (reserveEvent_spec h (hclose hc.1 hc.2)) ?_ (fun _ _ h => h.elim)
    rintro r w₁ ⟨h₁, hview₁, hres₁⟩
    simp only [wp_setEvents]
    refine wp_mono (commit_spec (h₁.state _) _) ?_ (fun _ _ h => h.elim)
    rintro - w₂ ⟨h₂, hview₂, hres₂⟩
    have hdone : w₂.view = (w.view.setEvents fun events =>
        { events with closeQueued := true }).commit [.event .close] := by
      rw [hview₂, ← hview₁]
      rfl
    refine ⟨h₂, hdone, fun event hne => ?_, fun hq => ?_⟩
    · simp only [hres₂, hres₁, Function.update_of_ne hne]
    · rw [World.state_of_view hdone] at hq
      cases hq

theorem Done.queueClose {v : View} (hd : Done held v w) :
    Always WriteEvents.queueClose (fun _ => Done held v.queueClose) w := by
  obtain ⟨h, hr, rfl⟩ := hd
  refine wp_mono (queueClose_spec h fun _ => hr.close) ?_ (fun _ _ h => h.elim)
  rintro - w₁ ⟨h₁, hview, hres, hclose⟩
  have hstate := World.state_of_view hview
  obtain ⟨hevents, hqueued⟩ := w.view.queueClose_events
  rw [← hstate] at hevents hqueued
  refine ⟨h₁, ⟨?_, ?_, ?_, ?_, fun hq => ?_⟩, hview⟩
  · rw [hres _ (by decide), hevents]
    exact hr.error
  · rw [hres _ (by decide), hevents]
    exact hr.complete
  · rw [hres _ (by decide), hevents]
    exact hr.finish
  · rw [hres _ (by decide), hevents]
    exact hr.drain
  · rw [hclose hq]
    exact hr.close (hqueued hq)

theorem Done.close {v : View} (hd : Done held v w) :
    Always WriteEvents.close (fun _ => Done held v.closeEvents) w := by
  obtain ⟨h, hr, rfl⟩ := hd
  have hr' : Ready { w with state := { w.state with
      events := { w.state.events with closeScheduled := true } } } :=
    ⟨hr.error, hr.complete, hr.finish, hr.drain, hr.close⟩
  simp only [WriteEvents.close, Always, wp_bind, wp_get, wp_setEvents, wp_ite]
  by_cases hc : ¬ w.state.events.finishScheduled = true ∨ w.state.events.finished = true ∨
      w.state.events.error.isSome = true ∨ w.state.events.cancelled = true
  · have hview : w.view.closeEvents = _ := if_pos hc
    rw [if_pos hc, hview]
    exact Done.queueClose ⟨h.state _, hr', rfl⟩
  · have hview : w.view.closeEvents = _ := if_neg hc
    rw [if_neg hc, hview]
    exact ⟨h.state _, hr', rfl⟩

theorem Done.drain {v : View} (hd : Done held v w) :
    Always WriteEvents.drain (fun _ => Done held v.drain) w := by
  obtain ⟨h, hr, rfl⟩ := hd
  simp only [WriteEvents.drain, Always, wp_bind, wp_get, wp_ite]
  by_cases hc : w.state.events.drainScheduled = true ∨ w.state.events.finishScheduled = true ∨
      w.state.events.error.isSome = true ∨ w.state.events.cancelled = true
  · rw [if_pos hc]
    exact ⟨h, hr, (if_pos hc).symm⟩
  · have hview : w.view.drain = _ := if_neg hc
    rw [if_neg hc, hview]
    simp only [not_or, Bool.not_eq_true, Option.isSome_eq_false_iff, Option.isNone_iff_eq_none]
      at hc
    obtain ⟨hdrain, hfinish, herror, hcancelled⟩ := hc
    refine wp_mono (reserveEvent_spec h (hr.drain hdrain hfinish herror hcancelled)) ?_
      (fun _ _ h => h.elim)
    rintro r w₁ ⟨h₁, hview₁, hres₁⟩
    simp only [wp_setEvents]
    refine wp_mono (commit_spec (h₁.state _) _) ?_ (fun _ _ h => h.elim)
    rintro - w₂ ⟨h₂, hview₂, hres₂⟩
    have hdone : w₂.view = (w.view.setEvents fun events =>
        { events with drainScheduled := true }).commit [.event .drain] := by
      rw [hview₂, ← hview₁]
      rfl
    have hstate := World.state_of_view hdone
    refine ⟨h₂, ⟨?_, ?_, ?_, ?_, ?_⟩, hdone⟩
    · intro he hc
      rw [hstate] at he hc
      simp only [hres₂, hres₁, Function.update_apply, reduceCtorEq, if_false]
      exact hr.error he hc
    · intro hf he hc
      simp only [hres₂, hres₁, Function.update_apply, reduceCtorEq, if_false]
      exact hr.complete hfinish herror hcancelled
    · intro hf he hc
      rw [hstate] at hf
      simp only [hres₂, hres₁, Function.update_apply, reduceCtorEq, if_false]
      exact hr.finish hf herror hcancelled
    · intro hd
      rw [hstate] at hd
      cases hd
    · intro hq
      rw [hstate] at hq
      simp only [hres₂, hres₁, Function.update_apply, reduceCtorEq, if_false]
      exact hr.close hq

theorem Done.cancel {v : View} (hd : Done held v w) :
    Always WriteEvents.cancel (fun _ => Done held v.cancel) w := by
  obtain ⟨h, hr, rfl⟩ := hd
  simp only [WriteEvents.cancel, Always, wp_bind, wp_setEvents]
  refine wp_mono (discard_spec (h.state _)) ?_ (fun _ _ h => h.elim)
  rintro - w₁ ⟨h₁, hview₁, hres₁⟩
  refine wp_mono (discard_spec h₁) ?_ (fun _ _ h => h.elim)
  rintro - w₂ ⟨h₂, hview₂, hres₂⟩
  refine wp_mono (discard_spec h₂) ?_ (fun _ _ h => h.elim)
  rintro - w₃ ⟨h₃, hview₃, hres₃⟩
  have hdone : w₃.view = w.view.cancel := by
    rw [hview₃, hview₂, hview₁]
    rfl
  have hstate := World.state_of_view hdone
  refine ⟨h₃, ⟨?_, ?_, ?_, ?_, ?_⟩, hdone⟩
  · intro he hc
    rw [hstate] at he hc
    simp only [hres₃, hres₂, hres₁, Function.update_apply, reduceCtorEq, if_false]
    exact hr.error he hc
  · intro _ _ hc
    rw [hstate] at hc
    cases hc
  · intro _ _ hc
    rw [hstate] at hc
    cases hc
  · intro _ _ _ hc
    rw [hstate] at hc
    cases hc
  · intro hq
    rw [hstate] at hq
    simp only [hres₃, hres₂, hres₁, Function.update_apply, reduceCtorEq, if_false]
    exact hr.close hq

/-! ## Preparing -/

theorem reserveAll_spec (events : List Event) (h : Owns held w) :
    wp (WriteEvents.reserveAll events)
      (fun pending w' => pending.map Prod.fst = events ∧
        Owns (pending.map Prod.snd ++ held) w' ∧ w'.view = w.view ∧
        w'.reservations = w.reservations)
      (fun _ w' => Owns held w' ∧ w'.view = w.view ∧ w'.reservations = w.reservations) w := by
  induction events generalizing w held with
  | nil =>
    simp only [WriteEvents.reserveAll, wp_pure]
    exact ⟨rfl, h, trivial, trivial⟩
  | cons event events ih =>
    simp only [WriteEvents.reserveAll, wp_bind, wp_tryCatch, wp_throw, wp_pure]
    refine wp_mono (reserve_spec h) ?_ ?_
    · rintro r w₁ ⟨h₁, hview₁, hres₁⟩
      refine wp_mono (ih h₁) ?_ ?_
      · rintro pending w₂ ⟨hfst, h₂, hview₂, hres₂⟩
        refine ⟨by rw [List.map_cons, hfst], h₂.perm ?_, hview₂.trans hview₁, hres₂.trans hres₁⟩
        exact List.perm_middle
      · rintro - w₂ ⟨h₂, hview₂, hres₂⟩
        refine wp_mono (drop_spec h₂) ?_ (fun _ _ h => h.elim)
        rintro - w₃ ⟨h₃, hview₃, hres₃⟩
        exact ⟨h₃, hview₃.trans (hview₂.trans hview₁), hres₃.trans (hres₂.trans hres₁)⟩
    · rintro - w₁ rfl
      exact ⟨h, rfl, rfl⟩

theorem storeAll_spec (pending : List (Event × ReservationId))
    (h : Owns (pending.map Prod.snd ++ held) w) :
    Always (WriteEvents.storeAll pending)
      (fun _ w' => Owns held w' ∧ w'.view = w.view ∧
        ∀ event, (w.reservations event).isSome ∨ event ∈ pending.map Prod.fst →
          (w'.reservations event).isSome) w := by
  induction pending generalizing w with
  | nil =>
    simp only [WriteEvents.storeAll, Always, wp_pure]
    exact ⟨h, trivial, fun event he => by simpa using he⟩
  | cons p pending ih =>
    obtain ⟨event, r⟩ := p
    simp only [WriteEvents.storeAll, Always, wp_bind, wp_setReservation]
    refine wp_mono (ih h.store) ?_ (fun _ _ h => h.elim)
    rintro - w₁ ⟨h₁, hview₁, hsome⟩
    refine ⟨h₁, hview₁, fun e he => hsome e ?_⟩
    by_cases heq : e = event
    · left
      rw [heq]
      simp only [Function.update_self, Option.isSome_some]
    · rcases he with he | he
      · left
        simpa only [Function.update_of_ne heq] using he
      · right
        simpa [heq] using he

/-- Facts about the flags that preparing relies on. -/
structure View.Lawful (v : View) : Prop where
  queued : v.state.events.closeQueued = true → v.state.events.closeScheduled = true
  closed : v.state.events.closed = true → v.state.events.closeQueued = true
  spent : v.state.events.closed = true → v.state.events.finishScheduled = true ∨
    v.state.events.error.isSome = true ∨ v.state.events.cancelled = true
  finished : v.state.events.finished = true → v.state.events.finishScheduled = true

/-- A closed stream has nothing left to reserve. -/
theorem Kept.ready_of_closed (hk : Kept w) (hl : w.view.Lawful)
    (hc : w.state.events.closed = true) : Ready w := by
  have hq : w.state.events.closeQueued = true := hl.closed hc
  have hspent : w.state.events.finishScheduled = true ∨ w.state.events.error.isSome = true ∨
    w.state.events.cancelled = true := hl.spent hc
  refine ⟨fun _ h => ?_, fun hf he hca => ?_, fun hf he hca => ?_, fun _ hf he hca => ?_,
    fun h => ?_⟩
  · rw [hc] at h
    cases h
  · simp [hf, he, hca] at hspent
  · simp only [he, hca, Option.isSome_none, Bool.false_eq_true, or_false] at hspent
    exact hk.finish hspent hf he hca
  · simp [hf, he, hca] at hspent
  · rw [hq] at h
    cases h

theorem mem_prepared {events : WriteEventState} {event : Event} :
    event ∈ WriteEvents.prepared events ↔
      (event = .error ∧ events.errorScheduled = false) ∨
      ((event = .complete ∨ event = .finish) ∧ events.finishScheduled = false ∧
        events.error = none ∧ events.cancelled = false) ∨
      (event = .drain ∧ events.finishScheduled = false ∧ events.error = none ∧
        events.cancelled = false ∧ events.drainScheduled = false) ∨
      (event = .close ∧ events.closeScheduled = false) := by
  unfold WriteEvents.prepared
  cases events.errorScheduled <;> cases events.finishScheduled <;> cases events.error <;>
    cases events.cancelled <;> cases events.drainScheduled <;> cases events.closeScheduled <;>
    cases event <;> simp

/-- `prepare` reserves what is missing, or raises and leaves everything as it was. -/
theorem prepare_spec (h : Owns held w) (hk : Kept w) (hl : w.view.Lawful) :
    wp WriteEvents.prepare (fun _ => Done held w.view)
      (fun _ w' => Owns held w' ∧ w'.view = w.view ∧ w'.reservations = w.reservations) w := by
  simp only [WriteEvents.prepare, wp_bind, wp_get, wp_ite, wp_pure]
  by_cases hc : w.state.events.closed = true
  · rw [if_pos hc]
    exact ⟨h, hk.ready_of_closed hl hc, rfl⟩
  · rw [if_neg hc]
    refine wp_mono (reserveAll_spec _ h) ?_ (fun _ _ h => h)
    rintro pending w₁ ⟨hfst, h₁, hview₁, hres₁⟩
    refine wp_mono (storeAll_spec pending h₁) ?_ (fun _ _ h => h.elim)
    rintro - w₂ ⟨h₂, hview₂, hsome⟩
    have hview := hview₂.trans hview₁
    have hstate : w₂.state = w.state := World.state_of_view hview
    have hkept : ∀ event, (w.reservations event).isSome → (w₂.reservations event).isSome := by
      intro event he
      exact hsome event (.inl (by rw [hres₁]; exact he))
    have hprepared : ∀ event ∈ WriteEvents.prepared w.state.events,
        (w₂.reservations event).isSome := by
      intro event he
      cases hr : w.reservations event with
      | some r => exact hkept event (by rw [hr]; rfl)
      | none =>
        refine hsome event (.inr ?_)
        rw [hfst]
        exact List.mem_filter.mpr ⟨he, by rw [hr]; rfl⟩
    refine ⟨h₂, ⟨?_, ?_, ?_, ?_, ?_⟩, hview⟩ <;> rw [hstate]
    · exact fun he _ => hprepared _ (mem_prepared.mpr (by simp [he]))
    · exact fun hf he hca => hprepared _ (mem_prepared.mpr (by simp [hf, he, hca]))
    · intro hf he hca
      by_cases hfs : w.state.events.finishScheduled = true
      · exact hkept _ (hk.finish hfs hf he hca)
      · exact hprepared _ (mem_prepared.mpr (by simp [hfs, he, hca]))
    · exact fun hd hf he hca => hprepared _ (mem_prepared.mpr (by simp [hd, hf, he, hca]))
    · intro hq
      by_cases hcs : w.state.events.closeScheduled = true
      · exact hkept _ (hk.close hcs hq)
      · exact hprepared _ (mem_prepared.mpr (by simp [hcs]))

/-- With everything reserved, preparing again cannot raise. -/
theorem Done.prepare {v : View} (hd : Done held v w) (hl : v.Lawful) :
    Always WriteEvents.prepare (fun _ => Done held v) w := by
  obtain ⟨h, hr, rfl⟩ := hd
  simp only [WriteEvents.prepare, Always, wp_bind, wp_get, wp_ite, wp_pure]
  by_cases hc : w.state.events.closed = true
  · rw [if_pos hc]
    exact ⟨h, hr, rfl⟩
  · rw [if_neg hc]
    have hnone : ((WriteEvents.prepared w.state.events).filter
        fun event => (w.reservations event).isNone) = [] := by
      rw [List.filter_eq_nil_iff]
      intro event he
      rw [Bool.not_eq_true, Option.isNone_eq_false_iff]
      rcases mem_prepared.mp he with ⟨rfl, hes⟩ | ⟨rfl | rfl, hf, herr, hca⟩ |
        ⟨rfl, hf, herr, hca, hd⟩ | ⟨rfl, hcs⟩
      · exact hr.error hes (by simpa using hc)
      · exact hr.complete hf herr hca
      · refine hr.finish ?_ herr hca
        by_contra hfin
        rw [Bool.not_eq_false] at hfin
        exact absurd (hl.finished hfin) (by simpa [World.view] using hf)
      · exact hr.drain hd hf herr hca
      · refine hr.close ?_
        by_contra hq
        rw [Bool.not_eq_false] at hq
        exact absurd (hl.queued hq) (by simpa [World.view] using hcs)
    rw [hnone]
    simp only [WriteEvents.reserveAll, wp_pure, WriteEvents.storeAll]
    exact ⟨h, hr, rfl⟩

end

end TsonicNode.Stream
