import TsonicNode.Stream.WritableView
import Mathlib.Logic.Relation

/-!
# What an operation can do to the events

Every operation of a writable stream is a sequence of `Move`s: transitions of
the events, reports to callbacks, and changes that leave the events alone
(`destroy` marks the stream as cancelled before it moves).
`Events` is what every move preserves: which event was queued how often, and
that only an `error` is ever queued behind a `close`. `Later` is what holds
between the two ends of a sequence of moves.
-/

namespace TsonicNode.Stream

open TsonicNode.Lib TsonicNode.Internal

namespace View

/-- The stream finishes, failed or was destroyed: there will be no further `finish` to wait for. -/
def Over (v : View) : Prop :=
  v.state.events.finishScheduled = true ∨ v.state.events.error.isSome = true ∨
    v.state.events.cancelled = true

/-- `finish` is decided. -/
def Settled (v : View) : Prop :=
  v.state.events.finished = true ∨ v.state.events.error.isSome = true ∨
    v.state.events.cancelled = true

inductive Move : View → View → Prop where
  /-- Nothing about the events but the pending callbacks. -/
  | quiet (v : View) (f : WritableState → WritableState)
      (h : { (f v.state).events with endCompletions := [] } =
        { v.state.events with endCompletions := [] }) : Move v (v.setState f)
  | report (v : View) (error : Option TsError) (completions : List StreamCompletion) :
      Move v (v.completeAll error completions)
  | fail (v : View) (error : TsError) : Move v (v.failEvents error)
  | finish (v : View) : Move v v.finishEvents
  | close (v : View) (h : v.Over) : Move v v.closeEvents
  | drain (v : View) : Move v v.drain
  /-- Another stream. -/
  | other (v : View) : Move v (v.commit [.foreign])

abbrev Moves : View → View → Prop := Relation.ReflTransGen Move

/-- How often an event stands in a list of entries. -/
def times (event : Event) (entries : List Entry) : Nat := entries.count (.event event)

/-- Behind a `close` there is no event but `error`. -/
def Follows (earlier later : Entry) : Prop :=
  earlier = .event .close → ∀ event, later = .event event → event = .error

structure Events (v : View) : Prop where
  recorded : v.state.events.errorScheduled = v.state.events.error.isSome
  finished : v.state.events.finished = true → v.state.events.finishScheduled = true
  queued : v.state.events.closeQueued = true → v.state.events.closeScheduled = true
  isOver : v.state.events.closeScheduled = true → v.Over
  settled : v.state.events.closeQueued = true → v.Settled
  closed : v.state.events.closed = true → v.state.events.closeQueued = true
  errors : times .error v.commits = v.state.events.errorScheduled.toNat
  completes : times .complete v.commits = v.state.events.finishScheduled.toNat
  finishes : times .finish v.commits = v.state.events.finished.toNat
  closes : times .close v.commits = v.state.events.closeQueued.toNat
  order : v.commits.Pairwise Follows

/-! ## Lists of entries -/

@[simp] theorem times_append (event : Event) (entries entries' : List Entry) :
    times event (entries ++ entries') = times event entries + times event entries' :=
  List.count_append

@[simp] theorem times_completing (event : Event) (error : Option TsError)
    (completions : List StreamCompletion) : times event (completing error completions) = 0 := by
  unfold times completing
  rw [List.count_eq_zero]
  intro h
  obtain ⟨completion, -, heq⟩ := List.mem_map.mp h
  cases heq

@[simp] theorem times_event (event event' : Event) :
    times event [.event event'] = if event' = event then 1 else 0 := by
  unfold times
  rw [List.count_singleton]
  by_cases h : event' = event <;> simp [h]

theorem times_pos {event : Event} {entries : List Entry} :
    Entry.event event ∈ entries ↔ 0 < times event entries :=
  List.count_pos_iff.symm

theorem event_notMem {event : Event} {entries : List Entry} (h : times event entries = 0) :
    Entry.event event ∉ entries :=
  List.count_eq_zero.mp h

theorem follows_completing {entries : List Entry} (h : entries.Pairwise Follows)
    (error : Option TsError) (completions : List StreamCompletion) :
    (entries ++ completing error completions).Pairwise Follows := by
  have hentry : ∀ entry ∈ completing error completions, ∀ event, entry ≠ .event event := by
    intro entry hentry event heq
    obtain ⟨completion, -, rfl⟩ := List.mem_map.mp hentry
    cases heq
  refine List.pairwise_append.mpr ⟨h, ?_, fun _ _ b hb _ event heq => absurd heq (hentry b hb event)⟩
  exact List.pairwise_of_forall_mem_list fun _ _ b hb _ event heq => absurd heq (hentry b hb event)

/-- An event may be queued as long as no `close` is, and `error` always. -/
theorem follows_event {entries : List Entry} (h : entries.Pairwise Follows) {event : Event}
    (hevent : event = .error ∨ times .close entries = 0) :
    (entries ++ [Entry.event event]).Pairwise Follows := by
  refine List.pairwise_append.mpr ⟨h, List.pairwise_singleton _ _, fun a ha b hb hclose e heq => ?_⟩
  rcases hevent with rfl | hnone
  · rw [List.mem_singleton.mp hb] at heq
    exact (Entry.event.inj heq).symm
  · exact absurd (hclose ▸ ha) (event_notMem hnone)

/-! ## What a move preserves -/

theorem Events.quiet {v : View} (h : v.Events) (f : WritableState → WritableState)
    (hf : { (f v.state).events with endCompletions := [] } =
      { v.state.events with endCompletions := [] }) : (v.setState f).Events := by
  simp only [WriteEventState.mk.injEq] at hf
  obtain ⟨he, hes, hfs, hfi, hcs, hcq, hc, -, -, hca, -⟩ := hf
  have hover : (v.setState f).Over ↔ v.Over := by simp only [Over, setState_state, hfs, he, hca]
  have hsettled : (v.setState f).Settled ↔ v.Settled := by
    simp only [Settled, setState_state, hfi, he, hca]
  exact
    { recorded := by rw [setState_state, hes, he]; exact h.recorded
      finished := by rw [setState_state, hfi, hfs]; exact h.finished
      queued := by rw [setState_state, hcq, hcs]; exact h.queued
      isOver := by rw [setState_state, hcs, hover]; exact h.isOver
      settled := by rw [setState_state, hcq, hsettled]; exact h.settled
      closed := by rw [setState_state, hc, hcq]; exact h.closed
      errors := by rw [setState_state, hes]; exact h.errors
      completes := by rw [setState_state, hfs]; exact h.completes
      finishes := by rw [setState_state, hfi]; exact h.finishes
      closes := by rw [setState_state, hcq]; exact h.closes
      order := h.order }

theorem Events.report {v : View} (h : v.Events) (error : Option TsError)
    (completions : List StreamCompletion) : (v.completeAll error completions).Events where
  recorded := h.recorded
  finished := h.finished
  queued := h.queued
  isOver := h.isOver
  settled := h.settled
  closed := h.closed
  errors := by simpa [completeAll, commit] using h.errors
  completes := by simpa [completeAll, commit] using h.completes
  finishes := by simpa [completeAll, commit] using h.finishes
  closes := by simpa [completeAll, commit] using h.closes
  order := follows_completing h.order error completions

theorem Events.fail {v : View} (h : v.Events) (error : TsError) : (v.failEvents error).Events := by
  unfold failEvents
  split
  · exact h
  · rename_i hc
    simp only [not_or, Bool.not_eq_true] at hc
    have herrors := h.errors
    rw [hc.1] at herrors
    exact
      { recorded := rfl
        finished := h.finished
        queued := h.queued
        isOver := fun _ => .inr (.inl rfl)
        settled := fun _ => .inr (.inl rfl)
        closed := h.closed
        errors := by simp [commit, setEvents, setState, herrors]
        completes := by simpa [commit, setEvents, setState] using h.completes
        finishes := by simpa [commit, setEvents, setState] using h.finishes
        closes := by simpa [commit, setEvents, setState] using h.closes
        order := follows_event h.order (.inl rfl) }

/-- A stream that is not over has not queued its `close`. -/
theorem Events.close_open {v : View} (h : v.Events) (hover : ¬ v.Over) :
    v.state.events.closeQueued = false ∧ times .close v.commits = 0 := by
  have hqueued : v.state.events.closeQueued = false := by
    by_contra hne
    exact hover (h.isOver (h.queued (by simpa using hne)))
  exact ⟨hqueued, by rw [h.closes, hqueued]; rfl⟩

theorem Events.finish {v : View} (h : v.Events) : v.finishEvents.Events := by
  unfold finishEvents
  split
  · exact h
  · rename_i hover
    have hopen := h.close_open hover
    have hcompletes := h.completes
    simp only [not_or, Bool.not_eq_true] at hover
    rw [hover.1] at hcompletes
    exact
      { recorded := h.recorded
        finished := fun _ => rfl
        queued := h.queued
        isOver := fun _ => .inl rfl
        settled := h.settled
        closed := h.closed
        errors := by simpa [commit, setEvents, setState] using h.errors
        completes := by simp [commit, setEvents, setState, hcompletes]
        finishes := by simpa [commit, setEvents, setState] using h.finishes
        closes := by simpa [commit, setEvents, setState] using h.closes
        order := follows_event h.order (.inr hopen.2) }

theorem Events.queueClose {v : View} (h : v.Events) (hsettled : v.Settled) :
    v.queueClose.Events := by
  unfold View.queueClose
  split
  · exact h
  · rename_i hc
    simp only [not_or, Bool.not_eq_true, Bool.not_eq_false] at hc
    have hcloses := h.closes
    rw [hc.2] at hcloses
    exact
      { recorded := h.recorded
        finished := h.finished
        queued := fun _ => hc.1
        isOver := h.isOver
        settled := fun _ => hsettled
        closed := fun _ => rfl
        errors := by simpa [commit, setEvents, setState] using h.errors
        completes := by simpa [commit, setEvents, setState] using h.completes
        finishes := by simpa [commit, setEvents, setState] using h.finishes
        closes := by simp [commit, setEvents, setState, hcloses]
        order := follows_event h.order (.inr hcloses) }

theorem Events.close {v : View} (h : v.Events) (hover : v.Over) : v.closeEvents.Events := by
  have hscheduled : (v.setEvents fun events => { events with closeScheduled := true }).Events :=
    { h with
      queued := fun _ => rfl
      isOver := fun _ => hover }
  unfold closeEvents
  dsimp only
  split
  · rename_i hc
    refine hscheduled.queueClose ?_
    rcases hc with hc | hc
    · rcases hover with hf | hover
      · exact absurd hf hc
      · exact .inr hover
    · exact hc
  · exact hscheduled

theorem Events.drain {v : View} (h : v.Events) : v.drain.Events := by
  unfold View.drain
  split
  · exact h
  · rename_i hc
    have hopen := h.close_open fun hover => hc (.inr hover)
    exact
      { recorded := h.recorded
        finished := h.finished
        queued := h.queued
        isOver := h.isOver
        settled := h.settled
        closed := h.closed
        errors := by simpa [commit, setEvents, setState] using h.errors
        completes := by simpa [commit, setEvents, setState] using h.completes
        finishes := by simpa [commit, setEvents, setState] using h.finishes
        closes := by simpa [commit, setEvents, setState] using h.closes
        order := follows_event h.order (.inr hopen.2) }

theorem Events.cancel {v : View} (h : v.Events) : v.cancel.Events :=
  { h with
    isOver := fun _ => .inr (.inr rfl)
    settled := fun _ => .inr (.inr rfl) }

theorem times_foreign (event : Event) : times event [.foreign] = 0 := rfl

theorem Events.other {v : View} (h : v.Events) : (v.commit [.foreign]).Events where
  recorded := h.recorded
  finished := h.finished
  queued := h.queued
  isOver := h.isOver
  settled := h.settled
  closed := h.closed
  errors := by simpa [commit, times_foreign] using h.errors
  completes := by simpa [commit, times_foreign] using h.completes
  finishes := by simpa [commit, times_foreign] using h.finishes
  closes := by simpa [commit, times_foreign] using h.closes
  order := by
    refine List.pairwise_append.mpr ⟨h.order, List.pairwise_singleton _ _, fun a _ b hb _ e heq => ?_⟩
    rw [List.mem_singleton.mp hb] at heq
    cases heq

theorem Events.move {v v' : View} (hmove : Move v v') (h : v.Events) : v'.Events := by
  cases hmove with
  | quiet f hf => exact h.quiet f hf
  | report error completions => exact h.report error completions
  | fail error => exact h.fail error
  | finish => exact h.finish
  | close hover => exact h.close hover
  | drain => exact h.drain
  | other => exact h.other

theorem Events.moves {v v' : View} (hmoves : Moves v v') (h : v.Events) : v'.Events := by
  induction hmoves with
  | refl => exact h
  | tail _ hmove ih => exact ih.move hmove

/-! ## What no move undoes -/

/-- `v'` is a later view of `v`, with nothing of the queue run in between. -/
structure Later (v v' : View) : Prop where
  starts : v'.starts = v.starts
  commits : v.commits <+: v'.commits
  emitted : v'.state.events.emitted = v.state.events.emitted
  finished : v'.state.events.finished = v.state.events.finished
  closed : v'.state.events.closed = v.state.events.closed
  error : v.state.events.error.isSome = true → v'.state.events.error.isSome = true
  cancelled : v.state.events.cancelled = true → v'.state.events.cancelled = true
  finishScheduled : v.state.events.finishScheduled = true →
    v'.state.events.finishScheduled = true
  closeScheduled : v.state.events.closeScheduled = true → v'.state.events.closeScheduled = true

theorem Later.refl (v : View) : Later v v :=
  ⟨rfl, List.prefix_refl _, rfl, rfl, rfl, id, id, id, id⟩

theorem Later.trans {v v' v'' : View} (h : Later v v') (h' : Later v' v'') : Later v v'' where
  starts := h'.starts.trans h.starts
  commits := h.commits.trans h'.commits
  emitted := h'.emitted.trans h.emitted
  finished := h'.finished.trans h.finished
  closed := h'.closed.trans h.closed
  error := h'.error ∘ h.error
  cancelled := h'.cancelled ∘ h.cancelled
  finishScheduled := h'.finishScheduled ∘ h.finishScheduled
  closeScheduled := h'.closeScheduled ∘ h.closeScheduled

/-- Some entries are committed and the rest of the record stays. -/
theorem Later.commit {v v' : View} (h : Later v v') (entries : List Entry) :
    Later v (v'.commit entries) :=
  { h with commits := h.commits.trans (List.prefix_append _ _) }

theorem queueClose_later (v : View) : Later v v.queueClose := by
  unfold View.queueClose
  split
  · exact .refl v
  · refine Later.commit ?_ _
    exact { Later.refl v with }

theorem Later.move {v v' : View} (hmove : Move v v') : Later v v' := by
  cases hmove with
  | quiet f hf =>
    simp only [WriteEventState.mk.injEq] at hf
    obtain ⟨he, -, hfs, hfi, hcs, -, hc, -, -, hca, hem⟩ := hf
    exact
      { starts := rfl
        commits := List.prefix_refl _
        emitted := hem
        finished := hfi
        closed := hc
        error := fun h => by rw [setState_state, he]; exact h
        cancelled := fun h => by rw [setState_state, hca]; exact h
        finishScheduled := fun h => by rw [setState_state, hfs]; exact h
        closeScheduled := fun h => by rw [setState_state, hcs]; exact h }
  | report error completions => exact (Later.refl v).commit _
  | fail error =>
    unfold failEvents
    split
    · exact .refl v
    · refine Later.commit ?_ _
      exact { Later.refl v with error := fun _ => rfl }
  | finish =>
    unfold finishEvents
    split
    · exact .refl v
    · refine Later.commit ?_ _
      exact { Later.refl v with finishScheduled := fun _ => rfl }
  | close hover =>
    have hscheduled : Later v
        (v.setEvents fun events => { events with closeScheduled := true }) :=
      { Later.refl v with closeScheduled := fun _ => rfl }
    unfold closeEvents
    dsimp only
    split
    · exact hscheduled.trans (queueClose_later _)
    · exact hscheduled
  | drain =>
    unfold View.drain
    split
    · exact .refl v
    · refine Later.commit ?_ _
      exact { Later.refl v with }
  | other => exact (Later.refl v).commit _

theorem Later.cancel (v : View) : Later v v.cancel :=
  { Later.refl v with cancelled := fun _ => rfl }

theorem Later.moves {v v' : View} (hmoves : Moves v v') : Later v v' := by
  induction hmoves with
  | refl => exact .refl v
  | tail _ hmove ih => exact ih.trans (Later.move hmove)

theorem Move.cancelled {v v' : View} (hmove : Move v v') :
    v'.state.events.cancelled = v.state.events.cancelled := by
  cases hmove with
  | quiet f hf =>
    simp only [WriteEventState.mk.injEq] at hf
    exact hf.2.2.2.2.2.2.2.2.2.1
  | report error completions => rfl
  | fail error => unfold failEvents; split <;> rfl
  | finish => unfold finishEvents; split <;> rfl
  | close hover =>
    unfold closeEvents queueClose
    dsimp only
    split
    · split <;> rfl
    · rfl
  | drain => unfold View.drain; split <;> rfl
  | other => rfl

theorem Moves.cancelled {v v' : View} (hmoves : Moves v v') :
    v'.state.events.cancelled = v.state.events.cancelled := by
  induction hmoves with
  | refl => rfl
  | tail _ hmove ih => exact hmove.cancelled.trans ih

end View

end TsonicNode.Stream
