import TsonicNode.Stream.WritableRule

/-!
# The order of the lifecycle events

Which events a writable stream delivers, and after which it delivers none:
`error`, `finish` and `close` once, no `finish` after an `error` or a
`destroy`, no `drain` once the stream is over. `close` is to be the last. That
needs `Tidy`, that no `error` stands behind a `close` in the queue: a failure
between the two deliveries queues one there, unless an error was recorded
before. `System.KeepsOrder` says which steps do not, and
`System.events_ordered` is about runs of such steps.
-/

namespace TsonicNode.Stream

open TsonicNode.Lib TsonicNode.Internal

namespace View

/-- No `error` stands behind a `close`. -/
def Tidy (v : View) : Prop :=
  v.commits.Pairwise fun earlier later => earlier = .event .close → later ≠ .event .error

/-! ## The transitions -/

/-- A `close` in the queue is one that was queued. -/
theorem Events.close_mem {v : View} (hE : v.Events) (hmem : Entry.event .close ∈ v.commits) :
    v.state.events.closeQueued = true := by
  by_contra hq
  rw [Bool.not_eq_true] at hq
  have hnone := hE.closes
  rw [hq] at hnone
  exact event_notMem hnone hmem

theorem Tidy.commit {v : View} {entries : List Entry} (h : v.Tidy)
    (hentries : entries.Pairwise fun earlier later =>
      earlier = .event .close → later ≠ .event .error)
    (herror : Entry.event .close ∈ v.commits → Entry.event .error ∉ entries) :
    (v.commit entries).Tidy :=
  List.pairwise_append.mpr ⟨h, hentries, fun _ ha _ hb hclose heq =>
    herror (hclose ▸ ha) (heq ▸ hb)⟩

/-- An event other than `error` may be queued at any time. -/
theorem Tidy.event {v : View} {event : Event} (h : v.Tidy) (hevent : event ≠ .error) :
    (v.commit [.event event]).Tidy := by
  refine h.commit (List.pairwise_singleton _ _) fun _ hmem => hevent ?_
  exact (Entry.event.inj (List.mem_singleton.mp hmem)).symm

theorem Tidy.report {v : View} (h : v.Tidy) (error : Option TsError)
    (completions : List StreamCompletion) : (v.completeAll error completions).Tidy := by
  have hentry : ∀ entry ∈ completing error completions, ∀ event, entry ≠ .event event := by
    intro entry hentry event heq
    obtain ⟨completion, -, rfl⟩ := List.mem_map.mp hentry
    cases heq
  refine h.commit ?_ fun _ hmem => hentry _ hmem _ rfl
  exact List.pairwise_of_forall_mem_list fun _ _ b hb _ => hentry b hb _

theorem Tidy.completeEnd {v : View} (h : v.Tidy) (error : Option TsError) :
    (v.completeEnd error).Tidy :=
  Tidy.report (v := v.setEvents fun events => { events with endCompletions := [] }) h error _

/-- A failure keeps the order unless it comes between queueing and delivering `close`. -/
theorem Tidy.failEvents {v : View} (h : v.Tidy) (error : TsError) (hE : v.Events)
    (hopen : v.state.events.closeQueued = true →
      v.state.events.errorScheduled = true ∨ v.state.events.closed = true) :
    (v.failEvents error).Tidy := by
  unfold View.failEvents
  split
  · exact h
  · rename_i hunscheduled
    exact Tidy.commit (v := v.setEvents _) h (List.pairwise_singleton _ _)
      fun hmem => absurd (hopen (hE.close_mem hmem)) hunscheduled

theorem Tidy.queueClose {v : View} (h : v.Tidy) : v.queueClose.Tidy := by
  unfold View.queueClose
  split
  · exact h
  · exact Tidy.event (v := v.setEvents _) h (by decide)

theorem Tidy.closeEvents {v : View} (h : v.Tidy) : v.closeEvents.Tidy := by
  unfold View.closeEvents
  dsimp only
  split
  · exact Tidy.queueClose (v := v.setEvents _) h
  · exact h

theorem Tidy.fail {v : View} (h : v.Tidy) (error : TsError) (completed : Nat) (hE : v.Events)
    (hopen : v.state.events.closeQueued = true →
      v.state.events.errorScheduled = true ∨ v.state.events.closed = true) :
    (v.fail error completed).Tidy := by
  have hrefused : (v.refuse error completed).Tidy := by
    unfold refuse
    refine Tidy.completeEnd ?_ _
    exact Tidy.report (v := v.setState fun state => { state with failed := true }) h _ _
  have hfailed := hrefused.failEvents error (hE.moves (refuse_moves error completed v)) hopen
  unfold View.fail
  dsimp only
  split
  · exact Tidy.closeEvents (v := View.setState _ _) hfailed
  · exact hfailed

theorem tidy_standing : Standing Tidy where
  quiet _ _ _ h := h
  report _ error completions h := h.report error completions
  drain v _ h := by
    unfold View.drain
    split
    · exact h
    · exact Tidy.event (v := v.setEvents _) h (by decide)
  fail _ error completed hclose hE h :=
    h.fail error completed hE fun hq => by
      rw [hE.queued hq] at hclose
      cases hclose
  finish v _ _ h := by
    unfold finishEvents
    split
    · exact h
    · exact Tidy.event (v := v.setEvents _) h (by decide)
  close _ _ h := h.closeEvents

/-- Giving back a descriptor that is not open does not fail. -/
theorem release_tidy {v : View} (answers : Answers) (h : v.Tidy) (hE : v.Events)
    (hreleased : v.state.events.closeQueued = true → v.state.hasDescriptor = true →
      v.state.file.isOpen = false) : (v.release answers).Tidy := by
  have hview := closeDescriptor_view answers v
  have hdescriptor : (v.closeDescriptor answers).2.Tidy := by rw [hview]; exact h
  have hE' : (v.closeDescriptor answers).2.Events := by rw [hview]; exact hE.quiet _ rfl
  have hqueued : (v.closeDescriptor answers).2.state.events.closeQueued =
      v.state.events.closeQueued := by rw [hview]; rfl
  have hnone : v.state.events.closeQueued = true → (v.closeDescriptor answers).1 = none :=
    fun hq => closeDescriptor_ok fun hd => by
      rw [DescriptorState.close_of_closed (hreleased hq hd)]
  unfold release
  generalize v.closeDescriptor answers = result at hnone hdescriptor hE' hqueued ⊢
  obtain ⟨_ | failure, v'⟩ := result
  · exact hdescriptor
  · refine Tidy.failEvents hdescriptor _ hE' fun hq => ?_
    exact absurd (hnone (hqueued.symm.trans hq)) (by simp)

/-- `destroy` keeps the order unless it fails the stream between queueing and delivering `close`. -/
theorem destroy_tidy {v : View} (error : Option TsError) (answers : Answers) (h : v.Tidy)
    (hr : v.Rest) (hopen : error.isSome = true → v.state.events.closeQueued = true →
      v.state.events.errorScheduled = true) : (v.destroy error answers).Tidy := by
  unfold destroy
  split
  · exact h
  · have habandon : (v.cancel.abandon (v.destruction error)).Tidy := by
      unfold abandon
      refine Tidy.completeEnd ?_ _
      exact Tidy.report (v := v.cancel) h _ _
    have hrest := abandon_rest (v.destruction error) hr
    have hwith := failEventsWith_goes error hrest rfl
    refine Tidy.closeEvents (release_tidy answers ?_ hwith.rest.events ?_)
    · cases error with
      | none => exact habandon
      | some error =>
        exact habandon.failEvents error hrest.events fun hq => .inl (hopen rfl hq)
    · intro hq
      exact hwith.rest.phase.released (hwith.rest.phase.closing (hwith.rest.events.queued hq))

/-- What `destroy` leaves is destroyed. -/
theorem destroy_destroyed (error : Option TsError) (answers : Answers) (v : View) (hr : v.Rest) :
    (v.destroy error answers).state.destroyed = true := by
  unfold destroy
  split
  · assumption
  · have hwith := failEventsWith_goes error (abandon_rest (v.destruction error) hr) rfl
    have hcancelled := hwith.later.cancelled rfl
    have hrelease := (release_goes answers hwith.rest hcancelled).later.cancelled hcancelled
    rw [WritableState.destroyed, closeEvents_cancelled, hrelease, Bool.or_true]

theorem deliver_tidy {v : View} (entry : Entry) (h : v.Tidy) : (v.deliver entry).Tidy := by
  cases entry with
  | completion callback error => exact h
  | foreign => exact h
  | event event =>
    cases event with
    | complete =>
      unfold deliver invoke
      dsimp only
      split
      · exact h
      · refine Tidy.queueClose ?_
        unfold finishing
        refine Tidy.event ?_ (by decide)
        exact Tidy.completeEnd (v := View.setEvents _ (v.started _)) h none
    | error => exact h
    | finish =>
      unfold deliver invoke
      dsimp only
      split <;> exact h
    | drain =>
      unfold deliver invoke
      dsimp only
      split <;> exact h
    | close => exact h

end View

/-! ## Runs -/

/-- `close` is queued and waits to be delivered, and the stream has neither failed nor been
destroyed. -/
def WriteEventState.Closing (events : WriteEventState) : Prop :=
  events.closeQueued = true ∧ events.closed = false ∧ events.error.isSome = false ∧
    events.cancelled = false

namespace System

/-- A step that does not fail the stream while its `close` waits to be delivered. -/
def KeepsOrder (s : System) : Label → Prop
  | .write value given _ | .endChunk value given _ =>
    s.world.state.events.Closing → ¬ s.Admits value given
  | .destroy (some _) _ => ¬ s.world.state.events.Closing
  | _ => True

/-- What has been delivered in `s` and what is delivered up to a later `t`. -/
structure Ordered (s t : System) : Prop where
  once : ∀ event ∈ [Event.error, .finish, .close],
    t.world.state.events.emitted.count event ≤ 1
  finish : Event.error ∈ s.world.state.events.emitted ∨ s.world.state.destroyed = true →
    t.world.state.events.emitted.count .finish = s.world.state.events.emitted.count .finish
  drain : s.world.state.events.finishScheduled = true ∨
      s.world.state.events.error.isSome = true ∨ s.world.state.destroyed = true →
    t.world.state.events.emitted.count .drain = s.world.state.events.emitted.count .drain
  close : Event.close ∈ s.world.state.events.emitted →
    t.world.state.events.emitted = s.world.state.events.emitted

theorem tidy_step {s : System} (h : s.Sound) (htidy : s.world.view.Tidy) (label : Label)
    (hkeeps : s.KeepsOrder label) : (s.step label).world.view.Tidy := by
  obtain ⟨houtcome, -⟩ := step_outcome h label
  have hrecorded := h.rest.events.recorded
  refine View.tidy_standing.outcome houtcome h.rest htidy ?_ ?_ ?_ ?_
  · intro value given answers hlabel hadmits _ hdestroyed completion error completions
    have hretained := (View.retainEnds_goes completion h.rest).rest.events
    have hstate := View.retainEnds_state completion s.world.view
    refine View.Tidy.fail (View.Tidy.report (View.tidy_standing.retainEnds completion htidy) _ _)
      error 0 (hretained.report _ _) fun hq => .inl ?_
    rw [View.completeAll_state, hstate] at hq ⊢
    simp only [WritableState.destroyed, Bool.or_eq_false_iff] at hdestroyed
    by_contra herror
    have hclosing : s.world.state.events.Closing :=
      ⟨hq, hdestroyed.1, Bool.eq_false_iff.mpr fun he => herror (hrecorded.trans he), hdestroyed.2⟩
    rcases hlabel with rfl | rfl
    · exact hkeeps hclosing hadmits
    · exact hkeeps hclosing hadmits
  · rintro error answers rfl
    by_cases hdestroyed : s.world.view.state.destroyed = true
    · have hsame : s.world.view.destroy error answers = s.world.view := if_pos hdestroyed
      rw [hsame]
      exact htidy
    · refine View.destroy_tidy error answers htidy h.rest fun hsome hq => ?_
      obtain ⟨error, rfl⟩ := Option.isSome_iff_exists.mp hsome
      simp only [WritableState.destroyed, Bool.or_eq_true, not_or, Bool.not_eq_true] at hdestroyed
      by_contra herror
      exact hkeeps ⟨hq, hdestroyed.1, Bool.eq_false_iff.mpr fun he => herror (hrecorded.trans he),
        hdestroyed.2⟩
  · exact fun entry _ _ => View.deliver_tidy entry htidy
  · exact View.Tidy.commit htidy (List.pairwise_singleton _ _) fun _ => by simp

/-! ### What is no longer delivered -/

/-- Where `close` has been started, no event but `error` is next. -/
theorem Sound.next_error {s : System} (h : s.Sound) {event : Event} {rest : List Entry}
    (hclosed : s.world.state.events.closed = true)
    (hnext : s.world.view.commits = s.world.view.starts ++ Entry.event event :: rest) :
    event = .error := by
  have hstarted := h.delivered.closed.mp hclosed
  have horder := h.rest.events.order
  rw [hnext] at horder
  exact (List.pairwise_append.mp horder).2.2 _ hstarted _ (List.mem_cons_self ..) rfl event rfl

/-- After an `error`, a `destroy` or a `close` no step notifies the listeners of `finish`. -/
theorem Sound.finish_step {s : System} (h : s.Sound) (label : Label)
    (hover : s.world.state.events.error.isSome = true ∨ s.world.state.destroyed = true) :
    (s.step label).world.state.events.emitted.count .finish =
      s.world.state.events.emitted.count .finish := by
  obtain ⟨houtcome, -⟩ := step_outcome h label
  rcases houtcome.notifies h.rest with hsame | ⟨entry, rest, hnext, hnotifies⟩
  · exact congrArg _ hsame
  · cases hnotifies with
    | silent hsame => exact congrArg _ hsame
    | event event hentry hevent hemitted hfinish hdrain =>
      have hne : event ≠ .finish := by
        rintro rfl
        obtain ⟨herror, hcancelled⟩ := hfinish rfl
        simp only [WritableState.destroyed, Bool.or_eq_true] at hover
        rcases hover with he | hc | hc
        · exact absurd (he.symm.trans herror) (by decide)
        · rw [hentry] at hnext
          exact absurd (h.next_error hc hnext) (by decide)
        · exact absurd (hc.symm.trans hcancelled) (by decide)
      calc (s.step label).world.state.events.emitted.count .finish
          = (s.world.state.events.emitted ++ [event]).count .finish := congrArg _ hemitted
        _ = s.world.state.events.emitted.count .finish := by
          rw [List.count_append, List.count_singleton, if_neg (by simpa using hne), Nat.add_zero]

/-- Once the stream is over no step notifies the listeners of `drain`. -/
theorem Sound.drain_step {s : System} (h : s.Sound) (label : Label) (hover : s.world.view.Over) :
    (s.step label).world.state.events.emitted.count .drain =
      s.world.state.events.emitted.count .drain := by
  obtain ⟨houtcome, -⟩ := step_outcome h label
  rcases houtcome.notifies h.rest with hsame | ⟨entry, rest, hnext, hnotifies⟩
  · exact congrArg _ hsame
  · cases hnotifies with
    | silent hsame => exact congrArg _ hsame
    | event event hentry hevent hemitted hfinish hdrain =>
      have hne : event ≠ .drain := fun heq => hdrain heq hover
      calc (s.step label).world.state.events.emitted.count .drain
          = (s.world.state.events.emitted ++ [event]).count .drain := congrArg _ hemitted
        _ = s.world.state.events.emitted.count .drain := by
          rw [List.count_append, List.count_singleton, if_neg (by simpa using hne), Nat.add_zero]

/-- After `close` no step notifies any listener, as long as no `error` stands behind it. -/
theorem Sound.close_step {s : System} (h : s.Sound) (htidy : s.world.view.Tidy) (label : Label)
    (hclosed : s.world.state.events.closed = true) :
    (s.step label).world.state.events.emitted = s.world.state.events.emitted := by
  obtain ⟨houtcome, -⟩ := step_outcome h label
  rcases houtcome.notifies h.rest with hsame | ⟨entry, rest, hnext, hnotifies⟩
  · exact hsame
  · cases hnotifies with
    | silent hsame => exact hsame
    | event event hentry hevent hemitted hfinish hdrain =>
      rw [hentry] at hnext
      obtain rfl := h.next_error hclosed hnext
      have hstarted := h.delivered.closed.mp hclosed
      have horder := htidy
      rw [View.Tidy, hnext] at horder
      exact absurd rfl
        ((List.pairwise_append.mp horder).2.2 _ hstarted _ (List.mem_cons_self ..) rfl)

/-! ### Runs of steps that keep the order -/

theorem Sound.over_of_closed {s : System} (h : s.Sound)
    (hclosed : s.world.state.events.closed = true) : s.world.view.Over :=
  h.rest.events.isOver (h.rest.events.queued (h.rest.events.closed hclosed))

/-- An `error` that was delivered is one that was recorded. -/
theorem Sound.error_recorded {s : System} (h : s.Sound)
    (hmem : Event.error ∈ s.world.state.events.emitted) :
    s.world.state.events.error.isSome = true := by
  have hstarted : 0 < View.times .error s.world.view.starts :=
    h.delivered.errors ▸ List.count_pos_iff.mpr hmem
  have hcommitted := h.delivered.started.subset (View.times_pos.mpr hstarted)
  have hpos := View.times_pos.mp hcommitted
  rw [h.rest.events.errors, h.rest.events.recorded] at hpos
  by_contra he
  rw [Bool.not_eq_true] at he
  have hnone : s.world.view.state.events.error.isSome = false := he
  rw [hnone] at hpos
  exact absurd hpos (by decide)

theorem Sound.once {s : System} (h : s.Sound) (event : Event)
    (hevent : event ∈ [Event.error, .finish, .close]) :
    s.world.state.events.emitted.count event ≤ 1 := by
  have hle : View.times event s.world.view.starts ≤ View.times event s.world.view.commits :=
    h.delivered.started.sublist.count_le _
  have hE := h.rest.events
  simp only [List.mem_cons, List.not_mem_nil, or_false] at hevent
  rcases hevent with rfl | rfl | rfl
  · calc s.world.state.events.emitted.count .error
        = View.times .error s.world.view.starts := h.delivered.errors
      _ ≤ View.times .error s.world.view.commits := hle
      _ = s.world.view.state.events.errorScheduled.toNat := hE.errors
      _ ≤ 1 := Bool.toNat_le _
  · calc s.world.state.events.emitted.count .finish
        ≤ View.times .finish s.world.view.starts := h.delivered.finishes
      _ ≤ View.times .finish s.world.view.commits := hle
      _ = s.world.view.state.events.finished.toNat := hE.finishes
      _ ≤ 1 := Bool.toNat_le _
  · calc s.world.state.events.emitted.count .close
        = View.times .close s.world.view.starts := h.delivered.closes
      _ ≤ View.times .close s.world.view.commits := hle
      _ = s.world.view.state.events.closeQueued.toNat := hE.closes
      _ ≤ 1 := Bool.toNat_le _

/-- What the steps of a run cannot bring back. -/
theorem step_later {s : System} (h : s.Sound) (label : Label) :
    View.Onward s.world.view (s.step label).world.view := by
  obtain ⟨houtcome, -⟩ := step_outcome h label
  exact (houtcome.sound h.rest h.delivered).2.2

theorem Sound.finish_run {s : System} (h : s.Sound) (labels : List Label)
    (hover : s.world.state.events.error.isSome = true ∨ s.world.state.destroyed = true) :
    (run step s labels).world.state.events.emitted.count .finish =
      s.world.state.events.emitted.count .finish := by
  refine run_constant (C := fun _ _ => True) (f := fun s => s.world.state.events.emitted.count .finish)
    (P := fun s => s.Sound ∧
      (s.world.state.events.error.isSome = true ∨ s.world.state.destroyed = true))
    ?_ ⟨h, hover⟩ (Meets.of_forall (fun _ _ => trivial) s labels)
  rintro s label ⟨h, hover⟩ -
  have hlater := step_later h label
  refine ⟨⟨step_sound h label, ?_⟩, h.finish_step label hover⟩
  simp only [WritableState.destroyed, Bool.or_eq_true] at hover ⊢
  exact hover.imp hlater.error (.imp hlater.closed hlater.cancelled)

theorem Sound.drain_run {s : System} (h : s.Sound) (labels : List Label)
    (hover : s.world.view.Over) :
    (run step s labels).world.state.events.emitted.count .drain =
      s.world.state.events.emitted.count .drain := by
  refine run_constant (C := fun _ _ => True) (f := fun s => s.world.state.events.emitted.count .drain)
    (P := fun s => s.Sound ∧ s.world.view.Over)
    ?_ ⟨h, hover⟩ (Meets.of_forall (fun _ _ => trivial) s labels)
  rintro s label ⟨h, hover⟩ -
  have hlater := step_later h label
  exact ⟨⟨step_sound h label, hover.imp hlater.finishScheduled (.imp hlater.error hlater.cancelled)⟩,
    h.drain_step label hover⟩

/-- Runs of steps that keep the order leave no `error` behind a `close`. -/
theorem Sound.tidy_run {s : System} (h : s.Sound) {labels : List Label}
    (htidy : s.world.view.Tidy) (hkeeps : Meets step KeepsOrder s labels) :
    (run step s labels).world.view.Tidy := by
  refine (run_invariant (P := fun s => s.Sound ∧ s.world.view.Tidy) ?_ ⟨h, htidy⟩ hkeeps).2
  rintro s label ⟨h, htidy⟩ hkeeps
  exact ⟨step_sound h label, tidy_step h htidy label hkeeps⟩

theorem Sound.close_run {s : System} (h : s.Sound) {labels : List Label}
    (htidy : s.world.view.Tidy) (hclosed : s.world.state.events.closed = true)
    (hkeeps : Meets step KeepsOrder s labels) :
    (run step s labels).world.state.events.emitted = s.world.state.events.emitted := by
  refine run_constant (f := fun s => s.world.state.events.emitted)
    (P := fun s => s.Sound ∧ s.world.view.Tidy ∧ s.world.state.events.closed = true)
    ?_ ⟨h, htidy, hclosed⟩ hkeeps
  rintro s label ⟨h, htidy, hclosed⟩ hkeeps
  exact ⟨⟨step_sound h label, tidy_step h htidy label hkeeps, (step_later h label).closed hclosed⟩,
    h.close_step htidy label hclosed⟩

/-- **The lifecycle events are delivered in order.** In every run whose steps keep it, for every
state and every later one. -/
theorem events_ordered (owned autoClose flush : Bool) (start : Option Int) (highWaterMark : Int)
    (limit : Nat) (labels labels' : List Label)
    (hkeeps : Meets step KeepsOrder (new owned autoClose flush start highWaterMark limit)
      (labels ++ labels')) :
    Ordered (run step (new owned autoClose flush start highWaterMark limit) labels)
      (run step (new owned autoClose flush start highWaterMark limit) (labels ++ labels')) := by
  obtain ⟨hbefore, hafter⟩ := Meets.append.mp hkeeps
  have hs := run_sound owned autoClose flush start highWaterMark limit labels
  have htidy := (new_sound owned autoClose flush start highWaterMark limit).tidy_run
    List.Pairwise.nil hbefore
  rw [run_append]
  have ht := run_preserves (P := Sound) (fun _ label h => step_sound h label) hs labels'
  exact
    { once := ht.once
      finish := fun hover => hs.finish_run labels' (hover.imp_left hs.error_recorded)
      drain := fun hover => by
        refine hs.drain_run labels' ?_
        rcases hover with hf | he | hd
        · exact .inl hf
        · exact .inr (.inl he)
        · rcases Bool.or_eq_true _ _ ▸ hd with hc | hc
          · exact hs.over_of_closed hc
          · exact .inr (.inr hc)
      close := fun hmem => by
        refine hs.close_run htidy ?_ hafter
        refine hs.delivered.closed.mpr ?_
        rw [View.times_pos, ← hs.delivered.closes]
        exact List.count_pos_iff.mpr hmem }

/-- A chunk that fails the stream, `destroy`, and polls up to `close`. -/
theorem events_ordered_failure :
    Ordered
      (run step (new true false false none 16384 1024) [.write [1] false ⟨[(0, 5)], none, none⟩,
        .poll, .start, .return, .leave, .destroy none ready, .poll, .start, .return])
      (run step (new true false false none 16384 1024) ([.write [1] false ⟨[(0, 5)], none, none⟩,
        .poll, .start, .return, .leave, .destroy none ready, .poll, .start, .return] ++ [.leave])) :=
  events_ordered true false false none 16384 1024
    [.write [1] false ⟨[(0, 5)], none, none⟩, .poll, .start, .return, .leave, .destroy none ready,
      .poll, .start, .return] [.leave]
    ⟨fun h => absurd h (by unfold WriteEventState.Closing; decide), trivial, trivial, trivial,
      trivial, trivial, trivial, trivial, trivial, trivial, trivial⟩

/-- A write between queueing and delivering `close`: its `error` is delivered last. -/
theorem error_after_close :
    ¬ Ordered
      (run step (new true false false none 16384 1024) [.close ready, .poll, .start, .return, .leave,
        .write [0] false ready, .poll, .start, .return, .start, .return])
      (run step (new true false false none 16384 1024) ([.close ready, .poll, .start, .return, .leave,
        .write [0] false ready, .poll, .start, .return, .start, .return] ++ [.start, .return])) := by
  intro h
  have hlast := h.close (by decide)
  exact absurd hlast (by decide)

end System

end TsonicNode.Stream
