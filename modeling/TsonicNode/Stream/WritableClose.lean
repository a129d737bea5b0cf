import TsonicNode.Stream.WritableRule

/-!
# The close event

`close` schedules its event, and defers it while a `complete` is pending: the
handler of `complete` queues it then. A failure in between takes that away: it
records an error, at which the handler returns early, and queues the event
itself only on a stream that closes automatically.

`Waits` is what keeps a deferred event alive, `System.KeepsClose` when a step
keeps it; in a run of such steps the event of a called `close` is delivered
once the queue is drained (`System.close_delivered`).
-/

namespace TsonicNode.Stream

open TsonicNode.Lib TsonicNode.Internal

namespace View

/-- A scheduled `close` is queued as soon as `finish` is decided. -/
def Waits (v : View) : Prop :=
  v.state.events.closeScheduled = true → v.Settled → v.state.events.closeQueued = true

/-! ## The transitions -/

theorem queueClose_queued (v : View) :
    v.queueClose.state.events.closeScheduled = true →
      v.queueClose.state.events.closeQueued = true := by
  unfold queueClose
  split
  · rename_i h
    intro hs
    rcases h with h | h
    · exact absurd hs h
    · exact h
  · exact fun _ => rfl

theorem closeEvents_waits (v : View) : v.closeEvents.Waits := by
  unfold closeEvents
  dsimp only
  split
  · exact fun hs _ => queueClose_queued _ hs
  · rename_i hpending
    intro _ hsettled
    exact absurd (.inr hsettled) hpending

theorem failEvents_closeQueued (error : TsError) (v : View) :
    (v.failEvents error).state.events.closeQueued = v.state.events.closeQueued := by
  unfold failEvents
  split <;> rfl

/-- A failure keeps the event unless it was deferred and the stream does not close by itself. -/
theorem fail_waits {v : View} (error : TsError) (completed : Nat)
    (h : v.state.events.closeScheduled = true → v.state.events.closeQueued = false →
      v.state.autoClose = true) : (v.fail error completed).Waits := by
  unfold fail
  dsimp only
  split
  · exact closeEvents_waits _
  · rename_i hauto
    rw [(failEvents_same _ _).state] at hauto
    intro hs _
    rw [failEvents_closeScheduled] at hs
    rw [failEvents_closeQueued]
    by_contra hq
    exact hauto (h hs (by simpa using hq))

theorem drain_waits {v : View} (hv : v.Waits) : v.drain.Waits := by
  unfold drain
  split
  · exact hv
  · exact hv

theorem waits_standing : Standing Waits where
  quiet v f hf hv := by
    simp only [WriteEventState.mk.injEq] at hf
    obtain ⟨he, -, -, hfi, hcs, hcq, -, -, -, hca, -⟩ := hf
    intro hs hsettled
    rw [setState_state, hcs] at hs
    rw [setState_state, hcq]
    refine hv hs ?_
    rw [Settled, setState_state, hfi, he, hca] at hsettled
    exact hsettled
  report _ _ _ hv := hv
  drain _ _ hv := drain_waits hv
  fail _ error completed hclose _ _ :=
    fail_waits error completed fun hs => by rw [hclose] at hs; cases hs
  finish v hclose _ _ := by
    intro hs
    rw [finishEvents_closeScheduled, hclose] at hs
    cases hs
  close v _ _ := closeEvents_waits v

theorem destroy_waits {v : View} (error : Option TsError) (answers : Answers) (hv : v.Waits) :
    (v.destroy error answers).Waits := by
  unfold destroy
  split
  · exact hv
  · exact closeEvents_waits _

theorem deliver_waits {v : View} {entry : Entry} {rest : List Entry} (hE : v.Events)
    (hnext : v.commits = v.starts ++ entry :: rest) (hv : v.Waits) : (v.deliver entry).Waits := by
  cases entry with
  | completion callback error => exact hv
  | foreign => exact hv
  | event event =>
    cases event with
    | complete =>
      unfold deliver invoke
      dsimp only
      split
      · exact hv
      · exact fun hs _ => queueClose_queued _ hs
    | error => exact hv
    | finish =>
      have hfinished := finish_next hE hnext
      unfold deliver invoke
      dsimp only
      split
      · exact hv
      · exact fun hs _ => hv hs (.inl hfinished)
    | drain =>
      unfold deliver invoke
      dsimp only
      split
      · exact hv
      · exact hv
    | close => exact hv

/-! ## A call of close -/

/-- What decides whether `close` raises on a stream that does not close automatically. -/
structure SameFile (v v' : View) : Prop where
  autoClose : v'.state.autoClose = v.state.autoClose
  file : v.state.autoClose = false → v.state.file.Same v'.state.file

theorem SameFile.refl (v : View) : SameFile v v := ⟨rfl, fun _ => ⟨rfl, rfl⟩⟩

theorem SameFile.trans {v v' v'' : View} (h : SameFile v v') (h' : SameFile v' v'') :
    SameFile v v'' where
  autoClose := h'.autoClose.trans h.autoClose
  file := fun ha => by
    have hfile := h.file ha
    have hfile' := h'.file (h.autoClose.trans ha)
    exact ⟨hfile'.1.trans hfile.1, hfile'.2.trans hfile.2⟩

theorem fail_sameFile (error : TsError) (completed : Nat) (v : View) :
    SameFile v (v.fail error completed) := by
  constructor
  · rw [fail_same]
  · intro _
    rw [fail_same]
    exact ⟨rfl, rfl⟩

theorem Wrote.sameFile {requests : List WriteRequest} {v v' : View} (h : Wrote requests v v') :
    SameFile v v' :=
  ⟨by rw [h.state], fun _ => h.file⟩

theorem flush_sameFile (answers : Answers) (v : View) : SameFile v (v.flush_ answers) := by
  obtain ⟨-, heq⟩ | ⟨-, -, v', ⟨hwrote, heq⟩ | ⟨done, -, -, error, -, hwrote, heq⟩⟩ :=
    v.flush_cases answers
  · rw [heq]
    exact .refl v
  · rw [heq]
    refine hwrote.sameFile.trans ?_
    split
    · constructor <;> rw [(drain_same _).state]
      · rfl
      · exact fun _ => ⟨rfl, rfl⟩
    · exact ⟨rfl, fun _ => ⟨rfl, rfl⟩⟩
  · rw [heq]
    exact hwrote.sameFile.trans (fail_sameFile error _ v')

theorem closeDescriptor_autoClose (answers : Answers) (v : View) :
    (v.closeDescriptor answers).2.state.autoClose = v.state.autoClose := by
  rw [closeDescriptor_view]
  rfl

/-- The part of `_finish` that may raise gives the descriptor back only on a stream that closes
automatically. -/
theorem complete_sameFile (answers : Answers) (v : View) :
    SameFile v (v.complete answers).2 := by
  unfold complete
  split
  · exact .refl v
  · split
    · exact .refl v
    · split
      · rename_i hauto
        refine ⟨closeDescriptor_autoClose answers v, fun ha => ?_⟩
        rw [hauto] at ha
        cases ha
      · exact .refl v

theorem settle_sameFile (answers : Answers) (v : View) : SameFile v (v.settle answers) := by
  have hcomplete := v.complete_sameFile answers
  unfold settle
  generalize v.complete answers = result at hcomplete ⊢
  obtain ⟨_ | error, v'⟩ := result
  · have hfinish : SameFile v v'.finishEvents := by
      refine hcomplete.trans ?_
      constructor <;> rw [(finishEvents_same _).state]
      exact fun _ => ⟨rfl, rfl⟩
    dsimp only
    split
    · refine hfinish.trans ?_
      constructor <;> rw [(closeEvents_same _).state]
      exact fun _ => ⟨rfl, rfl⟩
    · exact hfinish
  · exact hcomplete.trans (fail_sameFile _ 0 v')

theorem finish_sameFile (answers : Answers) (v : View) : SameFile v (v.finish answers) := by
  unfold finish
  split
  · exact .refl v
  · split
    · exact .refl v
    · have hended : SameFile v (v.setState fun state => { state with ended := true, corked := 0 }) :=
        ⟨rfl, fun _ => ⟨rfl, rfl⟩⟩
      have hflush := hended.trans (flush_sameFile answers _)
      dsimp only
      split
      · exact hflush
      · exact hflush.trans (settle_sameFile answers _)

/-- The `finally` of `close` gets to the event unless giving the descriptor back raises. -/
theorem closeFinally_scheduled {v : View} {answers : Answers}
    (h : v.state.closed = true ∨ (v.state.file.close answers).1 = .ok ()) :
    (v.closeFinally answers).2.state.events.closeScheduled = true := by
  unfold closeFinally
  by_cases hclosed : v.state.closed = true
  · rw [if_pos hclosed]
    exact closeEvents_closeScheduled v
  · rw [if_neg hclosed]
    have hnone := closeDescriptor_ok fun _ => h.resolve_left hclosed
    generalize v.closeDescriptor answers = result at hnone ⊢
    obtain ⟨raised, v'⟩ := result
    obtain rfl : raised = none := hnone
    exact closeEvents_closeScheduled v'

/-- When `close` gets to its event: unless giving the descriptor back raises. -/
theorem close_scheduled {v : View} (answers : Answers) (h : v.Rest)
    (hdestroyed : v.state.events.cancelled = true → v.state.events.closeScheduled = true)
    (hok : v.state.events.closeScheduled = true ∨ v.state.autoClose = true ∨
      (v.state.file.close answers).1 = .ok ()) :
    (v.close answers).2.state.events.closeScheduled = true := by
  obtain ⟨hfinish, hover⟩ := finish_goes answers h
  have hsame := finish_sameFile answers v
  refine closeFinally_scheduled ?_
  by_contra hnot
  simp only [not_or, Bool.not_eq_true] at hnot
  obtain ⟨hopen, hraises⟩ := hnot
  -- a stream that stays open through `_finish` has no `close` scheduled and does not close by itself
  have hunscheduled : ¬ (v.finish answers).state.events.closeScheduled = true := by
    intro hs
    have hclosed := hfinish.rest.phase.closing hs
    rw [hopen] at hclosed
    cases hclosed
  have hcancelled : ¬ (v.finish answers).state.events.cancelled = true := by
    intro hc
    rcases hfinish.destroyed hc with hc | hs
    · exact hunscheduled (hfinish.later.closeScheduled (hdestroyed hc))
    · exact hunscheduled hs
  have hauto : v.state.autoClose = false := by
    by_contra ha
    rw [Bool.not_eq_false] at ha
    have hstopped := hfinish.rest.phase.over_iff.mp hover
    rcases hfinish.rest.phase.auto (hsame.autoClose.trans ha) hstopped with hs | hc
    · exact hunscheduled hs
    · exact hcancelled hc
  rw [(hsame.file hauto).close] at hraises
  rcases hok with hs | ha | hfile
  · exact hunscheduled (hfinish.later.closeScheduled hs)
  · rw [hauto] at ha
    cases ha
  · exact hraises hfile

end View

/-! ## Runs -/

/-- Only `close` can change whether it has been called. -/
theorem Outcome.closeCalled {s : System} {label : Label} {v' : View} {h' : History}
    (houtcome : Outcome s label v' h') (hcalled : h'.closeCalled = true) :
    s.history.closeCalled = true ∨ ∃ answers, label = .close answers := by
  cases houtcome with
  | close => exact .inr ⟨_, rfl⟩
  | closeRaised => exact .inr ⟨_, rfl⟩
  | _ => exact .inl hcalled

namespace System

/-- A step that keeps the event of `close`: no refused write while the event is deferred, unless
the stream closes automatically, and no call of `close` that raises before it gets to the event. -/
def KeepsClose (s : System) : Label → Prop
  | .write value given _ | .endChunk value given _ =>
    s.world.state.events.closeScheduled = true → s.world.state.events.closeQueued = false →
      s.world.state.autoClose = false → ¬ s.Admits value given
  | .close answers =>
    s.world.state.events.closeScheduled = true ∨
      s.Prepares ∧ (s.world.state.autoClose = true ∨ (s.world.state.file.close answers).1 = .ok ())
  | _ => True

/-- Once `close` has been called and the queue drained, in `s`, its event has been delivered, and
it is delivered once up to any later `t`. -/
def ClosesOnce (s t : System) : Prop :=
  t.world.state.events.emitted.count .close ≤ 1 ∧
    (s.history.closeCalled = true → s.world.completions.outstanding = [] →
      s.world.state.events.emitted.count .close = 1 ∧
        t.world.state.events.emitted.count .close = 1)

/-- Where runs that keep the event are. -/
structure Closing (s : System) : Prop where
  sound : s.Sound
  waits : s.world.view.Waits
  called : s.history.closeCalled = true → s.world.state.events.closeScheduled = true

/-- A call of `close` schedules its event. -/
theorem Closing.close {s : System} (h : Closing s) {answers : Answers} {v' : View} {h' : History}
    (houtcome : Outcome s (.close answers) v' h') (hkeeps : s.KeepsClose (.close answers))
    (hcalled : h'.closeCalled = true) : v'.state.events.closeScheduled = true := by
  cases houtcome with
  | close =>
    exact View.close_scheduled answers h.sound.rest h.sound.destroyed
      (hkeeps.imp_right And.right)
  | closeRaised hraised =>
    rcases hkeeps with hs | ⟨hroom, -⟩
    · exact hs
    · exact absurd hroom hraised
  | raised => exact h.called hcalled
  | idle => exact h.called hcalled

theorem Closing.step {s : System} (h : Closing s) (label : Label) (hkeeps : s.KeepsClose label) :
    Closing (s.step label) := by
  obtain ⟨houtcome, hrests⟩ := step_outcome h.sound label
  refine ⟨step_sound h.sound label, ?_, ?_⟩
  · refine View.waits_standing.outcome houtcome h.sound.rest h.waits ?_ ?_ ?_ h.waits
    · intro value given answers hlabel hadmits _ _ completion error completions
      refine View.fail_waits error 0 ?_
      rw [View.completeAll_state, View.retainEnds_state]
      intro hs hq
      by_contra ha
      rw [Bool.not_eq_true] at ha
      rcases hlabel with rfl | rfl
      · exact hkeeps hs hq ha hadmits
      · exact hkeeps hs hq ha hadmits
    · exact fun error answers _ => View.destroy_waits error answers h.waits
    · exact fun entry rest hnext => View.deliver_waits h.sound.rest.events hnext h.waits
  · have honward := (houtcome.sound h.sound.rest h.sound.delivered).2.2.closeScheduled
    intro hcalled
    rcases houtcome.closeCalled hcalled with hbefore | ⟨answers, rfl⟩
    · exact honward (h.called hbefore)
    · exact h.close houtcome hkeeps hcalled

theorem new_closing (owned autoClose flush : Bool) (start : Option Int) (highWaterMark : Int)
    (limit : Nat) : Closing (new owned autoClose flush start highWaterMark limit) where
  sound := new_sound owned autoClose flush start highWaterMark limit
  waits := fun h => by cases h
  called := fun h => by cases h

/-- When the queue is drained, a scheduled event has been delivered. -/
theorem Closing.delivered {s : System} (h : Closing s)
    (hscheduled : s.world.state.events.closeScheduled = true)
    (hdrained : s.world.completions.outstanding = []) :
    s.world.state.events.emitted.count .close = 1 := by
  have hE := h.sound.rest.events
  have hd := h.sound.delivered
  have hstarts : s.world.view.starts = s.world.view.commits := by
    have horder := h.sound.rests.owns.consistent.order
    rw [hdrained, List.append_nil] at horder
    exact horder.symm
  have hsettled : s.world.view.Settled := by
    rcases hE.isOver hscheduled with hfinish | he | hc
    · refine hd.complete ?_
      rw [hstarts, View.times_pos, hE.completes, hfinish]
      exact Nat.one_pos
    · exact .inr (.inl he)
    · exact .inr (.inr hc)
  have hqueued : s.world.view.state.events.closeQueued = true := h.waits hscheduled hsettled
  calc s.world.state.events.emitted.count .close
      = View.times .close s.world.view.starts := hd.closes
    _ = View.times .close s.world.view.commits := by rw [hstarts]
    _ = 1 := by rw [hE.closes, hqueued]; rfl

theorem Sound.closes {s : System} (h : s.Sound) : s.world.state.events.emitted.count .close ≤ 1 := by
  have hle := (h.delivered.started.sublist).count_le (Entry.event .close)
  calc s.world.state.events.emitted.count .close
      = View.times .close s.world.view.starts := h.delivered.closes
    _ ≤ View.times .close s.world.view.commits := hle
    _ = s.world.view.state.events.closeQueued.toNat := h.rest.events.closes
    _ ≤ 1 := Bool.toNat_le _

/-- **The event of a called `close` is delivered, and once.** In every run whose steps keep it:
whenever `close` has been called and the queue is drained, the event has been delivered, and no
later step delivers it again. -/
theorem close_delivered (owned autoClose flush : Bool) (start : Option Int) (highWaterMark : Int)
    (limit : Nat) (labels labels' : List Label)
    (hkeeps : Meets step KeepsClose (new owned autoClose flush start highWaterMark limit)
      (labels ++ labels')) :
    ClosesOnce (run step (new owned autoClose flush start highWaterMark limit) labels)
      (run step (new owned autoClose flush start highWaterMark limit) (labels ++ labels')) := by
  have hinvariant : ∀ s label, Closing s → s.KeepsClose label → Closing (s.step label) :=
    fun _ label h hk => h.step label hk
  obtain ⟨hbefore, hafter⟩ := Meets.append.mp hkeeps
  have hs := run_invariant hinvariant (new_closing owned autoClose flush start highWaterMark limit)
    hbefore
  have ht := run_invariant hinvariant hs hafter
  rw [run_append]
  refine ⟨ht.sound.closes, fun hcalled hdrained => ?_⟩
  have hone := hs.delivered (hs.called hcalled) hdrained
  refine ⟨hone, Nat.le_antisymm ht.sound.closes ?_⟩
  have honward := run_onward hs.sound labels'
  rw [← hone]
  exact honward.emitted.sublist.count_le _

theorem polls_keep (s : System) : Meets step KeepsClose s [.poll, .start, .return, .start, .return, .leave,
    .poll, .start, .return, .start, .return] :=
  ⟨trivial, trivial, trivial, trivial, trivial, trivial, trivial, trivial, trivial, trivial, trivial, trivial⟩

/-- A chunk, a call of `close`, and a poll that delivers everything. -/
theorem close_delivered_chunk :
    ClosesOnce
      (run step (new true false false none 16384 1024) [.write [1, 2] true ready, .close ready,
        .poll, .start, .return, .start, .return, .leave, .poll, .start, .return, .start, .return])
      (run step (new true false false none 16384 1024) [.write [1, 2] true ready, .close ready,
        .poll, .start, .return, .start, .return, .leave, .poll, .start, .return, .start, .return]) :=
  close_delivered true false false none 16384 1024
    [.write [1, 2] true ready, .close ready, .poll, .start, .return, .start, .return, .leave,
      .poll, .start, .return, .start, .return] []
    ⟨fun h => absurd h (by decide), .inr ⟨by unfold Prepares; decide +kernel, .inr (by decide +kernel)⟩,
      polls_keep _⟩

/-- A write between `close` and the poll: its error makes the handler of `complete` return early. -/
theorem close_lost :
    ¬ ClosesOnce
      (run step (new true false false none 16384 1024) [.close ready, .write [0] false ready,
        .poll, .start, .return, .start, .return, .leave])
      (run step (new true false false none 16384 1024) [.close ready, .write [0] false ready,
        .poll, .start, .return, .start, .return, .leave]) := by
  rintro ⟨-, h⟩
  have hnone := h (by decide +kernel) (by decide +kernel)
  exact absurd hnone (by decide +kernel)

end System

end TsonicNode.Stream
