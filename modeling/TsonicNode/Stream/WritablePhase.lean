import TsonicNode.Stream.WriteMoves

/-!
# The phases of a writable stream

`Phase` relates the flags of the stream to those of its events: a stream that
has ended, failed or been destroyed has no chunk left, one whose `finish` is
decided no callback of `end`, and so on. Every operation keeps it and is a
sequence of moves (`Rest`, `Goes`). Inside `_finish` the flag `ended` is ahead
of the rest; `Phase ended` leaves the flag open for that.
-/

namespace TsonicNode.Stream

open TsonicNode.Lib TsonicNode.Internal

namespace View

/-- The stream takes no more chunks. -/
def Stopped (ended : Bool) (v : View) : Prop :=
  ended = true ∨ v.state.failed = true ∨ v.state.events.cancelled = true

structure Phase (ended : Bool) (v : View) : Prop where
  isOver : ended = true → v.Over
  failed : v.state.failed = true → v.state.events.error.isSome = true
  errored : v.state.events.error.isSome = true →
    v.state.failed = true ∨ v.state.events.cancelled = true
  finishing : v.state.events.finishScheduled = true → ended = true
  shut : v.state.closed = true → v.Stopped ended
  closing : v.state.events.closeScheduled = true → v.state.closed = true
  empty : v.Stopped ended → v.state.chunks = []
  ends : v.Settled → v.state.events.endCompletions = []
  descriptor : v.state.hasDescriptor = false → v.state.failed = true
  released : v.state.closed = true → v.state.hasDescriptor = true → v.state.file.isOpen = false
  auto : v.state.autoClose = true → v.Stopped ended →
    v.state.events.closeScheduled = true ∨ v.state.events.cancelled = true

/-- Between two operations. -/
structure Rest (v : View) : Prop where
  events : v.Events
  phase : v.Phase v.state.ended

/-- What stopped the stream is over, and the other way round. -/
theorem Phase.over_iff {ended : Bool} {v : View} (h : v.Phase ended) :
    v.Over ↔ v.Stopped ended := by
  constructor
  · rintro (hf | he | hc)
    · exact .inl (h.finishing hf)
    · exact .inr (h.errored he)
    · exact .inr (.inr hc)
  · rintro (he | hf | hc)
    · exact h.isOver he
    · exact .inr (.inl (h.failed hf))
    · exact .inr (.inr hc)

/-- A stream with a chunk left is open. -/
theorem Phase.open_of_chunk {ended : Bool} {v : View} (h : v.Phase ended) (hE : v.Events)
    (hchunks : v.state.chunks ≠ []) : ¬ v.Over ∧ v.state.events.closed = false := by
  have hover : ¬ v.Over := fun hover => hchunks (h.empty (h.over_iff.mp hover))
  refine ⟨hover, ?_⟩
  by_contra hc
  rw [Bool.not_eq_false] at hc
  exact hover (hE.isOver (hE.queued (hE.closed hc)))

/-! ## Failing -/

theorem failEvents_error {error : TsError} {v : View} (hE : v.Events)
    (hclosed : v.state.events.closed = false) :
    (v.failEvents error).state.events.error.isSome = true := by
  unfold failEvents
  split
  · rename_i hc
    rw [hclosed] at hc
    rw [← hE.recorded]
    simpa using hc
  · rfl

theorem failEvents_finishScheduled (error : TsError) (v : View) :
    (v.failEvents error).state.events.finishScheduled = v.state.events.finishScheduled := by
  unfold failEvents
  split <;> rfl

theorem queueClose_finishScheduled (v : View) :
    v.queueClose.state.events.finishScheduled = v.state.events.finishScheduled := by
  unfold queueClose
  split <;> rfl

theorem closeEvents_finishScheduled (v : View) :
    v.closeEvents.state.events.finishScheduled = v.state.events.finishScheduled := by
  unfold closeEvents
  dsimp only
  split
  · exact queueClose_finishScheduled _
  · rfl

theorem closeEvents_error (v : View) :
    v.closeEvents.state.events.error = v.state.events.error := by
  unfold closeEvents queueClose
  dsimp only
  split
  · split <;> rfl
  · rfl

theorem closeEvents_cancelled (v : View) :
    v.closeEvents.state.events.cancelled = v.state.events.cancelled := by
  unfold closeEvents queueClose
  dsimp only
  split
  · split <;> rfl
  · rfl

theorem closeEvents_closeScheduled (v : View) :
    v.closeEvents.state.events.closeScheduled = true := by
  unfold closeEvents queueClose
  dsimp only
  split
  · split <;> rfl
  · rfl

section
variable {v v' : View}

theorem Moves.quiet {f : WritableState → WritableState} (h : Moves v v')
    (hf : { (f v'.state).events with endCompletions := [] } =
      { v'.state.events with endCompletions := [] }) : Moves v (v'.setState f) :=
  h.tail (.quiet v' f hf)

theorem Moves.report {error : Option TsError} {completions : List StreamCompletion}
    (h : Moves v v') : Moves v (v'.completeAll error completions) :=
  h.tail (.report v' error completions)

theorem Moves.completeEnd {error : Option TsError} (h : Moves v v') :
    Moves v (v'.completeEnd error) :=
  Moves.report (Moves.quiet h rfl)

theorem Moves.close (h : Moves v v') (hover : v'.Over) : Moves v v'.closeEvents :=
  h.tail (.close v' hover)

end

theorem refuse_moves (error : TsError) (completed : Nat) (v : View) :
    Moves v (v.refuse error completed) :=
  Moves.completeEnd (Moves.quiet (Moves.report (Moves.quiet .refl rfl)) rfl)

/-- After a failure there is an error. -/
theorem refuse_error {v : View} (error : TsError) (completed : Nat) (hE : v.Events)
    (hclosed : v.state.events.closed = false) :
    ((v.refuse error completed).failEvents error).state.events.error.isSome = true := by
  have hmoves := v.refuse_moves error completed
  exact failEvents_error (hE.moves hmoves) ((Later.moves hmoves).closed.trans hclosed)

theorem fail_moves {v : View} (error : TsError) (completed : Nat) (hE : v.Events)
    (hclosed : v.state.events.closed = false) : Moves v (v.fail error completed) := by
  have hfailed := (v.refuse_moves error completed).tail (.fail _ error)
  have herror := refuse_error error completed hE hclosed
  unfold fail
  dsimp only
  split
  · exact Moves.close (Moves.quiet hfailed rfl) (.inr (.inl herror))
  · exact hfailed

theorem fail_error {v : View} (error : TsError) (completed : Nat) (hE : v.Events)
    (hclosed : v.state.events.closed = false) :
    (v.fail error completed).state.events.error.isSome = true := by
  have herror := refuse_error error completed hE hclosed
  unfold fail
  dsimp only
  split
  · rw [(closeEvents_error _)]
    exact herror
  · exact herror

/-- Where a failed stream stands, but for its events. -/
theorem fail_same (error : TsError) (completed : Nat) (v : View) :
    (v.fail error completed).state =
      { v.state with
        failed := true
        chunks := []
        bufferedBytes := 0
        closed := v.state.closed || v.state.autoClose
        bytesWritten := (v.fail error completed).state.bytesWritten
        hasDescriptor := v.state.hasDescriptor && !v.state.autoClose
        events := (v.fail error completed).state.events } := by
  unfold fail
  dsimp only
  split
  · rename_i hauto
    rw [(failEvents_same _ _).state] at hauto
    have hauto : v.state.autoClose = true := hauto
    rw [(closeEvents_same _).state, setState_state, (failEvents_same _ _).state]
    simp only [refuse_state, hauto, Bool.or_true, Bool.not_true, Bool.and_false]
  · rename_i hauto
    rw [(failEvents_same _ _).state] at hauto
    have hauto : v.state.autoClose = false := Bool.not_eq_true _ ▸ hauto
    rw [(failEvents_same _ _).state]
    simp only [refuse_state, hauto, Bool.or_false, Bool.not_false, Bool.and_true]

theorem fail_finishScheduled (error : TsError) (completed : Nat) (v : View) :
    (v.fail error completed).state.events.finishScheduled = v.state.events.finishScheduled := by
  unfold fail
  dsimp only
  split
  · rw [closeEvents_finishScheduled, setState_state, failEvents_finishScheduled]
    rfl
  · rw [failEvents_finishScheduled]
    rfl

theorem fail_closeScheduled (error : TsError) (completed : Nat) (v : View)
    (hauto : v.state.autoClose = true) :
    (v.fail error completed).state.events.closeScheduled = true := by
  unfold fail
  dsimp only
  split
  · exact closeEvents_closeScheduled _
  · rename_i h
    rw [(failEvents_same _ _).state] at h
    exact absurd hauto h

theorem failEvents_closeScheduled (error : TsError) (v : View) :
    (v.failEvents error).state.events.closeScheduled = v.state.events.closeScheduled := by
  unfold failEvents
  split <;> rfl

theorem fail_closing (error : TsError) (completed : Nat) (v : View)
    (h : v.state.events.closeScheduled = true → v.state.closed = true) :
    (v.fail error completed).state.events.closeScheduled = true →
      (v.fail error completed).state.closed = true := by
  unfold fail
  dsimp only
  split
  · intro _
    rw [(closeEvents_same _).state]
    rfl
  · rw [failEvents_closeScheduled, (failEvents_same _ _).state]
    exact h

/-- A stream that fails has stopped. -/
theorem fail_phase {ended : Bool} {v : View} (error : TsError) (completed : Nat) (hE : v.Events)
    (hclosed : v.state.events.closed = false)
    (hfinishing : v.state.events.finishScheduled = true → ended = true)
    (hclosing : v.state.events.closeScheduled = true → v.state.closed = true)
    (hreleased : v.state.closed = true → v.state.hasDescriptor = true →
      v.state.file.isOpen = false) : (v.fail error completed).Phase ended := by
  obtain ⟨hchunks, hends, hfailed⟩ := v.fail_state error completed
  have hstate := v.fail_same error completed
  have herror := fail_error error completed hE hclosed
  exact
    { isOver := fun _ => .inr (.inl herror)
      failed := fun _ => herror
      errored := fun _ => .inl hfailed
      finishing := by rw [fail_finishScheduled]; exact hfinishing
      shut := fun _ => .inr (.inl hfailed)
      closing := fail_closing error completed v hclosing
      empty := fun _ => hchunks
      ends := fun _ => hends
      descriptor := fun _ => hfailed
      released := by
        rw [hstate]
        intro hshut hdescriptor
        simp only [Bool.and_eq_true, Bool.not_eq_true'] at hdescriptor
        simp only [hdescriptor.2, Bool.or_false] at hshut
        exact hreleased hshut hdescriptor.1
      auto := by
        intro hauto _
        rw [hstate] at hauto
        exact .inl (fail_closeScheduled error completed v hauto) }

/-! ## Flushing -/

theorem Wrote.eq {requests : List WriteRequest} {v v' : View} (h : Wrote requests v v') :
    v' = (v.setState fun _ => v'.state).completeAll none (Writable.completions requests) := by
  obtain ⟨state', commits', starts'⟩ := v'
  have hcommits := h.commits
  have hstarts := h.starts
  simp only at hcommits hstarts
  simp [completeAll, commit, setState, hcommits, hstarts]

theorem Wrote.moves {requests : List WriteRequest} {v v' : View} (h : Wrote requests v v') :
    Moves v v' := by
  rw [h.eq]
  refine Moves.report (Moves.quiet .refl ?_)
  rw [h.state]

/-- What does not matter to the phase: the chunks of a stream that has not stopped, and some more. -/
theorem Phase.change {ended : Bool} {v v' : View} (h : v.Phase ended)
    (hstate : v'.state =
      { v.state with
        file := v'.state.file
        chunks := v'.state.chunks
        corked := v'.state.corked
        ended := v'.state.ended
        bufferedBytes := v'.state.bufferedBytes
        position := v'.state.position
        bytesWritten := v'.state.bytesWritten
        needDrain := v'.state.needDrain })
    (hopen : v'.state.file.isOpen = v.state.file.isOpen)
    (hempty : v.Stopped ended → v'.state.chunks = []) : v'.Phase ended := by
  have hstopped : v'.Stopped ended ↔ v.Stopped ended := by rw [Stopped, hstate]; rfl
  have hover : v'.Over ↔ v.Over := by rw [Over, hstate]; rfl
  have hsettled : v'.Settled ↔ v.Settled := by rw [Settled, hstate]; rfl
  exact
    { isOver := by rw [hover]; exact h.isOver
      failed := by rw [hstate]; exact h.failed
      errored := by rw [hstate]; exact h.errored
      finishing := by rw [hstate]; exact h.finishing
      shut := by rw [hstopped, hstate]; exact h.shut
      closing := by rw [hstate]; exact h.closing
      empty := by rw [hstopped]; exact hempty
      ends := by rw [hsettled, hstate]; exact h.ends
      descriptor := by rw [hstate]; exact h.descriptor
      released := by rw [hopen, hstate]; exact h.released
      auto := by rw [hstopped, hstate]; exact h.auto }

theorem Wrote.phase {requests : List WriteRequest} {ended : Bool} {v v' : View}
    (h : Wrote requests v v') (hp : v.Phase ended) : v'.Phase ended := by
  have hstate := h.state
  refine hp.change (by rw [hstate]) h.file.1 fun hstopped => ?_
  rw [hstate]
  exact hp.empty hstopped

theorem Phase.drain {ended : Bool} {v : View} (h : v.Phase ended) : v.drain.Phase ended := by
  unfold View.drain
  split
  · exact h
  · exact { h with }

theorem flush_moves {ended : Bool} {v : View} (answers : Answers) (hE : v.Events)
    (hp : v.Phase ended) :
    Moves v (v.flush_ answers) ∧ (v.flush_ answers).Phase ended ∧
      ((v.flush_ answers).state.failed = true ∨ (v.flush_ answers).state.chunks = []) := by
  obtain ⟨hskip, heq⟩ | ⟨-, -, v', ⟨hwrote, heq⟩ |
    ⟨done, request, left, error, hchunks, hwrote, heq⟩⟩ := v.flush_cases answers
  · rw [heq]
    refine ⟨.refl, hp, .inl ?_⟩
    rcases hskip with hd | hf
    · exact hp.descriptor hd
    · exact hf
  · rw [heq]
    have hp' : ∀ drain, (v'.setState fun state =>
        { state with chunks := [], needDrain := drain }).Phase ended := fun drain =>
      (hwrote.phase hp).change rfl rfl fun _ => rfl
    split
    · refine ⟨(Moves.quiet hwrote.moves rfl).tail (.drain _), (hp' false).drain, .inr ?_⟩
      rw [(drain_same _).state]
      rfl
    · exact ⟨Moves.quiet hwrote.moves rfl, hp' v'.state.needDrain, .inr rfl⟩
  · rw [heq]
    have hp' := hwrote.phase hp
    have hE' := hE.moves hwrote.moves
    have hclosed : v'.state.events.closed = false := by
      rw [(Later.moves hwrote.moves).closed]
      exact (hp.open_of_chunk hE (by rw [hchunks]; simp)).2
    refine ⟨hwrote.moves.trans (fail_moves error _ hE' hclosed),
      fail_phase error _ hE' hclosed hp'.finishing hp'.closing hp'.released, .inl ?_⟩
    exact (v'.fail_state error done.length).2.2

theorem flush_ended (answers : Answers) (v : View) :
    (v.flush_ answers).state.ended = v.state.ended := by
  obtain ⟨-, heq⟩ | ⟨-, -, v', ⟨hwrote, heq⟩ | ⟨done, -, -, error, -, hwrote, heq⟩⟩ :=
    v.flush_cases answers
  · rw [heq]
  · have hended : v'.state.ended = v.state.ended := by rw [hwrote.state]
    rw [heq]
    split
    · rw [(drain_same _).state]
      exact hended
    · exact hended
  · rw [heq, fail_same]
    show v'.state.ended = v.state.ended
    rw [hwrote.state]

/-! ## Operations -/

/-- What an operation makes of a stream at rest. -/
structure Goes (v v' : View) : Prop where
  rest : v'.Rest
  later : Later v v'
  destroyed : v'.state.events.cancelled = true →
    v.state.events.cancelled = true ∨ v'.state.events.closeScheduled = true

theorem Goes.refl {v : View} (h : v.Rest) : Goes v v := ⟨h, .refl v, .inl⟩

theorem Goes.trans {v v' v'' : View} (h : Goes v v') (h' : Goes v' v'') : Goes v v'' where
  rest := h'.rest
  later := h.later.trans h'.later
  destroyed := fun hc => by
    rcases h'.destroyed hc with hc | hs
    · exact (h.destroyed hc).imp_right h'.later.closeScheduled
    · exact .inr hs

theorem Goes.of_moves {v v' : View} (hmoves : Moves v v') (h : v.Events)
    (hphase : v'.Phase v'.state.ended) : Goes v v' :=
  ⟨⟨h.moves hmoves, hphase⟩, Later.moves hmoves, fun hc => .inl (hmoves.cancelled ▸ hc)⟩

theorem flush_goes {v : View} (answers : Answers) (h : v.Rest) : Goes v (v.flush_ answers) := by
  obtain ⟨hmoves, hphase, -⟩ := flush_moves answers h.events h.phase
  refine .of_moves hmoves h.events ?_
  rw [flush_ended]
  exact hphase

theorem fail_goes {v : View} (error : TsError) (completed : Nat) (h : v.Rest)
    (hclosed : v.state.events.closed = false) : Goes v (v.fail error completed) := by
  refine .of_moves (fail_moves error completed h.events hclosed) h.events ?_
  have hended : (v.fail error completed).state.ended = v.state.ended := by rw [fail_same]
  rw [hended]
  exact fail_phase error completed h.events hclosed h.phase.finishing h.phase.closing
    h.phase.released

theorem write_goes {v : View} (value : List UInt8) (completion : Option StreamCompletion)
    (answers : Answers) (h : v.Rest) : Goes v (v.write value completion answers) := by
  unfold write
  by_cases hwritable : ¬ v.state.writable = true
  · rw [if_pos hwritable]
    have hreport : Goes v (v.completeAll
        (some (v.state.failure "Cannot write to an ended, closed or failed stream"))
        completion.toList) := .of_moves (Moves.report .refl) h.events { h.phase with }
    dsimp only
    split
    · rename_i hdestroyed
      refine hreport.trans (fail_goes _ 0 hreport.rest ?_)
      simp only [WritableState.destroyed, completeAll_state, Bool.or_eq_true, not_or,
        Bool.not_eq_true] at hdestroyed
      exact hdestroyed.1
    · exact hreport
  · rw [if_neg hwritable]
    have hstopped : ¬ v.Stopped v.state.ended := by
      rintro (hs | hs | hs) <;> simp [WritableState.writable, hs] at hwritable
    have haccept : Goes v (v.accept value completion) :=
      .of_moves (Moves.quiet .refl rfl) h.events
        (h.phase.change rfl rfl fun hs => absurd hs hstopped)
    have hgoes : Goes v (if (v.accept value completion).state.corked = 0 then
        (v.accept value completion).flush_ answers else v.accept value completion) := by
      split
      · exact haccept.trans (flush_goes answers haccept.rest)
      · exact haccept
    exact hgoes.trans (.of_moves (Moves.quiet .refl rfl) hgoes.rest.events
      (hgoes.rest.phase.change rfl rfl hgoes.rest.phase.empty))

theorem uncork_goes {v : View} (answers : Answers) (h : v.Rest) : Goes v (v.uncork answers) := by
  unfold uncork
  split
  · have hquiet : Goes v (v.setState fun state => { state with corked := state.corked - 1 }) :=
      .of_moves (Moves.quiet .refl rfl) h.events (h.phase.change rfl rfl h.phase.empty)
    dsimp only
    split
    · exact hquiet.trans (flush_goes answers hquiet.rest)
    · exact hquiet
  · exact .refl h

theorem cork_goes {v : View} (h : v.Rest) : Goes v v.cork :=
  .of_moves (Moves.quiet .refl rfl) h.events (h.phase.change rfl rfl h.phase.empty)

theorem retainEnd_goes {v : View} (completion : StreamCompletion) (h : v.Rest) :
    Goes v (v.retainEnd completion) := by
  have hreport : ∀ error, Goes v (v.completeAll error [completion]) := fun error =>
    .of_moves (Moves.report .refl) h.events { h.phase with }
  unfold retainEnd
  split
  · exact hreport _
  · rename_i herror
    split
    · exact hreport _
    · rename_i hdestroyed
      split
      · exact hreport _
      · rename_i hfinished
        refine .of_moves (Moves.quiet .refl rfl) h.events { h.phase with ends := ?_ }
        rintro (hf | he | hc)
        · exact absurd hf hfinished
        · rw [setEvents_state, herror] at he
          cases he
        · exact absurd (.inl hc) hdestroyed

theorem retainEnds_goes {v : View} (completion : Option StreamCompletion) (h : v.Rest) :
    Goes v (v.retainEnds completion) := by
  cases completion with
  | none => exact .refl h
  | some completion => exact retainEnd_goes completion h

/-! ## Ending and closing -/

theorem queueClose_phase {ended : Bool} {v : View} (h : v.Phase ended) :
    v.queueClose.Phase ended := by
  unfold queueClose
  split
  · exact h
  · exact { h with }

theorem closeEvents_phase {ended : Bool} {v : View}
    (h : (v.setEvents fun events => { events with closeScheduled := true }).Phase ended) :
    v.closeEvents.Phase ended := by
  unfold closeEvents
  dsimp only
  split
  · exact queueClose_phase h
  · exact h

theorem finishEvents_closeScheduled (v : View) :
    v.finishEvents.state.events.closeScheduled = v.state.events.closeScheduled := by
  unfold finishEvents
  split <;> rfl

theorem finishEvents_over (v : View) : v.finishEvents.Over := by
  unfold finishEvents
  split
  · rename_i hover
    exact hover
  · exact .inl rfl

/-- What the part of `_finish` that may raise does. -/
theorem complete_view (answers : Answers) (v : View) :
    (v.complete answers).2 = v ∧ ((v.complete answers).1 = none → v.state.autoClose = false) ∨
      (v.complete answers).2 = (v.closeDescriptor answers).2 := by
  unfold complete
  split
  · exact .inl ⟨rfl, fun h => by cases h⟩
  · split
    · exact .inl ⟨rfl, fun h => by cases h⟩
    · split
      · exact .inr rfl
      · rename_i hauto
        exact .inl ⟨rfl, fun _ => by simpa using hauto⟩

theorem closeDescriptor_released (answers : Answers) (v : View) :
    (v.closeDescriptor answers).2.state.hasDescriptor = true →
      (v.closeDescriptor answers).2.state.file.isOpen = false := by
  rw [closeDescriptor_view]
  intro hdescriptor
  have hdescriptor : v.state.hasDescriptor = true := hdescriptor
  simp only [setState_state, hdescriptor, if_true]
  exact DescriptorState.close_isOpen answers _

/-- The end of `_finish`, on a stream that has flushed all its chunks. -/
theorem settle_moves {v : View} (answers : Answers) (hE : v.Events) (hp : v.Phase false)
    (hclosed : v.state.events.closed = false) (hchunks : v.state.chunks = []) :
    Moves v (v.settle answers) ∧ (v.settle answers).Phase true := by
  have hview := v.complete_view answers
  unfold settle
  generalize v.complete answers = result at hview ⊢
  obtain ⟨raised, v'⟩ := result
  have hclosing : v'.state.events.closeScheduled = true → v'.state.closed = true := by
    rcases hview with ⟨rfl, -⟩ | rfl
    · exact hp.closing
    · rw [closeDescriptor_view]
      exact fun _ => rfl
  have hsame : Moves v v' ∧ v'.state.events = v.state.events ∧ v'.state.failed = v.state.failed ∧
      v'.state.chunks = [] ∧ v'.state.hasDescriptor = v.state.hasDescriptor ∧
      v'.state.autoClose = v.state.autoClose ∧
      (v'.state.closed = true → v'.state.hasDescriptor = true → v'.state.file.isOpen = false) ∧
      (raised = none → v'.state.autoClose = true → v'.state.closed = true) := by
    rcases hview with ⟨rfl, hauto⟩ | rfl
    · exact ⟨.refl, rfl, rfl, hchunks, rfl, rfl, hp.released, fun hr ha => absurd (hauto hr) (by rw [ha]; decide)⟩
    · have hreleased := v.closeDescriptor_released answers
      refine ⟨?_, ?_, ?_, ?_, ?_, ?_, fun _ => hreleased, fun _ _ => ?_⟩
      all_goals simp only [closeDescriptor_view]
      · exact Moves.quiet .refl rfl
      · rfl
      · rfl
      · exact hchunks
      · rfl
      · rfl
      · rfl
  obtain ⟨hmoves, hevents, hfailed, hchunks', hdescriptor, hauto, hreleased, hshut⟩ := hsame
  have hE' := hE.moves hmoves
  cases raised with
  | some error =>
    have hclosed' : v'.state.events.closed = false := by rw [hevents]; exact hclosed
    exact ⟨hmoves.trans (fail_moves _ 0 hE' hclosed'),
      fail_phase _ 0 hE' hclosed' (fun _ => rfl) hclosing hreleased⟩
  | none =>
    have hover := v'.finishEvents_over
    have hstate := (finishEvents_same v').state
    have hends := (finishEvents_same v').ends
    have hflags : v'.finishEvents.state.events.error = v'.state.events.error ∧
        v'.finishEvents.state.events.cancelled = v'.state.events.cancelled ∧
        v'.finishEvents.state.events.finished = v'.state.events.finished := by
      unfold finishEvents
      split <;> exact ⟨rfl, rfl, rfl⟩
    obtain ⟨herror, hcancelled, hfinished⟩ := hflags
    rw [hevents] at herror hcancelled hfinished hends
    have hfailed' : v'.finishEvents.state.failed = v.state.failed := by rw [hstate]; exact hfailed
    -- everything but `auto` holds with or without the flag
    have hphase : ∀ scheduled, (v'.finishEvents.state.autoClose = true → scheduled = true) →
        (scheduled = true → v'.finishEvents.state.closed = true) →
        (v'.finishEvents.setEvents fun events =>
          { events with closeScheduled := scheduled }).Phase true := fun scheduled hauto' hclosing' =>
      { isOver := fun _ => hover
        failed := by
          show v'.finishEvents.state.failed = true →
            v'.finishEvents.state.events.error.isSome = true
          rw [hfailed', herror]
          exact hp.failed
        errored := by
          show v'.finishEvents.state.events.error.isSome = true →
            v'.finishEvents.state.failed = true ∨ v'.finishEvents.state.events.cancelled = true
          rw [hfailed', herror, hcancelled]
          exact hp.errored
        finishing := fun _ => rfl
        shut := fun _ => .inl rfl
        closing := hclosing'
        empty := fun _ => by rw [setEvents_state, hstate]; exact hchunks'
        ends := by
          show v'.finishEvents.Settled → v'.finishEvents.state.events.endCompletions = []
          rw [Settled, herror, hcancelled, hfinished, hends]
          exact hp.ends
        descriptor := by
          rw [setEvents_state, hstate]
          show v'.state.hasDescriptor = false → v'.state.failed = true
          rw [hdescriptor, hfailed]
          exact hp.descriptor
        released := by
          rw [setEvents_state, hstate]
          exact hreleased
        auto := fun ha _ => .inl (hauto' ha) }
    have hmoves' := hmoves.tail (.finish v')
    dsimp only
    split
    · rename_i hopen
      exact ⟨Moves.close hmoves' hover,
        closeEvents_phase (hphase true (fun _ => rfl) fun _ => hopen)⟩
    · rename_i hopen
      refine ⟨hmoves', hphase v'.finishEvents.state.events.closeScheduled (fun ha => ?_) ?_⟩
      · rw [hstate] at ha hopen
        exact absurd (hshut rfl ha) hopen
      · rw [finishEvents_closeScheduled, hstate]
        exact hclosing

theorem settle_ended (answers : Answers) (v : View) :
    (v.settle answers).state.ended = v.state.ended := by
  have hview := v.complete_view answers
  unfold settle
  generalize v.complete answers = result at hview ⊢
  obtain ⟨raised, v'⟩ := result
  have hended : v'.state.ended = v.state.ended := by
    rcases hview with ⟨rfl, -⟩ | rfl
    · rfl
    · rw [closeDescriptor_view]
      rfl
  cases raised with
  | some error =>
    dsimp only
    rw [← hended, fail_same]
  | none =>
    dsimp only
    rw [← hended]
    split
    · rw [(closeEvents_same _).state, (finishEvents_same _).state]
    · rw [(finishEvents_same _).state]

/-- Whether a failed stream has ended does not matter. -/
theorem Phase.of_failed {ended : Bool} {v : View} (h : v.Phase ended)
    (hfailed : v.state.failed = true) : v.Phase true :=
  { h with
    isOver := fun _ => .inr (.inl (h.failed hfailed))
    finishing := fun _ => rfl
    shut := fun _ => .inl rfl
    empty := fun _ => h.empty (.inr (.inl hfailed))
    auto := fun ha _ => h.auto ha (.inr (.inl hfailed)) }

/-- After `_finish` the stream is over. -/
theorem finish_goes {v : View} (answers : Answers) (h : v.Rest) :
    Goes v (v.finish answers) ∧ (v.finish answers).Over := by
  unfold finish
  by_cases hover : v.state.failed = true ∨ v.state.destroyed = true
  · rw [if_pos hover]
    refine ⟨.refl h, ?_⟩
    simp only [WritableState.destroyed, Bool.or_eq_true] at hover
    rcases hover with hf | hc | hc
    · exact .inr (.inl (h.phase.failed hf))
    · exact h.events.isOver (h.events.queued (h.events.closed hc))
    · exact .inr (.inr hc)
  · rw [if_neg hover]
    by_cases hended : v.state.ended = true
    · rw [if_pos hended]
      exact ⟨.refl h, h.phase.isOver hended⟩
    · rw [if_neg hended]
      simp only [WritableState.destroyed, Bool.or_eq_true, not_or, Bool.not_eq_true] at hover hended
      obtain ⟨hfailed, hclosed, hcancelled⟩ := hover
      have hquiet : Moves v (v.setState fun state => { state with ended := true, corked := 0 }) :=
        Moves.quiet .refl rfl
      have hphase := h.phase
      rw [hended] at hphase
      have hopen : (v.setState fun state => { state with ended := true, corked := 0 }).Phase false :=
        hphase.change rfl rfl hphase.empty
      obtain ⟨hmoves, hflushed, hleft⟩ := flush_moves answers (h.events.moves hquiet) hopen
      have hmoves := hquiet.trans hmoves
      have hended' := flush_ended answers
        (v.setState fun state => { state with ended := true, corked := 0 })
      dsimp only
      split
      · rename_i hfailed'
        refine ⟨.of_moves hmoves h.events ?_, .inr (.inl (hflushed.failed hfailed'))⟩
        rw [hended']
        exact hflushed.of_failed hfailed'
      · rename_i hfailed'
        have hclosed' := (Later.moves hmoves).closed.trans hclosed
        obtain ⟨hsettle, htrue⟩ := settle_moves answers (h.events.moves hmoves) hflushed hclosed'
          (hleft.resolve_left hfailed')
        refine ⟨.of_moves (hmoves.trans hsettle) h.events ?_, htrue.isOver rfl⟩
        rw [settle_ended, hended']
        exact htrue

theorem closeDescriptor_goes {v : View} (answers : Answers) (h : v.Rest) (hover : v.Over) :
    Goes v (v.closeDescriptor answers).2 := by
  have hreleased := v.closeDescriptor_released answers
  rw [closeDescriptor_view] at hreleased ⊢
  exact .of_moves (Moves.quiet .refl rfl) h.events
    { h.phase with
      shut := fun _ => h.phase.over_iff.mp hover
      closing := fun _ => rfl
      released := fun _ => hreleased }

theorem closeEvents_goes {v : View} (h : v.Rest) (hover : v.Over) (hclosed : v.state.closed = true) :
    Goes v v.closeEvents := by
  refine .of_moves (Moves.close .refl hover) h.events ?_
  rw [(closeEvents_same v).state]
  exact closeEvents_phase
    { h.phase with
      closing := fun _ => hclosed
      auto := fun _ _ => .inl rfl }

theorem closeFinally_goes {v : View} (answers : Answers) (h : v.Rest) (hover : v.Over) :
    Goes v (v.closeFinally answers).2 := by
  have hdescriptor := closeDescriptor_goes answers h hover
  have hclosed' : (v.closeDescriptor answers).2.Over ∧
      (v.closeDescriptor answers).2.state.closed = true := by
    rw [closeDescriptor_view]
    exact ⟨hover, rfl⟩
  unfold closeFinally
  by_cases hclosed : v.state.closed = true
  · rw [if_pos hclosed]
    exact closeEvents_goes h hover hclosed
  · rw [if_neg hclosed]
    generalize v.closeDescriptor answers = result at hdescriptor hclosed' ⊢
    obtain ⟨_ | error, v'⟩ := result
    · exact hdescriptor.trans (closeEvents_goes hdescriptor.rest hclosed'.1 hclosed'.2)
    · exact hdescriptor

theorem close_goes {v : View} (answers : Answers) (h : v.Rest) : Goes v (v.close answers).2 := by
  obtain ⟨hfinish, hover⟩ := finish_goes answers h
  exact hfinish.trans (closeFinally_goes answers hfinish.rest hover)

theorem abandon_moves (error : TsError) (v : View) : Moves v (v.abandon error) :=
  Moves.completeEnd (Moves.quiet (Moves.report .refl) rfl)

theorem abandon_rest {v : View} (error : TsError) (h : v.Rest) : (v.cancel.abandon error).Rest where
  events := h.events.cancel.moves (abandon_moves error v.cancel)
  phase :=
    { isOver := fun _ => .inr (.inr rfl)
      failed := h.phase.failed
      errored := fun _ => .inr rfl
      finishing := h.phase.finishing
      shut := fun _ => .inr (.inr rfl)
      closing := h.phase.closing
      empty := fun _ => rfl
      ends := fun _ => rfl
      descriptor := h.phase.descriptor
      released := h.phase.released
      auto := fun _ _ => .inr rfl }

/-- A destroyed stream may still fail. -/
theorem failEvents_goes {v : View} (error : TsError) (h : v.Rest)
    (hcancelled : v.state.events.cancelled = true) : Goes v (v.failEvents error) := by
  refine .of_moves (.single (.fail v error)) h.events ?_
  have hphase := h.phase
  unfold failEvents
  split
  · exact hphase
  · exact
      { hphase with
        isOver := fun _ => .inr (.inr hcancelled)
        failed := fun _ => rfl
        errored := fun _ => .inr hcancelled
        ends := fun _ => hphase.ends (.inr (.inr hcancelled)) }

theorem failEventsWith_goes {v : View} (error : Option TsError) (h : v.Rest)
    (hcancelled : v.state.events.cancelled = true) : Goes v (v.failEventsWith error) := by
  cases error with
  | none => exact .refl h
  | some error => exact failEvents_goes error h hcancelled

theorem release_goes {v : View} (answers : Answers) (h : v.Rest)
    (hcancelled : v.state.events.cancelled = true) : Goes v (v.release answers) := by
  have hdescriptor := closeDescriptor_goes answers h (.inr (.inr hcancelled))
  have hcancelled' := hdescriptor.later.cancelled hcancelled
  unfold release
  generalize v.closeDescriptor answers = result at hdescriptor hcancelled' ⊢
  obtain ⟨_ | failure, v'⟩ := result
  · exact hdescriptor
  · exact hdescriptor.trans (failEvents_goes _ hdescriptor.rest hcancelled')

theorem release_closed (answers : Answers) (v : View) :
    (v.release answers).state.closed = true := by
  rw [(release_same answers v).state, closeDescriptor_view]
  rfl

theorem destroy_goes {v : View} (error : Option TsError) (answers : Answers) (h : v.Rest) :
    Goes v (v.destroy error answers) := by
  unfold destroy
  by_cases hdestroyed : v.state.destroyed = true
  · rw [if_pos hdestroyed]
    exact .refl h
  · rw [if_neg hdestroyed]
    have habandon := (Later.cancel v).trans
      (Later.moves (abandon_moves (v.destruction error) v.cancel))
    have hfailed := failEventsWith_goes error (abandon_rest (v.destruction error) h) rfl
    have hrelease := release_goes answers hfailed.rest (hfailed.later.cancelled rfl)
    have hclose := closeEvents_goes hrelease.rest
      (.inr (.inr (hrelease.later.cancelled (hfailed.later.cancelled rfl)))) (release_closed ..)
    exact ⟨hclose.rest, habandon.trans (hfailed.later.trans (hrelease.later.trans hclose.later)),
      fun _ => .inr (closeEvents_closeScheduled _)⟩

end View

end TsonicNode.Stream
