import TsonicNode.Stream.WritableRun

/-!
# A rule for invariants of runs

What an invariant must stand is the same for many invariants: quiet changes,
transitions of the events, and a failure before the stream schedules its
`close`. `Standing P` says that `P` stands these; then every operation keeps
`P` (`Standing.flush`, `Standing.finish`, ..), and what is left to show is what
a refused write, `destroy` and a started event do (`Standing.outcome`).
-/

namespace TsonicNode.Stream

open TsonicNode.Lib TsonicNode.Internal

namespace View

structure Standing (P : View → Prop) : Prop where
  quiet : ∀ v f, { (f v.state).events with endCompletions := [] } =
    { v.state.events with endCompletions := [] } → P v → P (v.setState f)
  report : ∀ v error completions, P v → P (v.completeAll error completions)
  drain : ∀ v, v.Events → P v → P v.drain
  fail : ∀ v error completed, v.state.events.closeScheduled = false → v.Events → P v →
    P (v.fail error completed)
  finish : ∀ v, v.state.events.closeScheduled = false → v.Events → P v → P v.finishEvents
  close : ∀ v, v.Events → P v → P v.closeEvents

section
variable {P : View → Prop} {v : View}

theorem Events.open_close (hE : v.Events) (hover : ¬ v.Over) :
    v.state.events.closeScheduled = false := by
  by_contra h
  exact hover (hE.isOver (by simpa using h))

theorem Standing.wrote (hP : Standing P) {requests : List WriteRequest} {v' : View}
    (h : Wrote requests v v') (hv : P v) : P v' := by
  rw [h.eq]
  exact hP.report _ _ _ (hP.quiet _ _ (by rw [h.state]) hv)

theorem Standing.flush (hP : Standing P) {ended : Bool} (answers : Answers) (hE : v.Events)
    (hp : v.Phase ended) (hv : P v) : P (v.flush_ answers) := by
  obtain ⟨-, heq⟩ | ⟨-, -, v', ⟨hwrote, heq⟩ |
    ⟨done, request, left, error, hchunks, hwrote, heq⟩⟩ := v.flush_cases answers
  · rw [heq]
    exact hv
  · have hquiet : ∀ drain, P (v'.setState fun state =>
        { state with chunks := [], needDrain := drain }) := fun drain =>
      hP.quiet _ _ rfl (hP.wrote hwrote hv)
    rw [heq]
    split
    · exact hP.drain _ ((hE.moves hwrote.moves).quiet _ rfl) (hquiet false)
    · exact hquiet v'.state.needDrain
  · have hopen := hp.open_of_chunk hE (by rw [hchunks]; simp)
    have hclose : v'.state.events.closeScheduled = false := by
      rw [hwrote.state]
      exact hE.open_close hopen.1
    rw [heq]
    exact hP.fail _ _ _ hclose (hE.moves hwrote.moves) (hP.wrote hwrote hv)

theorem Standing.closeDescriptor (hP : Standing P) (answers : Answers) (hv : P v) :
    P (v.closeDescriptor answers).2 := by
  rw [closeDescriptor_view]
  exact hP.quiet _ _ rfl hv

theorem Standing.settle (hP : Standing P) (answers : Answers) (hE : v.Events)
    (hclose : v.state.events.closeScheduled = false) (hv : P v) : P (v.settle answers) := by
  have hview := v.complete_view answers
  unfold View.settle
  generalize v.complete answers = result at hview ⊢
  obtain ⟨raised, v'⟩ := result
  have hv' : P v' ∧ v'.Events ∧ v'.state.events.closeScheduled = false := by
    rcases hview with ⟨rfl, -⟩ | rfl
    · exact ⟨hv, hE, hclose⟩
    · refine ⟨hP.closeDescriptor answers hv, ?_⟩
      rw [closeDescriptor_view]
      exact ⟨hE.quiet _ rfl, hclose⟩
  obtain ⟨hv', hE', hclose'⟩ := hv'
  cases raised with
  | some error => exact hP.fail _ _ _ hclose' hE' hv'
  | none =>
    dsimp only
    split
    · exact hP.close _ hE'.finish (hP.finish _ hclose' hE' hv')
    · exact hP.finish _ hclose' hE' hv'

theorem Standing.finishStream (hP : Standing P) (answers : Answers) (h : v.Rest) (hv : P v) :
    P (v.finish answers) := by
  unfold View.finish
  by_cases hover : v.state.failed = true ∨ v.state.destroyed = true
  · rw [if_pos hover]
    exact hv
  · rw [if_neg hover]
    by_cases hended : v.state.ended = true
    · rw [if_pos hended]
      exact hv
    · rw [if_neg hended]
      have hphase := h.phase
      simp only [WritableState.destroyed, Bool.or_eq_true, not_or, Bool.not_eq_true] at hover hended
      rw [hended] at hphase
      have hE := h.events.quiet (fun state => { state with ended := true, corked := 0 }) rfl
      have hp : (v.setState fun state => { state with ended := true, corked := 0 }).Phase false :=
        hphase.change rfl rfl hphase.empty
      have hflushed := hP.flush answers hE hp (hP.quiet _ _ rfl hv)
      obtain ⟨hmoves, hphase', -⟩ := flush_moves answers hE hp
      dsimp only
      split
      · exact hflushed
      · rename_i hfailed
        refine hP.settle answers (hE.moves hmoves) ?_ hflushed
        refine (hE.moves hmoves).open_close fun hopen => ?_
        rcases hphase'.over_iff.mp hopen with hs | hs | hs
        · cases hs
        · exact hfailed hs
        · rw [hmoves.cancelled] at hs
          exact absurd (hover.2.2.symm.trans hs) (by decide)

theorem Standing.retainEnds (hP : Standing P) (completion : Option StreamCompletion) (hv : P v) :
    P (v.retainEnds completion) := by
  cases completion with
  | none => exact hv
  | some completion =>
    unfold View.retainEnds retainEnd
    dsimp only
    split
    · exact hP.report _ _ _ hv
    · split
      · exact hP.report _ _ _ hv
      · split
        · exact hP.report _ _ _ hv
        · exact hP.quiet _ _ rfl hv

/-- A write keeps the invariant unless it is refused and fails the stream. -/
theorem Standing.write (hP : Standing P) (value : List UInt8)
    (completion : Option StreamCompletion) (answers : Answers) (h : v.Rest) (hv : P v)
    (hrefused : v.state.writable = false → v.state.destroyed = false → ∀ error completions,
      P ((v.completeAll (some error) completions).fail error 0)) :
    P (v.write value completion answers) := by
  unfold View.write
  by_cases hwritable : ¬ v.state.writable = true
  · rw [if_pos hwritable]
    dsimp only
    split
    · rename_i hdestroyed
      exact hrefused (by simpa using hwritable) (by simpa using hdestroyed) _ _
    · exact hP.report _ _ _ hv
  · rw [if_neg hwritable]
    have haccept : P (v.accept value completion) := hP.quiet _ _ rfl hv
    have hstopped : ¬ v.Stopped v.state.ended := by
      rintro (hs | hs | hs) <;> simp [WritableState.writable, hs] at hwritable
    have hp : (v.accept value completion).Phase v.state.ended :=
      h.phase.change rfl rfl fun hs => absurd hs hstopped
    refine hP.quiet _ _ rfl ?_
    split
    · exact hP.flush answers (h.events.quiet _ rfl) hp haccept
    · exact haccept

theorem Standing.uncork (hP : Standing P) (answers : Answers) (h : v.Rest) (hv : P v) :
    P (v.uncork answers) := by
  unfold View.uncork
  split
  · dsimp only
    split
    · have hp : (v.setState fun state => { state with corked := state.corked - 1 }).Phase
          v.state.ended := h.phase.change rfl rfl h.phase.empty
      exact hP.flush answers (h.events.quiet _ rfl) hp (hP.quiet _ _ rfl hv)
    · exact hP.quiet _ _ rfl hv
  · exact hv

theorem Standing.closeFinally (hP : Standing P) (answers : Answers) (hE : v.Events) (hv : P v) :
    P (v.closeFinally answers).2 := by
  have hdescriptor := hP.closeDescriptor answers hv
  have hE' : (v.closeDescriptor answers).2.Events := by
    rw [closeDescriptor_view]
    exact hE.quiet _ rfl
  unfold View.closeFinally
  split
  · rename_i heq
    split at heq
    · cases heq
    · rw [heq] at hdescriptor
      exact hdescriptor
  · rename_i heq
    split at heq
    · cases heq
      exact hP.close _ hE hv
    · rw [heq] at hdescriptor hE'
      exact hP.close _ hE' hdescriptor

theorem Standing.closeStream (hP : Standing P) (answers : Answers) (h : v.Rest) (hv : P v) :
    P (v.close answers).2 :=
  hP.closeFinally answers (finish_goes answers h).1.rest.events (hP.finishStream answers h hv)

/-- What is left to show for a step: a refused write that fails the stream, `destroy`, a started
entry, and what another stream does. -/
theorem Standing.outcome (hP : Standing P) {s : System} {label : Label} {v' : View} {h' : History}
    (houtcome : Outcome s label v' h') (h : s.world.view.Rest) (hv : P s.world.view)
    (hrefused : ∀ value given answers,
      label = .write value given answers ∨ label = .endChunk value given answers →
      s.Admits value given → s.world.state.writable = false → s.world.state.destroyed = false →
      ∀ completion error completions,
        P (((s.world.view.retainEnds completion).completeAll (some error) completions).fail error 0))
    (hdestroy : ∀ error answers, label = .destroy error answers →
      P (s.world.view.destroy error answers))
    (hdeliver : ∀ entry rest, s.world.view.commits = s.world.view.starts ++ entry :: rest →
      P (s.world.view.deliver entry))
    (hother : P (s.world.view.commit [.foreign])) : P v' := by
  cases houtcome with
  | write completion hcallback hadmits =>
    exact hP.write _ _ _ h hv fun hw hd => hrefused _ _ _ (.inl rfl) hadmits hw hd none
  | «end» completion hcallback =>
    exact hP.finishStream _ (retainEnds_goes completion h).rest (hP.retainEnds completion hv)
  | endChunk completion hcallback hadmits =>
    have hretained := retainEnds_goes completion h
    refine hP.finishStream _ (write_goes _ none _ hretained.rest).rest
      (hP.write _ none _ hretained.rest (hP.retainEnds completion hv) fun hw hd => ?_)
    have hstate := retainEnds_state completion s.world.view
    refine hrefused _ _ _ (.inr rfl) hadmits ?_ ?_ completion
    · rw [hstate] at hw
      exact hw
    · rw [hstate] at hd
      exact hd
  | endChunkRaised completion hcallback => exact hP.retainEnds completion hv
  | cork => exact hP.quiet _ _ rfl hv
  | uncork => exact hP.uncork _ h hv
  | close => exact hP.closeStream _ h hv
  | closeRaised => exact hv
  | destroy => exact hdestroy _ _ rfl
  | raised => exact hv
  | deliver hnext => exact hdeliver _ _ hnext
  | other => exact hother
  | idle => exact hv

end

end View

end TsonicNode.Stream
