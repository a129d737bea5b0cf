import TsonicNode.Stream.WritableLedger

/-!
# What the callbacks of a writable stream are told

Every operation of the stream and every delivery keeps the `Ledger`
(`Outcome.ledger`), and so does every run. `System.callbacks_told` reads off
what that says of the callbacks: each is told once, in order, and of what
happened to its chunk.
-/

namespace TsonicNode.Stream

open TsonicNode.Lib TsonicNode.Internal

namespace View

/-! ## Operations -/

theorem Wrote.carries {v v' : View} (hw : Wrote [] v v') (n : Nat) : Carries n n v v' := by
  have hstate := hw.state
  exact
    { commits := ⟨[], hw.commits, rfl⟩
      chunks := by rw [hstate]
      whole := by rw [hw.whole]; exact List.append_nil _
      ends := by rw [hstate]
      failed := by rw [hstate]
      error := fun _ => by rw [hstate]
      finished := by rw [hstate]
      settled := by rw [Settled, Settled, hstate]; exact id
      cancelled := by rw [hstate]; exact id }

theorem Failable.of_open {ended : Bool} {v : View} (hE : v.Events) (hp : v.Phase ended)
    (hopen : ¬ v.Over) (hclosed : v.state.events.closed = false) : v.Failable := by
  have hcancelled : v.state.events.cancelled = false :=
    Bool.eq_false_iff.mpr fun hc => hopen (.inr (.inr hc))
  have hnone : v.state.events.error.isSome = false :=
    Bool.eq_false_iff.mpr fun he => hopen (.inr (.inl he))
  have hfailed : v.state.failed = false :=
    Bool.eq_false_iff.mpr fun hf => hopen (.inr (.inl (hp.failed hf)))
  exact
    { cancelled := hcancelled
      closed := hclosed
      scheduled := hE.recorded
      recorded := hnone.trans hfailed.symm
      chunks := fun hf => absurd (hfailed.symm.trans hf) (by decide)
      ends := fun hf => absurd (hfailed.symm.trans hf) (by decide) }

theorem Ledger.flush {h : History} {ended : Bool} {v : View} (hl : Ledger h 0 v) (answers : Answers)
    (hE : v.Events) (hp : v.Phase ended) : Ledger h 0 (v.flush_ answers) := by
  obtain ⟨-, heq⟩ | ⟨-, hfailed, v', ⟨hw, heq⟩ | ⟨done, request, left, error, hchunks, hw, heq⟩⟩ :=
    v.flush_cases answers
  · rw [heq]
    exact hl
  · have hchunks' : v'.state.chunks = v.state.chunks := by rw [hw.state]
    have hwrote : Ledger h v.state.chunks.length v' := by
      by_cases hcancelled : v.state.events.cancelled = true
      · have hempty := hp.empty (.inr (.inr hcancelled))
        rw [hempty] at hw ⊢
        exact hl.carry (hw.carries 0)
      · rw [← Nat.zero_add v.state.chunks.length]
        exact hl.wrote hw (List.append_nil _).symm hfailed (Bool.eq_false_iff.mpr hcancelled)
    have hcleared : ∀ drain, Ledger h 0 (v'.setState fun state =>
        { state with chunks := [], needDrain := drain }) := fun drain =>
      hwrote.carry
        { commits := ⟨[], (List.append_nil _).symm, rfl⟩
          chunks := by rw [hchunks', List.drop_length]; rfl
          whole := rfl
          ends := rfl
          failed := rfl
          error := fun _ => rfl
          finished := rfl
          settled := id
          cancelled := id }
    rw [heq]
    split
    · exact (hcleared false).carry (drain_carries 0 _)
    · exact hcleared v'.state.needDrain
  · obtain ⟨hopen, hclosed⟩ := hp.open_of_chunk hE (by rw [hchunks]; simp)
    have hf := Failable.of_open hE hp hopen hclosed
    have hw' := hw.state
    have hover : ¬ v'.Over := by rw [Over, hw']; exact hopen
    have hclosed' : v'.state.events.closed = false := by rw [hw']; exact hclosed
    rw [heq]
    refine Ledger.fail ?_ error (.of_open (hE.moves hw.moves) (hw.phase hp) hover hclosed')
    rw [← Nat.zero_add done.length]
    exact hl.wrote hw hchunks hfailed hf.cancelled

theorem Failable.closeDescriptor {v : View} (hf : v.Failable) (answers : Answers) :
    (v.closeDescriptor answers).2.Failable := by
  rw [closeDescriptor_view]
  exact { hf with }

theorem Ledger.settle {h : History} {v : View} (hl : Ledger h 0 v) (answers : Answers)
    (hf : v.Failable) : Ledger h 0 (v.settle answers) := by
  have hview := v.complete_view answers
  unfold View.settle
  generalize v.complete answers = result at hview ⊢
  obtain ⟨raised, v'⟩ := result
  have hv' : Ledger h 0 v' ∧ v'.Failable := by
    rcases hview with ⟨rfl, -⟩ | rfl
    · exact ⟨hl, hf⟩
    · exact ⟨hl.carry (closeDescriptor_carries answers 0 v), hf.closeDescriptor answers⟩
  cases raised with
  | some error => exact hv'.1.fail _ hv'.2
  | none =>
    have hfinish := hv'.1.carry (finishEvents_carries 0 v')
    dsimp only
    split
    · exact hfinish.carry (closeEvents_carries 0 _)
    · exact hfinish

theorem Ledger.finish {h : History} {v : View} (hl : Ledger h 0 v) (answers : Answers)
    (hr : v.Rest) : Ledger h 0 (v.finish answers) := by
  unfold View.finish
  by_cases hover : v.state.failed = true ∨ v.state.destroyed = true
  · rw [if_pos hover]
    exact hl
  · rw [if_neg hover]
    by_cases hended : v.state.ended = true
    · rw [if_pos hended]
      exact hl
    · rw [if_neg hended]
      have hphase := hr.phase
      simp only [WritableState.destroyed, Bool.or_eq_true, not_or, Bool.not_eq_true] at hover hended
      rw [hended] at hphase
      have hE := hr.events.quiet (fun state => { state with ended := true, corked := 0 }) rfl
      have hp : (v.setState fun state => { state with ended := true, corked := 0 }).Phase false :=
        hphase.change rfl rfl hphase.empty
      have hcarried : Ledger h 0
          (v.setState fun state => { state with ended := true, corked := 0 }) :=
        hl.carry { Carries.refl 0 v with }
      have hflushed := hcarried.flush answers hE hp
      obtain ⟨hmoves, hphase', -⟩ := flush_moves answers hE hp
      dsimp only
      split
      · exact hflushed
      · rename_i hfailed
        have hE' := hE.moves hmoves
        have hcancelled' := hmoves.cancelled.trans hover.2.2
        refine hflushed.settle answers (.of_open hE' hphase' ?_
          ((Later.moves hmoves).closed.trans hover.2.1))
        intro hover'
        rcases hphase'.over_iff.mp hover' with hs | hs | hs
        · cases hs
        · exact hfailed hs
        · exact absurd (hcancelled'.symm.trans hs) (by decide)

theorem Stopped.of_unwritable {v : View} (hr : v.Rest) (hwritable : ¬ v.state.writable = true) :
    v.Stopped v.state.ended := by
  by_contra hstopped
  refine hwritable ?_
  simp only [Stopped, not_or, Bool.not_eq_true] at hstopped
  have hopen : v.state.closed = false := by
    refine Bool.eq_false_iff.mpr fun hc => ?_
    rcases hr.phase.shut hc with hs | hs | hs
    · exact absurd (hstopped.1.symm.trans hs) (by decide)
    · exact absurd (hstopped.2.1.symm.trans hs) (by decide)
    · exact absurd (hstopped.2.2.symm.trans hs) (by decide)
  rw [WritableState.writable, hstopped.1, hopen, hstopped.2.1, hstopped.2.2]
  rfl

theorem Ledger.write {value : List UInt8} {completion : Option StreamCompletion} {h h' : History}
    {v : View} (hl : Ledger h 0 v) (answers : Answers) (hr : v.Rest)
    (hh : Hands .write (completion.map StreamCompletion.callback) h h')
    (haccepted : h'.accepted =
      if v.state.writable then h.accepted ++ [(value, completion.map StreamCompletion.callback)]
      else h.accepted)
    (hending : ∀ c ∈ h'.ending, c ∈ h.ending) :
    Ledger h' 0 (v.write value completion answers) := by
  unfold View.write
  by_cases hwritable : ¬ v.state.writable = true
  · rw [if_neg hwritable] at haccepted
    rw [if_pos hwritable]
    have hstopped := Stopped.of_unwritable hr hwritable
    have hrefused := hl.refuse (v.state.failure "Cannot write to an ended, closed or failed stream")
      hh haccepted hending fun c hc heq => by
        rw [waiting, hr.phase.empty hstopped] at hc
        have hend := hl.ends c hc
        rw [hend] at heq
        cases heq
    dsimp only
    split
    · rename_i hdestroyed
      simp only [WritableState.destroyed, completeAll_state, Bool.or_eq_true, not_or,
        Bool.not_eq_true] at hdestroyed
      refine hrefused.fail _
        { cancelled := hdestroyed.2
          closed := hdestroyed.1
          scheduled := hr.events.recorded
          recorded := ?_
          chunks := fun _ => hr.phase.empty hstopped
          ends := fun hf => hr.phase.ends (.inr (.inl (hr.phase.failed hf))) }
      rw [completeAll_state, Bool.eq_iff_iff]
      refine ⟨fun he => ?_, hr.phase.failed⟩
      rcases hr.phase.errored he with hf | hc
      · exact hf
      · exact absurd (hdestroyed.2.symm.trans hc) (by decide)
    · exact hrefused
  · rw [if_neg hwritable]
    rw [Classical.not_not] at hwritable
    rw [if_pos hwritable] at haccepted
    have hstopped : ¬ v.Stopped v.state.ended := by
      rintro (hs | hs | hs) <;> simp [WritableState.writable, hs] at hwritable
    have hfailed : v.state.failed = false := Bool.eq_false_iff.mpr fun hf => hstopped (.inr (.inl hf))
    have hcancelled : v.state.events.cancelled = false :=
      Bool.eq_false_iff.mpr fun hc => hstopped (.inr (.inr hc))
    have haccept := hl.accept hh haccepted hending hfailed hcancelled
    have hp : (v.accept value completion).Phase v.state.ended :=
      hr.phase.change rfl rfl fun hs => absurd hs hstopped
    have hwrote : Ledger h' 0 (if (v.accept value completion).state.corked = 0 then
        (v.accept value completion).flush_ answers else v.accept value completion) := by
      split
      · exact haccept.flush answers (hr.events.quiet _ rfl) hp
      · exact haccept
    exact hwrote.carry { Carries.refl 0 _ with }

theorem Ledger.uncork {h : History} {v : View} (hl : Ledger h 0 v) (answers : Answers)
    (hr : v.Rest) : Ledger h 0 (v.uncork answers) := by
  have hcarried : Ledger h 0 (v.setState fun state => { state with corked := state.corked - 1 }) :=
    hl.carry { Carries.refl 0 v with }
  unfold View.uncork
  split
  · dsimp only
    split
    · have hp : (v.setState fun state => { state with corked := state.corked - 1 }).Phase
          v.state.ended := hr.phase.change rfl rfl hr.phase.empty
      exact hcarried.flush answers (hr.events.quiet _ rfl) hp
    · exact hcarried
  · exact hl

theorem closeFinally_carries (answers : Answers) (v : View) :
    Carries 0 0 v (v.closeFinally answers).2 := by
  have hdescriptor := closeDescriptor_carries answers 0 v
  unfold closeFinally
  split
  · rename_i heq
    split at heq
    · cases heq
    · rw [heq] at hdescriptor
      exact hdescriptor
  · rename_i heq
    split at heq
    · cases heq
      exact closeEvents_carries 0 _
    · rw [heq] at hdescriptor
      exact hdescriptor.trans (closeEvents_carries 0 _)

theorem Ledger.close {h : History} {v : View} (hl : Ledger h 0 v) (answers : Answers)
    (hr : v.Rest) : Ledger h 0 (v.close answers).2 :=
  (hl.finish answers hr).carry (closeFinally_carries answers _)

theorem Ledger.destroy {h : History} {v : View} (hl : Ledger h 0 v) (error : Option TsError)
    (answers : Answers) (hr : v.Rest) : Ledger h 0 (v.destroy error answers) := by
  -- a stream that has failed has its error scheduled
  have hscheduled : ∀ {v : View}, v.Rest → v.state.failed = true →
      v.state.events.errorScheduled = true := fun hr hf =>
    hr.events.recorded.trans (hr.phase.failed hf)
  unfold View.destroy
  split
  · exact hl
  · have habandon := abandon_rest (v.destruction error) hr
    have hwith := failEventsWith_goes error habandon rfl
    have hcancelled := hwith.later.cancelled rfl
    have hdescriptor := closeDescriptor_goes answers hwith.rest (.inr (.inr hcancelled))
    have hledger : Ledger h 0 ((v.cancel.abandon (v.destruction error)).failEventsWith error) := by
      refine (hl.abandon (v.destruction error)).carry ?_
      cases error with
      | none => exact .refl 0 _
      | some error => exact failEvents_carries error 0 (hscheduled habandon)
    refine Ledger.carry ?_ (closeEvents_carries 0 _)
    refine hledger.carry ?_
    have hclosed := closeDescriptor_carries answers 0
      ((v.cancel.abandon (v.destruction error)).failEventsWith error)
    unfold release
    generalize ((v.cancel.abandon (v.destruction error)).failEventsWith error).closeDescriptor
      answers = result at hdescriptor hclosed ⊢
    obtain ⟨_ | failure, v'⟩ := result
    · exact hclosed
    · exact hclosed.trans (failEvents_carries _ 0 (hscheduled hdescriptor.rest))

theorem Ledger.deliver {h : History} {v : View} {entry : Entry} {rest : List Entry}
    (hl : Ledger h 0 v) (hr : v.Rest) (hd : v.Delivered)
    (hnext : v.commits = v.starts ++ entry :: rest) : Ledger h 0 (v.deliver entry) := by
  have hstarted : Ledger h 0 (v.started entry) := hl.carry { Carries.refl 0 v with }
  cases entry with
  | completion callback error => exact hstarted
  | foreign => exact hstarted
  | event event =>
    cases event with
    | complete =>
      obtain ⟨hscheduled, hfinished⟩ := complete_next hr.events hd hnext
      unfold View.deliver invoke
      dsimp only
      split
      · exact hstarted
      · rename_i hopen
        have hunsettled : ¬ v.Settled := by
          rintro (hf | he | hc)
          · exact absurd (hfinished.symm.trans hf) (by decide)
          · exact hopen (.inl he)
          · exact hopen (.inr (.inr hc))
        refine Ledger.carry ?_ (queueClose_carries 0 _)
        refine hstarted.finishing (hr.phase.empty (.inl (hr.phase.finishing hscheduled))) hunsettled
          (Bool.eq_false_iff.mpr fun hf => hunsettled (.inr (.inl (hr.phase.failed hf)))) ?_
        exact hr.events.finishes.trans (by rw [hfinished]; rfl)
    | error => exact hstarted.carry { Carries.refl 0 _ with }
    | finish =>
      have hfinished := finish_next hr.events hnext
      unfold View.deliver invoke
      dsimp only
      split
      · exact hstarted
      · exact hstarted.carry
          { Carries.refl 0 _ with
            finished := hfinished.symm
            settled := fun _ => .inl rfl }
    | drain =>
      unfold View.deliver invoke
      dsimp only
      split
      · exact hstarted.carry { Carries.refl 0 _ with }
      · exact hstarted.carry { Carries.refl 0 _ with }
    | close => exact hstarted.carry { Carries.refl 0 _ with }

end View

/-! ## Runs -/

section
variable {s : System} {v' : View} {h' : History} {label : Label}

theorem Outcome.ledger (houtcome : Outcome s label v' h') (hr : s.world.view.Rest)
    (hd : s.world.view.Delivered) (hl : View.Ledger s.history 0 s.world.view) :
    View.Ledger h' 0 v' := by
  have hcalled : ∀ {v}, View.Ledger s.history 0 v → View.Ledger s.history.called 0 v := fun hl =>
    hl.weaken (Nat.le_succ _) rfl (fun _ hc => hc) fun _ hc => hc
  cases houtcome with
  | write completion hcallback hadmits =>
    refine hl.write _ hr ?_ ?_ fun _ hc => hc
    · rw [hcallback]
      exact
        { later := Nat.le_succ _
          number := fun c hc => ⟨View.callback_number hc, Nat.lt_succ_self _⟩
          handed := fun c hc => (List.mem_append.mp hc).imp_right Option.mem_toList.mp }
    · rw [hcallback]
      rfl
  | «end» completion hcallback =>
    have hretained := hl.retainEnds hr hcallback
    exact hretained.finish _ (View.retainEnds_goes completion hr).rest
  | endChunk completion hcallback hadmits =>
    have hretained := hl.retainEnds hr hcallback
    have hrest := (View.retainEnds_goes completion hr).rest
    have hwritable : (s.world.view.retainEnds completion).state.writable =
        s.world.state.writable := by
      rw [View.retainEnds_state]
      rfl
    refine View.Ledger.finish ?_ _ (View.write_goes _ none _ hrest).rest
    refine hretained.write _ hrest ?_ ?_ fun _ hc => hc
    · exact
        { later := Nat.le_refl _
          number := fun _ hc => by cases hc
          handed := fun _ hc => .inl hc }
    · rw [hwritable]
      rfl
  | endChunkRaised completion hcallback =>
    refine (hl.retainEnds hr hcallback).weaken (Nat.le_refl _) rfl ?_ ?_
    · exact fun c hc => List.mem_append_left _ hc
    · intro c hc
      unfold History.ended
      dsimp only
      split
      · exact hc
      · exact List.mem_append_left _ hc
  | cork => exact hcalled (hl.carry { View.Carries.refl 0 _ with })
  | uncork => exact hcalled (hl.uncork _ hr)
  | close =>
    exact (hl.close _ hr).weaken (Nat.le_succ _) rfl (fun _ hc => hc) fun _ hc => hc
  | closeRaised => exact hl.weaken (Nat.le_succ _) rfl (fun _ hc => hc) fun _ hc => hc
  | destroy => exact hcalled (hl.destroy _ _ hr)
  | raised => exact hcalled hl
  | deliver hnext => exact hl.deliver hr hd hnext
  | other =>
    exact hl.carry
      { View.Carries.refl 0 s.world.view with commits := ⟨[.foreign], rfl, rfl⟩ }
  | idle => exact hl

end

namespace System

theorem new_ledger (owned autoClose flush : Bool) (start : Option Int) (highWaterMark : Int)
    (limit : Nat) :
    View.Ledger (new owned autoClose flush start highWaterMark limit).history 0
      (new owned autoClose flush start highWaterMark limit).world.view where
  writes := fun _ hc => by cases hc
  ends := fun _ hc => by cases hc
  listed := List.Pairwise.nil
  numbered := fun _ hc => by cases hc
  handed := fun _ hc => by cases hc
  whole := List.prefix_refl _
  successes := rfl
  queued := fun _ _ => rfl
  pending := fun _ _ hc => by cases hc
  finished := fun hf => by cases hf
  order := List.Pairwise.nil
  failure := fun hf => by cases hf

theorem run_ledger (owned autoClose flush : Bool) (start : Option Int) (highWaterMark : Int)
    (limit : Nat) (labels : List Label) :
    View.Ledger (run step (new owned autoClose flush start highWaterMark limit) labels).history 0
      (run step (new owned autoClose flush start highWaterMark limit) labels).world.view := by
  refine (run_preserves (P := fun s : System => s.Sound ∧ View.Ledger s.history 0 s.world.view) ?_
    ⟨new_sound owned autoClose flush start highWaterMark limit,
      new_ledger owned autoClose flush start highWaterMark limit⟩ labels).2
  rintro s label ⟨h, hl⟩
  obtain ⟨houtcome, -⟩ := step_outcome h label
  exact ⟨step_sound h label, houtcome.ledger h.rest h.delivered hl⟩

/-! ## What the callbacks are told -/

/-- The callbacks that some entries complete, in order. -/
def completed (entries : List Entry) : List WriteCallback :=
  (View.reports entries).map Prod.fst

/-- The stream has finished, failed or been destroyed. -/
def Over (s : System) : Prop :=
  s.world.state.events.finished = true ∨ s.world.state.failed = true ∨
    s.world.state.destroyed = true

/-- What holds of the callbacks in a state. What is queued is delivered in its order: the entries
started so far are the first of the committed ones, and all of them when the queue is drained. -/
structure CallbacksTold (s : System) : Prop where
  delivered : s.world.view.starts <+: s.world.view.commits
  drained : s.world.completions.outstanding = [] → s.world.view.starts = s.world.view.commits
  once : (completed s.world.view.commits).Nodup
  all : s.Over → ∀ callback ∈ s.history.handed, callback ∈ completed s.world.view.commits
  /-- A write's callback succeeds if and only if its chunk is among those written to their end. -/
  whole : s.world.state.file.whole <+: s.history.accepted.map Prod.fst
  success : ∀ callback, callback.handing = .write →
    ((callback, none) ∈ View.reports s.world.view.commits ↔
      ∃ index chunk, index < s.world.state.file.whole.length ∧
        s.history.accepted[index]? = some (chunk, some callback))
  /-- The numbers of the calls tell their order. -/
  order : ((completed s.world.view.commits).filter fun c => c.handing = .write).Pairwise
    fun earlier later => earlier.number < later.number
  failure : s.world.state.failed = true →
    ∃ error before after, s.world.state.events.error = some error ∧
      s.world.view.commits = before ++ Entry.event .error :: after ∧
      (∀ index chunk callback, s.history.accepted[index]? = some (chunk, some callback) →
        (callback, if index < s.world.state.file.whole.length then none else some error) ∈
          View.reports before) ∧
      ∀ callback ∈ s.history.ending,
        (callback, if s.world.state.events.finished then none else some error) ∈
          View.reports before
  finish : ∀ before after, s.world.view.commits = before ++ Entry.event .finish :: after →
    ∀ callback, callback.handing = .end → (callback, none) ∉ View.reports after

theorem mem_callbacks_take {accepted : List (List UInt8 × Option WriteCallback)} {k : Nat}
    {callback : WriteCallback} :
    callback ∈ View.callbacks (accepted.take k) ↔
      ∃ index chunk, index < k ∧ accepted[index]? = some (chunk, some callback) := by
  unfold View.callbacks
  rw [List.mem_filterMap]
  constructor
  · rintro ⟨⟨chunk, c⟩, hmem, rfl⟩
    obtain ⟨index, hindex⟩ := List.mem_iff_getElem?.mp hmem
    rw [List.getElem?_take] at hindex
    split at hindex
    · exact ⟨index, chunk, by assumption, hindex⟩
    · cases hindex
  · rintro ⟨index, chunk, hlt, hindex⟩
    refine ⟨(chunk, some callback), List.mem_iff_getElem?.mpr ⟨index, ?_⟩, rfl⟩
    rw [List.getElem?_take, if_pos hlt]
    exact hindex

theorem mem_callbacks_drop {accepted : List (List UInt8 × Option WriteCallback)} {k index : Nat}
    {chunk : List UInt8} {callback : WriteCallback} (hk : k ≤ index)
    (hindex : accepted[index]? = some (chunk, some callback)) :
    callback ∈ View.callbacks (accepted.drop k) := by
  refine List.mem_filterMap.mpr ⟨(chunk, some callback), List.mem_iff_getElem?.mpr
    ⟨index - k, ?_⟩, rfl⟩
  rw [List.getElem?_drop, Nat.add_sub_cancel' hk]
  exact hindex

/-- What is over has nothing left to complete. -/
theorem Sound.all_completed {s : System} (h : s.Sound) (hover : s.Over) :
    s.world.view.calls 0 = completed s.world.view.commits := by
  have hE := h.rest.events
  have hp := h.rest.phase
  have hsettled : s.world.view.Settled := by
    rcases hover with hf | hf | hd
    · exact .inl hf
    · exact .inr (.inl (hp.failed hf))
    · rcases Bool.or_eq_true _ _ ▸ hd with hc | hc
      · exact hE.settled (hE.closed hc)
      · exact .inr (.inr hc)
  have hstopped := hp.over_iff.mp (hsettled.imp_left hE.finished)
  rw [View.calls, View.waiting, View.waitingEnds, hp.empty hstopped, hp.ends hsettled]
  simp [Writable.completions, completed]

/-- **Every callback is told once, in order and of what happened.** In every state of every run. -/
theorem callbacks_told (owned autoClose flush : Bool) (start : Option Int) (highWaterMark : Int)
    (limit : Nat) (labels : List Label) :
    CallbacksTold (run step (new owned autoClose flush start highWaterMark limit) labels) := by
  have h := run_sound owned autoClose flush start highWaterMark limit labels
  have hl := run_ledger owned autoClose flush start highWaterMark limit labels
  generalize run step (new owned autoClose flush start highWaterMark limit) labels = s at h hl
  have hlisted : (completed s.world.view.commits).Pairwise WriteCallback.Before := by
    have hlisted := hl.listed
    rw [View.calls, List.append_assoc] at hlisted
    exact (List.pairwise_append.mp hlisted).1
  exact
    { delivered := h.delivered.started
      drained := fun hdrained => by
        have horder := h.rests.owns.consistent.order
        rw [hdrained, List.append_nil] at horder
        exact horder.symm
      once := by
        refine hlisted.imp fun hbefore heq => ?_
        subst heq
        exact absurd (hbefore rfl) (Nat.lt_irrefl _)
      all := fun hover c hc => by
        rw [← h.all_completed hover]
        exact hl.handed c hc
      whole := hl.whole
      success := fun c hwrite => by
        rw [← mem_callbacks_take]
        constructor
        · intro hreport
          have hmem := View.mem_successes.mpr ⟨hwrite, hreport⟩
          exact hl.successes ▸ hmem
        · intro hmem
          have hmem : c ∈ View.successes s.world.view.commits := hl.successes ▸ hmem
          exact (View.mem_successes.mp hmem).2
      order := by
        refine (List.pairwise_filter.mpr (hlisted.imp fun hbefore ha hb => hbefore ?_))
        rw [of_decide_eq_true ha, of_decide_eq_true hb]
      failure := fun hf => by
        obtain ⟨error, before, after, herror, hcommits, hdone, hleft, hends⟩ := hl.failure hf
        refine ⟨error, before, after, herror, hcommits, fun index chunk c hindex => ?_, hends⟩
        split
        · rename_i hlt
          exact hdone c (mem_callbacks_take.mpr ⟨index, chunk, hlt, hindex⟩)
        · rename_i hge
          exact hleft c (mem_callbacks_drop (Nat.le_of_not_lt hge) hindex)
      finish := fun before after hcommits c hend hreport => by
        have horder := hl.order
        rw [hcommits] at horder
        obtain ⟨entry, hmem, hentry⟩ := List.mem_filterMap.mp hreport
        have hfirst := (List.pairwise_cons.mp (List.pairwise_append.mp horder).2.1).1 entry hmem rfl
        cases entry with
        | completion callback error =>
          obtain ⟨rfl, rfl⟩ := Prod.mk.inj (Option.some.inj hentry)
          obtain ⟨handing, number⟩ := callback
          obtain rfl : handing = .end := hend
          exact hfirst number rfl
        | event event => cases hentry
        | foreign => cases hentry }

end System

end TsonicNode.Stream
