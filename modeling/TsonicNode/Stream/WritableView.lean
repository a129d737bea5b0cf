import TsonicNode.Stream.Writable

/-!
# A writable stream without its reservations

What a writable stream does when the queue has room: the same operations as
pure functions on the stream's state and the record of the queue. No function
here can run out of capacity, so a fact about a run of the stream is a fact
about these functions; `WriteEventsRefine` and `WritableRefine` show that the
stream's own operations do what these say.
-/

namespace TsonicNode.Stream

open TsonicNode.Lib TsonicNode.Internal

/-- A stream and the queue's record: what was committed, what was started. -/
structure View where
  state : WritableState
  commits : List Entry
  starts : List Entry

def World.view (w : World) : View := ⟨w.state, w.completions.commits, w.completions.starts⟩

namespace View

def setState (f : WritableState → WritableState) (v : View) : View := { v with state := f v.state }

def setEvents (f : WriteEventState → WriteEventState) (v : View) : View :=
  v.setState fun state => { state with events := f state.events }

def commit (entries : List Entry) (v : View) : View := { v with commits := v.commits ++ entries }

/-- The entries that complete these callbacks. -/
def completing (error : Option TsError) (completions : List StreamCompletion) : List Entry :=
  completions.map fun completion => .completion completion.callback error

def completeAll (error : Option TsError) (completions : List StreamCompletion) (v : View) : View :=
  v.commit (completing error completions)

def completeEnd (error : Option TsError) (v : View) : View :=
  (v.setEvents fun events => { events with endCompletions := [] }).completeAll error
    v.state.events.endCompletions

@[simp] theorem setState_state (f : WritableState → WritableState) (v : View) :
    (v.setState f).state = f v.state := rfl

@[simp] theorem setEvents_state (f : WriteEventState → WriteEventState) (v : View) :
    (v.setEvents f).state = { v.state with events := f v.state.events } := rfl

@[simp] theorem commit_state (entries : List Entry) (v : View) :
    (v.commit entries).state = v.state := rfl

@[simp] theorem completeAll_state (error : Option TsError) (completions : List StreamCompletion)
    (v : View) : (v.completeAll error completions).state = v.state := rfl

@[simp] theorem completeEnd_state (error : Option TsError) (v : View) :
    (v.completeEnd error).state =
      { v.state with events := { v.state.events with endCompletions := [] } } := rfl

/-! ## Events -/

def failEvents (error : TsError) (v : View) : View :=
  if v.state.events.errorScheduled ∨ v.state.events.closed then v
  else
    (v.setEvents fun events => { events with error := some error, errorScheduled := true }).commit
      [.event .error]

def finishEvents (v : View) : View :=
  if v.state.events.finishScheduled ∨ v.state.events.error.isSome ∨ v.state.events.cancelled then v
  else (v.setEvents fun events => { events with finishScheduled := true }).commit [.event .complete]

def queueClose (v : View) : View :=
  if ¬ v.state.events.closeScheduled ∨ v.state.events.closeQueued then v
  else (v.setEvents fun events => { events with closeQueued := true }).commit [.event .close]

def closeEvents (v : View) : View :=
  let v := v.setEvents fun events => { events with closeScheduled := true }
  if ¬ v.state.events.finishScheduled ∨ v.state.events.finished ∨ v.state.events.error.isSome ∨
      v.state.events.cancelled then v.queueClose
  else v

def drain (v : View) : View :=
  if v.state.events.drainScheduled ∨ v.state.events.finishScheduled ∨
      v.state.events.error.isSome ∨ v.state.events.cancelled then v
  else (v.setEvents fun events => { events with drainScheduled := true }).commit [.event .drain]

def cancel (v : View) : View := v.setEvents fun events => { events with cancelled := true }

def emit (event : Event) (v : View) : View :=
  v.setEvents fun events => { events with emitted := events.emitted ++ [event] }

/-- The callbacks of `end` succeed, and `finish` is queued. -/
def finishing (v : View) : View :=
  ((v.setEvents fun events => { events with finished := true }).completeEnd none).commit
    [.event .finish]

def invoke (event : Event) (v : View) : View :=
  match event with
  | .complete =>
    if v.state.events.error.isSome ∨ v.state.events.closed ∨ v.state.events.cancelled then v
    else v.finishing.queueClose
  | .error => v.emit .error
  | .drain =>
    let v := v.setEvents fun events => { events with drainScheduled := false }
    if v.state.events.error.isSome ∨ v.state.events.finishScheduled ∨ v.state.events.cancelled then v
    else v.emit .drain
  | .finish =>
    if v.state.events.error.isSome ∨ v.state.events.cancelled then v
    else (v.setEvents fun events => { events with finished := true }).emit .finish
  | .close => (v.setEvents fun events => { events with closed := true }).emit .close

/-- The queue starts an entry. -/
def started (entry : Entry) (v : View) : View := { v with starts := v.starts ++ [entry] }

def deliver (entry : Entry) (v : View) : View :=
  match entry with
  | .event event => (v.started entry).invoke event
  | _ => v.started entry

/-! ## Operations -/

/-- What a failure does to the pending callbacks. -/
def refuse (error : TsError) (completed : Nat) (v : View) : View :=
  (((v.setState fun state => { state with failed := true }).completeAll (some error)
    (Writable.completions (v.state.chunks.drop completed))).setState fun state =>
      { state with chunks := [], bufferedBytes := 0 }).completeEnd (some error)

def fail (error : TsError) (completed : Nat) (v : View) : View :=
  let v := (v.refuse error completed).failEvents error
  if v.state.autoClose then
    (v.setState fun state =>
      { state with
        closed := true
        bytesWritten := if state.hasDescriptor then state.file.bytesWritten else state.bytesWritten
        hasDescriptor := false }).closeEvents
  else v

def flushFrom : List WriteRequest → Nat → List (Int × Nat) → View → Bool × View
  | [], _, _, v => (true, v)
  | request :: requests, completed, answers, v =>
    match v.state.file.write request.chunk v.state.position answers with
    | (.error error, file, _) =>
      (false, (v.setState fun state => { state with file }).fail (errorNew error.message) completed)
    | (.ok count, file, answers) =>
      flushFrom requests (completed + 1) answers
        ((v.setState fun state =>
          { state with
            file
            bytesWritten := state.bytesWritten + count
            bufferedBytes := state.bufferedBytes - count
            position := state.position.map (· + count) }).completeAll none
              (Writable.completions [request]))

def flush_ (answers : Answers) (v : View) : View :=
  if ¬ v.state.hasDescriptor ∨ v.state.failed then v
  else
    match v.flushFrom v.state.chunks 0 answers.writes with
    | (true, v) =>
      let v := v.setState fun state => { state with chunks := [] }
      if v.state.needDrain then
        (v.setState fun state => { state with needDrain := false }).drain
      else v
    | (false, v) => v

def closeDescriptor (answers : Answers) (v : View) : Option Error × View :=
  let v := v.setState fun state => { state with closed := true }
  if v.state.hasDescriptor then
    match v.state.file.close answers with
    | (.ok (), file) => (none, v.setState fun state => { state with file })
    | (.error error, file) => (some error, v.setState fun state => { state with file })
  else (none, v)

/-- A chunk joins the ones that wait. -/
def accept (value : List UInt8) (completion : Option StreamCompletion) (v : View) : View :=
  v.setState fun state =>
    { state with
      chunks := state.chunks ++ [⟨value, completion⟩]
      bufferedBytes := state.bufferedBytes + value.length }

/-- `_write` with the completion of its callback, once nothing can raise any more. -/
def write (value : List UInt8) (completion : Option StreamCompletion) (answers : Answers)
    (v : View) : View :=
  if ¬ v.state.writable then
    let error := v.state.failure "Cannot write to an ended, closed or failed stream"
    let v := v.completeAll (some error) completion.toList
    if ¬ v.state.destroyed then v.fail error 0 else v
  else
    let v := v.accept value completion
    let v := if v.state.corked = 0 then v.flush_ answers else v
    v.setState fun state =>
      { state with
        needDrain := state.needDrain ||
          !decide (state.bufferedBytes < state.highWaterMark ∨ state.bufferedBytes = 0) }

def complete (answers : Answers) (v : View) : Option Error × View :=
  if v.state.chunks ≠ [] then (some ⟨"Cannot complete a stream without a writable sink"⟩, v)
  else
    match if v.state.flush ∧ v.state.hasDescriptor then v.state.file.flush answers else .ok () with
    | .error error => (some error, v)
    | .ok () => if v.state.autoClose then v.closeDescriptor answers else (none, v)

def settle (answers : Answers) (v : View) : View :=
  match v.complete answers with
  | (some error, v) => v.fail (errorNew error.message) 0
  | (none, v) => if v.finishEvents.state.closed then v.finishEvents.closeEvents else v.finishEvents

def finish (answers : Answers) (v : View) : View :=
  if v.state.failed ∨ v.state.destroyed then v
  else if v.state.ended then v
  else
    let v := (v.setState fun state => { state with ended := true, corked := 0 }).flush_ answers
    if v.state.failed then v else v.settle answers

/-- `retain_end` with the completion of its callback. -/
def retainEnd (completion : StreamCompletion) (v : View) : View :=
  match v.state.events.error with
  | some error => v.completeAll (some error) [completion]
  | none =>
    if v.state.events.cancelled ∨ v.state.events.closed then
      v.completeAll (some (errorNew "Cannot end a destroyed stream")) [completion]
    else if v.state.events.finished then
      v.completeAll (some (errorNew "Cannot call end after the stream finished")) [completion]
    else
      v.setEvents fun events =>
        { events with endCompletions := events.endCompletions ++ [completion] }

def retainEnds (completion : Option StreamCompletion) (v : View) : View :=
  match completion with
  | some completion => v.retainEnd completion
  | none => v

def cork (v : View) : View := v.setState fun state => { state with corked := state.corked + 1 }

def uncork (answers : Answers) (v : View) : View :=
  if v.state.corked > 0 then
    let v := v.setState fun state => { state with corked := state.corked - 1 }
    if v.state.corked = 0 then v.flush_ answers else v
  else v

/-- The `finally` of `close`, and what it raises. -/
def closeFinally (answers : Answers) (v : View) : Option Error × View :=
  match if v.state.closed then (none, v) else v.closeDescriptor answers with
  | (some error, v) => (some error, v)
  | (none, v) => (none, v.closeEvents)

def close (answers : Answers) (v : View) : Option Error × View :=
  (v.finish answers).closeFinally answers

/-- What `destroy` does with the descriptor. -/
def release (answers : Answers) (v : View) : View :=
  match v.closeDescriptor answers with
  | (some failure, v) => v.failEvents (errorNew failure.message)
  | (none, v) => v

/-- What `destroy` reports to the callbacks. -/
def destruction (error : Option TsError) (v : View) : TsError :=
  error.getD (v.state.failure "Stream destroyed before completion")

/-- What `destroy` does to the pending callbacks. -/
def abandon (error : TsError) (v : View) : View :=
  ((v.completeAll (some error) (Writable.completions v.state.chunks)).setState fun state =>
    { state with chunks := [], bufferedBytes := 0, needDrain := false, corked := 0 }).completeEnd
      (some error)

def failEventsWith (error : Option TsError) (v : View) : View :=
  match error with
  | some error => v.failEvents error
  | none => v

def destroy (error : Option TsError) (answers : Answers) (v : View) : View :=
  if v.state.destroyed then v
  else
    (((v.cancel.abandon (v.destruction error)).failEventsWith error).release answers).closeEvents

@[simp] theorem refuse_state (error : TsError) (completed : Nat) (v : View) :
    (v.refuse error completed).state =
      { v.state with
        failed := true
        chunks := []
        bufferedBytes := 0
        events := { v.state.events with endCompletions := [] } } := rfl

/-! ## What changes nothing but the events -/

/-- A transition of the events changes nothing else, and no pending completion. -/
structure SameBut (v v' : View) : Prop where
  state : v'.state = { v.state with events := v'.state.events }
  ends : v'.state.events.endCompletions = v.state.events.endCompletions

theorem SameBut.refl (v : View) : v.SameBut v := ⟨rfl, rfl⟩

theorem failEvents_same (error : TsError) (v : View) : v.SameBut (v.failEvents error) := by
  unfold failEvents
  split
  · exact .refl v
  · exact ⟨rfl, rfl⟩

theorem finishEvents_same (v : View) : v.SameBut v.finishEvents := by
  unfold finishEvents
  split
  · exact .refl v
  · exact ⟨rfl, rfl⟩

theorem queueClose_same (v : View) : v.SameBut v.queueClose := by
  unfold queueClose
  split
  · exact .refl v
  · exact ⟨rfl, rfl⟩

theorem closeEvents_same (v : View) : v.SameBut v.closeEvents := by
  unfold closeEvents
  dsimp only
  split
  · have h := queueClose_same (v.setEvents fun events => { events with closeScheduled := true })
    exact ⟨h.state, h.ends⟩
  · exact ⟨rfl, rfl⟩

theorem drain_same (v : View) : v.SameBut v.drain := by
  unfold drain
  split
  · exact .refl v
  · exact ⟨rfl, rfl⟩

/-- Retaining a callback changes nothing but what is pending. -/
theorem retainEnd_state (completion : StreamCompletion) (v : View) :
    (v.retainEnd completion).state =
      { v.state with
        events :=
          { v.state.events with
            endCompletions := (v.retainEnd completion).state.events.endCompletions } } := by
  unfold retainEnd
  split
  · rfl
  · split
    · rfl
    · split <;> rfl

theorem retainEnds_state (completion : Option StreamCompletion) (v : View) :
    (v.retainEnds completion).state =
      { v.state with
        events :=
          { v.state.events with
            endCompletions := (v.retainEnds completion).state.events.endCompletions } } := by
  cases completion with
  | none => rfl
  | some completion => exact retainEnd_state completion v

/-- Closing the descriptor marks the stream as closed. -/
theorem closeDescriptor_view (answers : Answers) (v : View) :
    (v.closeDescriptor answers).2 = v.setState fun state =>
      { state with
        closed := true
        file := if v.state.hasDescriptor then (v.state.file.close answers).2 else v.state.file } := by
  unfold closeDescriptor
  by_cases h : v.state.hasDescriptor = true
  · simp only [setState_state, h, if_true]
    generalize v.state.file.close answers = result
    obtain ⟨_ | ⟨⟩, file⟩ := result <;> simp only [setState, h]
  · simp only [setState_state, h]
    rfl

theorem closeDescriptor_ok {v : View} {answers : Answers}
    (h : v.state.hasDescriptor = true → (v.state.file.close answers).1 = .ok ()) :
    (v.closeDescriptor answers).1 = none := by
  unfold closeDescriptor
  by_cases hdescriptor : v.state.hasDescriptor = true
  · simp only [setState_state, hdescriptor, if_true]
    replace h := h hdescriptor
    generalize v.state.file.close answers = result at h ⊢
    obtain ⟨raised, file⟩ := result
    obtain rfl : raised = .ok () := h
    rfl
  · simp only [setState_state, hdescriptor]
    rfl

/-- What `release` leaves but for the events. -/
theorem release_same (answers : Answers) (v : View) :
    (v.closeDescriptor answers).2.SameBut (v.release answers) := by
  unfold release
  generalize v.closeDescriptor answers = result
  obtain ⟨_ | failure, v'⟩ := result
  · exact .refl v'
  · exact failEvents_same _ v'

theorem failEventsWith_same (error : Option TsError) (v : View) :
    v.SameBut (v.failEventsWith error) := by
  cases error with
  | none => exact .refl v
  | some error => exact failEvents_same error v

/-- A stream that is destroyed leaves no callback pending. -/
theorem destroy_state (error : Option TsError) (answers : Answers) (v : View)
    (h : ¬ v.state.destroyed = true) :
    (v.destroy error answers).state.chunks = [] ∧
      (v.destroy error answers).state.events.endCompletions = [] := by
  unfold destroy
  rw [if_neg h, (closeEvents_same _).ends, (closeEvents_same _).state, (release_same ..).ends,
    (release_same ..).state, closeDescriptor_view]
  simp only [setState_state]
  rw [(failEventsWith_same ..).ends, (failEventsWith_same ..).state]
  exact ⟨rfl, rfl⟩

/-! ## What `fail` and `flush_` leave -/

/-- Where a failed stream stands. -/
theorem fail_state (error : TsError) (completed : Nat) (v : View) :
    (v.fail error completed).state.chunks = [] ∧
      (v.fail error completed).state.events.endCompletions = [] ∧
      (v.fail error completed).state.failed = true := by
  unfold fail
  dsimp only
  split
  · rw [(closeEvents_same _).ends, (closeEvents_same _).state]
    rw [setState_state, (failEvents_same _ _).ends, (failEvents_same _ _).state]
    exact ⟨rfl, rfl, rfl⟩
  · rw [(failEvents_same _ _).ends, (failEvents_same _ _).state]
    exact ⟨rfl, rfl, rfl⟩

/-- These requests have been written to their end and reported; some more bytes may have been. -/
structure Wrote (requests : List WriteRequest) (v v' : View) : Prop where
  state : v'.state =
    { v.state with
      file := v'.state.file
      bytesWritten := v'.state.bytesWritten
      bufferedBytes := v'.state.bufferedBytes
      position := v'.state.position }
  file : v.state.file.Same v'.state.file
  whole : v'.state.file.whole = v.state.file.whole ++ requests.map WriteRequest.chunk
  commits : v'.commits = v.commits ++ completing none (Writable.completions requests)
  starts : v'.starts = v.starts

theorem Wrote.trans {done done' : List WriteRequest} {v v' v'' : View} (h : Wrote done v v')
    (h' : Wrote done' v' v'') : Wrote (done ++ done') v v'' where
  state := by rw [h'.state, h.state]
  file := ⟨h'.file.1.trans h.file.1, h'.file.2.trans h.file.2⟩
  whole := by rw [h'.whole, h.whole, List.map_append, List.append_assoc]
  commits := by
    rw [h'.commits, h.commits, Writable.completions, Writable.completions, Writable.completions,
      List.filterMap_append, completing, completing, completing, List.map_append, List.append_assoc]
  starts := h'.starts.trans h.starts

/-- The loop writes some of the requests to their end, and then all of them or it fails. -/
theorem flushFrom_cases (requests : List WriteRequest) (completed : Nat)
    (answers : List (Int × Nat)) (v : View) :
    ∃ v', (Wrote requests v v' ∧ v.flushFrom requests completed answers = (true, v')) ∨
      ∃ done request left error, requests = done ++ request :: left ∧ Wrote done v v' ∧
        v.flushFrom requests completed answers =
          (false, v'.fail error (completed + done.length)) := by
  induction requests generalizing completed answers v with
  | nil =>
    exact ⟨v, .inl ⟨⟨rfl, ⟨rfl, rfl⟩, (List.append_nil _).symm, (List.append_nil _).symm, rfl⟩, rfl⟩⟩
  | cons request requests ih =>
    have hwrite := DescriptorState.write_cases request.chunk v.state.position answers v.state.file
    unfold flushFrom
    generalize v.state.file.write request.chunk v.state.position answers = result at hwrite ⊢
    rcases result with ⟨error | count, file, answers'⟩
    · obtain ⟨hopen, hwhole⟩ := hwrite
      refine ⟨v.setState fun state => { state with file }, .inr
        ⟨[], request, requests, errorNew error.message, rfl, ⟨rfl, hopen, ?_, ?_, rfl⟩, rfl⟩⟩
      · exact hwhole.trans (List.append_nil _).symm
      · exact (List.append_nil _).symm
    · obtain ⟨hopen, hwhole⟩ := hwrite
      have hone : Wrote [request] v ((v.setState fun state =>
          { state with
            file
            bytesWritten := state.bytesWritten + count
            bufferedBytes := state.bufferedBytes - count
            position := state.position.map (· + count) }).completeAll none
              (Writable.completions [request])) :=
        ⟨rfl, hopen, hwhole, rfl, rfl⟩
      obtain ⟨v', ⟨hwrote, heq⟩ | ⟨done, next, left, error, rfl, hwrote, heq⟩⟩ :=
        ih (completed + 1) answers' _
      · exact ⟨v', .inl ⟨hone.trans hwrote, heq⟩⟩
      · refine ⟨v', .inr ⟨request :: done, next, left, error, rfl, hone.trans hwrote, ?_⟩⟩
        rw [List.length_cons, Nat.add_comm done.length, ← Nat.add_assoc]
        exact heq

/-- `flush_` does nothing, empties the list of chunks, or fails. -/
theorem flush_cases (answers : Answers) (v : View) :
    ((v.state.hasDescriptor = false ∨ v.state.failed = true) ∧ v.flush_ answers = v) ∨
    v.state.hasDescriptor = true ∧ v.state.failed = false ∧
      ∃ v', (Wrote v.state.chunks v v' ∧ v.flush_ answers =
          if v'.state.needDrain then
            (v'.setState fun state => { state with chunks := [], needDrain := false }).drain
          else v'.setState fun state => { state with chunks := [] }) ∨
        ∃ done request left error, v.state.chunks = done ++ request :: left ∧ Wrote done v v' ∧
          v.flush_ answers = v'.fail error done.length := by
  unfold flush_
  by_cases hskip : ¬ v.state.hasDescriptor = true ∨ v.state.failed = true
  · left
    refine ⟨?_, if_pos hskip⟩
    simpa using hskip
  · right
    rw [if_neg hskip]
    simp only [not_or, Bool.not_eq_true, Bool.not_eq_false] at hskip
    refine ⟨hskip.1, hskip.2, ?_⟩
    obtain ⟨v', ⟨hwrote, heq⟩ | ⟨done, request, left, error, hchunks, hwrote, heq⟩⟩ :=
      flushFrom_cases v.state.chunks 0 answers.writes v
    · refine ⟨v', .inl ⟨hwrote, ?_⟩⟩
      rw [heq]
      rfl
    · refine ⟨v', .inr ⟨done, request, left, error, hchunks, hwrote, ?_⟩⟩
      rw [heq, Nat.zero_add]

end View

end TsonicNode.Stream
