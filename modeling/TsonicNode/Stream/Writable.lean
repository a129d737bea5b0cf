import TsonicNode.Stream.WriteEvents

/-!
# The writable stream

`Writable` over a descriptor: chunks wait in a list and are written by
`flush_`, a write that fails ends the stream (`fail`), `end_` writes what is
left and schedules `finish`, `close` and `destroy` give the descriptor back.

What the system answers during one operation is its argument `answers`.
-/

namespace TsonicNode.Stream

open TsonicNode.Lib TsonicNode.Internal

/-! ## The descriptor -/

namespace DescriptorState

def close (answers : Answers) (file : DescriptorState) : Except Error Unit × DescriptorState :=
  if file.isOpen = false then (.ok (), file)
  else
    let file' := { file with isOpen := false }
    match file.owned, answers.close with
    | true, some errno => (.error ⟨"Unable to close stream: " ++ toString errno⟩, file')
    | _, _ => (.ok (), file')

def flush (answers : Answers) (file : DescriptorState) : Except Error Unit :=
  if file.isOpen = false then .error ⟨"Cannot flush a closed stream"⟩
  else
    match answers.sync with
    | some errno => .error ⟨"Unable to flush stream: " ++ toString errno⟩
    | none => .ok ()

/-- The transfers of one buffer, from the byte `count` on; what is left of the answers. -/
def transfer (bytes : List UInt8) (offset : Option Int) :
    List (Int × Nat) → Nat → DescriptorState →
      Except Error Nat × DescriptorState × List (Int × Nat)
  | answers, count, file =>
    if bytes.length ≤ count then
      (.ok count, { file with whole := file.whole ++ [bytes] }, answers)
    else
      match answers with
      | [] =>
        -- with no answer left, the system takes the rest
        (.ok bytes.length,
          { file with
            bytesWritten := file.bytesWritten + (bytes.length - count)
            transfers := file.transfers ++ [(offset.map (· + (count : Int)), bytes.drop count)]
            whole := file.whole ++ [bytes] }, [])
      | (written, errno) :: answers =>
        if written ≤ 0 then
          (.error ⟨"Unable to write stream: " ++ toString errno⟩, file, answers)
        else
          let taken := min written.toNat (bytes.length - count)
          transfer bytes offset answers (count + taken)
            { file with
              bytesWritten := file.bytesWritten + taken
              transfers :=
                file.transfers ++ [(offset.map (· + (count : Int)), (bytes.drop count).take taken)] }

def write (bytes : List UInt8) (offset : Option Int) (answers : List (Int × Nat))
    (file : DescriptorState) : Except Error Nat × DescriptorState × List (Int × Nat) :=
  if file.isOpen = false then (.error ⟨"Cannot write to a closed stream"⟩, file, answers)
  else transfer bytes offset answers 0 file

/-- The same descriptor, but for what has been written to it. -/
def Same (file file' : DescriptorState) : Prop :=
  file'.isOpen = file.isOpen ∧ file'.owned = file.owned

/-- A transfer leaves the descriptor open; only one that comes to its end adds to `whole`. -/
theorem transfer_cases (bytes : List UInt8) (offset : Option Int) (answers : List (Int × Nat))
    (count : Nat) (file : DescriptorState) :
    match transfer bytes offset answers count file with
    | (.error _, file', _) => Same file file' ∧ file'.whole = file.whole
    | (.ok _, file', _) => Same file file' ∧ file'.whole = file.whole ++ [bytes] := by
  induction answers generalizing count file with
  | nil =>
    unfold transfer
    by_cases hend : bytes.length ≤ count
    · rw [if_pos hend]
      exact ⟨⟨rfl, rfl⟩, rfl⟩
    · rw [if_neg hend]
      exact ⟨⟨rfl, rfl⟩, rfl⟩
  | cons answer answers ih =>
    obtain ⟨written, errno⟩ := answer
    unfold transfer
    by_cases hend : bytes.length ≤ count
    · rw [if_pos hend]
      exact ⟨⟨rfl, rfl⟩, rfl⟩
    · rw [if_neg hend]
      by_cases hwritten : written ≤ 0
      · dsimp only
        rw [if_pos hwritten]
        exact ⟨⟨rfl, rfl⟩, rfl⟩
      · dsimp only
        rw [if_neg hwritten]
        exact ih _ _

theorem write_cases (bytes : List UInt8) (offset : Option Int) (answers : List (Int × Nat))
    (file : DescriptorState) :
    match file.write bytes offset answers with
    | (.error _, file', _) => Same file file' ∧ file'.whole = file.whole
    | (.ok _, file', _) => Same file file' ∧ file'.whole = file.whole ++ [bytes] := by
  unfold write
  by_cases hopen : file.isOpen = false
  · rw [if_pos hopen]
    exact ⟨⟨rfl, rfl⟩, rfl⟩
  · rw [if_neg hopen]
    exact transfer_cases bytes offset answers 0 file

theorem close_of_closed {file : DescriptorState} (h : file.isOpen = false) (answers : Answers) :
    file.close answers = (.ok (), file) :=
  if_pos h

theorem close_isOpen (answers : Answers) (file : DescriptorState) :
    (file.close answers).2.isOpen = false := by
  unfold close
  by_cases hopen : file.isOpen = false
  · rw [if_pos hopen]
    exact hopen
  · rw [if_neg hopen]
    dsimp only
    split <;> rfl

theorem close_whole (answers : Answers) (file : DescriptorState) :
    (file.close answers).2.whole = file.whole := by
  unfold close
  split
  · rfl
  · dsimp only
    split <;> rfl

/-- What closing raises does not depend on what has been written. -/
theorem Same.close {file file' : DescriptorState} (h : Same file file') (answers : Answers) :
    (file'.close answers).1 = (file.close answers).1 := by
  unfold DescriptorState.close
  rw [h.1, h.2]
  split
  · rfl
  · dsimp only
    split <;> rfl

end DescriptorState

/-! ## The stream -/

namespace WritableState

/-- `events` has ended the stream. -/
def destroyed (state : WritableState) : Bool := state.events.closed || state.events.cancelled

def writable (state : WritableState) : Bool :=
  !state.ended && !state.closed && !state.failed && !state.events.cancelled

/-- The error to report when there is none of its own. -/
def failure (state : WritableState) (message : String) : TsError :=
  state.events.error.getD (errorNew message)

/-- A stream over an open descriptor. -/
def new (owned autoClose flush : Bool) (start : Option Int) (highWaterMark : Int) :
    WritableState where
  hasDescriptor := true
  file := ⟨true, owned, 0, [], []⟩
  chunks := []
  corked := 0
  ended := false
  closed := false
  failed := false
  bufferedBytes := 0
  highWaterMark := highWaterMark
  position := start
  bytesWritten := 0
  autoClose := autoClose
  flush := flush
  events := .new
  needDrain := false

end WritableState

namespace Writable

/-- The completions of some requests. -/
def completions (requests : List WriteRequest) : List StreamCompletion :=
  requests.filterMap WriteRequest.completion

/-- `_fail`. -/
def fail (error : TsError) (completed : Nat) : M Unit := do
  setState fun state => { state with failed := true }
  StreamCompletion.completeAll (some error) (completions ((← get).state.chunks.drop completed))
  setState fun state => { state with chunks := [], bufferedBytes := 0 }
  WriteEvents.completeEnd (some error)
  WriteEvents.fail error
  if (← get).state.autoClose then
    setState fun state =>
      { state with
        closed := true
        bytesWritten := if state.hasDescriptor then state.file.bytesWritten else state.bytesWritten
        hasDescriptor := false }
    WriteEvents.close
  else pure ()

/-- The loop of `_flush` over the requests from `completed` on, with the answers left; whether it
came to its end. -/
def flushFrom : List WriteRequest → Nat → List (Int × Nat) → M Bool
  | [], _, _ => return true
  | request :: requests, completed, answers => do
    let state := (← get).state
    match state.file.write request.chunk state.position answers with
    | (.error error, file, _) =>
      setState fun state => { state with file }
      fail (errorNew error.message) completed
      return false
    | (.ok count, file, answers) =>
      setState fun state =>
        { state with
          file
          bytesWritten := state.bytesWritten + count
          bufferedBytes := state.bufferedBytes - count
          position := state.position.map (· + count) }
      StreamCompletion.completeAll none (completions [request])
      flushFrom requests (completed + 1) answers

/-- `_flush`. -/
def flush_ (answers : Answers) : M Unit := do
  let state := (← get).state
  if ¬ state.hasDescriptor ∨ state.failed then pure ()
  else
    let whole ← flushFrom state.chunks 0 answers.writes
    if whole then
      setState fun state => { state with chunks := [] }
      if (← get).state.needDrain then
        setState fun state => { state with needDrain := false }
        WriteEvents.drain
      else pure ()
    else pure ()

/-- `_close_descriptor`. -/
def closeDescriptor (answers : Answers) : M Unit := do
  setState fun state => { state with closed := true }
  let state := (← get).state
  if state.hasDescriptor then
    let (result, file) := state.file.close answers
    setState fun state => { state with file }
    ofExcept result
  else pure ()

/-- The completion of a write's callback, if it has one. -/
def newCompletion : Option WriteCallback → M (Option StreamCompletion)
  | none => return none
  | some callback => return some (← StreamCompletion.new callback)

/-- `_write` from the check of `writable` on. -/
def written (value : List UInt8) (completion : Option StreamCompletion) (answers : Answers) :
    M Bool := do
  let state := (← get).state
  if ¬ state.writable then
    let error := state.failure "Cannot write to an ended, closed or failed stream"
    StreamCompletion.completeAll (some error) completion.toList
    if ¬ (← get).state.destroyed then fail error 0 else pure ()
    return false
  else
    setState fun state =>
      { state with
        chunks := state.chunks ++ [⟨value, completion⟩]
        bufferedBytes := state.bufferedBytes + value.length }
    if (← get).state.corked = 0 then flush_ answers else pure ()
    let state := (← get).state
    let ready := state.bufferedBytes < state.highWaterMark ∨ state.bufferedBytes = 0
    setState fun state => { state with needDrain := state.needDrain || !decide ready }
    return decide ready && !(← get).state.failed

/-- `_write`. -/
def write (value : List UInt8) (callback : Option WriteCallback) (answers : Answers) : M Bool := do
  WriteEvents.prepare
  if (value.length : Int) > 9007199254740991 - (← get).state.bufferedBytes then
    throw ⟨"Stream buffered byte count exceeds the exact source range"⟩
  else
    let completion ← newCompletion callback
    written value completion answers

/-- The part of `_finish` that may raise. -/
def complete (answers : Answers) : M Unit := do
  let state := (← get).state
  if state.chunks ≠ [] then throw ⟨"Cannot complete a stream without a writable sink"⟩
  else
    if state.flush ∧ state.hasDescriptor then ofExcept (state.file.flush answers) else pure ()
    if state.autoClose then closeDescriptor answers else pure ()

/-- `_finish` once everything has been flushed. -/
def settle (answers : Answers) : M Unit := do
  let failure ←
    try
      complete answers
      pure none
    catch error => pure (some error)
  match failure with
  | some error => fail (errorNew error.message) 0
  | none =>
    WriteEvents.finish
    if (← get).state.closed then WriteEvents.close else pure ()

/-- `_finish`. -/
def finish (answers : Answers) : M Unit := do
  let state := (← get).state
  if state.failed ∨ state.destroyed then pure ()
  else if state.ended then pure ()
  else
    setState fun state => { state with ended := true, corked := 0 }
    flush_ answers
    if (← get).state.failed then pure () else settle answers

/-- `_retain_end`. -/
def retainEnd (callback : Option WriteCallback) : M Unit := do
  WriteEvents.prepare
  match callback with
  | some callback => WriteEvents.retainEnd callback
  | none => pure ()

/-- `_end`. -/
def end_ (callback : Option WriteCallback) (answers : Answers) : M Unit := do
  retainEnd callback
  finish answers

/-- `_end_chunk`. -/
def endChunk (value : List UInt8) (callback : Option WriteCallback) (answers : Answers) :
    M Unit := do
  retainEnd callback
  let _ ← write value none answers
  finish answers

def cork : M Unit := setState fun state => { state with corked := state.corked + 1 }

def uncork (answers : Answers) : M Unit := do
  WriteEvents.prepare
  if (← get).state.corked > 0 then
    setState fun state => { state with corked := state.corked - 1 }
    if (← get).state.corked = 0 then flush_ answers else pure ()
  else pure ()

/-- The `finally` of `close`. -/
def closeFinally (answers : Answers) : M Unit := do
  if ¬ (← get).state.closed then closeDescriptor answers else pure ()
  WriteEvents.close

def close (answers : Answers) : M Unit := do
  WriteEvents.prepare
  tryFinally (end_ none answers) (closeFinally answers)

def destroy (error : Option TsError) (answers : Answers) : M Unit := do
  if (← get).state.destroyed then pure ()
  else
    WriteEvents.prepare
    WriteEvents.cancel
    let state := (← get).state
    let completionError := error.getD (state.failure "Stream destroyed before completion")
    StreamCompletion.completeAll (some completionError) (completions state.chunks)
    setState fun state =>
      { state with chunks := [], bufferedBytes := 0, needDrain := false, corked := 0 }
    WriteEvents.completeEnd (some completionError)
    match error with
    | some error => WriteEvents.fail error
    | none => pure ()
    try closeDescriptor answers
    catch failure => WriteEvents.fail (errorNew failure.message)
    WriteEvents.close

end Writable

end TsonicNode.Stream
