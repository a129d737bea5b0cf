import TsonicNode.Stream.ReadBuffer

/-!
# Readable streams

The state of a `Readable` with its `ReadEvents` and what both share with others:
the places of the completion queue and the device behind the descriptor, whose
answers may be any. User code runs only where a listener is called, and then a
function has nothing left to do, but for `_poll_ready`, which goes on after its
`resume` listeners; `Phase` says where it is. The last fields of a state say what
has happened, for the statements.
-/

namespace TsonicNode.Stream

open TsonicNode.Lib TsonicNode.Buffer

/-! ## Devices -/

structure Request where
  size : Nat
  offset : Option Int
  deriving DecidableEq

/-- What a read gives; nothing at the end. -/
inductive ReadOutcome where
  | bytes (value : List Byte)
  | nothing
  | failed (error : Error)

/-- Calls on the descriptor, in the background or at once. -/
structure Device (World : Type) where
  read : Request → World → ReadOutcome × World
  /-- `begin_read`, with the error it raises. -/
  start : Request → World → Option Error × World
  ready : World → Bool × World
  result : Request → World → ReadOutcome × World
  close : World → Option Error × World

/-! ## States -/

inductive ReadEvent where
  | end_
  | error
  | close
  deriving DecidableEq

/-- `_ReadEventState`; the listeners but `readable` and `data` are of no consequence. -/
structure ReadEvents where
  reservations : List ReadEvent := []
  error : Option TsError := none
  endQueued : Bool := false
  ended : Bool := false
  closeQueued : Bool := false
  closed : Bool := false

/-- The `committed` argument of `prepare_event`. -/
def ReadEvents.committed (events : ReadEvents) : ReadEvent → Bool
  | .end_ => events.endQueued
  | .error => events.error.isSome
  | .close => events.closeQueued

/-- The events that `prepare` has to reserve a place for. -/
def ReadEvents.missing (events : ReadEvents) : List ReadEvent :=
  [ReadEvent.end_, .error, .close].filter fun event => !events.committed event && event ∉ events.reservations

/-- What happened to the lifecycle events: at the queueing, whether the input had ended, what the
buffer held and whether it had been cleared; at the delivery, whether an error was recorded. -/
inductive ReadEntry where
  | queued (event : ReadEvent) (eof : Bool) (held : Nat) (cleared : Bool)
  | delivered (event : ReadEvent) (errored : Bool)
  deriving DecidableEq

/-- Where `_poll_ready` is, if at all. -/
inductive Phase where
  | idle
  /-- In the `resume` listeners. -/
  | resuming (blocked : Bool)
  /-- In listeners behind which nothing is left to do. -/
  | leaving
  deriving DecidableEq

structure Readable (World : Type) where
  world : World
  descriptor : Bool := false
  chunks : ReadBuffer := {}
  paused : Bool := false
  ended : Bool := false
  closed : Bool := false
  failed : Bool := false
  eof : Bool := false
  chunkSize : Nat := 4096
  position : Option Int := none
  last : Option Int := none
  bytesRead : Int := 0
  autoClose : Bool := false
  asynchronous : Bool := false
  nativeRead : Option Request := none
  flowing : Bool := false
  phase : Phase := .idle
  resumePending : Bool := false
  readablePending : Bool := false
  readableListener : Bool := false
  dataListener : Bool := false
  events : ReadEvents := {}
  /-- The notifications of this stream in the completion queue. -/
  pending : List ReadEvent := []
  /-- The places left in that queue. -/
  free : Nat := 0
  record : List ReadEntry := []
  /-- The places and the sizes of the reads asked for. -/
  requests : List (Int × Nat) := []
  /-- What `read` has taken for the caller and the `data` listeners. -/
  delivered : List StreamChunk := []
  /-- The input has ended behind the range, and neither was a listener told nor does a read ask. -/
  owed : Bool := false
  /-- How often the `readable` listeners were called. -/
  notices : Nat := 0

namespace Readable

abbrev Run (World : Type) := EStateM Error (Readable World)

variable {World : Type}

/-- The place of the next byte. -/
def place (readable : Readable World) : Int := readable.position.getD readable.bytesRead

/-! ## Events -/

def prepare : Run World Unit := do
  let readable ← get
  if readable.events.closed then return ()
  else if readable.free < readable.events.missing.length then
    throw ⟨"Pending callbacks exceed the finite runtime limit"⟩
  else
    set { readable with
      free := readable.free - readable.events.missing.length,
      events.reservations := readable.events.reservations ++ readable.events.missing }

def queue (event : ReadEvent) : Run World Unit := do
  let readable ← get
  if event ∉ readable.events.reservations then
    throw ⟨"Readable lifecycle delivery has no reserved queue capacity"⟩
  else
    set { readable with
      events.reservations := readable.events.reservations.erase event,
      pending := readable.pending ++ [event],
      record := readable.record ++
        [ReadEntry.queued event readable.eof readable.chunks.length (readable.closed || readable.failed)] }

/-- `ReadEvents.end`. -/
def endEvents : Run World Unit := do
  let readable ← get
  if readable.events.endQueued || readable.events.closeQueued || readable.events.error.isSome then return ()
  else
    queue .end_
    modify fun readable => { readable with events.endQueued := true }

/-- `ReadEvents.close`. -/
def closeEvents : Run World Unit := do
  let readable ← get
  if readable.events.closeQueued then return ()
  else
    queue .close
    modify fun readable => { readable with events.closeQueued := true }

/-- `ReadEvents.fail`. -/
def fail (error : TsError) : Run World Unit := do
  let readable ← get
  if readable.events.error.isSome || readable.events.closed then return ()
  else
    modify fun readable => { readable with events.error := some error }
    queue .error

/-- The completion queue calls the next notification of the stream, `_ReadEvent.invoke`. -/
def deliver : Run World Unit := do
  let readable ← get
  match readable.pending with
  | [] => return ()
  | event :: pending =>
    let readable := { readable with pending, free := readable.free + 1 }
    let delivered := { readable with
      record := readable.record ++ [ReadEntry.delivered event readable.events.error.isSome] }
    match event with
    | .error => set delivered
    | .end_ =>
      if readable.events.error.isSome then set readable
      else set { delivered with events.ended := true }
    | .close =>
      set { delivered with
        events.closed := true, events.reservations := [],
        free := readable.free + readable.events.reservations.length }

/-! ## Input -/

def onChunks {α : Type} (m : ReadBuffer.Action α) : Run World α :=
  zoom chunks (fun chunks readable => { readable with chunks }) m

/-- `ReadBuffer.clear`. -/
def clearChunks (chunks : ReadBuffer) : ReadBuffer := { finished := chunks.finished }

def abort (message : String) : Run World Unit := do
  prepare
  modify fun readable => { readable with
    failed := true, nativeRead := none, chunks := clearChunks readable.chunks,
    descriptor := readable.descriptor && !readable.autoClose }
  fail (errorNew message)
  closeEvents

section
variable (unpaired : List UInt16 → Error) (device : Device World) (turns : Nat)

/-- `_request_size`. -/
def requestSize (minimum : Nat) : Run World Nat := do
  let readable ← get
  if readable.eof || !readable.descriptor then return 0
  else
    let size := max minimum readable.chunkSize
    match readable.last with
    | none => return size
    | some last =>
      let size := min size (max 0 (last - readable.place + 1)).toNat
      if readable.place > last then
        modify fun readable => { readable with eof := true, owed := true }
        onChunks (ReadBuffer.finish unpaired)
        return size
      else return size

/-- `_accept_read`. -/
def acceptRead (outcome : ReadOutcome) : Run World Unit := do
  match outcome with
  | .failed error => throw error
  | .nothing =>
    modify fun readable => { readable with eof := true }
    onChunks (ReadBuffer.finish unpaired)
    modify fun readable => { readable with readablePending := true }
  | .bytes value =>
    modify fun readable => { readable with
      bytesRead := readable.bytesRead + value.length,
      position := readable.position.map (· + value.length) }
    onChunks (ReadBuffer.append unpaired value)
    modify fun readable => { readable with readablePending := true }

/-- `_read_descriptor`. -/
def readDescriptor (minimum : Nat) : Run World Unit := do
  let size ← requestSize unpaired minimum
  if size = 0 then return ()
  else
    let readable ← get
    let request : Request := ⟨size, readable.position⟩
    let (outcome, world) := device.read request readable.world
    set { readable with world, requests := readable.requests ++ [(readable.place, size)] }
    acceptRead unpaired outcome

/-- `_poll_descriptor`. -/
def pollDescriptor (minimum : Nat) : Run World Unit := do
  let readable ← get
  match readable.nativeRead with
  | some request =>
    let (ready, world) := device.ready readable.world
    if ready then
      let (outcome, world) := device.result request world
      match outcome with
      | .failed error =>
        -- `result` raises before the read is forgotten
        set { readable with world }
        throw error
      | outcome =>
        set { readable with world, nativeRead := none }
        acceptRead unpaired outcome
    else set { readable with world }
  | none =>
    let size ← requestSize unpaired minimum
    let size := min 1048576 size
    if size = 0 then return ()
    else
      let readable ← get
      let request : Request := ⟨size, readable.position⟩
      match device.start request readable.world with
      | (some error, world) =>
        set { readable with world, requests := readable.requests ++ [(readable.place, size)] }
        throw error
      | (none, world) =>
        set { readable with
          world, requests := readable.requests ++ [(readable.place, size)], nativeRead := some request }

/-- `_fill`. -/
def fill (minimum : Nat) : Run World Unit := do
  let readable ← get
  tryCatch
    (if readable.asynchronous then pollDescriptor unpaired device minimum
      else readDescriptor unpaired device minimum)
    fun error => abort error.message

/-- The loop of `_read_sized`, for a number of turns. -/
def fillLoop (minimum : Nat) : Nat → Run World Unit
  | 0 => return ()
  | turns + 1 => do
    let readable ← get
    if readable.descriptor && !readable.eof && decide (readable.chunks.length < minimum) then
      fill unpaired device 1
      let next ← get
      if readable.bytesRead = next.bytesRead then return ()
      else fillLoop minimum turns
    else return ()

/-! ## Operations -/

/-- `increased_read_threshold`. -/
def increasedReadThreshold (size : Int) (current : Nat) : Except Error Nat :=
  if size ≤ current then .ok current
  else if size > 1073741824 then .error ⟨"Stream read size exceeds the 1 GiB growing threshold"⟩
  else .ok size.toNat.nextPowerOfTwo

def closeDescriptor : Run World Unit := do
  let readable ← get
  if readable.descriptor then
    match device.close readable.world with
    | (none, world) => set { readable with world }
    | (some error, world) =>
      set { readable with world }
      throw error
  else return ()

def close : Run World Unit := do
  let readable ← get
  if readable.closed then return ()
  else
    prepare
    modify fun readable => { readable with
      closed := true, nativeRead := none, chunks := clearChunks readable.chunks }
    tryFinally
      (tryCatch (closeDescriptor device) fun error => fail (errorNew error.message))
      closeEvents

/-- What `_read_sized` fills the buffer with; `desired` is what it would give. -/
def fillFor (selected : Option Int) (desired : Nat) : Run World Unit := do
  let readable ← get
  if readable.chunks.length < desired ∨ readable.chunks.length = 0 then
    let minimum := if selected.isSome then desired else 1
    fill unpaired device (if minimum > 0 then 1 else 0)
    fillLoop unpaired device minimum turns
  else return ()

/-- What `_read_sized` takes from the buffer. -/
def takeFor (selected : Option Int) (desired : Nat) : Run World (Option StreamChunk) := do
  let readable ← get
  match selected with
  | none => onChunks (ReadBuffer.take readable.chunks.length)
  | some selected =>
    if selected ≤ 0 then return none
    else if readable.chunks.length < desired ∧ !readable.eof then return none
    else onChunks (ReadBuffer.take (min desired readable.chunks.length : Nat))

/-- What `_read_sized` does with the threshold. -/
def grow (selected : Option Int) : Run World Unit := do
  match selected with
  | none => return ()
  | some size =>
    let readable ← get
    let chunkSize ← ofExcept (increasedReadThreshold size readable.chunkSize)
    set { readable with chunkSize }

/-- `_read_sized`; `selected` is what `requested_read_size` makes of its argument. -/
def readSized (selected : Option Int) : Run World (Option StreamChunk) := do
  grow selected
  let readable ← get
  if readable.closed || readable.failed then return none
  else
    prepare
    modify fun readable => { readable with readablePending := false, owed := false }
    let desired := match selected with
      | none => readable.chunkSize
      | some size => size.toNat
    fillFor unpaired device turns selected desired
    let readable ← get
    if readable.failed then return none
    else if readable.chunks.length = 0 ∧ readable.eof then
      modify fun readable => { readable with ended := true }
      endEvents
      if readable.autoClose then close device else pure ()
      return none
    else takeFor selected desired

/-- `read` and `read_sized`; what was taken goes to the `data` listeners, too. -/
def read (selected : Option Int) : Run World Unit := do
  match ← readSized unpaired device turns selected with
  | none => return ()
  | some chunk => modify fun readable => { readable with delivered := readable.delivered ++ [chunk] }

def append (value : List Byte) : Run World Unit := do
  let readable ← get
  if readable.closed || readable.failed || readable.eof then
    throw ⟨"Cannot append to a closed or ended readable stream"⟩
  else
    prepare
    tryCatch
      (do
        onChunks (ReadBuffer.append unpaired value)
        modify fun readable => { readable with readablePending := true })
      fun error => abort error.message

def setEncoding (name : Text) : Run World Unit := do
  match encodingName name with
  | .error error => throw error
  | .ok selected =>
    prepare
    tryCatch (onChunks (ReadBuffer.setEncoding unpaired selected.name)) fun error => abort error.message

/-- `_activate`; the sources may be too many. -/
def activate (full : Bool) : Run World Unit := do
  prepare
  if full then throw ⟨"Active readable streams exceed the finite runtime limit"⟩
  else modify fun readable => { readable with asynchronous := true }

def pause : Run World Unit :=
  modify fun readable => { readable with paused := true, flowing := false }

def resume (full : Bool) : Run World Unit := do
  activate full
  modify fun readable => { readable with
    resumePending := readable.resumePending || readable.paused || !readable.flowing,
    paused := false, flowing := true }

def addData (full : Bool) : Run World Unit := do
  activate full
  modify fun readable => { readable with dataListener := true }
  let readable ← get
  if readable.paused then return () else resume full

def removeData : Run World Unit := modify fun readable => { readable with dataListener := false }

def addReadable (full : Bool) : Run World Unit := do
  activate full
  modify fun readable => { readable with
    readableListener := true, flowing := false,
    readablePending := readable.chunks.length ≠ 0 || readable.eof }

/-- The last `readable` listener is removed. -/
def removeReadable (full : Bool) : Run World Unit := do
  modify fun readable => { readable with readableListener := false }
  let readable ← get
  if readable.dataListener && !readable.paused then resume full else return ()

/-- The last `readable` listener goes with its call. -/
def spendReadable : Run World Unit := modify fun readable => { readable with readableListener := false }

/-! ## Polling -/

def pollInput : Run World Unit := do
  modify fun readable => { readable with asynchronous := true }
  let readable ← get
  if readable.closed || readable.failed then return ()
  else if readable.chunks.length = 0 ∨ readable.nativeRead.isSome then fill unpaired device 1
  else return ()

/-- `_prune_sinks`, where the last sink goes and no `data` listener is left. -/
def prune : Run World Unit := modify fun readable => { readable with flowing := false }

/-- `_poll_ready` behind the `resume` listeners. -/
def pollReady (blocked : Bool) : Run World Unit := do
  let readable ← get
  if blocked || readable.ended || readable.closed || readable.failed then return ()
  else if (!readable.flowing || readable.paused) && !readable.readableListener then
    if readable.nativeRead.isSome then fill unpaired device 0 else return ()
  else
    pollInput unpaired device
    let next ← get
    if readable.readableListener then
      if next.readablePending then
        set { next with readablePending := false, owed := false, notices := next.notices + 1, phase := .leaving }
      else return ()
    else if !next.paused && next.flowing then
      read unpaired device turns none
      modify fun readable => { readable with phase := .leaving }
    else return ()

/-- `_poll`; `blocked` says that a sink is not ready. -/
def poll (blocked : Bool) : Run World Unit := do
  let readable ← get
  if readable.phase ≠ .idle then return ()
  else if readable.failed || readable.closed && !readable.ended then return ()
  else if readable.resumePending then
    set { readable with resumePending := false, phase := .resuming blocked }
  else pollReady unpaired device turns blocked

/-- The listeners that `_poll_ready` has called return. -/
def goOn : Run World Unit := do
  let readable ← get
  set { readable with phase := .idle }
  match readable.phase with
  | .resuming blocked => pollReady unpaired device turns blocked
  | _ => return ()

/-- One of them raises. -/
def stop : Run World Unit := modify fun readable => { readable with phase := .idle }

end

/-! ## Runs -/

/-- What user code, the poll loop and the completion queue do; the numbers of turns and what is said of
sinks and sources are what the others make of them. -/
inductive Action where
  | read (selected : Option Int) (turns : Nat)
  | append (value : List Byte)
  | setEncoding (name : Text)
  | close
  | pause
  | resume (full : Bool)
  | addData (full : Bool)
  | removeData
  | addReadable (full : Bool)
  | removeReadable (full : Bool)
  | spendReadable
  | pollInput
  | poll (blocked : Bool) (turns : Nat)
  | goOn (turns : Nat)
  | stop
  | prune
  | deliver
  /-- Other streams take places of the queue or give some back. -/
  | places (free : Nat)

section
variable (unpaired : List UInt16 → Error) (device : Device World)

def perform : Action → Run World Unit
  | .read selected turns => read unpaired device turns selected
  | .append value => append unpaired value
  | .setEncoding name => setEncoding unpaired name
  | .close => close device
  | .pause => pause
  | .resume full => resume full
  | .addData full => addData full
  | .removeData => removeData
  | .addReadable full => addReadable full
  | .removeReadable full => removeReadable full
  | .spendReadable => spendReadable
  | .pollInput => pollInput unpaired device
  | .poll blocked turns => poll unpaired device turns blocked
  | .goOn turns => goOn unpaired device turns
  | .stop => stop
  | .prune => prune
  | .deliver => deliver
  | .places free => modify fun readable => { readable with free }

/-- The state after an action, whether it returns or raises. -/
def step (readable : Readable World) (action : Action) : Readable World :=
  finalState (perform unpaired device action readable)

end

end Readable

end TsonicNode.Stream
