import TsonicNode.Lib.Effect
import TsonicNode.Lib.Run

/-!
# Network sockets

The state of a socket, its write queue (`enqueue`, `flush`, `end_`) and one call
of `progress`. The system answers by data: a send, a read, a connection attempt
or a shutdown takes its answer from its caller, and past the last answer a send
would block. What listeners do during an event is a list of calls on the same
socket.

`System.step` takes `progress` apart into the parts it is made of, so that the
calls of a listener stand between two steps; `progress_run` puts them together
again. Clock readings, listener lists and the reference count of the event loop
are left out.
-/

namespace TsonicNode.Net

open TsonicNode.Lib

structure WriteChunk where
  bytes : List UInt8
  offset : Nat
  deriving DecidableEq, Repr

/-- The descriptor, as its peer sees it: the bytes it took, in order, and the shutdowns of its
writing side. -/
structure NetworkEndpoint where
  sent : List UInt8 := []
  shutdowns : Nat := 0
  closed : Bool := false
  deriving DecidableEq, Repr

structure SocketState where
  endpoint : NetworkEndpoint := {}
  writes : List (Option WriteChunk) := []
  writeIndex : Nat := 0
  queuedBytes : Int := 0
  bytesRead : Nat := 0
  bytesWritten : Nat := 0
  destroyed : Bool := false
  connected : Bool
  started : Bool := true
  paused : Bool := false
  flowing : Bool := false
  allowHalfOpen : Bool
  readEnded : Bool := false
  endPending : Bool := false
  writeEnding : Bool := false
  writeEnded : Bool := false
  finishPending : Bool := false
  closePending : Bool := false
  needDrain : Bool := false
  readableNotified : Bool := false
  error : Option String := none
  hadError : Bool := false
  noDelay : Option Bool := none
  timeout : Nat := 0
  timeoutArmed : Bool := false
  /-- An empty queue entry was read as a chunk, which aborts the program. -/
  aborted : Bool := false
  deriving DecidableEq, Repr

def activity (s : SocketState) : SocketState := { s with timeoutArmed := decide (0 < s.timeout) }

def destroy (s : SocketState) : SocketState :=
  if s.destroyed then s
  else
    { s with
      endpoint := { s.endpoint with closed := true }
      destroyed := true
      closePending := true
      writes := []
      queuedBytes := 0
      writeIndex := 0
      timeoutArmed := false }

def fail (error : String) (s : SocketState) : SocketState :=
  destroy { s with error := s.error.or (some error), hadError := true }

/-! ## Reading -/

/-- The answer of a read; no bytes at all are the end of the peer's data. -/
inductive ReadAnswer where
  | blocked
  | failed (error : String)
  | received (bytes : List UInt8)
  deriving DecidableEq, Repr

def read (answer : ReadAnswer) (s : SocketState) : SocketState × Option (List UInt8) :=
  if s.destroyed ∨ ¬ s.connected ∨ s.readEnded then (s, none)
  else
    match answer with
    | .blocked => (s, none)
    | .failed error => (fail error s, none)
    | .received bytes =>
      let s := { s with readableNotified := false }
      if bytes = [] then ({ s with readEnded := true, endPending := true }, none)
      else (activity { s with bytesRead := s.bytesRead + bytes.length }, some bytes)

/-! ## Writing -/

inductive SendAnswer where
  | blocked
  | failed (error : String)
  | accepted (count : Nat)
  deriving DecidableEq, Repr

/-- The answers one `flush` gets: those of its sends, in order, and the error its shutdown raises,
if it raises one. -/
structure Sends where
  answers : List SendAnswer
  shutdownError : Option String := none
  deriving DecidableEq, Repr

/-- The next `count` bytes of the chunk at the head of the queue are sent. -/
def advance (chunk : WriteChunk) (count : Nat) (s : SocketState) : SocketState :=
  let sent := (chunk.bytes.drop chunk.offset).take count
  let chunk := { chunk with offset := chunk.offset + count }
  let s := activity
    { s with
      endpoint := { s.endpoint with sent := s.endpoint.sent ++ sent }
      writes := s.writes.set s.writeIndex (some chunk)
      queuedBytes := s.queuedBytes - count }
  if chunk.offset = chunk.bytes.length then
    { s with writes := s.writes.set s.writeIndex none, writeIndex := s.writeIndex + 1 }
  else s

/-- How the send loop ends: behind the loop, or with a return of `flush` from inside it. -/
structure SendLoop where
  state : SocketState
  progressed : Bool
  returned : Bool

/-- A send takes no more than it is offered, so an answer counts up to `capacity`. -/
def sendLoop : List SendAnswer → Nat → Bool → SocketState → SendLoop
  | answers, budget, progressed, s =>
    if s.writeIndex < s.writes.length ∧ 0 < budget then
      match s.writes[s.writeIndex]? with
      | some (some chunk) =>
        let capacity := min budget (chunk.bytes.length - chunk.offset)
        match answers with
        | [] | .blocked :: _ => ⟨s, progressed, true⟩
        | .failed error :: _ => ⟨fail error s, true, true⟩
        | .accepted count :: answers =>
          let count := min count capacity
          if count = 0 then ⟨fail "Network write made no progress" s, true, true⟩
          else sendLoop answers (budget - count) true (advance chunk count s)
      | _ => ⟨{ s with aborted := true }, progressed, true⟩
    else ⟨s, progressed, false⟩

/-- Drop the consumed entries, all of them or once they are 64 and half of the list. -/
def compact (s : SocketState) : SocketState :=
  if s.writeIndex = s.writes.length then { s with writes := [], writeIndex := 0 }
  else if 64 ≤ s.writeIndex ∧ s.writes.length ≤ s.writeIndex * 2 then
    let retained := s.writes.drop s.writeIndex
    { s with
      writes := retained
      writeIndex := 0
      aborted := s.aborted || retained.any (·.isNone) }
  else s

/-- The writing side is shut down once it is ending and everything queued is sent. -/
def finishWrites (shutdownError : Option String) (progressed : Bool) (s : SocketState) :
    SocketState × Bool :=
  if s.writeEnding ∧ ¬ s.writeEnded ∧ s.queuedBytes = 0 then
    match shutdownError with
    | some error => (fail error s, true)
    | none =>
      ({ s with
        endpoint := { s.endpoint with shutdowns := s.endpoint.shutdowns + 1 }
        writeEnded := true
        finishPending := true }, true)
  else (s, progressed)

def flush (sends : Sends) (s : SocketState) : SocketState × Bool :=
  if s.destroyed ∨ ¬ s.connected then (s, false)
  else
    let loop := sendLoop sends.answers 65536 false s
    if loop.returned then (loop.state, loop.progressed)
    else finishWrites sends.shutdownError loop.progressed (compact loop.state)

/-- A value that is not empty is a new entry of the queue. -/
def push (value : List UInt8) (s : SocketState) : SocketState :=
  if value.length ≠ 0 then
    { s with
      writes := s.writes ++ [some ⟨value, 0⟩]
      queuedBytes := s.queuedBytes + value.length
      bytesWritten := s.bytesWritten + value.length }
  else s

def enqueue (value : List UInt8) (sends : Sends) (s : SocketState) :
    Except String (Bool × SocketState) :=
  if s.destroyed ∨ s.writeEnding then .error "Cannot write after ending a network socket"
  else if 268435456 - s.queuedBytes < value.length then
    .error "Network write queue exceeds the finite runtime limit"
  else
    let s := (flush sends (push value s)).1
    let accepted := decide (s.queuedBytes < 65536) && !s.destroyed
    .ok (accepted, if accepted then s else { s with needDrain := true })

def end_ (sends : Sends) (s : SocketState) : Except String SocketState :=
  if s.destroyed then .error "Network socket is closed"
  else .ok (flush sends { s with writeEnding := true }).1

/-! ## The parts of `progress` -/

inductive Event where
  | connect
  | data (chunk : List UInt8)
  | readable
  | ended
  | drain
  | finish
  | timeout
  | error (message : String)
  | close (hadError : Bool)
  deriving DecidableEq, Repr

/-- What a part of `progress` does to the socket, the event it emits and whether it counts as
work. -/
structure Outcome where
  socket : SocketState
  event : Option Event := none
  worked : Bool := event.isSome

inductive ConnectAnswer where
  | pending
  | failed (error : String)
  /-- Connected; setting the no-delay option, if there is one to set, may raise. -/
  | connected (noDelayError : Option String)
  deriving DecidableEq, Repr

def connecting (answer : ConnectAnswer) (s : SocketState) : Outcome :=
  if s.started ∧ ¬ s.destroyed ∧ ¬ s.connected then
    match answer with
    | .pending => { socket := s }
    | .failed error => { socket := fail error s, worked := true }
    | .connected noDelayError =>
      let s := activity { s with connected := true }
      let s :=
        match s.noDelay, noDelayError with
        | some _, some error => fail error s
        | _, _ => s
      { socket := s, event := if s.destroyed then none else some .connect, worked := true }
  else { socket := s }

def flushing (sends : Sends) (s : SocketState) : Outcome :=
  let (s, worked) := flush sends s
  { socket := s, worked := worked }

def receiving (answer : ReadAnswer) (s : SocketState) : Outcome :=
  let (s, chunk) := read answer s
  { socket := s, event := chunk.map .data }

/-- The answer of a peek. -/
inductive Ready where
  | blocked
  | failed (error : String)
  | ended
  | ready
  deriving DecidableEq, Repr

def peeking (answer : Ready) (listened : Bool) (s : SocketState) : Outcome :=
  match answer with
  | .blocked => { socket := s }
  | .failed error => { socket := fail error s }
  | .ended => { socket := { s with readEnded := true, endPending := true }, worked := true }
  | .ready =>
    if listened ∧ ¬ s.readableNotified then
      { socket := { s with readableNotified := true }, event := some .readable }
    else { socket := s }

def ending (s : SocketState) : Outcome :=
  if s.endPending ∧ ¬ s.destroyed then
    { socket :=
        { s with endPending := false, writeEnding := s.writeEnding || !s.allowHalfOpen }
      event := some .ended }
  else { socket := s }

def draining (s : SocketState) : Outcome :=
  if s.needDrain ∧ s.queuedBytes = 0 ∧ ¬ s.destroyed then
    { socket := { s with needDrain := false }, event := some .drain }
  else { socket := s }

def finishing (s : SocketState) : Outcome :=
  if s.finishPending ∧ ¬ s.destroyed then
    { socket := { s with finishPending := false }, event := some .finish }
  else { socket := s }

def closing (s : SocketState) : Outcome :=
  if s.readEnded ∧ s.writeEnded then { socket := destroy s, worked := true } else { socket := s }

def timing (elapsed : Bool) (s : SocketState) : Outcome :=
  if ¬ s.destroyed ∧ s.timeoutArmed ∧ elapsed then
    { socket := { s with timeoutArmed := false }, event := some .timeout }
  else { socket := s }

/-- Without a listener the error is raised instead (see `progress`). -/
def reporting (listened : Bool) (s : SocketState) : Outcome :=
  match s.error with
  | none => { socket := s }
  | some error =>
    { socket := { s with error := none }, event := if listened then some (.error error) else none }

def reportingClose (s : SocketState) : Outcome :=
  if s.closePending then
    { socket := { s with closePending := false }, event := some (.close s.hadError) }
  else { socket := s }

/-! ## The socket with its history -/

structure System where
  socket : SocketState
  /-- The buffers that were written and not refused, one after the other. -/
  written : List UInt8 := []
  /-- `end` was called and not refused. -/
  endCalled : Bool := false
  emitted : List Event := []

structure ConnectionOptions where
  timeout : Option Nat := none
  allowHalfOpen : Option Bool := none
  noDelay : Option Bool := none
  deriving DecidableEq, Repr

inductive Call where
  | write (value : List UInt8) (sends : Sends)
  | end_ (sends : Sends)
  | destroy
  | read (answer : ReadAnswer)
  | pause
  | resume
  /-- A listener of 'data' is added. -/
  | onData
  | setTimeout (timeout : Nat)
  | setNoDelay (value : Bool)
  | connect (options : ConnectionOptions)
  deriving DecidableEq, Repr

namespace System

/-- A socket that a connection attempt or a server made. -/
def opened (connected allowHalfOpen : Bool) : System := { socket := { connected, allowHalfOpen } }

/-- A socket that is not connecting yet. -/
def idle : System := { socket := { connected := false, allowHalfOpen := false, started := false } }

/-- A destroyed socket that connects again gets a new state, which is a system of its own. -/
def connect (options : ConnectionOptions) (s : SocketState) : SocketState :=
  if s.started ∨ s.destroyed then s
  else
    activity
      { s with
        started := true
        timeout := options.timeout.getD s.timeout
        allowHalfOpen := options.allowHalfOpen.getD s.allowHalfOpen
        noDelay := options.noDelay.or s.noDelay }

/-- A refused write leaves the socket as it is. -/
def write (value : List UInt8) (sends : Sends) (s : System) : System :=
  match enqueue value sends s.socket with
  | .ok (_, socket) => { s with socket, written := s.written ++ value }
  | .error _ => s

def end_ (sends : Sends) (s : System) : System :=
  match Net.end_ sends s.socket with
  | .ok socket => { s with socket, endCalled := true }
  | .error _ => s

def perform (s : System) : Call → System
  | .write value sends => s.write value sends
  | .end_ sends => s.end_ sends
  | .destroy => { s with socket := Net.destroy { s.socket with started := true } }
  | .read answer => { s with socket := (Net.read answer s.socket).1 }
  | .pause => { s with socket := { s.socket with paused := true } }
  | .resume => { s with socket := { s.socket with paused := false, flowing := true } }
  | .onData => { s with socket := { s.socket with flowing := s.socket.flowing || !s.socket.paused } }
  | .setTimeout timeout =>
    if s.socket.destroyed then s else { s with socket := activity { s.socket with timeout } }
  | .setNoDelay value => { s with socket := { s.socket with noDelay := some value } }
  | .connect options => { s with socket := connect options s.socket }

/-- One part of `progress`, with the answers it gets. -/
inductive Part where
  | connecting (answer : ConnectAnswer)
  | flushing (sends : Sends)
  | receiving (answer : ReadAnswer)
  | peeking (answer : Ready) (listened : Bool)
  | ending
  | draining
  | finishing
  | closing
  | timing (elapsed : Bool)
  | reporting (listened : Bool)
  | reportingClose
  deriving DecidableEq, Repr

def Part.outcome : Part → SocketState → Outcome
  | .connecting answer => Net.connecting answer
  | .flushing sends => Net.flushing sends
  | .receiving answer => Net.receiving answer
  | .peeking answer listened => fun s =>
    -- progress peeks at connected sockets only
    if ¬ s.destroyed ∧ s.connected then Net.peeking answer listened s else { socket := s }
  | .ending => fun s => if s.connected then Net.ending s else { socket := s }
  | .draining => Net.draining
  | .finishing => Net.finishing
  | .closing => Net.closing
  | .timing elapsed => Net.timing elapsed
  | .reporting listened => Net.reporting listened
  | .reportingClose => Net.reportingClose

def after (s : System) (r : Outcome) : System :=
  { s with socket := r.socket, emitted := s.emitted ++ r.event.toList }

def part (s : System) (p : Part) : System := s.after (p.outcome s.socket)

inductive Label where
  | call (call : Call)
  | part (part : Part)
  deriving DecidableEq, Repr

def step (s : System) : Label → System
  | .call call => s.perform call
  | .part p => s.part p

/-! ## One call of `progress` -/

/-- What the listeners of an event do. -/
structure Behaviour where
  calls : List Call := []
  raises : Option String := none

def Behaviour.run (b : Behaviour) : EStateM String System Unit := do
  modify fun s => b.calls.foldl perform s
  match b.raises with
  | some error => throw error
  | none => pure ()

/-- The answers and the listeners of one call of `progress`. -/
structure Poll where
  connection : ConnectAnswer := .pending
  onConnect : Behaviour := {}
  first : Sends := ⟨[], none⟩
  reads : List (ReadAnswer × Behaviour) := []
  ready : Ready := .blocked
  readableListened : Bool := false
  onReadable : Behaviour := {}
  onEnd : Behaviour := {}
  second : Sends := ⟨[], none⟩
  onDrain : Behaviour := {}
  onFinish : Behaviour := {}
  elapsed : Bool := false
  onTimeout : Behaviour := {}
  errorListened : Bool := true
  onError : Behaviour := {}
  onClose : Behaviour := {}

/-- Run a part and, if it emits an event, the listeners. -/
def runPart (p : Part) (listeners : Behaviour) : EStateM String System Bool := do
  let s ← get
  set (s.part p)
  match (p.outcome s.socket).event with
  | some _ => listeners.run
  | none => pure ()
  return (p.outcome s.socket).worked

/-- The loop over the arrived chunks; past the last answer a read would block. -/
def readLoop : List (ReadAnswer × Behaviour) → Nat → EStateM String System Bool
  | [], _ => pure false
  | (answer, listeners) :: reads, received => do
    let s ← get
    if received < 65536 ∧ ¬ s.socket.destroyed ∧ ¬ s.socket.paused then
      match (Net.read answer s.socket).2 with
      | none => runPart (.receiving answer) listeners
      | some chunk => do
        let _ ← runPart (.receiving answer) listeners
        let _ ← readLoop reads (received + chunk.length)
        return true
    else return false

def receive (p : Poll) : EStateM String System Bool := do
  let s ← get
  if ¬ s.socket.destroyed ∧ ¬ s.socket.readEnded ∧ ¬ s.socket.paused then
    if s.socket.flowing then readLoop p.reads 0
    else runPart (.peeking p.ready p.readableListened) p.onReadable
  else return false

/-- What `progress` does with a connected socket. -/
def transfer (p : Poll) : EStateM String System Bool := do
  let s ← get
  if ¬ s.socket.destroyed ∧ s.socket.connected then
    let flushed ← runPart (.flushing p.first) {}
    let received ← receive p
    let ended ← runPart .ending p.onEnd
    let flushedAgain ← runPart (.flushing p.second) {}
    let drained ← runPart .draining p.onDrain
    let finished ← runPart .finishing p.onFinish
    let closed ← runPart .closing {}
    let timedOut ← runPart (.timing p.elapsed) p.onTimeout
    return flushed || received || ended || flushedAgain || drained || finished || closed || timedOut
  else return false

/-- The recorded error is taken, and raised if nobody listens. -/
def report (p : Poll) : EStateM String System Bool := do
  let s ← get
  let reported ← runPart (.reporting p.errorListened) p.onError
  match s.socket.error with
  | none => return reported
  | some error => if p.errorListened then return reported else throw error

def progress (p : Poll) : EStateM String System Bool := do
  let connected ← runPart (.connecting p.connection) p.onConnect
  let transferred ← transfer p
  let reported ← report p
  let closed ← runPart .reportingClose p.onClose
  return connected || transferred || reported || closed

end System

end TsonicNode.Net
