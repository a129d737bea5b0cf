import TsonicNode.Tls.Native
import TsonicNode.Lib.Run
import Mathlib.Algebra.Order.Ring.Rat

/-!
# The TLS socket object and its progress

`Socket` is `_TlsSocketState`. `System` adds the place at which a call of
`progress_socket` stands and the events it has emitted: a `goOn` runs it from one
check to the next, and whenever it has emitted an event, and between two calls,
the program may call the socket (`perform`). Listeners are not modelled one by
one: what they do are such calls, and whether there are any is an answer.
-/

namespace TsonicNode.Tls

open TsonicNode.Lib

/-- `_take_error`. -/
def takeError (error : Option String) (fallback : String) : Error := ⟨error.getD fallback⟩

/-- The state of a `TLSSocket`; of listeners that are handed over only whether they are there. -/
structure Socket where
  native : Native
  serverErrors : Bool := false
  serverConnections : Bool := false
  nativeOwner : Bool := false
  secureNotified : Bool := false
  endNotified : Bool := false
  finishNotified : Bool := false
  closeNotified : Bool := false
  paused : Bool := false
  flowing : Bool := false
  allowHalfOpen : Bool := false
  readableNotified : Bool := false
  needDrain : Bool := false
  timeout : ℚ := 0
  timeoutArmed : Bool := false
  lastActivity : ℚ := 0
  activityBytes : Nat := 0
  noDelay : Option Bool := none
  failure : Option Error := none
  hadError : Bool := false
  handshakeDeadline : ℚ := 0
  /-- It is in the list of activities. -/
  scheduled : Bool := true

namespace Socket

/-! ## Calls -/

def closed (socket : Socket) : Bool := socket.native.closed

def ready (socket : Socket) : Bool := socket.native.isReady

/-- `_schedule_socket`. -/
def schedule (socket : Socket) : Socket := { socket with scheduled := true }

/-- `prune_sockets`. -/
def prune (socket : Socket) : Socket :=
  if !socket.closed || !socket.closeNotified || socket.failure.isSome then socket
  else { socket with scheduled := false }

def destroy (socket : Socket) : Socket :=
  { socket with native := socket.native.destroy, nativeOwner := false, timeoutArmed := false }

/-- `fail` keeps the first error. -/
def fail (error : Error) (socket : Socket) : Socket :=
  { socket with failure := socket.failure.or (some error), hadError := true }.destroy

/-- `read_into` and `read`: the number of bytes of the chunk, if there is one. -/
def read (answers : Native.ReadAnswers) (socket : Socket) : Except Error (Option Nat) × Socket :=
  let socket := { socket with readableNotified := false }
  match socket.native.read answers with
  | (.error error, native) =>
    let failure := takeError error "TLS read failed"
    (.error failure, { socket with native }.fail failure)
  | (.ok count, native) => (.ok (if 0 < count then some count.toNat else none), { socket with native })

def peek (answers : Native.ReadAnswers) (socket : Socket) : Except Error Int × Socket :=
  match socket.native.peek answers with
  | (.error error, native) => (.error (takeError error "TLS read failed"), { socket with native })
  | (.ok result, native) => (.ok result, { socket with native })

def progress (answers : ProgressAnswers) (socket : Socket) : Except Error Unit × Socket :=
  match socket.native.progress answers with
  | (.error error, native) => (.error (takeError error "TLS transport failed"), { socket with native })
  | (.ok _, native) => (.ok (), { socket with native })

/-- `write_buffer` of so many bytes. -/
def write (length : Nat) (allocated : Bool) (socket : Socket) : Except Error Bool × Socket :=
  match socket.native.write length allocated with
  | (.error error, native) => (.error (takeError error "TLS write failed"), { socket with native })
  | (.ok _, native) =>
    let writable : Bool := native.queuedBytes < 65536
    (.ok writable, { socket with native, needDrain := socket.needDrain || !writable }.schedule)

/-- `end`. -/
def endWrites (answers : ProgressAnswers) (socket : Socket) : Except Error Unit × Socket :=
  match socket.native.endWrites answers with
  | (.error error, native) => (.error (takeError error "Unable to close TLS socket"), { socket with native })
  | (.ok _, native) => (.ok (), { socket with native }.schedule)

def finishResponse (answers : ProgressAnswers) (socket : Socket) : Except Error Unit × Socket :=
  match socket.native.finishResponse answers with
  | (.error error, native) =>
    (.error (takeError error "Unable to finish TLS response"), { socket with native })
  | (.ok _, native) => (.ok (), { socket with native }.schedule)

def pause (socket : Socket) : Socket := { socket with paused := true }

def resume (socket : Socket) : Socket := { socket with paused := false, flowing := true }

/-- `on_data` and `once_data`. -/
def onData (socket : Socket) : Socket :=
  if socket.paused then socket else { socket with flowing := true }

/-- `set_no_delay`; the status of the system is not 0 where it raises. -/
def setNoDelay (enabled : Bool) (status : Int) (socket : Socket) : Except Error Unit × Socket :=
  let socket := { socket with noDelay := some enabled }
  if socket.ready && !socket.closed && status != 0 then (.error ⟨"network error"⟩, socket)
  else (.ok (), socket)

/-- `set_timeout`. -/
def setTimeout (timeout now : ℚ) (socket : Socket) : Except Error Unit × Socket :=
  if socket.closed then (.ok (), socket)
  else if timeout < 0 then
    (.error ⟨"Socket timeout must be a non-negative finite number"⟩, socket)
  else
    (.ok (), { socket with
      timeout := min timeout 2147483647
      lastActivity := now
      timeoutArmed := 0 < min timeout 2147483647 })

end Socket

/-- A call of the program; it goes on when the call raises. -/
inductive Call
  | read (answers : Native.ReadAnswers)
  | write (length : Nat) (allocated : Bool)
  | endWrites (answers : ProgressAnswers)
  | finishResponse (answers : ProgressAnswers)
  | destroy
  | pause
  | resume
  | onData
  | setNoDelay (enabled : Bool) (status : Int)
  | setTimeout (timeout now : ℚ)

def Socket.perform (socket : Socket) : Call → Socket
  | .read answers => (socket.read answers).2
  | .write length allocated => (socket.write length allocated).2
  | .endWrites answers => (socket.endWrites answers).2
  | .finishResponse answers => (socket.finishResponse answers).2
  | .destroy => socket.destroy
  | .pause => socket.pause
  | .resume => socket.resume
  | .onData => socket.onData
  | .setNoDelay enabled status => (socket.setNoDelay enabled status).2
  | .setTimeout timeout now => (socket.setTimeout timeout now).2

/-! ## Progress -/

/-- What `progress_socket` emits; `secure` is emitted to the server's listeners where there is a
server, and `error` to its error listeners, and without any listeners the error is raised. -/
inductive Event
  | secure
  | data
  | readable
  | drain
  | ended
  | finish
  | timeout
  | error
  | raised
  | close
  deriving DecidableEq

def Event.isError : Event → Bool
  | .error | .raised => true
  | _ => false

/-- The check at which `progress_socket` goes on. -/
inductive Point
  /-- It has not been called. -/
  | idle
  | secure
  | reading
  /-- The loop, with the bytes it has received. -/
  | flowing (received : Nat)
  | drain
  | ending
  | finishing
  | timeout
  | failure
  | closing

/-- What one piece of `progress_socket` is answered. -/
structure Answers where
  /-- The clock, as it is read first and after that. -/
  now : ℚ := 0
  later : ℚ := 0
  progress : ProgressAnswers := {}
  read : Native.ReadAnswers := {}
  noDelay : Int := 0
  readableListeners : Bool := false
  errorListeners : Bool := false

/-- A socket and the call of `progress_socket` that is under way. -/
structure System where
  socket : Socket
  point : Point := .idle
  /-- An event has just been emitted. -/
  listening : Bool := false
  log : List Event := []

namespace System

/-- The check at `point` comes next. -/
def pass (point : Point) (socket : Socket) (system : System) : System :=
  { system with socket, point, listening := false }

/-- An event is emitted, and its listeners run before the check at `point`. -/
def emit (event : Event) (point : Point) (socket : Socket) (system : System) : System :=
  { socket, point, listening := true, log := system.log ++ [event] }

end System

namespace Socket

/-- The transport makes progress, unless the handshake has taken too long. -/
def advance (answers : Answers) (socket : Socket) : Socket :=
  if socket.closed then socket
  else if !socket.ready && decide (0 < socket.handshakeDeadline) &&
      decide (socket.handshakeDeadline ≤ answers.now) then
    socket.fail ⟨"TLS connection handshake timed out"⟩
  else
    match socket.progress answers.progress with
    | (.error error, socket) => socket.fail error
    | (.ok _, socket) => socket

/-- New bytes on the wire arm the timeout again. -/
def noteActivity (now : ℚ) (socket : Socket) : Socket :=
  if socket.native.activityBytes = socket.activityBytes then socket
  else { socket with
    activityBytes := socket.native.activityBytes
    lastActivity := now
    timeoutArmed := 0 < socket.timeout }

/-- The handshake has come to its end. -/
def secured (answers : Answers) (socket : Socket) : Socket :=
  let socket := { socket with secureNotified := true, nativeOwner := false, serverErrors := false }
  match socket.noDelay with
  | none => socket
  | some enabled =>
    match socket.setNoDelay enabled answers.noDelay with
    | (.error error, socket) => socket.fail error
    | (.ok _, socket) => socket

/-- The end of the read side ends the write side, unless half-open sockets are allowed. -/
def endReads (answers : Answers) (socket : Socket) : Socket :=
  let socket := { socket with endNotified := true }
  if socket.allowHalfOpen then socket
  else
    match socket.endWrites answers.progress with
    | (.error error, socket) => socket.fail error
    | (.ok _, socket) => socket

/-- Bytes on the wire put the timeout off. -/
def latestActivity (now : ℚ) (socket : Socket) : Socket :=
  if socket.native.activityBytes = socket.activityBytes then socket
  else { socket with activityBytes := socket.native.activityBytes, lastActivity := now }

end Socket

namespace System

/-- `progress_socket` from one check to the next. -/
def goOn (answers : Answers) (system : System) : System :=
  let socket := system.socket
  match system.point with
  | .idle => system.pass .secure ((socket.advance answers).noteActivity answers.later)
  | .secure =>
    if socket.ready && !socket.closed && !socket.secureNotified then
      let socket := socket.secured answers
      if socket.closed then system.pass .reading socket
      else system.emit .secure .reading { socket with serverConnections := false }
    else system.pass .reading socket
  | .reading =>
    if socket.ready && !socket.closed then
      if !socket.paused && !socket.native.readEnded then
        if socket.flowing then system.pass (.flowing 0) socket
        else
          match socket.peek answers.read with
          | (.error error, socket) => system.pass .drain (socket.fail error)
          | (.ok readiness, socket) =>
            if decide (0 < readiness) && answers.readableListeners && !socket.readableNotified then
              system.emit .readable .drain { socket with readableNotified := true }
            else system.pass .drain socket
      else system.pass .drain socket
    else system.pass .ending socket
  | .flowing received =>
    if decide (received < 65536) && !socket.closed && !socket.paused then
      match socket.read answers.read with
      | (.error error, socket) => system.pass .drain (socket.fail error)
      | (.ok none, socket) => system.pass .drain socket
      | (.ok (some count), socket) => system.emit .data (.flowing (received + count)) socket
    else system.pass .drain socket
  | .drain =>
    if socket.needDrain && decide (socket.native.queuedBytes = 0) && !socket.closed then
      system.emit .drain .ending { socket with needDrain := false }
    else system.pass .ending socket
  | .ending =>
    if socket.native.readEnded && !socket.endNotified && !socket.hadError then
      system.emit .ended .finishing (socket.endReads answers)
    else system.pass .finishing socket
  | .finishing =>
    if socket.native.writeEnded && !socket.finishNotified then
      system.emit .finish .timeout { socket with finishNotified := true }
    else system.pass .timeout socket
  | .timeout =>
    if !socket.closed && socket.timeoutArmed then
      let socket := socket.latestActivity answers.now
      if socket.timeout ≤ answers.later - socket.lastActivity then
        system.emit .timeout .failure { socket with timeoutArmed := false }
      else system.pass .failure socket
    else system.pass .failure socket
  | .failure =>
    match socket.failure with
    | none => system.pass .closing socket
    | some _ =>
      let socket := { socket with failure := none }
      if socket.serverErrors then system.emit .error .closing { socket with serverErrors := false }
      else if answers.errorListeners then system.emit .error .closing socket
      else system.emit .raised .idle socket
  | .closing =>
    if socket.closed && !socket.closeNotified then
      system.emit .close .idle { socket with closeNotified := true }
    else system.pass .idle socket

/-- Whether the program can call the socket: no call of `progress_socket` is under way, or its
listeners run. -/
def callable (system : System) : Bool :=
  match system.point with
  | .idle => true
  | _ => system.listening

end System

/-- A step of a run. -/
inductive Move
  | goOn (answers : Answers)
  | call (call : Call)
  | prune

def System.step (system : System) : Move → System
  | .goOn answers => system.goOn answers
  | .call call => if system.callable then { system with socket := system.socket.perform call } else system
  | .prune => if system.callable then { system with socket := system.socket.prune } else system

/-- How a socket comes to be: a client, or a connection of a server with its listeners. -/
structure Opening where
  server : Bool
  allowHalfOpen : Bool
  handshakeDeadline : ℚ

/-- `TLSSocket.__init__`. -/
def System.start (opening : Opening) : System where
  socket :=
    { native := if opening.server then .accept else .connect
      serverErrors := opening.server
      serverConnections := opening.server
      nativeOwner := opening.server
      allowHalfOpen := opening.allowHalfOpen
      handshakeDeadline := opening.handshakeDeadline }

end TsonicNode.Tls
