import TsonicNode.Worker.Channel
import TsonicNode.Lib.Effect
import TsonicNode.Lib.Run
import Mathlib.Logic.Function.Basic

/-!
# Message ports

Ports over an in-process pair of inboxes or over a worker channel, the list of
ports the event loop polls, the ports it retains, and the test whether they keep
it alive. `World` is what the module keeps; `System` adds the polls that are
under way, each standing before its next port or inside an event of one. Calls
made by a listener are steps of the system taken inside its event, nested polls
included; `raise` is a listener that raises.

What a native call does is decided by its channel and by the system's part of
the call (`Native`). Values and their structured clone are parameters.
-/

namespace TsonicNode.Worker

/-! ## Channels -/

/-- The system's part of one native call: what has arrived from the peer, whether an allocation
succeeds, and the answers of `recv` and `send`. -/
structure Native where
  arrived : List Byte := []
  memory : Bool := true
  plan : List Outcome := []

namespace Channel

def call (channel : Channel) (native : Native) : Call where
  channel := channel
  arrived := native.arrived
  received := []
  sent := []

def progress (native : Native) (channel : Channel) : Status × Channel :=
  let (status, c) := Call.progress native.plan (channel.call native)
  (status, c.channel)

def send (frame : Frame) (native : Native) (channel : Channel) : Status × Channel :=
  let (status, c) := Call.send frame native.memory native.plan (channel.call native)
  (status, c.channel)

def pending (channel : Channel) : Bool := !channel.out.isEmpty

def closed (channel : Channel) : Bool := !channel.isOpen || channel.eof

def close (channel : Channel) : Channel :=
  { channel with isOpen := false, out := [], outBytes := 0, incoming := none }

end Channel

namespace Ports

open TsonicNode.Lib

inductive PortError where
  | native (status : Errno)
  | message (text : String)
  deriving DecidableEq, Repr

/-- What the ports use of JavaScript values. -/
structure JsValues (V : Type) where
  undefined : V
  /-- `js_value_structured_clone`. -/
  structuredClone : V → Except PortError V
  encode : V → Except PortError (List Byte)
  decode : List Byte → Except PortError V
  /-- The text of a string; converting it may raise. -/
  stringValue : V → Option (Except PortError String)

/-! ## The state -/

structure MessagePacket (V : Type) where
  kind : Byte
  value : V

def ONLINE : Byte := 1
def MESSAGE : Byte := 2
def FAILURE : Byte := 3
def PORT_CLOSED : Byte := 4

structure LocalInbox (V : Type) where
  messages : List V := []
  closed : Bool := false

inductive PortTransport where
  | localPair (inbox peer : Nat)
  | remote (channel : Channel)

/-- A registered listener; `identity` tells registrations apart. -/
structure Listener where
  event : String
  callback : Nat
  once : Bool
  identity : Nat
  deriving DecidableEq, Repr

structure PortState where
  channel : PortTransport
  events : List Listener := []
  started : Bool
  referenced : Bool
  closing : Bool := false
  closed : Bool := false
  closeEmitted : Bool := false
  worker : Bool
  exited : Bool := false
  exitCode : Option Int := none
  online : Bool := false
  peerClosed : Bool := false
  terminating : Bool := false
  /-- Something still holds the state. -/
  alive : Bool := true

def PortState.new (channel : PortTransport) (worker : Bool) : PortState :=
  { channel, started := worker, referenced := worker, worker }

/-- Output is queued. -/
def PortState.pending (port : PortState) : Bool :=
  match port.channel with
  | .localPair _ _ => false
  | .remote channel => channel.pending

def PortState.listenerCount (port : PortState) (event : String) : Nat :=
  port.events.countP (·.event == event)

structure World (V : Type) where
  port : Nat → PortState
  /-- Ports are numbered in the order they are made. -/
  made : Nat
  inbox : Nat → LocalInbox V
  inboxes : Nat
  ports : List Nat
  retained : List Nat
  compactionThreshold : Nat
  registrations : Nat
  /-- Registrations of `once` that were used. -/
  consumed : List Nat
  /-- The ports that emitted 'close'. -/
  closes : List Nat

abbrev M (V : Type) := EStateM PortError (World V)

variable {V : Type}

namespace World

def write (p : Nat) (f : PortState → PortState) (w : World V) : World V :=
  { w with port := Function.update w.port p (f (w.port p)) }

/-- The condition of `_retain_port`. -/
def required (port : PortState) : Bool :=
  port.pending || (port.worker && !port.exited) ||
    (port.closed && !port.worker && !port.closeEmitted) ||
    (port.referenced && port.started && !port.closed)

def retainPort (p : Nat) (w : World V) : World V :=
  if required (w.port p) then
    { w with retained := if p ∈ w.retained then w.retained else w.retained ++ [p] }
  else { w with retained := w.retained.filter (· ≠ p) }

/-- The condition of `has_active_worker_threads` for one port. -/
def active (port : PortState) : Bool :=
  port.pending || (port.closing && !port.closeEmitted && !port.worker) ||
    (port.referenced && ((port.worker && !port.exited) || (port.started && !port.closed)))

def hasActiveWorkerThreads (w : World V) : Bool := w.retained.any fun p => active (w.port p)

def compactPorts (w : World V) : World V :=
  let retained := w.ports.filter fun p =>
    let live := w.port p
    live.alive && (live.pending || !(if live.worker then live.exited else live.closeEmitted))
  { w with
    ports := retained
    compactionThreshold := min 1048576 (max 1024 (retained.length * 2)) }

def setChannel (p : Nat) (channel : Channel) (w : World V) : World V :=
  w.write p fun port => { port with channel := .remote channel }

/-! ## Transports -/

/-- `PortTransport.close`. -/
def closeChannel (p : Nat) (w : World V) : World V :=
  match (w.port p).channel with
  | .localPair inbox _ =>
    { w with inbox := Function.update w.inbox inbox { messages := [], closed := true } }
  | .remote channel => w.setChannel p channel.close

/-- `PortTransport.closed`. -/
def channelClosed (p : Nat) (w : World V) : Bool :=
  match (w.port p).channel with
  | .localPair inbox peer =>
    (w.inbox inbox).closed || ((w.inbox peer).closed && (w.inbox inbox).messages.isEmpty)
  | .remote channel => channel.closed

end World

open World

/-- Raise a native status. -/
def check : Status → M V Unit
  | none => pure ()
  | some status => throw (.native status)

def lift {α : Type} : Except PortError α → M V α
  | .ok a => pure a
  | .error e => throw e

/-- The error a computation raises, or its value. -/
def attempt {α : Type} (m : M V α) : M V (Except PortError α) :=
  tryCatch (do return .ok (← m)) fun e => return .error e

def sendFrame (p : Nat) (channel : Channel) (frame : Frame) (native : Native) : M V Unit := do
  let (status, channel) := channel.send frame native
  modify (setChannel p channel)
  check status

def progressChannel (p : Nat) (native : Native) : M V Unit := do
  let w ← get
  match (w.port p).channel with
  | .localPair _ _ => pure ()
  | .remote channel =>
    let (status, channel) := channel.progress native
    modify (setChannel p channel)
    check status

def closeData (p : Nat) (native : Native) : M V Unit := do
  let w ← get
  match (w.port p).channel with
  | .localPair _ _ => modify (closeChannel p)
  | .remote channel =>
    if channel.closed then pure () else sendFrame p channel ⟨PORT_CLOSED, []⟩ native

def sendValue (js : JsValues V) (p : Nat) (value : V) (native : Native) : M V Unit := do
  let w ← get
  match (w.port p).channel with
  | .localPair inbox peer =>
    if (w.inbox inbox).closed || (w.inbox peer).closed then pure ()
    else if (w.inbox peer).messages.length ≥ 1048576 then
      throw (.message "Message channel queue exceeds its limit")
    else do
      let clone ← lift (js.structuredClone value)
      modify fun w =>
        { w with
          inbox := Function.update w.inbox peer
            { w.inbox peer with messages := (w.inbox peer).messages ++ [clone] } }
  | .remote channel => do
    let bytes ← lift (js.encode value)
    sendFrame p channel ⟨MESSAGE, bytes⟩ native

/-- What a received frame is to the port. -/
def openFrame (js : JsValues V) (frame : Frame) : M V (Option (MessagePacket V)) :=
  if frame.kind = ONLINE ∨ frame.kind = PORT_CLOSED then
    if frame.payload.length ≠ 0 then
      throw (.message "Worker control frame contains an unexpected payload")
    else return some ⟨frame.kind, js.undefined⟩
  else if frame.kind ≠ MESSAGE ∧ frame.kind ≠ FAILURE then
    throw (.message "Worker channel received an invalid frame kind")
  else do
    let value ← lift (js.decode frame.payload)
    return some ⟨frame.kind, value⟩

def receiveChannel (js : JsValues V) (p : Nat) (native : Native) :
    M V (Option (MessagePacket V)) := do
  let w ← get
  match (w.port p).channel with
  | .localPair inbox _ =>
    match (w.inbox inbox).messages with
    | [] => return none
    | value :: messages => do
      modify fun w =>
        { w with inbox := Function.update w.inbox inbox { w.inbox inbox with messages } }
      return some ⟨MESSAGE, value⟩
  | .remote channel =>
    let (status, channel) := channel.progress native
    modify (setChannel p channel)
    check status
    match channel.message with
    | none => return none
    | some frame => do
      modify (setChannel p channel.consume)
      openFrame js frame

/-! ## The calls -/

def reservePorts (count : Nat) : M V Unit := do
  let w ← get
  if w.ports.length ≥ w.compactionThreshold ∨ w.ports.length > 1048576 - count then
    modify compactPorts
  let w ← get
  if w.ports.length > 1048576 - count then
    throw (.message "Message channel inventory exceeds its limit")

/-- A new port. -/
def World.make (channel : PortTransport) (worker : Bool) (w : World V) : World V :=
  { w with
    port := Function.update w.port w.made (.new channel worker)
    made := w.made + 1
    ports := w.ports ++ [w.made] }

def registerTransport (channel : PortTransport) (worker : Bool) : M V Unit := do
  reservePorts 1
  modify fun w => retainPort w.made (w.make channel worker)

def messageChannelNew : M V Unit := do
  reservePorts 2
  let w ← get
  set { w with
    inbox := Function.update (Function.update w.inbox w.inboxes {}) (w.inboxes + 1) {}
    inboxes := w.inboxes + 2 }
  registerTransport (.localPair w.inboxes (w.inboxes + 1)) false
  registerTransport (.localPair (w.inboxes + 1) w.inboxes) false

def postMessage (js : JsValues V) (p : Nat) (value : V) (native : Native) : M V Unit := do
  let port := (← get).port p
  if port.closing || port.closed || port.peerClosed then pure ()
  else do
    sendValue js p value native
    modify (retainPort p)

def start (p : Nat) (w : World V) : World V :=
  if (w.port p).closed then w
  else retainPort p (w.write p fun port => { port with started := true })

def close (p : Nat) (native : Native) : M V Unit := do
  let port := (← get).port p
  if port.closing || port.closed then pure ()
  else do
    closeData p native
    modify fun w =>
      retainPort p (w.write p fun port => { port with closing := true, closed := true })

def refChain (p : Nat) (w : World V) : World V :=
  retainPort p (w.write p fun port => { port with referenced := true })

def unrefChain (p : Nat) (w : World V) : World V :=
  retainPort p (w.write p fun port => { port with referenced := false })

/-- `on_callable` and `once_callable`, whatever the number of the listener's parameters. -/
def onCallable (p : Nat) (event : String) (callback : Nat) (once : Bool) (w : World V) :
    World V :=
  let listener : Listener := ⟨event, callback, once, w.registrations⟩
  let w := World.write p (fun port => { port with events := port.events ++ [listener] })
    { w with registrations := w.registrations + 1 }
  if event = "message" then refChain p (start p w) else w

/-- The listener that was registered last is removed. -/
def PortState.remove (event : String) (callback : Nat) (port : PortState) : PortState :=
  { port with
    events :=
      (port.events.reverse.eraseP fun l => l.event == event && l.callback == callback).reverse }

def offCallable (p : Nat) (event : String) (callback : Nat) (w : World V) : World V :=
  let w := w.write p (PortState.remove event callback)
  let w :=
    if (w.port p).listenerCount "message" = 0 then
      w.write p fun port => { port with referenced := false }
    else w
  retainPort p w

def receiveMessageOnPort (js : JsValues V) (p : Nat) (native : Native) : M V (Option V) := do
  if ((← get).port p).closed then return none
  else do
    match ← receiveChannel js p native with
    | none => return none
    | some packet =>
      if packet.kind = PORT_CLOSED then do
        modify fun w =>
          retainPort p (w.write p fun port => { port with peerClosed := true, closed := true })
        return none
      else if packet.kind ≠ MESSAGE then do
        modify (World.write p fun port => { port with closed := true })
        modify (closeChannel p)
        modify (retainPort p)
        throw (.message "MessagePort received an invalid protocol frame")
      else return some packet.value

/-! ## One turn of a poll

`_poll_state` stops where it emits an event and goes on behind it, with the
answers of the system of that time. -/

structure Answers where
  /-- For the output a closed port still has. -/
  first : Native := {}
  second : Native := {}
  receive : Native := {}
  /-- The status of `terminate`. -/
  terminate : Status := none
  exitCode : Except Errno (Option Int) := .ok none

/-- Where `_poll_state` stands while the listeners of an event run. -/
inductive Point where
  /-- The failure of a port that was closed before its turn. -/
  | failing
  /-- A failure that ends the turn. -/
  | failed
  | message
  /-- 'online', or the 'error' of a worker. -/
  | plain
  | exit
  | close
  deriving DecidableEq, Repr

/-- How a part of a turn ends: the turn is over, or it stands inside an event. -/
inductive Next where
  | finished (worked : Bool)
  | emit (point : Point) (event : String) (worked : Bool)

/-- The event that is emitted, if one is. -/
def transportFailure (p : Nat) (error : PortError) (a : Answers) : M V (Option String) := do
  modify (World.write p fun port => { port with closed := true })
  modify (closeChannel p)
  let port := (← get).port p
  if port.worker then do
    check a.terminate
    if port.terminating then return none
    else if port.listenerCount "error" = 0 then throw error
    else return some "error"
  else return some "messageerror"

/-- A failure inside the turn of an open port. -/
def pollFailure (p : Nat) (error : PortError) (a : Answers) : M V Next := do
  match ← transportFailure p error a with
  | none => return .finished true
  | some event => return .emit .failed event true

/-- The end of a turn: 'exit' or 'close'. -/
def pollExit (p : Nat) (a : Answers) (worked : Bool) : M V Next := do
  let port := (← get).port p
  if port.worker && !port.exited then do
    let code ← lift (a.exitCode.mapError .native)
    if code.isSome then modify (World.write p fun port => { port with exitCode := code })
    let port := (← get).port p
    if port.closed && port.exitCode.isSome then do
      modify (World.write p fun port => { port with exited := true })
      return .emit .exit "exit" true
    else return .finished worked
  else if !port.worker && port.closed && !port.closeEmitted then do
    modify fun w => { w with closes := p :: w.closes }
    modify (World.write p fun port => { port with closeEmitted := true })
    return .emit .close "close" true
  else return .finished worked

/-- Behind what was received. -/
def pollReceived (p : Nat) (a : Answers) (worked : Bool) : M V Next := do
  if (← get).channelClosed p then modify (World.write p fun port => { port with closed := true })
  pollExit p a worked

/-- What a received packet does. -/
def deliver (js : JsValues V) (p : Nat) (packet : MessagePacket V) (a : Answers) : M V Next := do
  let port := (← get).port p
  if packet.kind = MESSAGE then return .emit .message "message" true
  else if packet.kind = ONLINE ∧ port.worker ∧ ¬ port.online then do
    modify (World.write p fun port => { port with online := true })
    return .emit .plain "online" true
  else if packet.kind = PORT_CLOSED then do
    modify (World.write p fun port =>
      { port with peerClosed := true, closed := port.closed || !port.worker })
    pollReceived p a true
  else if packet.kind = FAILURE ∧ port.worker then
    match js.stringValue packet.value with
    | none => pollFailure p (.message "Worker failure frame has no message") a
    | some text => do
      let text ← lift text
      if port.listenerCount "error" = 0 then throw (.message text)
      else return .emit .plain "error" true
  else pollFailure p (.message "Worker channel received an invalid protocol frame") a

def pollOpen (js : JsValues V) (p : Nat) (a : Answers) : M V Next := do
  if ((← get).port p).closed then pollExit p a false
  else do
    match ← attempt (progressChannel p a.second) with
    | .error error => pollFailure p error a
    | .ok _ =>
      let port := (← get).port p
      if port.closing && !port.pending then do
        modify (closeChannel p)
        modify (World.write p fun port => { port with closed := true })
        pollReceived p a false
      else if port.started then do
        match ← attempt (receiveChannel js p a.receive) with
        | .error error => pollFailure p error a
        | .ok none => pollReceived p a false
        | .ok (some packet) => deliver js p packet a
      else pollReceived p a false

def pollState (js : JsValues V) (p : Nat) (a : Answers) : M V Next := do
  let port := (← get).port p
  if port.pending && port.closed then do
    match ← attempt (progressChannel p a.first) with
    | .ok _ => pollOpen js p a
    | .error error =>
      match ← transportFailure p error a with
      | none => pollOpen js p a
      | some event => return .emit .failing event false
  else pollOpen js p a

/-- What happens when the listeners of an event are through: the `finally` of the event, and the
rest of the turn. -/
def Point.finally_ (p : Nat) : Point → World V → World V
  | .message, w =>
    if !(w.port p).worker && (w.port p).listenerCount "message" == 0 then
      w.write p fun port => { port with referenced := false }
    else w
  | .exit, w | .close, w => w.write p fun port => { port with events := [] }
  | .failing, w | .failed, w | .plain, w => w

def Point.resume (js : JsValues V) (p : Nat) (a : Answers) (worked : Bool) : Point → M V Next
  | .failing => pollOpen js p a
  | .failed | .exit | .close => return .finished worked
  | .message | .plain => pollReceived p a worked

/-! ## Polls -/

/-- An event of a port, with the listeners that are still to be called. -/
structure Emission where
  port : Nat
  point : Point
  listeners : List Listener
  worked : Bool

/-- A call of `poll_worker_threads`. -/
structure Poll where
  snapshot : List Nat
  emission : Option Emission
  worked : Bool

structure System (V : Type) where
  world : World V
  /-- The innermost first. -/
  polls : List Poll

inductive Label (V : Type) where
  | messageChannel
  | register (channel : Channel) (worker : Bool)
  | postMessage (p : Nat) (value : V) (native : Native)
  | receiveMessageOnPort (p : Nat) (native : Native)
  | start (p : Nat)
  | close (p : Nat) (native : Native)
  | ref (p : Nat)
  | unref (p : Nat)
  | on (p : Nat) (event : String) (callback : Nat) (once : Bool)
  | off (p : Nat) (event : String) (callback : Nat)
  /-- `Worker.terminate` up to its wait. -/
  | terminate (p : Nat)
  /-- The last handle of a port is dropped. -/
  | drop (p : Nat)
  | poll
  /-- The innermost poll goes on: it calls the next listener of its event, or takes the next part
  of its turn. -/
  | go (answers : Answers)
  /-- A listener of the innermost poll's event raises. -/
  | raise

namespace System

def noPort : PortState := { PortState.new (.localPair 0 0) false with alive := false }

def new : System V where
  world :=
    { port := fun _ => noPort
      made := 0
      inbox := fun _ => {}
      inboxes := 0
      ports := []
      retained := []
      compactionThreshold := 1024
      registrations := 0
      consumed := []
      closes := [] }
  polls := []

/-- An emission takes a snapshot of its listeners. -/
def emission (p : Nat) (w : World V) (point : Point) (event : String) (worked : Bool) : Emission :=
  ⟨p, point, (w.port p).events.filter (·.event == event), worked⟩

/-- After a part of the turn of `p`: inside an event, behind the turn, or out of the poll. -/
def settle (p : Nat) (poll : Poll) (polls : List Poll) : EStateM.Result PortError (World V) Next →
    System V
  | .ok (.emit point event worked) w =>
    ⟨w, { poll with emission := some (emission p w point event worked) } :: polls⟩
  | .ok (.finished worked) w =>
    ⟨retainPort p w, { poll with emission := none, worked := worked || poll.worked } :: polls⟩
  | .error _ w => ⟨retainPort p w, polls⟩

/-- Before a listener of `once` is called it is removed; if it was used, it is passed over. -/
def take (listener : Listener) (p : Nat) (w : World V) : World V :=
  if listener.once ∧ listener.identity ∉ w.consumed then
    World.write p
      (fun port => { port with events := port.events.filter (·.identity ≠ listener.identity) })
      { w with consumed := listener.identity :: w.consumed }
  else w

def go (js : JsValues V) (a : Answers) (s : System V) : System V :=
  match s.polls with
  | [] => s
  | poll :: polls =>
    match poll.emission with
    | some e =>
      match e.listeners with
      | listener :: listeners =>
        ⟨take listener e.port s.world,
          { poll with emission := some { e with listeners } } :: polls⟩
      | [] =>
        settle e.port poll polls
          (e.point.resume js e.port a e.worked (e.point.finally_ e.port s.world))
    | none =>
      match poll.snapshot with
      | [] => ⟨compactPorts s.world, polls⟩
      | p :: snapshot =>
        let poll := { poll with snapshot }
        if (s.world.port p).alive then settle p poll polls (pollState js p a s.world)
        else ⟨s.world, poll :: polls⟩

def raise (s : System V) : System V :=
  match s.polls with
  | ⟨_, some e, _⟩ :: polls => ⟨retainPort e.port (e.point.finally_ e.port s.world), polls⟩
  | _ => s

/-- A turn of some poll is at this port. -/
def polled (s : System V) (p : Nat) : Prop := ∃ poll ∈ s.polls, ∃ e ∈ poll.emission, e.port = p

instance (s : System V) (p : Nat) : Decidable (s.polled p) := by
  unfold polled; infer_instance

/-- A call on a port that is still there. -/
def call (s : System V) (p : Nat) (f : World V → World V) : System V :=
  if (s.world.port p).alive then { s with world := f s.world } else s

def step (js : JsValues V) (s : System V) : Label V → System V
  | .messageChannel => { s with world := finalState (messageChannelNew s.world) }
  | .register channel worker =>
    { s with world := finalState (registerTransport (.remote channel) worker s.world) }
  | .postMessage p value native => s.call p fun w => finalState (Ports.postMessage js p value native w)
  | .receiveMessageOnPort p native =>
    s.call p fun w => finalState (Ports.receiveMessageOnPort js p native w)
  | .start p => s.call p (Ports.start p)
  | .close p native => s.call p fun w => finalState (Ports.close p native w)
  | .ref p => s.call p (refChain p)
  | .unref p => s.call p (unrefChain p)
  | .on p event callback once => s.call p (onCallable p event callback once)
  | .off p event callback => s.call p (offCallable p event callback)
  | .terminate p => s.call p (World.write p fun port => { port with terminating := true })
  | .drop p =>
    if p ∈ s.world.retained ∨ s.polled p then s
    else
      s.call p fun w => (closeChannel p w).write p fun port => { port with alive := false }
  | .poll => { s with polls := ⟨s.world.ports, none, false⟩ :: s.polls }
  | .go a => s.go js a
  | .raise => s.raise

end System

end Ports

end TsonicNode.Worker
