import TsonicNode.Lib.Framing
import Mathlib.Algebra.BigOperators.Group.List.Basic

/-!
# The worker channel

One end of a worker's frame channel: a queue of outgoing frames, each with the
part already written, and the frame being received, header first. `send` queues
a frame, `progress` moves bytes over the socket, `message` and `consume` take a
received frame.

Each system call answers by the next `Outcome` of the socket's plan; past the
end of the plan it would block. `size_t` counters are numbers modulo 2^64.
-/

namespace TsonicNode.Worker

open TsonicNode.Lib

abbrev Byte := UInt8

inductive Errno where
  | EPIPE
  | EMSGSIZE
  | ENOBUFS
  | ENOMEM
  | EBADF
  | EPROTO
  /-- What a system call reports. -/
  | other (code : Nat)
  deriving DecidableEq, Repr

/-- A C status: 0 or an error number. -/
abbrev Status := Option Errno

def frameLimit : Nat := 16 * 1024 * 1024 + 1

def queueLimit : Nat := 64 * 1024 * 1024

def sizeModulus : Nat := 18446744073709551616

def sizeAdd (a b : Nat) : Nat := (a + b) % sizeModulus

def sizeSub (a b : Nat) : Nat := (a + (sizeModulus - b % sizeModulus)) % sizeModulus

theorem sizeAdd_eq {a b : Nat} (h : a + b < sizeModulus) : sizeAdd a b = a + b :=
  Nat.mod_eq_of_lt h

theorem sizeSub_eq {a b : Nat} (hb : b ≤ a) (ha : a < sizeModulus) : sizeSub a b = a - b := by
  unfold sizeSub
  rw [Nat.mod_eq_of_lt (Nat.lt_of_le_of_lt hb ha)]
  have : a + (sizeModulus - b) = a - b + sizeModulus := by omega
  rw [this, Nat.add_mod_right]
  exact Nat.mod_eq_of_lt (by omega)

/-! ## Frames -/

/-- What a caller sends and receives. -/
structure Frame where
  kind : Byte
  payload : List Byte
  deriving DecidableEq, Repr

/-- The four bytes of a header, for the length of what follows it. -/
def headerBytes (payload : Nat) : List Byte :=
  (List.range 4).map fun index => UInt8.ofNat (payload >>> (index * 8))

/-- The length a header announces. -/
def headerLength (header : List Byte) : Nat :=
  (List.range 4).foldl
    (fun length index => length ||| (header.getD index 0).toNat <<< (index * 8)) 0

/-- The bytes of a frame on the wire. -/
def Frame.bytes (frame : Frame) : List Byte :=
  headerBytes ((frame.payload.length + 1) % 4294967296) ++ frame.kind :: frame.payload

/-- A queued frame: the first `offset` bytes are written. -/
structure Outgoing where
  bytes : List Byte
  offset : Nat
  bound : offset ≤ bytes.length

def Outgoing.remaining (frame : Outgoing) : Nat := frame.bytes.length - frame.offset

def Outgoing.unsent (frame : Outgoing) : List Byte := frame.bytes.drop frame.offset

def Outgoing.advance (frame : Outgoing) (written : Nat) (h : written ≤ frame.remaining) :
    Outgoing where
  bytes := frame.bytes
  offset := frame.offset + written
  bound := by
    have := frame.bound
    unfold remaining at h
    omega

/-- A frame being received: `bytes` are there, of `length` to come. -/
structure Incoming where
  length : Nat
  bytes : List Byte
  bound : bytes.length ≤ length

def Incoming.missing (frame : Incoming) : Nat := frame.length - frame.bytes.length

def Incoming.complete (frame : Incoming) : Bool := frame.bytes.length == frame.length

def Incoming.receive (frame : Incoming) (data : List Byte) (h : data.length ≤ frame.missing) :
    Incoming where
  length := frame.length
  bytes := frame.bytes ++ data
  bound := by
    have := frame.bound
    unfold missing at h
    rw [List.length_append]
    omega

structure Channel where
  /-- `descriptor >= 0`. -/
  isOpen : Bool
  failure : Status
  writeFailure : Status
  eof : Bool
  /-- The list from `out_first` on. -/
  out : List Outgoing
  outBytes : Nat
  incoming : Option Incoming
  /-- The first `header_size` bytes of the header. -/
  header : List Byte

def Channel.new : Channel := ⟨true, none, none, false, [], 0, none, []⟩

/-! ## The socket -/

/-- How the system answers one call of `recv` or `send`. -/
inductive Outcome where
  /-- It moves `count + 1` bytes, or as many as are wanted and there; `memory` says whether an
  allocation that follows succeeds. -/
  | moved (count : Nat) (memory : Bool)
  /-- `EINTR`. -/
  | interrupted
  /-- `EAGAIN`. -/
  | again
  /-- The peer has closed its end. -/
  | closed
  | failed (errno : Errno)
  deriving DecidableEq, Repr

/-- A channel inside a call, with what its socket has moved. -/
structure Call where
  channel : Channel
  /-- What the peer has written and this end has not read. -/
  arrived : List Byte
  received : List Byte
  sent : List Byte
  /-- `recv` has answered 0. -/
  ended : Bool := false

namespace Call

/-- What the system's answer to `recv` says of the stream. -/
def answered (c : Call) : Outcome → Call
  | .closed => { c with ended := true }
  | _ => c

def fail (c : Call) (status : Errno) : Call :=
  { c with channel := { c.channel with failure := some status } }

def discardOutput (c : Call) : Call :=
  { c with channel := { c.channel with out := [], outBytes := 0 } }

def failWrite (c : Call) (status : Errno) : Call :=
  discardOutput { c with channel := { c.channel with writeFailure := some status } }

/-- How many bytes `recv` is asked for. -/
def wanted (c : Call) : Nat :=
  min (64 * 1024) <|
    match c.channel.incoming with
    | none => 4 - c.channel.header.length
    | some frame => frame.missing

/-- Store what `recv` has put behind the bytes that were there. -/
def store (c : Call) (data : List Byte) (h : data.length ≤ c.wanted) (memory : Bool) :
    Option Status × Call :=
  let moved := { c with
    arrived := c.arrived.drop data.length
    received := c.received ++ data }
  match hframe : c.channel.incoming with
  | some frame =>
    have hmissing : data.length ≤ frame.missing := by
      simp only [wanted, hframe] at h
      omega
    (none, { moved with
      channel := { c.channel with incoming := some (frame.receive data hmissing) } })
  | none =>
    let header := c.channel.header ++ data
    let moved := { moved with channel := { c.channel with header } }
    if header.length = 4 then
      let length := headerLength header
      if length = 0 ∨ length > frameLimit then (some (some .EMSGSIZE), moved.fail .EMSGSIZE)
      else if memory then
        (none, { moved with
          channel := { c.channel with incoming := some ⟨length, [], Nat.zero_le _⟩, header := [] } })
      else (some (some .ENOMEM), moved.fail .ENOMEM)
    else (none, moved)

/-- One turn of `read_pending`: the status to return with, if it is the last. -/
def readTurn (c : Call) : Outcome → Option Status × Call
  | .interrupted => (none, c)
  | .again => (some none, c)
  | .failed errno => (some (some errno), c.fail errno)
  | .closed =>
    let c := { c with channel := { c.channel with eof := true } }
    if c.channel.header ≠ [] ∨ c.channel.incoming.isSome then
      (some (some .EPROTO), c.fail .EPROTO)
    else (some none, c)
  | .moved count memory =>
    -- nothing there is `EAGAIN`
    if c.arrived = [] then (some none, c)
    else
      c.store (c.arrived.take (min (count + 1) c.wanted))
        (by rw [List.length_take]; omega) memory

/-- The turns of `read_pending`, with the plan left for the writing. -/
def readTurns : Nat → List Outcome → Call → Status × List Outcome × Call
  | 0, plan, c => (none, plan, c)
  | turns + 1, plan, c =>
    if c.channel.incoming.any Incoming.complete then (none, plan, c)
    else
      match (c.answered (plan.headD .again)).readTurn (plan.headD .again) with
      | (some status, c) => (status, plan.tail, c)
      | (none, c) => readTurns turns plan.tail c

def readPending (plan : List Outcome) (c : Call) : Status × List Outcome × Call :=
  if c.channel.eof then (none, plan, c) else readTurns 8 plan c

/-- One turn of `write_pending` on the first frame: the budget left, unless it is the last. -/
def writeTurn (c : Call) (frame : Outgoing) (rest : List Outgoing) (budget : Nat) :
    Outcome → Option Nat × Call
  | .interrupted => (some budget, c)
  | .again => (none, c)
  | .failed errno => (none, c.failWrite errno)
  | .closed => (none, c.failWrite .EPIPE)
  | .moved count _ =>
    let written := min (count + 1) (min frame.remaining budget)
    let advanced := frame.advance written (by omega)
    (some (sizeSub budget written),
      { c with
        channel :=
          { c.channel with
            out := if advanced.offset = advanced.bytes.length then rest else advanced :: rest
            outBytes := sizeSub c.channel.outBytes written }
        sent := c.sent ++ frame.unsent.take written })

/-- The loop of `write_pending`, a turn for each answer of the system. -/
def writeTurns : List Outcome → Nat → Call → Call
  | [], _, c => c
  | outcome :: plan, budget, c =>
    match c.channel.out with
    | [] => c
    | frame :: rest =>
      if budget = 0 then c
      else
        match c.writeTurn frame rest budget outcome with
        | (none, c) => c
        | (some budget, c) => writeTurns plan budget c

def writePending (plan : List Outcome) (c : Call) : Call := writeTurns plan (256 * 1024) c

def progress (plan : List Outcome) (c : Call) : Status × Call :=
  if c.channel.isOpen = false then (some .EBADF, c)
  else if c.channel.failure ≠ none then (c.channel.failure, c)
  else
    match c.readPending plan with
    | (some status, _, c) => (some status, c)
    | (none, plan, c) =>
      let c := if c.channel.eof ∧ c.channel.out ≠ [] then c.failWrite .EPIPE else c
      (none, if ¬ c.channel.eof ∧ c.channel.writeFailure = none then c.writePending plan else c)

end Call

namespace Channel

/-- Why `send` refuses a frame, if it does. -/
def refusal (channel : Channel) (frame : Frame) (memory : Bool) : Status :=
  if channel.isOpen = false ∨ channel.eof then some .EPIPE
  else if channel.failure ≠ none then channel.failure
  else if channel.writeFailure ≠ none then channel.writeFailure
  else if frame.payload.length ≥ frameLimit then some .EMSGSIZE
  else if sizeAdd frame.payload.length 5 > sizeSub queueLimit channel.outBytes then some .ENOBUFS
  else if memory then none
  else some .ENOMEM

def enqueue (channel : Channel) (frame : Frame) : Channel :=
  { channel with
    out := channel.out ++ [⟨frame.bytes, 0, Nat.zero_le _⟩]
    outBytes := sizeAdd channel.outBytes (sizeAdd frame.payload.length 5) }

/-- The received frame, once it is complete. -/
def message (channel : Channel) : Option Frame :=
  match channel.incoming with
  | some frame =>
    if frame.complete then some ⟨frame.bytes.headD 0, frame.bytes.tail⟩ else none
  | none => none

def consume (channel : Channel) : Channel := { channel with incoming := none }

end Channel

/-- `tsonic_node_worker_send`. -/
def Call.send (frame : Frame) (memory : Bool) (plan : List Outcome) (c : Call) : Status × Call :=
  match c.channel.refusal frame memory with
  | some status => (some status, c)
  | none =>
    match Call.progress plan { c with channel := c.channel.enqueue frame } with
    | (some status, c) => (some status, c)
    | (none, c) => (c.channel.writeFailure, c)

end TsonicNode.Worker
