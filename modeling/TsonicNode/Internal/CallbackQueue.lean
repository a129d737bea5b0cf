import TsonicNode.Runtime
import Mathlib.Data.Finset.Card

/-!
# The callback queue

A queue of callbacks with a limit. A callback is committed against a
reservation, and a reservation counts against the limit until it is committed
or dropped. `poll` takes the whole pending list as a batch and runs it; a
callback that raises ends the batch, and the callbacks behind it go back in
front of what was committed in the meantime.

Reservations are shared objects with an `active` flag. `active` below is the
set of the reservations whose flag is set and whose last owner still lives.
-/

namespace TsonicNode.Internal

open TsonicNode.Lib

abbrev ReservationId := Nat

structure QueueState (N : Type) where
  pending : List N
  /-- Every queue is built with a positive constant. -/
  limit : Nat
  committed : Int
  reserved : Int
  polling : Bool
  /-- The reservations that are neither consumed nor dropped. -/
  active : Finset ReservationId
  /-- How many reservations have been made. -/
  allocated : Nat

namespace QueueState

variable {N A : Type}

abbrev M (N : Type) := EStateM Error (QueueState N)

def new (limit : Nat) : QueueState N := ⟨[], limit, 0, 0, false, ∅, 0⟩

def requireCapacity : M N Unit := do
  let queue ← get
  if queue.committed + queue.reserved ≥ queue.limit then
    throw ⟨"Pending callbacks exceed the finite runtime limit"⟩
  else
    pure ()

def reserve : M N ReservationId := do
  requireCapacity
  let reservation := (← get).allocated
  modify fun queue =>
    { queue with
      active := insert reservation queue.active
      allocated := queue.allocated + 1
      reserved := queue.reserved + 1 }
  return reservation

def commit (reservation : ReservationId) (callback : N) : M N Unit := do
  if reservation ∈ (← get).active then
    modify fun queue =>
      { queue with
        active := queue.active.erase reservation
        reserved := queue.reserved - 1
        committed := queue.committed + 1
        pending := queue.pending ++ [callback] }
  else
    throw ⟨"Callback reservation was already consumed"⟩

/-- The last owner of a reservation lets go of it. -/
def drop (reservation : ReservationId) : M N Unit := do
  if reservation ∈ (← get).active then
    modify fun queue =>
      { queue with
        active := queue.active.erase reservation
        reserved := queue.reserved - 1 }
  else
    pure ()

/-- Commit a callback bound to its arguments. -/
def commitInvocation (reservation : ReservationId) (callback : A → N) (arguments : A) : M N Unit :=
  commit reservation (callback arguments)

def hasPending (queue : QueueState N) : Bool := queue.pending.length != 0

def pendingCount (queue : QueueState N) : Nat := queue.pending.length

def push (notification : N) : M N Unit := do
  commit (← reserve) notification

def defer (callback : A → N) (arguments : A) : M N Unit := do
  commitInvocation (← reserve) callback arguments

/-- The loop over a batch. A callback `n` acts on the queue as `call n`. -/
def runBatch (call : N → M N Unit) : List N → M N Unit
  | [] => pure ()
  | n :: rest => do
    modify fun queue => { queue with committed := queue.committed - 1 }
    try call n
    catch error =>
      modify fun queue => { queue with pending := rest ++ queue.pending }
      throw error
    runBatch call rest

def pollBatch (call : N → M N Unit) : M N Unit := do
  let batch := (← get).pending
  modify fun queue => { queue with pending := [] }
  runBatch call batch

def poll (call : N → M N Unit) : M N Bool := do
  if (← get).polling || !(← get).hasPending then
    return false
  else
    modify fun queue => { queue with polling := true }
    try pollBatch call
    finally modify fun queue => { queue with polling := false }
    return true

end QueueState

end TsonicNode.Internal
