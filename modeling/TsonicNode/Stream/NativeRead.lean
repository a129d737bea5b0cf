import TsonicNode.Net.Endpoint
import TsonicNode.Lib.Totals

/-!
# Reads in the background

`TsonicStreamRead`. A job is one call of `tsonic_node_stream_read_start` with the
request that it makes; three parties work on it, the call, the side that
completes it (the loop or a worker) and the owner of the handle. A move lets one
of them go on by one step: one access to something shared, or one call of the
system with its answer. `log` keeps what the job took and gave back.
-/

namespace TsonicNode.Stream.NativeRead

open TsonicNode.Lib
open TsonicNode.Net.Native (Errno eIntr uvTranslateSysError uvENoBufs uvECanceled)

/-! ## Limits -/

def streamReadLimit : Nat := 256

def streamReadBytes : Nat := 64 * 1024 * 1024

def streamReadChunk : Nat := 1024 * 1024

def streamWaitWorkers : Nat := 32

/-- `EAGAIN`, which is also `EWOULDBLOCK`. -/
def eAgain : Nat := 11

def uvEBadF : Int := -9

def uvENoMem : Int := -12

/-- The counters that all requests share. -/
inductive Counter
  | liveReads
  | liveBytes
  | waitingWorkers
  deriving DecidableEq

/-- `atomic_uint` or `atomic_size_t`. -/
def Counter.width : Counter → Nat
  | .liveBytes => 18446744073709551616
  | _ => 4294967296

def Counter.limit : Counter → Nat
  | .liveReads => streamReadLimit
  | .liveBytes => streamReadBytes
  | .waitingWorkers => streamWaitWorkers

/-! ## Requests -/

/-- What a job takes: a share of a counter, a descriptor, memory. -/
inductive Thing
  | counted (counter : Counter)
  | descriptor
  | buffer
  | request
  deriving DecidableEq

/-- The two sides that a request counts references for. -/
inductive Side
  | completing
  | owning
  deriving DecidableEq

inductive Event
  /-- Taken, and whether within the limit. -/
  | took (thing : Thing) (within : Bool)
  | gave (thing : Thing)
  /-- The reference of a side was dropped. -/
  | letGo (side : Side)
  deriving DecidableEq

structure Arguments where
  /-- `error` is not `NULL`. -/
  error : Bool
  descriptor : Int
  size : Nat
  offset : Int
  positioned : Bool

/-- What `tsonic_node_stream_read_start` checks first. -/
def Arguments.accepted (arguments : Arguments) : Bool :=
  arguments.error && 0 ≤ arguments.descriptor && arguments.size != 0 && arguments.size ≤ streamReadChunk &&
    !(arguments.positioned && arguments.offset < 0)

/-- Where a side is in `release_read`. -/
inductive Release
  | references
  | liveBytes
  | liveReads
  | bytes
  | request
  /-- It returned, and whether the memory was freed. -/
  | gone (last : Bool)
  deriving DecidableEq

def Release.through : Release → Bool
  | .gone _ => true
  | _ => false

/-- Where the completing side is: the loop, or a worker in `read_waiting_descriptor`, and then `finish_read`. -/
inductive Completer
  | queued
  | flags
  | checking (waitFirst : Bool)
  | polling
  | rechecking (waitFirst : Bool)
  | reading (waitFirst : Bool)
  | leaving (selected : Int)
  | closing (result : Int)
  | readying
  | counting
  | releasing (release : Release)

/-- Where the owner is. -/
inductive Owner
  /-- The start holds the mutex, its read was queued. -/
  | starting
  | holding
  | locking
  | cancelling
  | unlocking
  | releasing (release : Release)

/-- Where a job is. -/
inductive Phase
  | takeReads
  | takeBytes
  | giveBytes
  | giveReads
  | allocate
  | duplicate
  | allocateBytes
  | inspect
  | lock
  | submit
  | unlock
  | takeWorker
  | giveWorker
  | create
  | close
  /-- Before there was a request, the start gave up. -/
  | refused
  /-- The start drops both references. -/
  | failing (first second : Release)
  /-- The request has two sides. -/
  | shared (completer : Completer) (owner : Owner)

/-- `TsonicStreamRead`, with the call that makes it. -/
structure Job where
  arguments : Arguments
  accepted : arguments.accepted = true
  phase : Phase := .takeReads
  /-- `*error` of the start. -/
  error : Int := 0
  references : Nat := 2
  ready : Bool := false
  cancelled : Bool := false
  /-- `descriptor` is not negative. -/
  descriptor : Bool := false
  /-- `bytes` is not `NULL`. -/
  bytes : Bool := false
  result : Int := 0
  workerRead : Bool := false
  log : List Event := []

namespace Job

def note (job : Job) (event : Event) : Job := { job with log := job.log ++ [event] }

/-- How much of a counter the job takes. -/
def worth (job : Job) : Counter → Nat
  | .liveBytes => job.arguments.size
  | _ => 1

end Job

/-- Who has `stream_mutex`. -/
inductive Holder
  | start (index : Nat)
  | owner (index : Nat)
  /-- `uv_run`, and the job whose callback runs. -/
  | loop (index : Option Nat)
  deriving DecidableEq

structure Shared where
  counters : Counter → Nat := fun _ => 0
  completedReads : Nat := 0
  mutex : Option Holder := none

namespace Shared

def fetchAdd (shared : Shared) (counter : Counter) (amount : Nat) : Shared :=
  { shared with
    counters := fun other =>
      if other = counter then (shared.counters other + amount) % counter.width else shared.counters other }

def fetchSub (shared : Shared) (counter : Counter) (amount : Nat) : Shared :=
  { shared with
    counters := fun other =>
      if other = counter then (shared.counters other + counter.width - amount) % counter.width
      else shared.counters other }

end Shared

/-- A job and what it shares with the others. -/
structure View where
  shared : Shared
  job : Job

namespace View

def note (view : View) (event : Event) : View := { view with job := view.job.note event }

def goto (view : View) (phase : Phase) : View := { view with job := { view.job with phase } }

def fail (view : View) (error : Int) : View := { view with job := { view.job with error } }

def setDescriptor (view : View) (descriptor : Bool) : View := { view with job := { view.job with descriptor } }

def setBytes (view : View) (bytes : Bool) : View := { view with job := { view.job with bytes } }

def hold (view : View) (mutex : Option Holder) : View := { view with shared := { view.shared with mutex } }

def fetchAdd (view : View) (counter : Counter) (within : Bool) : View :=
  { view with shared := view.shared.fetchAdd counter (view.job.worth counter) }.note
    (.took (.counted counter) within)

def fetchSub (view : View) (counter : Counter) : View :=
  { view with shared := view.shared.fetchSub counter (view.job.worth counter) }.note (.gave (.counted counter))

/-- One step of `release_read`. -/
def releaseRead (view : View) (side : Side) : Release → View × Release
  | .references =>
    let released := { view with job := { view.job with references := view.job.references - 1 } }
    (released.note (.letGo side), if view.job.references = 1 then .liveBytes else .gone false)
  | .liveBytes => (view.fetchSub .liveBytes, .liveReads)
  | .liveReads => (view.fetchSub .liveReads, .bytes)
  | .bytes => (if view.job.bytes then view.note (.gave .buffer) else view, .request)
  | .request => (view.note (.gave .request), .gone true)
  | .gone last => (view, .gone last)

end View

/-! ## Steps -/

inductive Polled
  | failed (errno : Errno)
  | nothing
  /-- `POLLNVAL`. -/
  | invalid
  | ready

/-- What the system answers to the call that a step makes. -/
structure Answer where
  allocated : Bool
  duplicated : Option Errno
  /-- `fstat`, and whether it is a regular file. -/
  inspected : Except Errno Bool
  /-- `uv_fs_read`. -/
  submitted : Option Errno
  /-- `pthread_create` and the calls before it. -/
  created : Option Errno
  /-- `F_GETFL`, and whether the descriptor is only for writes. -/
  flags : Except Errno Bool
  polled : Polled
  /-- `pread` or `read`. -/
  received : Except Errno Nat
  /-- What the loop gives `complete_read`. -/
  completed : Int

/-- One step of `tsonic_node_stream_read_start`, with `start_waiting_read`. -/
def startStep (index : Nat) (answer : Answer) (view : View) : View :=
  match view.job.phase with
  | .takeReads =>
    if view.shared.counters .liveReads < streamReadLimit then (view.fetchAdd .liveReads true).goto .takeBytes
    else ((view.fetchAdd .liveReads false).fail uvENoBufs).goto .giveReads
  | .takeBytes =>
    if view.shared.counters .liveBytes ≤ streamReadBytes - view.job.arguments.size then
      (view.fetchAdd .liveBytes true).goto .allocate
    else ((view.fetchAdd .liveBytes false).fail uvENoBufs).goto .giveBytes
  | .giveBytes => (view.fetchSub .liveBytes).goto .giveReads
  | .giveReads => (view.fetchSub .liveReads).goto .refused
  | .allocate =>
    if answer.allocated then (view.note (.took .request true)).goto .duplicate
    else (view.fail uvENoMem).goto .giveBytes
  | .duplicate =>
    match answer.duplicated with
    | none => ((view.note (.took .descriptor true)).setDescriptor true).goto .allocateBytes
    | some errno => ((view.fail (uvTranslateSysError errno)).setDescriptor false).goto .allocateBytes
  | .allocateBytes =>
    let view := if answer.allocated then (view.note (.took .buffer true)).setBytes true else view.setBytes false
    if view.job.descriptor then
      if view.job.bytes then view.goto .inspect else (view.fail uvENoMem).goto .close
    else view.goto (.failing .references .references)
  | .inspect =>
    match answer.inspected with
    | .error errno => (view.fail (uvTranslateSysError errno)).goto .close
    | .ok true => view.goto .lock
    | .ok false => { view with job := { view.job with workerRead := true } }.goto .takeWorker
  | .lock => if view.shared.mutex = none then (view.hold (some (.start index))).goto .submit else view
  | .submit =>
    match answer.submitted with
    | none => view.goto (.shared .queued .starting)
    | some errno => (view.fail (uvTranslateSysError errno)).goto .unlock
  | .unlock => (view.hold none).goto .close
  | .takeWorker =>
    if view.shared.counters .waitingWorkers < streamWaitWorkers then
      (view.fetchAdd .waitingWorkers true).goto .create
    else ((view.fetchAdd .waitingWorkers false).fail uvENoBufs).goto .giveWorker
  | .create =>
    match answer.created with
    | none => view.goto (.shared .flags .holding)
    | some errno => (view.fail (uvTranslateSysError errno)).goto .giveWorker
  | .giveWorker => (view.fetchSub .waitingWorkers).goto .close
  | .close => (view.note (.gave .descriptor)).goto (.failing .references .references)
  | .failing (.gone last) second =>
    let (view, second) := view.releaseRead .owning second
    view.goto (.failing (.gone last) second)
  | .failing first second =>
    let (view, first) := view.releaseRead .completing first
    view.goto (.failing first second)
  | .shared completer .starting => (view.hold none).goto (.shared completer .holding)
  | .shared _ _ | .refused => view

/-- One step of the completing side. -/
def completeStep (index : Nat) (answer : Answer) (view : View) : View :=
  match view.job.phase with
  | .shared completer owner =>
    let next (view : View) (completer : Completer) : View := view.goto (.shared completer owner)
    match completer with
    | .queued =>
      if view.shared.mutex = some (.loop none) then
        next (view.hold (some (.loop (some index)))) (.closing answer.completed)
      else view
    | .flags =>
      match answer.flags with
      | .error errno => next view (.leaving (uvTranslateSysError errno))
      | .ok true => next view (.leaving uvEBadF)
      | .ok false => next view (.checking (!view.job.arguments.positioned))
    | .checking waitFirst =>
      if view.job.cancelled then next view (.leaving uvECanceled)
      else if waitFirst then next view .polling
      else next view (.rechecking waitFirst)
    | .polling =>
      match answer.polled with
      | .nothing => next view (.checking true)
      | .failed errno =>
        if errno.value = eIntr then next view (.checking true)
        else next view (.leaving (uvTranslateSysError errno))
      | .invalid => next view (.leaving uvEBadF)
      | .ready => next view (.rechecking true)
    | .rechecking waitFirst =>
      if view.job.cancelled then next view (.checking waitFirst) else next view (.reading waitFirst)
    | .reading waitFirst =>
      match answer.received with
      | .error errno =>
        if errno.value = eIntr then next view (.checking waitFirst)
        else if errno.value = eAgain then next view (.checking true)
        else next view (.leaving (uvTranslateSysError errno))
      | .ok count => next view (.leaving count)
    | .leaving selected => next (view.fetchSub .waitingWorkers) (.closing selected)
    | .closing result =>
      let view := { view with job := { view.job with result } }
      next ((view.note (.gave .descriptor)).setDescriptor false) .readying
    | .readying => next { view with job := { view.job with ready := true } } .counting
    | .counting =>
      next { view with shared := { view.shared with completedReads := view.shared.completedReads + 1 } }
        (.releasing .references)
    | .releasing release =>
      let (view, release) := view.releaseRead .completing release
      -- The callback returns to the loop.
      let returns := release.through && view.shared.mutex == some (.loop (some index))
      next (if returns then view.hold (some (.loop none)) else view) (.releasing release)
  | _ => view

/-- One step of `tsonic_node_stream_read_drop`, which the owner of the handle calls once. -/
def dropStep (index : Nat) (view : View) : View :=
  match view.job.phase with
  | .shared completer owner =>
    let next (view : View) (owner : Owner) : View := view.goto (.shared completer owner)
    match owner with
    | .starting => view
    | .holding => next { view with job := { view.job with cancelled := true } } .locking
    | .locking =>
      if view.shared.mutex = none then next (view.hold (some (.owner index))) .cancelling else view
    -- `uv_cancel`, of a queued read that is not ready, only settles what the loop will answer.
    | .cancelling => next view .unlocking
    | .unlocking => next (view.hold none) (.releasing .references)
    | .releasing release =>
      let (view, release) := view.releaseRead .owning release
      next view (.releasing release)
  | _ => view

/-! ## Runs -/

structure State where
  /-- `stream_status`, from the first call on. -/
  status : Int := 0
  shared : Shared := {}
  jobs : List Job := []

/-- The thread of the start is still in it. -/
def Phase.underway : Phase → Bool
  | .refused | .failing _ (.gone _) => false
  | .shared _ owner => match owner with
    | .starting => true
    | _ => false
  | _ => true

def Job.calls (job : Job) : Nat := if job.phase.underway then 1 else 0

/-- A `pid_t` tells no more threads apart. -/
def threads : Nat := 2147483648

inductive Move
  | call (arguments : Arguments)
  | start (index : Nat) (answer : Answer)
  | complete (index : Nat) (answer : Answer)
  | drop (index : Nat)
  /-- `uv_run` begins and ends, in `tsonic_node_stream_read_poll` or `_wait`. -/
  | lockLoop
  | unlockLoop

namespace State

/-- Lets a party of a job go on. -/
def advance (state : State) (index : Nat) (work : View → View) : State :=
  match state.jobs[index]? with
  | some job =>
    let view := work { shared := state.shared, job }
    { state with shared := view.shared, jobs := state.jobs.set index view.job }
  | none => state

def hold (state : State) (mutex : Option Holder) : State := { state with shared := { state.shared with mutex } }

def step (state : State) : Move → State
  | .call arguments =>
    if accepted : arguments.accepted = true then
      -- Every call is made by a thread of its own.
      if state.status = 0 ∧ total Job.calls state.jobs < threads then
        { state with jobs := state.jobs ++ [{ arguments, accepted }] }
      else state
    else state
  | .start index answer => state.advance index (startStep index answer)
  | .complete index answer => state.advance index (completeStep index answer)
  | .drop index => state.advance index (dropStep index)
  | .lockLoop => if state.status = 0 ∧ state.shared.mutex = none then state.hold (some (.loop none)) else state
  | .unlockLoop => if state.shared.mutex = some (.loop none) then state.hold none else state

end State

end TsonicNode.Stream.NativeRead
