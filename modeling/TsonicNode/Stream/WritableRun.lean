import TsonicNode.Stream.WritablePhase
import TsonicNode.Stream.WritableRefine

/-!
# Runs of a writable stream

`System` is a writable stream over a descriptor, the queue it shares with the
other streams, and a `History` that numbers the callbacks and keeps what was
handed in. A run is a list of labels: operations with the answers of the
system, the steps of a poll (an operation between `start` and `return` is one
of a listener or callback), and what the other streams do with the queue.

`step_outcome` says what one step does to the view, and `step_sound` that the
stream is at rest after every step.
-/

namespace TsonicNode.Stream

open TsonicNode.Lib TsonicNode.Internal

/-! ## The system -/

structure History where
  /-- The number of the next call, and of the callback it may hand in. -/
  next : Nat
  /-- The chunks the stream took, with their callbacks. -/
  accepted : List (List UInt8 × Option WriteCallback)
  /-- The callbacks handed to calls that did not raise. -/
  handed : List WriteCallback
  /-- Those among them that `end` was given before the stream finished, failed or was destroyed. -/
  ending : List WriteCallback
  closeCalled : Bool

structure System where
  world : World
  history : History

/-- What another stream does with the queue. -/
inductive OtherLabel where
  | reserve
  | commit (reservation : ReservationId)
  | drop (reservation : ReservationId)

inductive Label where
  | write (value : List UInt8) (given : Bool) (answers : Answers)
  | «end» (given : Bool) (answers : Answers)
  | endChunk (value : List UInt8) (given : Bool) (answers : Answers)
  | cork
  | uncork (answers : Answers)
  | close (answers : Answers)
  | destroy (error : Option TsError) (answers : Answers)
  | poll
  | start
  | return
  | raise
  | leave
  | other (label : OtherLabel)

namespace History

def new : History := ⟨0, [], [], [], false⟩

/-- The callback of the next call, if it hands one in. -/
def callback (handing : Handing) (given : Bool) (h : History) : Option WriteCallback :=
  if given then some ⟨handing, h.next⟩ else none

/-- A call that raised. -/
def called (h : History) : History := { h with next := h.next + 1 }

/-- A write that returned. -/
def wrote (value : List UInt8) (given : Bool) (state : WritableState) (h : History) : History :=
  { h with
    next := h.next + 1
    accepted := if state.writable then h.accepted ++ [(value, h.callback .write given)] else h.accepted
    handed := h.handed ++ (h.callback .write given).toList }

/-- An `end` that returned. -/
def ended (given : Bool) (events : WriteEventState) (h : History) : History :=
  { h with
    next := h.next + 1
    handed := h.handed ++ (h.callback .end given).toList
    ending :=
      if events.error.isSome ∨ events.cancelled ∨ events.closed ∨ events.finished then h.ending
      else h.ending ++ (h.callback .end given).toList }

/-- An `end` with a chunk that returned. -/
def endedChunk (value : List UInt8) (given : Bool) (state : WritableState) (h : History) :
    History :=
  { h.ended given state.events with
    accepted := if state.writable then h.accepted ++ [(value, none)] else h.accepted }

end History

namespace System

/-- A stream over an open descriptor, and an empty queue. -/
def new (owned autoClose flush : Bool) (start : Option Int) (highWaterMark : Int) (limit : Nat) :
    System where
  world := ⟨.new owned autoClose flush start highWaterMark, fun _ => none, .new limit⟩
  history := .new

/-- An operation: how it ended decides what the history keeps. -/
def perform {α : Type} (m : M α) (returned raised : History → History) (s : System) : System :=
  match m s.world with
  | .ok _ world => ⟨world, returned s.history⟩
  | .error _ world => ⟨world, raised s.history⟩

/-- The queue takes a step of its own. -/
def queue (label : QueueLabel Entry) (s : System) : System :=
  { s with world := { s.world with completions := s.world.completions.step label } }

/-- The reservations of this stream. -/
def owned (s : System) : List ReservationId :=
  s.world.state.held ++
    [Event.error, .complete, .finish, .drain, .close].filterMap s.world.reservations

/-- The loop of `poll` takes the next entry and runs its callback up to the listeners. -/
def start (s : System) : System :=
  match s.world.completions.control with
  | .ready (.event event :: _) =>
    { s with world := finalState (WriteEvents.invoke event (s.queue .start).world) }
  | _ => s.queue .start

def step (s : System) : Label → System
  | .write value given answers =>
    s.perform (Writable.write value (s.history.callback .write given) answers)
      (History.wrote value given s.world.state) History.called
  | .end given answers =>
    s.perform (Writable.end_ (s.history.callback .end given) answers)
      (History.ended given s.world.state.events) History.called
  | .endChunk value given answers =>
    s.perform (Writable.endChunk value (s.history.callback .end given) answers)
      (History.endedChunk value given s.world.state) History.called
  | .cork => s.perform Writable.cork History.called History.called
  | .uncork answers => s.perform (Writable.uncork answers) History.called History.called
  | .close answers =>
    s.perform (Writable.close answers) (fun h => { h.called with closeCalled := true })
      (fun h => { h.called with closeCalled := true })
  | .destroy error answers =>
    s.perform (Writable.destroy error answers) History.called History.called
  | .poll => s.queue .poll
  | .start => s.start
  | .return => s.queue .return
  | .raise => s.queue .raise
  | .leave => s.queue .leave
  | .other .reserve => s.queue .reserve
  | .other (.commit r) => if r ∈ s.owned then s else s.queue (.commit r .foreign)
  | .other (.drop r) => if r ∈ s.owned then s else s.queue (.drop r)

/-- A system that reports no error. -/
def ready : Answers := ⟨[], none, none⟩

end System

/-! ## Room in the queue -/

/-- What `prepare` would reserve. -/
def World.missing (w : World) : List Event :=
  if w.state.events.closed then []
  else (WriteEvents.prepared w.state.events).filter fun event => (w.reservations event).isNone

/-- The queue has room for all that `prepare` would reserve. -/
def System.Prepares (s : System) : Prop :=
  s.world.completions.queue.committed + s.world.completions.queue.reserved +
    s.world.missing.length ≤ s.world.completions.queue.limit

/-- The checks a chunk passes before the stream looks at it: its length, and room for its
callback. -/
def System.Admits (value : List UInt8) (given : Bool) (s : System) : Prop :=
  (value.length : Int) ≤ 9007199254740991 - s.world.state.bufferedBytes ∧
    (given = true → s.world.completions.HasRoom)

section
variable {w : World}

/-- Reserving needs room. -/
theorem reserve_room :
    wp (onQueue Machine.reserve : M ReservationId) (fun _ _ => w.completions.HasRoom)
      (fun _ _ => True) w := by
  simp only [onQueue, wp_zoom]
  by_cases hroom : w.completions.HasRoom
  · exact wp_of_forall (fun _ _ => hroom) (fun _ _ => trivial)
  · unfold wp
    rw [Machine.reserve_error hroom]
    trivial

/-- Preparing makes no room. -/
theorem prepare_room :
    wp WriteEvents.prepare (fun _ w' => w'.completions.HasRoom → w.completions.HasRoom)
      (fun _ _ => True) w := by
  simp only [WriteEvents.prepare, wp_bind, wp_get, wp_ite, wp_pure]
  by_cases hclosed : w.state.events.closed = true
  · rw [if_pos hclosed]
    exact id
  · rw [if_neg hclosed]
    cases (WriteEvents.prepared w.state.events).filter
        fun event => (w.reservations event).isNone with
    | nil => exact id
    | cons event events =>
      simp only [WriteEvents.reserveAll, wp_bind]
      refine wp_mono reserve_room (fun _ _ hroom => ?_) (fun _ _ h => h)
      refine wp_of_forall (fun _ _ => wp_of_forall (fun _ _ => ?_) (fun _ _ => trivial))
        (fun _ _ => trivial)
      exact wp_of_forall (fun _ _ _ => hroom) (fun _ _ => trivial)

theorem newCompletion_room (callback : Option WriteCallback) :
    wp (Writable.newCompletion callback) (fun _ _ => callback.isSome → w.completions.HasRoom)
      (fun _ _ => True) w := by
  cases callback with
  | none => exact fun h => by cases h
  | some callback =>
    simp only [Writable.newCompletion, StreamCompletion.new, wp_bind, wp_pure]
    exact wp_mono reserve_room (fun _ _ hroom _ => hroom) (fun _ _ h => h)

/-- A write that returns had room for its callback and a chunk of a length it admits. -/
theorem Rests.write_admits {v : View} (value : List UInt8) (callback : Option WriteCallback)
    (answers : Answers) (h : Rests v w) (hl : v.Lawful) :
    wp (Writable.write value callback answers)
      (fun _ _ => (value.length : Int) ≤ 9007199254740991 - v.state.bufferedBytes ∧
        (callback.isSome → w.completions.HasRoom))
      (fun _ _ => True) w := by
  unfold Writable.write
  rw [wp_bind]
  refine wp_mono (wp_and (h.prepare hl) prepare_room) ?_ (fun _ _ _ => trivial)
  rintro - w₁ ⟨h₁, hroom⟩
  refine wp_read ?_
  rw [wp_ite, h₁.state]
  split_ifs with hsize
  · trivial
  · rw [wp_bind]
    refine wp_mono (newCompletion_room callback) (fun _ _ hroom₁ => ?_) (fun _ _ h => h)
    exact wp_of_forall (fun _ _ => ⟨by omega, fun hc => hroom (hroom₁ hc)⟩) (fun _ _ => trivial)

theorem retainEnd_room (callback : Option WriteCallback) :
    wp (Writable.retainEnd callback) (fun _ _ => callback.isSome → w.completions.HasRoom)
      (fun _ _ => True) w := by
  unfold Writable.retainEnd
  rw [wp_bind]
  refine wp_mono prepare_room (fun _ w₁ hroom => ?_) (fun _ _ h => h)
  cases callback with
  | none => exact fun h => by cases h
  | some callback =>
    simp only [WriteEvents.retainEnd, StreamCompletion.new, wp_bind]
    refine wp_mono reserve_room (fun _ _ hroom₁ => ?_) (fun _ _ h => h)
    refine wp_of_forall (fun _ _ => wp_of_forall (fun _ _ => ?_) (fun _ _ => trivial))
      (fun _ _ => trivial)
    exact wp_of_forall (fun _ _ _ => hroom hroom₁) (fun _ _ => trivial)

theorem Rests.endChunk_admits {v : View} (value : List UInt8) (callback : Option WriteCallback)
    (answers : Answers) (h : Rests v w) (hl : v.Lawful) :
    wp (Writable.endChunk value callback answers)
      (fun _ _ => (value.length : Int) ≤ 9007199254740991 - v.state.bufferedBytes ∧
        (callback.isSome → w.completions.HasRoom))
      (fun _ _ => True) w := by
  unfold Writable.endChunk
  rw [wp_bind]
  refine wp_mono (wp_and (h.retainEnd callback hl) (retainEnd_room callback)) ?_
    (fun _ _ _ => trivial)
  rintro - w₁ ⟨⟨completion, -, h₁⟩, hroom⟩
  have hbuffered : (v.retainEnds completion).state.bufferedBytes = v.state.bufferedBytes := by
    rw [View.retainEnds_state]
  rw [wp_bind]
  refine wp_mono (h₁.rests.write_admits value none answers (View.retainEnds_lawful hl)) ?_
    (fun _ _ h => h)
  rintro - w₂ ⟨hsize, -⟩
  rw [hbuffered] at hsize
  exact wp_of_forall (fun _ _ => ⟨hsize, hroom⟩) (fun _ _ => trivial)

theorem reserveAll_returns (events : List Event)
    (hroom : w.completions.queue.committed + w.completions.queue.reserved + events.length ≤
      w.completions.queue.limit) : Always (WriteEvents.reserveAll events) (fun _ _ => True) w := by
  induction events generalizing w with
  | nil => trivial
  | cons event events ih =>
    rw [List.length_cons] at hroom
    push_cast at hroom
    have hfirst : w.completions.HasRoom := by
      unfold Machine.HasRoom
      omega
    simp only [WriteEvents.reserveAll, Always, wp_bind, wp_tryCatch, wp_throw, wp_pure, onQueue,
      wp_zoom]
    rw [wp_of_ok (Machine.reserve_ok hfirst)]
    refine wp_mono (ih ?_) (fun _ _ h => h) (fun _ _ h => h.elim)
    show w.completions.queue.committed + (w.completions.queue.reserved + 1) + events.length ≤
      w.completions.queue.limit
    omega

theorem storeAll_returns (pending : List (Event × ReservationId)) :
    Always (WriteEvents.storeAll pending) (fun _ _ => True) w := by
  induction pending generalizing w with
  | nil => trivial
  | cons p pending ih =>
    obtain ⟨event, r⟩ := p
    simp only [WriteEvents.storeAll, Always, wp_bind, wp_setReservation]
    exact ih

/-- With room for everything, `prepare` does not raise. -/
theorem Rests.prepares {s : System} {v : View} (h : Rests v s.world) (hl : v.Lawful)
    (hroom : s.Prepares) : Always WriteEvents.prepare (fun _ => Prepared v) s.world := by
  have hreturns : Always WriteEvents.prepare (fun _ _ => True) s.world := by
    simp only [WriteEvents.prepare, Always, wp_bind, wp_get, wp_ite, wp_pure]
    by_cases hclosed : s.world.state.events.closed = true
    · rw [if_pos hclosed]
      trivial
    · unfold System.Prepares World.missing at hroom
      rw [if_neg hclosed] at hroom
      rw [if_neg hclosed]
      exact (reserveAll_returns _ hroom).then fun _ _ _ => storeAll_returns _
  exact wp_mono (wp_and (h.prepare hl) hreturns) (fun _ _ h => h.1) (fun _ _ h => h.2)

/-- A call of `close` that was prepared. -/
theorem Rests.close_prepared {s : System} {v : View} (answers : Answers) (h : Rests v s.world)
    (hl : v.Lawful) (hroom : s.Prepares) :
    wp (Writable.close answers) (fun _ => Rests (v.close answers).2)
      (fun _ => Rests (v.close answers).2) s.world := by
  unfold Writable.close
  refine Always.bind (h.prepares hl hroom) fun _ w₁ h₁ => ?_
  exact wp_mono (h₁.closeStream answers hl) (fun _ _ h => h.2.rests) (fun _ _ h => h.2.rests)

end

/-! ## What a step does -/

/-- Every outcome of a step, on the view and the history. -/
inductive Outcome (s : System) : Label → View → History → Prop where
  | write {value : List UInt8} {given : Bool} {answers : Answers}
      (completion : Option StreamCompletion)
      (hcallback : completion.map StreamCompletion.callback = s.history.callback .write given)
      (hadmits : s.Admits value given) :
      Outcome s (.write value given answers) (s.world.view.write value completion answers)
        (s.history.wrote value given s.world.state)
  | end {given : Bool} {answers : Answers} (completion : Option StreamCompletion)
      (hcallback : completion.map StreamCompletion.callback = s.history.callback .end given) :
      Outcome s (.end given answers) ((s.world.view.retainEnds completion).finish answers)
        (s.history.ended given s.world.state.events)
  | endChunk {value : List UInt8} {given : Bool} {answers : Answers}
      (completion : Option StreamCompletion)
      (hcallback : completion.map StreamCompletion.callback = s.history.callback .end given)
      (hadmits : s.Admits value given) :
      Outcome s (.endChunk value given answers)
        (((s.world.view.retainEnds completion).write value none answers).finish answers)
        (s.history.endedChunk value given s.world.state)
  /-- The callback was retained before the write raised. -/
  | endChunkRaised {value : List UInt8} {given : Bool} {answers : Answers}
      (completion : Option StreamCompletion)
      (hcallback : completion.map StreamCompletion.callback = s.history.callback .end given) :
      Outcome s (.endChunk value given answers) (s.world.view.retainEnds completion) s.history.called
  | cork : Outcome s .cork s.world.view.cork s.history.called
  | uncork {answers : Answers} :
      Outcome s (.uncork answers) (s.world.view.uncork answers) s.history.called
  | close {answers : Answers} :
      Outcome s (.close answers) (s.world.view.close answers).2
        { s.history.called with closeCalled := true }
  | closeRaised {answers : Answers} (hraised : ¬ s.Prepares) :
      Outcome s (.close answers) s.world.view { s.history.called with closeCalled := true }
  | destroy {error : Option TsError} {answers : Answers} :
      Outcome s (.destroy error answers) (s.world.view.destroy error answers) s.history.called
  /-- The call raised before it did anything. -/
  | raised {label : Label} : Outcome s label s.world.view s.history.called
  | deliver {entry : Entry} {rest : List Entry}
      (hnext : s.world.view.commits = s.world.view.starts ++ entry :: rest) :
      Outcome s .start (s.world.view.deliver entry) s.history
  | other {label : OtherLabel} : Outcome s (.other label) (s.world.view.commit [.foreign]) s.history
  | idle {label : Label} : Outcome s label s.world.view s.history

/-! ## The queue's own steps -/

section
variable {v : View} {w : World}

/-- The queue moves on without touching the reservations of this stream. -/
theorem Rests.onQueue {m : Machine Entry} (h : Rests v w) (hm : m.Consistent)
    (hlive : ∀ r ∈ w.state.held, r ∈ m.queue.active)
    (hactive : ∀ event r, w.reservations event = some r → r ∈ m.queue.active) :
    Rests { v with commits := m.commits, starts := m.starts } { w with completions := m } := by
  obtain ⟨howns, hkept, rfl⟩ := h
  exact ⟨⟨hm, hactive, howns.once, hlive, howns.nodup, howns.apart⟩,
    ⟨hkept.finish, hkept.close⟩, rfl⟩

/-- The steps of a poll but `start` leave the books alone. -/
theorem poll_books (m : Machine Entry) {move : QueueLabel Entry}
    (hmove : move ∈ [QueueLabel.poll, .return, .raise, .leave]) :
    (m.step move).queue.active = m.queue.active ∧ (m.step move).commits = m.commits ∧
      (m.step move).starts = m.starts := by
  simp only [List.mem_cons, List.not_mem_nil, or_false] at hmove
  rcases hmove with rfl | rfl | rfl | rfl
  · rw [Machine.step, Machine.enter]
    split <;> exact ⟨rfl, rfl, rfl⟩
  · rw [Machine.step, Machine.return_]
    split <;> exact ⟨rfl, rfl, rfl⟩
  · rw [Machine.step, Machine.raise]
    split <;> exact ⟨rfl, rfl, rfl⟩
  · rw [Machine.step, Machine.leave]
    split <;> exact ⟨rfl, rfl, rfl⟩

end

/-! ## What has been delivered -/

/-- What the started entries and the notified listeners have to do with the flags. -/
structure View.Delivered (v : View) : Prop where
  started : v.starts <+: v.commits
  complete : Entry.event .complete ∈ v.starts → v.Settled
  finished : v.state.events.finished = true → Entry.event .complete ∈ v.starts
  closed : v.state.events.closed = true ↔ Entry.event .close ∈ v.starts
  errors : v.state.events.emitted.count .error = View.times .error v.starts
  closes : v.state.events.emitted.count .close = View.times .close v.starts
  finishes : v.state.events.emitted.count .finish ≤ View.times .finish v.starts

theorem View.Delivered.later {v v' : View} (h : v.Delivered) (hlater : View.Later v v') :
    v'.Delivered where
  started := by rw [hlater.starts]; exact h.started.trans hlater.commits
  complete := by
    rw [hlater.starts]
    intro hc
    exact (h.complete hc).imp (fun hf => by rw [hlater.finished]; exact hf)
      (.imp hlater.error hlater.cancelled)
  finished := by rw [hlater.starts, hlater.finished]; exact h.finished
  closed := by rw [hlater.starts, hlater.closed]; exact h.closed
  errors := by rw [hlater.starts, hlater.emitted]; exact h.errors
  closes := by rw [hlater.starts, hlater.emitted]; exact h.closes
  finishes := by rw [hlater.starts, hlater.emitted]; exact h.finishes

section
variable {v : View} {rest : List Entry}

/-- When `complete` is next, the stream waits for it. -/
theorem View.complete_next (hE : v.Events) (hd : v.Delivered)
    (hnext : v.commits = v.starts ++ Entry.event .complete :: rest) :
    v.state.events.finishScheduled = true ∧ v.state.events.finished = false := by
  have hcount := hE.completes
  have hsplit : View.times .complete (Entry.event .complete :: rest) =
      1 + View.times .complete rest := by
    rw [← List.singleton_append, View.times_append, View.times_event, if_pos rfl]
  rw [hnext, View.times_append, hsplit] at hcount
  constructor
  · cases hf : v.state.events.finishScheduled with
    | true => rfl
    | false => rw [hf, Bool.toNat_false] at hcount; omega
  · by_contra hf
    rw [Bool.not_eq_false] at hf
    have hpos := View.times_pos.mp (hd.finished hf)
    have := Bool.toNat_le v.state.events.finishScheduled
    omega

theorem View.close_next (hE : v.Events)
    (hnext : v.commits = v.starts ++ Entry.event .close :: rest) :
    v.state.events.closeQueued = true ∧ v.Settled := by
  have hmem : Entry.event .close ∈ v.commits := by rw [hnext]; simp
  have hpos := View.times_pos.mp hmem
  rw [hE.closes] at hpos
  have hqueued : v.state.events.closeQueued = true := by
    cases hq : v.state.events.closeQueued with
    | true => rfl
    | false => rw [hq] at hpos; exact absurd hpos (Nat.lt_irrefl _)
  exact ⟨hqueued, hE.settled hqueued⟩

/-- When `finish` is next, the stream has finished. -/
theorem View.finish_next (hE : v.Events)
    (hnext : v.commits = v.starts ++ Entry.event .finish :: rest) :
    v.state.events.finished = true := by
  have hmem : Entry.event .finish ∈ v.commits := by rw [hnext]; simp
  have hpos := View.times_pos.mp hmem
  rw [hE.finishes] at hpos
  cases hf : v.state.events.finished with
  | true => rfl
  | false => rw [hf] at hpos; exact absurd hpos (Nat.lt_irrefl _)

/-- A callback, or something of another stream, is started. -/
theorem View.Delivered.silent {entry : Entry} (hd : v.Delivered)
    (hnext : v.commits = v.starts ++ entry :: rest) (hentry : ∀ event, entry ≠ .event event) :
    (v.started entry).Delivered := by
  have htimes : ∀ event, View.times event (v.started entry).starts = View.times event v.starts := by
    intro event
    rw [View.started, View.times_append, View.times, View.times, List.count_singleton, if_neg]
    · rfl
    · simpa using hentry event
  have hmem : ∀ event, Entry.event event ∈ (v.started entry).starts ↔
      Entry.event event ∈ v.starts := by
    intro event
    rw [View.times_pos, htimes event, ← View.times_pos]
  exact
    { started := ⟨rest, by simp [View.started, hnext]⟩
      complete := fun hc => hd.complete ((hmem _).mp hc)
      finished := fun hf => (hmem _).mpr (hd.finished hf)
      closed := hd.closed.trans (hmem _).symm
      errors := hd.errors.trans (htimes _).symm
      closes := hd.closes.trans (htimes _).symm
      finishes := hd.finishes.trans (htimes _).ge }

/-- An event is started: its listeners are notified, or the stream no longer wants that. -/
theorem View.Delivered.event {v' : View} {event : Event} (hd : v.Delivered)
    (hnext : v.commits = v.starts ++ Entry.event event :: rest) (hevent : event ≠ .complete)
    (hstarts : v'.starts = v.starts ++ [.event event]) (hcommits : v'.commits = v.commits)
    (hsettled : v.Settled → v'.Settled)
    (hfinished : v'.state.events.finished = true → v.state.events.finished = true)
    (hclosed : v'.state.events.closed = true ↔ v.state.events.closed = true ∨ event = .close)
    (hemitted : v'.state.events.emitted = v.state.events.emitted ++ [event] ∨
      v'.state.events.emitted = v.state.events.emitted ∧ (event = .finish ∨ event = .drain)) :
    v'.Delivered := by
  have htimes : ∀ event', times event' v'.starts =
      times event' v.starts + if event = event' then 1 else 0 := by
    intro event'
    rw [hstarts, times_append, times_event]
  have hcount : ∀ event', v'.state.events.emitted.count event' =
      v.state.events.emitted.count event' + (if event = event' then 1 else 0) ∨
      v'.state.events.emitted.count event' = v.state.events.emitted.count event' ∧
        (event = .finish ∨ event = .drain) := by
    intro event'
    rcases hemitted with h | ⟨h, hsilent⟩
    · left
      rw [h, List.count_append, List.count_singleton]
      by_cases heq : event = event' <;> simp [heq]
    · exact .inr ⟨by rw [h], hsilent⟩
  have hcomplete : Entry.event .complete ∈ v'.starts ↔ Entry.event .complete ∈ v.starts := by
    simp [hstarts, Ne.symm hevent]
  have hclose : Entry.event .close ∈ v'.starts ↔ Entry.event .close ∈ v.starts ∨ event = .close := by
    simp [hstarts, eq_comm]
  refine
    { started := ⟨rest, by simp [hstarts, hcommits, hnext]⟩
      complete := fun hc => hsettled (hd.complete (hcomplete.mp hc))
      finished := fun hf => hcomplete.mpr (hd.finished (hfinished hf))
      closed := hclosed.trans ((or_congr_left hd.closed).trans hclose.symm)
      errors := ?_
      closes := ?_
      finishes := ?_ }
  · rw [htimes, ← hd.errors]
    rcases hcount .error with h | ⟨h, rfl | rfl⟩
    · exact h
    · exact h
    · exact h
  · rw [htimes, ← hd.closes]
    rcases hcount .close with h | ⟨h, rfl | rfl⟩
    · exact h
    · exact h
    · exact h
  · have := hd.finishes
    rw [htimes]
    rcases hcount .finish with h | ⟨h, -⟩ <;> omega

/-- The stream at rest does not see what is started. -/
theorem View.Rest.started (h : v.Rest) (entry : Entry) : (v.started entry).Rest :=
  ⟨{ h.events with }, { h.phase with }⟩

theorem View.Rest.emit (h : v.Rest) (event : Event) : (v.emit event).Rest :=
  ⟨{ h.events with }, { h.phase with }⟩

theorem View.finishing_commits (v : View) :
    v.finishing.commits =
      v.commits ++ completing none v.state.events.endCompletions ++ [.event .finish] := rfl

/-- The stream finishes: its callbacks, `finish` and a deferred `close` are queued. -/
theorem View.deliver_complete (h : v.Rest) (hd : v.Delivered)
    (hnext : v.commits = v.starts ++ Entry.event .complete :: rest) :
    (v.deliver (.event .complete)).Rest ∧ (v.deliver (.event .complete)).Delivered := by
  obtain ⟨hscheduled, hfinished⟩ := complete_next h.events hd hnext
  have hstarted : Entry.event .complete ∈ v.starts ++ [Entry.event .complete] := by simp
  have hmem : ∀ event, event ≠ .complete →
      (Entry.event event ∈ v.starts ++ [Entry.event .complete] ↔ Entry.event event ∈ v.starts) := by
    intro event hne
    simp [hne]
  have htimes : ∀ event, event ≠ .complete →
      times event (v.starts ++ [Entry.event .complete]) = times event v.starts := by
    intro event hne
    rw [times_append, times_event, if_neg (Ne.symm hne)]
    rfl
  have hprefix : v.starts ++ [Entry.event .complete] <+: v.commits := ⟨rest, by rw [hnext]; simp⟩
  by_cases hover : v.state.events.error.isSome = true ∨ v.state.events.closed = true ∨
      v.state.events.cancelled = true
  · have hdeliver : v.deliver (.event .complete) =
        { v with starts := v.starts ++ [.event .complete] } := if_pos hover
    have hsettled : v.Settled := by
      rcases hover with he | hc | hc
      · exact .inr (.inl he)
      · exact h.events.settled (h.events.closed hc)
      · exact .inr (.inr hc)
    rw [hdeliver]
    exact ⟨h.started _,
      { started := hprefix
        complete := fun _ => hsettled
        finished := fun _ => hstarted
        closed := hd.closed.trans (hmem _ (by decide)).symm
        errors := hd.errors.trans (htimes _ (by decide)).symm
        closes := hd.closes.trans (htimes _ (by decide)).symm
        finishes := hd.finishes.trans (htimes _ (by decide)).ge }⟩
  · have hopen : v.state.events.closeQueued = false := by
      by_contra hq
      rcases h.events.settled (by simpa using hq) with hf | he | hc
      · rw [hfinished] at hf
        cases hf
      · exact hover (.inl he)
      · exact hover (.inr (.inr hc))
    have hcloses := h.events.closes
    have hfinishes := h.events.finishes
    rw [hopen] at hcloses
    rw [hfinished] at hfinishes
    have hdeliver : v.deliver (.event .complete) =
        (v.started (.event .complete)).finishing.queueClose := if_neg hover
    have hcommits : ∀ event, event ≠ .finish →
        times event (v.started (.event .complete)).finishing.commits = times event v.commits := by
      intro event hne
      rw [finishing_commits, times_append, times_append, times_completing, times_event,
        if_neg (Ne.symm hne)]
      rfl
    have hevents : (v.started (.event .complete)).finishing.Events :=
      { recorded := h.events.recorded
        finished := fun _ => hscheduled
        queued := h.events.queued
        isOver := h.events.isOver
        settled := fun _ => .inl rfl
        closed := h.events.closed
        errors := (hcommits .error (by decide)).trans h.events.errors
        completes := (hcommits .complete (by decide)).trans h.events.completes
        finishes := by
          rw [finishing_commits, times_append, times_append, times_completing, times_event, if_pos rfl]
          show times .finish v.commits + 0 + 1 = 1
          rw [hfinishes]
          rfl
        closes := (hcommits .close (by decide)).trans h.events.closes
        order := by
          rw [finishing_commits]
          refine follows_event (follows_completing h.events.order _ _) (.inr ?_)
          rw [times_append, times_completing]
          exact hcloses }
    have hphase : (v.started (.event .complete)).finishing.Phase v.state.ended :=
      { h.phase with ends := fun _ => rfl }
    have hdelivered : View.Delivered ((v.started (.event .complete)).setEvents
        fun events => { events with finished := true }) :=
      { started := hprefix
        complete := fun _ => .inl rfl
        finished := fun _ => hstarted
        closed := hd.closed.trans (hmem .close (by decide)).symm
        errors := hd.errors.trans (htimes .error (by decide)).symm
        closes := hd.closes.trans (htimes .close (by decide)).symm
        finishes := hd.finishes.trans (htimes .finish (by decide)).ge }
    rw [hdeliver]
    refine ⟨⟨hevents.queueClose (.inl rfl), ?_⟩, hdelivered.later ?_⟩
    · rw [(queueClose_same _).state]
      exact queueClose_phase hphase
    · exact ((Later.moves (Moves.completeEnd .refl)).commit _).trans (queueClose_later _)

/-- Starting the next entry keeps the stream at rest. -/
theorem View.deliver_sound {entry : Entry} (h : v.Rest) (hd : v.Delivered)
    (hnext : v.commits = v.starts ++ entry :: rest) :
    (v.deliver entry).Rest ∧ (v.deliver entry).Delivered := by
  cases entry with
  | completion callback error =>
    exact ⟨h.started _, hd.silent hnext fun _ heq => by cases heq⟩
  | foreign => exact ⟨h.started _, hd.silent hnext fun _ heq => by cases heq⟩
  | event event =>
    cases event with
    | complete => exact deliver_complete h hd hnext
    | error =>
      exact ⟨(h.started _).emit .error, hd.event hnext (by decide) rfl rfl id id
        (by simp [deliver, invoke, emit, started]) (.inl rfl)⟩
    | finish =>
      have hfinished := finish_next h.events hnext
      by_cases hover : v.state.events.error.isSome = true ∨ v.state.events.cancelled = true
      · have hdeliver : v.deliver (.event .finish) = v.started (.event .finish) := if_pos hover
        rw [hdeliver]
        exact ⟨h.started _, hd.event hnext (by decide) rfl rfl id id (by simp [started])
          (.inr ⟨rfl, .inl rfl⟩)⟩
      · have hdeliver : v.deliver (.event .finish) = ((v.started (.event .finish)).setEvents
            fun events => { events with finished := true }).emit .finish := if_neg hover
        rw [hdeliver]
        refine ⟨?_, hd.event hnext (by decide) rfl rfl (fun _ => .inl rfl) (fun _ => hfinished)
          (by simp [emit, started]) (.inl rfl)⟩
        exact
          ⟨{ h.events with
              finished := fun _ => h.events.finished hfinished
              settled := fun _ => .inl rfl
              finishes := h.events.finishes.trans (by rw [hfinished]; rfl) },
            { h.phase with ends := fun _ => h.phase.ends (.inl hfinished) }⟩
    | drain =>
      have hquiet : ((v.started (.event .drain)).setEvents fun events =>
          { events with drainScheduled := false }).Rest := ⟨{ h.events with }, { h.phase with }⟩
      by_cases hover : v.state.events.error.isSome = true ∨
          v.state.events.finishScheduled = true ∨ v.state.events.cancelled = true
      · have hdeliver : v.deliver (.event .drain) = (v.started (.event .drain)).setEvents
            fun events => { events with drainScheduled := false } := if_pos hover
        rw [hdeliver]
        exact ⟨hquiet, hd.event hnext (by decide) rfl rfl id id (by simp [started])
          (.inr ⟨rfl, .inr rfl⟩)⟩
      · have hdeliver : v.deliver (.event .drain) = ((v.started (.event .drain)).setEvents
            fun events => { events with drainScheduled := false }).emit .drain := if_neg hover
        rw [hdeliver]
        exact ⟨hquiet.emit .drain, hd.event hnext (by decide) rfl rfl id id
          (by simp [emit, started]) (.inl rfl)⟩
    | close =>
      obtain ⟨hqueued, -⟩ := close_next h.events hnext
      refine ⟨⟨{ h.events with closed := fun _ => hqueued }, { h.phase with }⟩, ?_⟩
      exact hd.event hnext (by decide) rfl rfl id id
        (by simp [deliver, invoke, emit, started]) (.inl rfl)

end

/-! ## Every step -/

structure System.Sound (s : System) : Prop where
  rests : Rests s.world.view s.world
  rest : s.world.view.Rest
  delivered : s.world.view.Delivered
  destroyed : s.world.state.events.cancelled = true → s.world.state.events.closeScheduled = true

theorem View.Rest.lawful {v : View} (h : v.Rest) : v.Lawful :=
  ⟨h.events.queued, h.events.closed, fun hc => h.events.isOver (h.events.queued (h.events.closed hc)),
    h.events.finished⟩

/-- A call whose two ways of ending are both outcomes. -/
theorem System.perform_step {s : System} {α : Type} {m : M α} {returned raised : History → History}
    {label : Label}
    (hm : wp m
      (fun _ w => ∃ v, Outcome s label v (returned s.history) ∧ Rests v w)
      (fun _ w => ∃ v, Outcome s label v (raised s.history) ∧ Rests v w)
      s.world) :
    Outcome s label (s.perform m returned raised).world.view
        (s.perform m returned raised).history ∧
      Rests (s.perform m returned raised).world.view (s.perform m returned raised).world := by
  unfold wp at hm
  unfold System.perform
  cases hresult : m s.world with
  | ok a w =>
    rw [hresult] at hm
    obtain ⟨v, houtcome, hrests⟩ := hm
    obtain rfl := hrests.view
    exact ⟨houtcome, hrests⟩
  | error e w =>
    rw [hresult] at hm
    obtain ⟨v, houtcome, hrests⟩ := hm
    obtain rfl := hrests.view
    exact ⟨houtcome, hrests⟩

/-- A step of the queue that keeps the reservations of this stream. -/
theorem System.queue_rests {s : System} (h : s.Sound) {move : QueueLabel Entry}
    (hkeep : ∀ r ∈ s.owned, r ∈ (s.world.completions.step move).queue.active) :
    Rests (s.queue move).world.view (s.queue move).world := by
  refine h.rests.onQueue (h.rests.owns.consistent.step move) ?_ ?_
  · exact fun r hr => hkeep r (List.mem_append_left _ hr)
  · intro event r hr
    refine hkeep r (List.mem_append_right _ (List.mem_filterMap.mpr ⟨event, ?_, hr⟩))
    cases event <;> decide

theorem System.owned_active {s : System} (h : s.Sound) :
    ∀ r ∈ s.owned, r ∈ s.world.completions.queue.active := by
  intro r hr
  rcases List.mem_append.mp hr with hr | hr
  · exact h.rests.owns.live r hr
  · obtain ⟨event, -, hevent⟩ := List.mem_filterMap.mp hr
    exact h.rests.owns.active event r hevent

theorem System.start_step {s : System} (h : s.Sound) :
    Outcome s .start s.start.world.view s.start.history ∧
      Rests s.start.world.view s.start.world := by
  have hconsistent := h.rests.owns.consistent
  cases hcontrol : s.world.completions.control with
  | ready batch =>
    cases batch with
    | nil =>
      have hsame : s.start = s := by
        simp [start, hcontrol, queue, Machine.step, Machine.start]
      rw [hsame]
      exact ⟨.idle, h.rests⟩
    | cons entry rest =>
      have hnext : s.world.view.commits =
          s.world.view.starts ++ entry :: (rest ++ s.world.completions.queue.pending) := by
        have horder := hconsistent.order
        rwa [Machine.outstanding, hcontrol] at horder
      have hqueued := Machine.start_of_ready hcontrol
      have hrests : Rests (s.queue .start).world.view (s.queue .start).world :=
        System.queue_rests h fun r hr => by
          rw [Machine.step, hqueued]
          exact System.owned_active h r hr
      have hview : (s.queue .start).world.view = s.world.view.started entry := by
        simp only [queue, World.view, Machine.step, hqueued, View.started]
      rw [hview] at hrests
      cases entry with
      | event event =>
        have hcomplete : event = .complete → s.world.view.state.events.finishScheduled = true ∧
            s.world.view.state.events.finished = false := by
          rintro rfl
          exact View.complete_next h.rest.events h.delivered hnext
        have hclose : event = .close → s.world.view.state.events.closeQueued = true ∧
            s.world.view.Settled := by
          rintro rfl
          exact View.close_next h.rest.events hnext
        have hinvoke := hrests.invoke hcomplete hclose
        have hstart : s.start.world = finalState (WriteEvents.invoke event (s.queue .start).world) := by
          simp only [start, hcontrol]
        have hrests' : Rests (s.world.view.deliver (.event event)) s.start.world := by
          rw [hstart]
          exact wp_final (wp_mono hinvoke (fun _ _ h => h) (fun _ _ h => h.elim))
        have hhistory : s.start.history = s.history := by
          simp only [start, hcontrol]
        rw [hrests'.view, hhistory]
        exact ⟨.deliver hnext, hrests'⟩
      | completion callback error =>
        have hstart : s.start = s.queue .start := by simp only [start, hcontrol]
        rw [hstart, hview]
        exact ⟨.deliver hnext, hrests⟩
      | foreign =>
        have hstart : s.start = s.queue .start := by simp only [start, hcontrol]
        rw [hstart, hview]
        exact ⟨.deliver hnext, hrests⟩
  | idle =>
    have hsame : s.start = s := by
      simp [start, hcontrol, queue, Machine.step, Machine.start]
    rw [hsame]
    exact ⟨.idle, h.rests⟩
  | calling rest =>
    have hsame : s.start = s := by
      simp [start, hcontrol, queue, Machine.step, Machine.start]
    rw [hsame]
    exact ⟨.idle, h.rests⟩

/-- A step of the queue that leaves its record alone. -/
theorem System.quiet_step {s : System} (h : s.Sound) (label : Label) {move : QueueLabel Entry}
    (hkeep : ∀ r ∈ s.owned, r ∈ (s.world.completions.step move).queue.active)
    (hcommits : (s.world.completions.step move).commits = s.world.completions.commits)
    (hstarts : (s.world.completions.step move).starts = s.world.completions.starts) :
    Outcome s label (s.queue move).world.view (s.queue move).history ∧
      Rests (s.queue move).world.view (s.queue move).world := by
  have hview : (s.queue move).world.view = s.world.view := by
    simp only [queue, World.view, hcommits, hstarts]
  refine ⟨?_, System.queue_rests h hkeep⟩
  rw [hview]
  exact .idle

theorem System.poll_step {s : System} (h : s.Sound) (label : Label) {move : QueueLabel Entry}
    (hmove : move ∈ [QueueLabel.poll, .return, .raise, .leave]) :
    Outcome s label (s.queue move).world.view (s.queue move).history ∧
      Rests (s.queue move).world.view (s.queue move).world := by
  obtain ⟨hactive, hcommits, hstarts⟩ := poll_books s.world.completions hmove
  exact System.quiet_step h label (fun r hr => hactive ▸ System.owned_active h r hr) hcommits hstarts

/-- The other streams spend only reservations of their own. -/
theorem System.other_step {s : System} (h : s.Sound) (label : OtherLabel) :
    Outcome s (.other label) (s.step (.other label)).world.view
        (s.step (.other label)).history ∧
      Rests (s.step (.other label)).world.view (s.step (.other label)).world := by
  have howned := System.owned_active h
  cases label with
  | reserve =>
    by_cases hroom : s.world.completions.HasRoom
    · have hstep : s.world.completions.step .reserve = s.world.completions.took := by
        rw [Machine.step, Machine.reserve_ok hroom]
        rfl
      refine System.quiet_step h _ (fun r hr => ?_) ?_ ?_ <;> rw [hstep]
      · exact Finset.mem_insert_of_mem (howned r hr)
      · rfl
      · rfl
    · have hstep : s.world.completions.step .reserve = s.world.completions := by
        rw [Machine.step, Machine.reserve_error hroom]
        rfl
      exact System.quiet_step h _ (by rw [hstep]; exact howned) (by rw [hstep]) (by rw [hstep])
  | commit r =>
    by_cases hr : r ∈ s.owned
    · have hsame : s.step (.other (.commit r)) = s := if_pos hr
      rw [hsame]
      exact ⟨.idle, h.rests⟩
    · have hsame : s.step (.other (.commit r)) = s.queue (.commit r .foreign) := if_neg hr
      rw [hsame]
      by_cases hactive : r ∈ s.world.completions.queue.active
      · have hstep : s.world.completions.step (.commit r .foreign) =
            s.world.completions.delivered r .foreign := by
          rw [Machine.step, Machine.commit_ok hactive]
          rfl
        have hview : (s.queue (.commit r .foreign)).world.view =
            s.world.view.commit [.foreign] := by
          simp only [queue, World.view, hstep]
          rfl
        refine ⟨?_, System.queue_rests h fun r' hr' => ?_⟩
        · rw [hview]
          exact .other
        · rw [hstep]
          exact Finset.mem_erase.mpr ⟨fun heq => hr (heq ▸ hr'), howned r' hr'⟩
      · have hstep : s.world.completions.step (.commit r .foreign) = s.world.completions := by
          rw [Machine.step, Machine.commit_error hactive]
          rfl
        exact System.quiet_step h _ (by rw [hstep]; exact howned) (by rw [hstep]) (by rw [hstep])
  | drop r =>
    by_cases hr : r ∈ s.owned
    · have hsame : s.step (.other (.drop r)) = s := if_pos hr
      rw [hsame]
      exact ⟨.idle, h.rests⟩
    · have hsame : s.step (.other (.drop r)) = s.queue (.drop r) := if_neg hr
      rw [hsame]
      by_cases hactive : r ∈ s.world.completions.queue.active
      · have hstep : s.world.completions.step (.drop r) = s.world.completions.released r := by
          rw [Machine.step, Machine.drop_active hactive]
          rfl
        refine System.quiet_step h _ (fun r' hr' => ?_) ?_ ?_ <;> rw [hstep]
        · exact Finset.mem_erase.mpr ⟨fun heq => hr (heq ▸ hr'), howned r' hr'⟩
        · rfl
        · rfl
      · have hstep : s.world.completions.step (.drop r) = s.world.completions := by
          rw [Machine.step, Machine.drop_inactive hactive]
          rfl
        exact System.quiet_step h _ (by rw [hstep]; exact howned) (by rw [hstep]) (by rw [hstep])

theorem System.step_outcome {s : System} (h : s.Sound) (label : Label) :
    Outcome s label (s.step label).world.view (s.step label).history ∧
      Rests (s.step label).world.view (s.step label).world := by
  have hl := h.rest.lawful
  cases label with
  | write value given answers =>
    refine System.perform_step (wp_mono (wp_and (h.rests.write value _ answers hl)
      (h.rests.write_admits value _ answers hl)) ?_ ?_)
    · rintro - w ⟨⟨completion, hcallback, hdone⟩, hsize, hroom⟩
      have hadmits : s.Admits value given := ⟨hsize, fun hg => hroom (by rw [hg]; rfl)⟩
      exact ⟨_, .write completion hcallback hadmits, hdone.rests⟩
    · exact fun _ _ hrests => ⟨_, .raised, hrests.1⟩
  | «end» given answers =>
    refine System.perform_step (wp_mono (h.rests.end_ _ answers hl) ?_ ?_)
    · rintro - w ⟨completion, hcallback, hdone⟩
      exact ⟨_, .end completion hcallback, hdone.rests⟩
    · exact fun _ _ hrests => ⟨_, .raised, hrests⟩
  | endChunk value given answers =>
    refine System.perform_step (wp_mono (wp_and (h.rests.endChunk value _ answers hl)
      (h.rests.endChunk_admits value _ answers hl)) ?_ ?_)
    · rintro - w ⟨⟨completion, hcallback, hdone⟩, hsize, hroom⟩
      have hadmits : s.Admits value given := ⟨hsize, fun hg => hroom (by rw [hg]; rfl)⟩
      exact ⟨_, .endChunk completion hcallback hadmits, hdone.rests⟩
    · rintro - w ⟨hrests | ⟨completion, hcallback, hrests⟩, -⟩
      · exact ⟨_, .raised, hrests⟩
      · exact ⟨_, .endChunkRaised completion hcallback, hrests⟩
  | cork =>
    refine System.perform_step ?_
    exact ⟨_, .cork, ⟨h.rests.owns.state _, ⟨h.rests.kept.finish, h.rests.kept.close⟩, rfl⟩⟩
  | uncork answers =>
    refine System.perform_step (wp_mono (h.rests.uncork answers hl) ?_ ?_)
    · exact fun _ _ hdone => ⟨_, .uncork, hdone.rests⟩
    · exact fun _ _ hrests => ⟨_, .raised, hrests⟩
  | close answers =>
    refine System.perform_step ?_
    by_cases hroom : s.Prepares
    · exact wp_mono (h.rests.close_prepared answers hl hroom)
        (fun _ _ hrests => ⟨_, .close, hrests⟩) (fun _ _ hrests => ⟨_, .close, hrests⟩)
    · unfold Writable.close
      rw [wp_bind]
      refine wp_mono (h.rests.prepare hl) (fun _ w hw => ?_)
        (fun _ _ hrests => ⟨_, .closeRaised hroom, hrests⟩)
      exact wp_mono (hw.closeStream answers hl) (fun _ _ hdone => ⟨_, .close, hdone.2.rests⟩)
        (fun _ _ hdone => ⟨_, .close, hdone.2.rests⟩)
  | destroy error answers =>
    refine System.perform_step (wp_mono (h.rests.destroy error answers hl) ?_ ?_)
    · exact fun _ _ hrests => ⟨_, .destroy, hrests⟩
    · exact fun _ _ hrests => ⟨_, .raised, hrests⟩
  | poll => exact System.poll_step h _ (by simp)
  | start => exact System.start_step h
  | «return» => exact System.poll_step h _ (by simp)
  | raise => exact System.poll_step h _ (by simp)
  | leave => exact System.poll_step h _ (by simp)
  | other label => exact System.other_step h label

/-! ## Runs -/

/-- `v'` is a later view of `v` in a run. -/
structure View.Onward (v v' : View) : Prop where
  emitted : v.state.events.emitted <+: v'.state.events.emitted
  error : v.state.events.error.isSome = true → v'.state.events.error.isSome = true
  cancelled : v.state.events.cancelled = true → v'.state.events.cancelled = true
  closed : v.state.events.closed = true → v'.state.events.closed = true
  finishScheduled : v.state.events.finishScheduled = true →
    v'.state.events.finishScheduled = true
  closeScheduled : v.state.events.closeScheduled = true → v'.state.events.closeScheduled = true
  destroyed : v'.state.events.cancelled = true →
    v.state.events.cancelled = true ∨ v'.state.events.closeScheduled = true

theorem View.Onward.refl (v : View) : Onward v v :=
  ⟨List.prefix_refl _, id, id, id, id, id, .inl⟩

theorem View.Onward.trans {v v' v'' : View} (h : Onward v v') (h' : Onward v' v'') :
    Onward v v'' where
  emitted := h.emitted.trans h'.emitted
  error := h'.error ∘ h.error
  cancelled := h'.cancelled ∘ h.cancelled
  closed := h'.closed ∘ h.closed
  finishScheduled := h'.finishScheduled ∘ h.finishScheduled
  closeScheduled := h'.closeScheduled ∘ h.closeScheduled
  destroyed := fun hc => by
    rcases h'.destroyed hc with hc | hs
    · exact (h.destroyed hc).imp_right h'.closeScheduled
    · exact .inr hs

theorem View.Goes.onward {v v' : View} (h : Goes v v') : Onward v v' where
  emitted := by rw [h.later.emitted]
  error := h.later.error
  cancelled := h.later.cancelled
  closed := by rw [h.later.closed]; exact id
  finishScheduled := h.later.finishScheduled
  closeScheduled := h.later.closeScheduled
  destroyed := h.destroyed

/-- What a started entry notifies: an event its flags allow, or nothing. -/
inductive View.Notifies (v : View) (entry : Entry) (v' : View) : Prop where
  | silent (h : v'.state.events.emitted = v.state.events.emitted)
  | event (event : Event) (hentry : entry = .event event) (hevent : event ≠ .complete)
      (h : v'.state.events.emitted = v.state.events.emitted ++ [event])
      (hfinish : event = .finish →
        v.state.events.error.isSome = false ∧ v.state.events.cancelled = false)
      (hdrain : event = .drain → ¬ v.Over)

theorem View.deliver_notifies (entry : Entry) (v : View) : v.Notifies entry (v.deliver entry) := by
  cases entry with
  | completion callback error => exact .silent rfl
  | foreign => exact .silent rfl
  | event event =>
    cases event with
    | complete =>
      unfold deliver invoke
      dsimp only
      split
      · exact .silent rfl
      · exact .silent (queueClose_later _).emitted
    | error =>
      exact .event .error rfl (by decide) rfl (fun h => by cases h) (fun h => by cases h)
    | finish =>
      unfold deliver invoke
      dsimp only
      split
      · exact .silent rfl
      · rename_i hopen
        simp only [not_or, Bool.not_eq_true] at hopen
        exact .event .finish rfl (by decide) rfl (fun _ => hopen) (fun h => by cases h)
    | drain =>
      unfold deliver invoke
      dsimp only
      split
      · exact .silent rfl
      · rename_i hopen
        refine .event .drain rfl (by decide) rfl (fun h => by cases h) (fun _ hover => hopen ?_)
        rcases hover with hf | he | hc
        · exact .inr (.inl hf)
        · exact .inl he
        · exact .inr (.inr hc)
    | close =>
      exact .event .close rfl (by decide) rfl (fun h => by cases h) (fun h => by cases h)

/-- A started event notifies its own listeners, if any, and unschedules nothing. -/
theorem View.deliver_onward (entry : Entry) (v : View) : Onward v (v.deliver entry) := by
  have hsame : ∀ entry, Onward v (v.started entry) := fun _ => { Onward.refl v with }
  cases entry with
  | completion callback error => exact hsame _
  | foreign => exact hsame _
  | event event =>
    cases event with
    | complete =>
      unfold deliver invoke
      dsimp only
      split
      · exact hsame _
      · have hlater := queueClose_later (v.started (.event .complete)).finishing
        exact
          { emitted := by rw [hlater.emitted]; exact List.prefix_refl _
            error := hlater.error
            cancelled := hlater.cancelled
            closed := by rw [hlater.closed]; exact id
            finishScheduled := hlater.finishScheduled
            closeScheduled := hlater.closeScheduled
            destroyed := by
              rw [(v.started (.event .complete)).finishing.queueClose_events.1]
              exact .inl }
    | error => exact { Onward.refl v with emitted := List.prefix_append _ _ }
    | finish =>
      unfold deliver invoke
      dsimp only
      split
      · exact hsame _
      · exact { Onward.refl v with emitted := List.prefix_append _ _ }
    | drain =>
      unfold deliver invoke
      dsimp only
      split
      · exact { Onward.refl v with }
      · exact { Onward.refl v with emitted := List.prefix_append _ _ }
    | close =>
      exact { Onward.refl v with emitted := List.prefix_append _ _, closed := fun _ => rfl }

section
variable {s : System} {v' : View} {h' : History} {label : Label}

/-- A step is one of the stream's own, or delivers the next entry. -/
theorem Outcome.goes (houtcome : Outcome s label v' h') (hr : s.world.view.Rest) :
    View.Goes s.world.view v' ∨ ∃ entry rest,
      s.world.view.commits = s.world.view.starts ++ entry :: rest ∧
        v' = s.world.view.deliver entry := by
  cases houtcome with
  | write completion hcallback => exact .inl (View.write_goes _ _ _ hr)
  | «end» completion hcallback =>
    have hretain := View.retainEnds_goes completion hr
    exact .inl (hretain.trans (View.finish_goes _ hretain.rest).1)
  | @endChunk value _ answers completion hcallback =>
    have hretain := View.retainEnds_goes completion hr
    have hwrite := hretain.trans (View.write_goes value none answers hretain.rest)
    exact .inl (hwrite.trans (View.finish_goes _ hwrite.rest).1)
  | endChunkRaised completion hcallback => exact .inl (View.retainEnds_goes completion hr)
  | cork => exact .inl (View.cork_goes hr)
  | uncork => exact .inl (View.uncork_goes _ hr)
  | close => exact .inl (View.close_goes _ hr)
  | closeRaised => exact .inl (.refl hr)
  | destroy => exact .inl (View.destroy_goes _ _ hr)
  | raised => exact .inl (.refl hr)
  | deliver hnext => exact .inr ⟨_, _, hnext, rfl⟩
  | other => exact .inl (.of_moves (.single (.other _)) hr.events { hr.phase with })
  | idle => exact .inl (.refl hr)

theorem Outcome.sound (houtcome : Outcome s label v' h') (hr : s.world.view.Rest)
    (hd : s.world.view.Delivered) : v'.Rest ∧ v'.Delivered ∧ View.Onward s.world.view v' := by
  rcases houtcome.goes hr with hgoes | ⟨entry, rest, hnext, rfl⟩
  · exact ⟨hgoes.rest, hd.later hgoes.later, hgoes.onward⟩
  · obtain ⟨hrest, hdelivered⟩ := View.deliver_sound hr hd hnext
    exact ⟨hrest, hdelivered, View.deliver_onward entry _⟩

/-- What listeners a step notifies. -/
theorem Outcome.notifies (houtcome : Outcome s label v' h') (hr : s.world.view.Rest) :
    v'.state.events.emitted = s.world.view.state.events.emitted ∨ ∃ entry rest,
      s.world.view.commits = s.world.view.starts ++ entry :: rest ∧
        s.world.view.Notifies entry v' := by
  rcases houtcome.goes hr with hgoes | ⟨entry, rest, hnext, rfl⟩
  · exact .inl hgoes.later.emitted
  · exact .inr ⟨entry, rest, hnext, View.deliver_notifies entry _⟩

end

namespace System

theorem step_sound {s : System} (h : s.Sound) (label : Label) : (s.step label).Sound := by
  obtain ⟨houtcome, hrests⟩ := step_outcome h label
  obtain ⟨hrest, hdelivered, honward⟩ := houtcome.sound h.rest h.delivered
  exact ⟨hrests, hrest, hdelivered, fun hc =>
    (honward.destroyed hc).elim (fun hc => honward.closeScheduled (h.destroyed hc)) id⟩

theorem run_onward {s : System} (h : s.Sound) (labels : List Label) :
    View.Onward s.world.view (run step s labels).world.view := by
  induction labels generalizing s with
  | nil => exact .refl _
  | cons label labels ih =>
    obtain ⟨houtcome, -⟩ := step_outcome h label
    exact (houtcome.sound h.rest h.delivered).2.2.trans (ih (step_sound h label))

theorem new_sound (owned autoClose flush : Bool) (start : Option Int) (highWaterMark : Int)
    (limit : Nat) : (new owned autoClose flush start highWaterMark limit).Sound where
  rests :=
    { owns :=
        { consistent := Machine.new_consistent limit
          active := fun _ _ h => by cases h
          once := fun _ _ _ h => by cases h
          live := fun _ h => by cases h
          nodup := List.nodup_nil
          apart := fun _ _ h => by cases h }
      kept := ⟨fun h => (by cases h), fun h => (by cases h)⟩
      view := rfl }
  rest :=
    { events :=
        { recorded := rfl
          finished := fun h => by cases h
          queued := fun h => by cases h
          isOver := fun h => by cases h
          settled := fun h => by cases h
          closed := fun h => by cases h
          errors := rfl
          completes := rfl
          finishes := rfl
          closes := rfl
          order := List.Pairwise.nil }
      phase :=
        { isOver := fun h => by cases h
          failed := fun h => by cases h
          errored := fun h => by cases h
          finishing := fun h => by cases h
          shut := fun h => by cases h
          closing := fun h => by cases h
          empty := fun _ => rfl
          ends := fun _ => rfl
          descriptor := fun h => by cases h
          released := fun h => by cases h
          auto := fun _ hs => by rcases hs with h | h | h <;> cases h } }
  delivered :=
    { started := List.prefix_refl _
      complete := fun h => by cases h
      finished := fun h => by cases h
      closed := ⟨fun h => (by cases h), fun h => (by cases h)⟩
      errors := rfl
      closes := rfl
      finishes := Nat.le_refl _ }
  destroyed := fun h => by cases h

theorem run_sound (owned autoClose flush : Bool) (start : Option Int) (highWaterMark : Int)
    (limit : Nat) (labels : List Label) :
    (run step (new owned autoClose flush start highWaterMark limit) labels).Sound :=
  run_preserves (P := Sound) (fun _ label h => step_sound h label)
    (new_sound owned autoClose flush start highWaterMark limit) labels

end System

end TsonicNode.Stream
