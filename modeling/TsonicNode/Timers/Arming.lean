import TsonicNode.Timers.Retention
import TsonicNode.Lib.Run

/-!
# How often a timer runs

A timer is armed when it is opened and when it is refreshed while active. The
machine below is the poll loop one turn at a time, with a log of what was armed
and what was invoked; `pollTimers_run` connects it with `pollTimers`.

A callback that raises leaves the loop before its timer is deactivated or given
its next due time. Unless it closed or refreshed its timer before, the timer is
still due, and the next poll invokes it again (`invoked_again`). In runs without
such a callback a one-shot timer is invoked at most once per arming, and no
timer twice for the same due time (`System.runs_once`).
-/

namespace TsonicNode.Timers

open TsonicNode.Lib

variable {C : Type}

/-! ## The log -/

inductive Event where
  | armed (timer : Timeout)
  /-- A callback is called, for its due time, on behalf of an interval or a one-shot timer. -/
  | invoked (timer : Timeout) (dueNs : Int) (interval : Bool)

/-- The due times a timer has been invoked for since it was last armed; the log has its newest
event first. -/
def since (timer : Timeout) : List Event → List Int
  | [] => []
  | .armed timer' :: log => if timer' = timer then [] else since timer log
  | .invoked timer' dueNs _ :: log =>
    if timer' = timer then dueNs :: since timer log else since timer log

/-- At every invocation the timer had not been invoked since it was last armed, or it is an
interval and had not been invoked for this due time. -/
def RunsOnce : List Event → Prop
  | [] => True
  | .armed _ :: log => RunsOnce log
  | .invoked timer dueNs interval :: log =>
    (∀ d ∈ since timer log, interval = true ∧ d ≠ dueNs) ∧ RunsOnce log

/-- What a call through the API arms. -/
def Action.arms (w : World C) : Action C → List Event
  | .setTimeout _ _ | .setInterval _ _ =>
    if w.timers.length ≥ maxTimers then [] else [.armed ⟨w.heap.length⟩]
  | .refresh timer => if w.active timer then [.armed timer] else []
  | _ => []

/-- What the calls of a callback arm. -/
def armings : List (Action C) → World C → List Event
  | [], _ => []
  | action :: rest, w => armings rest (finalState (action.perform w)) ++ action.arms w

/-! ## The machine -/

/-- A poll that is under way: the time it read, the length of the list it found, the position it
has come to and what it retains. -/
structure Poll where
  now : Int
  count : Nat
  index : Nat
  retained : List Timeout

structure System (C : Type) where
  world : World C
  poll : Option Poll
  log : List Event

inductive Label (C : Type) where
  /-- A call from outside any poll. -/
  | call (action : Action C)
  | poll
  /-- One turn of the loop, with what the callback does if it is called; past the last position,
  the end of the poll. -/
  | turn (behaviour : Behaviour C)

namespace System

/-- No timers, and any clock. -/
def new (clock : Nat → Int) : System C := ⟨⟨[], [], clock, 0, []⟩, none, []⟩

/-- What a turn adds to the log. -/
def turned (behaviour : Behaviour C) (now : Int) (timer : Timeout) (w : World C) : List Event :=
  if w.active timer ∧ w.dueNs timer ≤ now then
    armings behaviour.actions w ++ [.invoked timer (w.dueNs timer) (w.interval timer)]
  else []

def turn (behaviour : Behaviour C) (p : Poll) (s : System C) : System C :=
  if p.index < p.count then
    match s.world.timers[p.index]? with
    | none => { s with poll := none }
    | some timer =>
      let log := turned behaviour p.now timer s.world ++ s.log
      match visit behaviour p.now timer s.world with
      | .ok (_, keep) w =>
        ⟨w, some { p with
          index := p.index + 1
          retained := if keep then p.retained ++ [timer] else p.retained }, log⟩
      | .error _ w => ⟨w, none, log⟩
  else { s with world := { s.world with timers := p.retained }, poll := none }

def step (s : System C) : Label C → System C
  | .call action =>
    match s.poll with
    | none => ⟨finalState (action.perform s.world), none, action.arms s.world ++ s.log⟩
    | some _ => s
  | .poll =>
    match s.poll with
    | none =>
      { s with
        world := { s.world with readings := s.world.readings + 1 }
        poll := some ⟨s.world.clock s.world.readings, s.world.timers.length, 0, []⟩ }
    | some _ => s
  | .turn behaviour =>
    match s.poll with
    | none => s
    | some p => s.turn behaviour p

/-- The callback of a turn that is due may raise only after it closed or refreshed its timer. -/
def Settles (s : System C) : Label C → Prop
  | .turn behaviour =>
    ∀ p timer, s.poll = some p → p.index < p.count → s.world.timers[p.index]? = some timer →
      s.world.active timer = true → s.world.dueNs timer ≤ p.now → behaviour.raises.isSome = true →
        ∃ action ∈ behaviour.actions, action = .close timer ∨ action = .refresh timer
  | _ => True

end System

/-! ## What the API does to a timer -/

/-- A timer that is active has not been invoked since it was armed, or is an interval that is due
later. -/
def Spaced (timer : Timeout) (w : World C) (log : List Event) : Prop :=
  ∀ s, w.heap[timer.state]? = some s → s.active = true →
    ∀ d ∈ since timer log, s.interval = true ∧ d < s.dueNs

/-- Intervals have a delay. -/
def Delayed (w : World C) : Prop := ∀ s ∈ w.heap, s.interval = true → 0 < s.delayNs

theorem since_arms {timer : Timeout} {d : Int} {w : World C} {action : Action C}
    {log : List Event} (h : d ∈ since timer (action.arms w ++ log)) : d ∈ since timer log := by
  have harmed : ∀ timer' : Timeout, d ∈ since timer (.armed timer' :: log) → d ∈ since timer log := by
    intro timer' h
    unfold since at h
    split at h
    · cases h
    · exact h
  cases action with
  | setTimeout callback delayMs =>
    unfold Action.arms at h
    dsimp only at h
    split at h
    · exact h
    · exact harmed _ h
  | setInterval callback delayMs =>
    unfold Action.arms at h
    dsimp only at h
    split at h
    · exact h
    · exact harmed _ h
  | refresh timer' =>
    unfold Action.arms at h
    dsimp only at h
    split at h
    · exact harmed _ h
    · exact h
  | close timer' => exact h
  | ref timer' => exact h
  | unref timer' => exact h

theorem since_armings {timer : Timeout} {d : Int} (actions : List (Action C)) (w : World C)
    {log : List Event} (h : d ∈ since timer (armings actions w ++ log)) : d ∈ since timer log := by
  induction actions generalizing w log with
  | nil => exact h
  | cons action actions ih =>
    rw [armings, List.append_assoc] at h
    exact since_arms (ih _ h)

section
variable {timer : Timeout} {w w' : World C} {log : List Event}

theorem heap_write (w : World C) (timer : Timeout) (f : TimerState C → TimerState C) (i : Nat) :
    (w.write timer f).heap[i]? = if timer.state = i then (w.heap[i]?).map f else w.heap[i]? := by
  unfold World.write
  rw [List.getElem?_modify]
  split <;> simp

/-- A timer that was just armed has not been invoked since. -/
theorem spaced_armed (timer : Timeout) (w : World C) (log : List Event) :
    Spaced timer w (.armed timer :: log) := by
  intro s _ _ d hd
  rw [since, if_pos rfl] at hd
  cases hd

theorem Spaced.arm (h : Spaced timer w log) (timer' : Timeout) :
    Spaced timer w (.armed timer' :: log) := by
  intro s hs hactive d hd
  rw [since] at hd
  split at hd
  · cases hd
  · exact h s hs hactive d hd

/-- A write that leaves alone what the timer is due for, or deactivates it. -/
theorem Spaced.write {timer' : Timeout} {f : TimerState C → TimerState C}
    (h : Spaced timer w log)
    (hf : ∀ s, (f s).active = true →
      s.active = true ∧ (f s).interval = s.interval ∧ (f s).dueNs = s.dueNs) :
    Spaced timer (w.write timer' f) log := by
  intro s hs hactive d hd
  rw [heap_write] at hs
  split at hs
  · cases hold : w.heap[timer.state]? with
    | none => rw [hold] at hs; cases hs
    | some old =>
      rw [hold] at hs
      obtain rfl : f old = s := Option.some.inj hs
      obtain ⟨hactive', hinterval, hdue⟩ := hf old hactive
      rw [hinterval, hdue]
      exact h old hold hactive' d hd
  · exact h s hs hactive d hd

/-- A new timer is armed. -/
theorem Spaced.append {state : TimerState C} (h : Spaced timer w log)
    (hheap : w'.heap = w.heap ++ [state]) :
    Spaced timer w' (.armed ⟨w.heap.length⟩ :: log) := by
  by_cases hnew : timer = ⟨w.heap.length⟩
  · rw [hnew]
    exact spaced_armed _ w' log
  · refine Spaced.arm (fun s hs => ?_) _
    rw [hheap] at hs
    have hne : timer.state ≠ w.heap.length := fun heq => hnew (by cases timer; cases heq; rfl)
    rcases Nat.lt_or_ge timer.state w.heap.length with hlt | hge
    · rw [List.getElem?_append_left hlt] at hs
      exact h s hs
    · have hlen : (w.heap ++ [state]).length ≤ timer.state := by
        rw [List.length_append, List.length_singleton]
        omega
      rw [List.getElem?_eq_none hlen] at hs
      cases hs

theorem schedule_spaced (callback : C) (delayMs : Int) (interval : Bool)
    (h : Spaced timer w log) :
    Spaced timer (finalState (schedule callback delayMs interval w))
      ((if w.timers.length ≥ maxTimers then [] else [.armed ⟨w.heap.length⟩]) ++ log) := by
  refine wp_final (P := fun w' => Spaced timer w' _) ?_
  simp only [schedule, monotonic, wp_bind, wp_get, wp_ite, wp_throw, wp_modify, wp_pure]
  split
  · exact h
  · exact h.append rfl

/-- A write to another timer. -/
theorem Spaced.other {timer' : Timeout} {f : TimerState C → TimerState C} (h : Spaced timer w log)
    (hne : timer ≠ timer') : Spaced timer (w.write timer' f) log := by
  intro s hs
  have hstate : timer'.state ≠ timer.state := fun heq => by
    cases timer
    cases timer'
    exact hne (by simpa using heq.symm)
  rw [heap_write, if_neg hstate] at hs
  exact h s hs

theorem active_of_heap {s : TimerState C} (hs : w.heap[timer.state]? = some s) :
    w.active timer = s.active := by
  simp [World.active, hs]

theorem spaced_inactive (h : ¬ w.active timer = true) (log : List Event) : Spaced timer w log :=
  fun _ hs hactive => absurd ((active_of_heap hs).trans hactive) h

/-- A refresh arms an active timer and leaves an inactive one alone. -/
theorem refresh_self (timer : Timeout) (w : World C) (log : List Event) :
    Spaced timer (finalState (Timeout.refresh timer w))
      ((if w.active timer then [.armed timer] else []) ++ log) := by
  refine wp_final (P := fun w' => Spaced timer w' _) ?_
  simp only [Timeout.refresh, monotonic, wp_bind, wp_get, wp_modify, wp_pure]
  split
  · exact spaced_armed timer _ log
  · rename_i hinactive
    have hsame := active_write_same (w := { w with readings := w.readings + 1 }) (t := timer)
      (f := fun state => { state with dueNs := w.clock w.readings + state.delayNs })
      (fun _ => rfl) timer
    exact spaced_inactive (fun hactive => hinactive (hsame.symm.trans hactive)) log

theorem refresh_spaced (timer' : Timeout) (h : Spaced timer w log) :
    Spaced timer (finalState (Timeout.refresh timer' w))
      ((if w.active timer' then [.armed timer'] else []) ++ log) := by
  by_cases hsame : timer = timer'
  · subst hsame
    exact refresh_self timer w log
  · refine wp_final (P := fun w' => Spaced timer w' _) ?_
    simp only [Timeout.refresh, monotonic, wp_bind, wp_get, wp_modify, wp_pure]
    have hread : Spaced timer { w with readings := w.readings + 1 } log := h
    split
    · exact (hread.other hsame).arm timer'
    · exact hread.other hsame

/-- A call through the API keeps every timer's runs apart. -/
theorem perform_spaced (action : Action C) (h : Spaced timer w log) :
    Spaced timer (finalState (action.perform w)) (action.arms w ++ log) := by
  cases action with
  | setTimeout callback delayMs =>
    rw [Action.perform, finalState_bind_pure]
    exact schedule_spaced callback delayMs false h
  | setInterval callback delayMs =>
    rw [Action.perform, finalState_bind_pure]
    exact schedule_spaced callback delayMs true h
  | close timer' =>
    refine wp_final (P := fun w' => Spaced timer w' _) ?_
    simp only [Action.perform, Timeout.close, wp_bind, wp_get, wp_ite, wp_modify, wp_pure]
    split
    · exact h.write fun s hs => by cases hs
    · exact h
  | refresh timer' => exact refresh_spaced timer' h
  | ref timer' => exact h.write fun s hs => ⟨hs, rfl, rfl⟩
  | unref timer' => exact h.write fun s hs => ⟨hs, rfl, rfl⟩

theorem schedule_delayed (callback : C) (delayMs : Int) (interval : Bool) (h : Delayed w) :
    Delayed (finalState (schedule callback delayMs interval w)) := by
  refine wp_final (P := Delayed) ?_
  simp only [schedule, monotonic, wp_bind, wp_get, wp_ite, wp_throw, wp_modify, wp_pure]
  split
  · exact h
  · intro s hs hinterval
    rcases List.mem_append.mp hs with hs | hs
    · exact h s hs hinterval
    · obtain rfl := List.mem_singleton.mp hs
      have hinterval : interval = true := hinterval
      simp only [hinterval, if_true]
      omega

theorem Delayed.write {f : TimerState C → TimerState C} (h : Delayed w) (timer : Timeout)
    (hf : ∀ s, (f s).interval = s.interval ∧ (f s).delayNs = s.delayNs) :
    Delayed (w.write timer f) := by
  intro s hs hinterval
  obtain ⟨i, hi⟩ := List.mem_iff_getElem?.mp hs
  rw [heap_write] at hi
  split at hi
  · cases hold : w.heap[i]? with
    | none => rw [hold] at hi; cases hi
    | some old =>
      rw [hold] at hi
      obtain rfl := Option.some.inj hi
      rw [(hf old).1] at hinterval
      rw [(hf old).2]
      exact h old (List.mem_of_getElem? hold) hinterval
  · exact h s (List.mem_of_getElem? hi) hinterval

theorem perform_delayed (action : Action C) (h : Delayed w) :
    Delayed (finalState (action.perform w)) := by
  cases action with
  | setTimeout callback delayMs =>
    rw [Action.perform, finalState_bind_pure]
    exact schedule_delayed callback delayMs false h
  | setInterval callback delayMs =>
    rw [Action.perform, finalState_bind_pure]
    exact schedule_delayed callback delayMs true h
  | close timer =>
    refine wp_final (P := Delayed) ?_
    simp only [Action.perform, Timeout.close, wp_bind, wp_get, wp_ite, wp_modify, wp_pure]
    split
    · exact h.write timer fun s => ⟨rfl, rfl⟩
    · exact h
  | refresh timer => exact h.write timer fun s => ⟨rfl, rfl⟩
  | ref timer => exact h.write timer fun s => ⟨rfl, rfl⟩
  | unref timer => exact h.write timer fun s => ⟨rfl, rfl⟩

/-! ### What a callback does -/

/-- All calls of a callback, one after the other. -/
theorem performAll_final (actions : List (Action C)) (w : World C) :
    finalState (performAll actions w) =
      match actions with
      | [] => w
      | action :: rest => finalState (performAll rest (finalState (action.perform w))) := by
  cases actions with
  | nil => rfl
  | cons action rest =>
    simp only [performAll, bind_run, tryCatch_run]
    cases action.perform w <;> rfl

theorem performAll_spaced (actions : List (Action C)) (h : Spaced timer w log) :
    Spaced timer (finalState (performAll actions w)) (armings actions w ++ log) := by
  induction actions generalizing w log with
  | nil => exact h
  | cons action rest ih =>
    rw [performAll_final, armings, List.append_assoc]
    exact ih (perform_spaced action h)

theorem performAll_delayed (actions : List (Action C)) (h : Delayed w) :
    Delayed (finalState (performAll actions w)) := by
  induction actions generalizing w with
  | nil => exact h
  | cons action rest ih =>
    rw [performAll_final]
    exact ih (perform_delayed action h)

/-- A timer that is closed or refreshed, whatever it was invoked for. -/
theorem settle_spaced {action : Action C} (haction : action = .close timer ∨ action = .refresh timer)
    (w : World C) (log : List Event) :
    Spaced timer (finalState (action.perform w)) (action.arms w ++ log) := by
  rcases haction with rfl | rfl
  · refine spaced_inactive ?_ log
    refine wp_final (P := fun w' : World C => ¬ w'.active timer = true) ?_
    simp only [Action.perform, Timeout.close, wp_bind, wp_get, wp_ite, wp_modify, wp_pure]
    split
    · show ¬ (w.write timer fun state => { state with active := false }).active timer = true
      rw [active_write_clear fun _ => rfl, if_pos rfl]
      exact Bool.false_ne_true
    · rename_i hnone
      simp [World.active, List.getElem?_eq_none (Nat.le_of_not_lt hnone)]
  · exact refresh_self timer w log

theorem performAll_settles {actions : List (Action C)}
    (h : ∃ action ∈ actions, action = .close timer ∨ action = .refresh timer) (w : World C)
    (log : List Event) :
    Spaced timer (finalState (performAll actions w)) (armings actions w ++ log) := by
  induction actions generalizing w log with
  | nil =>
    obtain ⟨_, hmem, _⟩ := h
    cases hmem
  | cons action rest ih =>
    rw [performAll_final, armings, List.append_assoc]
    obtain ⟨action', hmem, haction⟩ := h
    rcases List.mem_cons.mp hmem with rfl | hmem
    · exact performAll_spaced rest (settle_spaced haction w log)
    · exact ih ⟨action', hmem, haction⟩ _ _

end

/-! ## A turn of the loop -/

namespace System

/-- What holds between the steps. -/
structure Apart (s : System C) : Prop where
  spaced : ∀ timer, Spaced timer s.world s.log
  delayed : Delayed s.world
  runsOnce : RunsOnce s.log

section
variable {s : System C}

theorem runsOnce_armings (actions : List (Action C)) (w : World C) {log : List Event}
    (h : RunsOnce log) : RunsOnce (armings actions w ++ log) := by
  induction actions generalizing w log with
  | nil => exact h
  | cons action rest ih =>
    rw [armings, List.append_assoc]
    refine ih _ ?_
    cases action with
    | setTimeout callback delayMs =>
      unfold Action.arms
      dsimp only
      split <;> exact h
    | setInterval callback delayMs =>
      unfold Action.arms
      dsimp only
      split <;> exact h
    | refresh timer =>
      unfold Action.arms
      dsimp only
      split <;> exact h
    | close timer => exact h
    | ref timer => exact h
    | unref timer => exact h

/-- Another timer does not notice an invocation. -/
theorem since_invoked {timer timer' : Timeout} (hne : timer' ≠ timer) (dueNs : Int)
    (interval : Bool) (log : List Event) :
    since timer (.invoked timer' dueNs interval :: log) = since timer log :=
  if_neg hne

theorem performAll_ok (actions : List (Action C)) (w : World C) :
    performAll actions w = .ok () (finalState (performAll actions w)) := by
  induction actions generalizing w with
  | nil => rfl
  | cons action rest ih =>
    rw [performAll_final]
    simp only [performAll, bind_run, tryCatch_run]
    cases action.perform w <;> exact ih _

/-- The turn of a timer that is due: where it ends. -/
theorem visit_due {behaviour : Behaviour C} {now : Int} {timer : Timeout} {w : World C}
    (hactive : w.active timer = true) (hdue : w.dueNs timer ≤ now) :
    finalState (visit behaviour now timer w) =
      match behaviour.raises with
      | some _ => finalState (performAll behaviour.actions w)
      | none =>
        let w' := finalState (performAll behaviour.actions w)
        if w'.interval timer && w'.active timer then
          w'.write timer fun state => { state with dueNs := now + state.delayNs }
        else w'.write timer fun state => { state with active := false } := by
  have hcall : behaviour.call w =
      match behaviour.raises with
      | some error => .error error (finalState (performAll behaviour.actions w))
      | none => .ok () (finalState (performAll behaviour.actions w)) := by
    rw [Behaviour.call, bind_run, performAll_ok]
    cases behaviour.raises <;> rfl
  simp only [visit, bind_run, get_run, if_pos hactive, if_pos hdue, hcall]
  cases behaviour.raises with
  | some error => rfl
  | none =>
    dsimp only
    split <;> rfl

/-- The turn of a timer that is not due, or inactive. -/
theorem visit_idle {behaviour : Behaviour C} {now : Int} {timer : Timeout} {w : World C}
    (h : ¬ (w.active timer = true ∧ w.dueNs timer ≤ now)) :
    finalState (visit behaviour now timer w) = w := by
  unfold visit
  rw [bind_run, get_run]
  dsimp only
  split
  · rename_i hactive
    rw [bind_run, get_run]
    dsimp only
    split
    · rename_i hdue
      exact absurd ⟨hactive, hdue⟩ h
    · rfl
  · rfl

theorem heap_of_active {timer : Timeout} {w : World C} (hactive : w.active timer = true) :
    ∃ state, w.heap[timer.state]? = some state ∧ state.active = true ∧
      w.dueNs timer = state.dueNs ∧ w.interval timer = state.interval := by
  unfold World.active at hactive
  cases hstate : w.heap[timer.state]? with
  | none => rw [hstate] at hactive; cases hactive
  | some state =>
    rw [hstate] at hactive
    exact ⟨state, rfl, hactive, by simp [World.dueNs, hstate], by simp [World.interval, hstate]⟩

/-- An interval that is given its next due time: it lies behind every earlier one. -/
theorem spaced_next {timer : Timeout} {w : World C} {log : List Event} {now : Int}
    (hdelayed : Delayed w) (hinterval : w.interval timer = true)
    (hpast : ∀ d ∈ since timer log, d ≤ now) :
    Spaced timer (w.write timer fun state => { state with dueNs := now + state.delayNs }) log := by
  intro s hs _ d hd
  rw [heap_write, if_pos rfl] at hs
  cases hold : w.heap[timer.state]? with
  | none => rw [hold] at hs; cases hs
  | some old =>
    rw [hold] at hs
    obtain rfl := Option.some.inj hs
    have hinterval : old.interval = true := by
      rw [World.interval, hold] at hinterval
      exact hinterval
    have hdelay := hdelayed old (List.mem_of_getElem? hold) hinterval
    have hle := hpast d hd
    refine ⟨hinterval, ?_⟩
    show d < now + old.delayNs
    omega

/-- A turn of the loop whose callback, if it raises, has settled its timer. -/
theorem Apart.visit (h : Apart s) {behaviour : Behaviour C} (now : Int) (timer : Timeout)
    (hsettles : s.world.active timer = true → s.world.dueNs timer ≤ now →
      behaviour.raises.isSome = true →
        ∃ action ∈ behaviour.actions, action = .close timer ∨ action = .refresh timer)
    (poll : Option Poll) :
    Apart ⟨finalState (Timers.visit behaviour now timer s.world), poll,
      turned behaviour now timer s.world ++ s.log⟩ := by
  by_cases hdue : s.world.active timer = true ∧ s.world.dueNs timer ≤ now
  · have hturned : turned behaviour now timer s.world ++ s.log =
        armings behaviour.actions s.world ++
          .invoked timer (s.world.dueNs timer) (s.world.interval timer) :: s.log := by
      rw [turned, if_pos hdue, List.append_assoc]
      rfl
    obtain ⟨state, hstate, hactive, hdueNs, hinterval⟩ := heap_of_active hdue.1
    have hbefore := h.spaced timer state hstate hactive
    rw [hturned, visit_due hdue.1 hdue.2]
    have hothers : ∀ other, other ≠ timer →
        Spaced other (finalState (performAll behaviour.actions s.world))
          (armings behaviour.actions s.world ++
            .invoked timer (s.world.dueNs timer) (s.world.interval timer) :: s.log) := by
      intro other hne
      refine performAll_spaced behaviour.actions ?_
      intro s' hs' hactive' d hd
      rw [since_invoked hne.symm] at hd
      exact h.spaced other s' hs' hactive' d hd
    have hdelayed := performAll_delayed behaviour.actions h.delayed
    have hruns : RunsOnce (armings behaviour.actions s.world ++
        .invoked timer (s.world.dueNs timer) (s.world.interval timer) :: s.log) := by
      refine runsOnce_armings behaviour.actions s.world ⟨fun d hd => ?_, h.runsOnce⟩
      obtain ⟨hi, hlt⟩ := hbefore d hd
      rw [hinterval, hdueNs]
      exact ⟨hi, Int.ne_of_lt hlt⟩
    cases hraises : behaviour.raises with
    | some error =>
      refine ⟨fun other => ?_, hdelayed, hruns⟩
      by_cases hsame : other = timer
      · subst hsame
        exact performAll_settles (hsettles hdue.1 hdue.2 (by rw [hraises]; rfl)) _ _
      · exact hothers other hsame
    | none =>
      dsimp only
      split
      · rename_i hkeep
        refine ⟨fun other => ?_, hdelayed.write timer fun s => ⟨rfl, rfl⟩, hruns⟩
        by_cases hsame : other = timer
        · subst hsame
          refine spaced_next hdelayed (Bool.and_eq_true _ _ ▸ hkeep).1 fun d hd => ?_
          have hd := since_armings _ _ hd
          rw [since, if_pos rfl] at hd
          rcases List.mem_cons.mp hd with rfl | hd
          · exact hdue.2
          · have hlt := (hbefore d hd).2
            have hle := hdue.2
            omega
        · exact (hothers other hsame).other hsame
      · refine ⟨fun other => ?_, hdelayed.write timer fun s => ⟨rfl, rfl⟩, hruns⟩
        by_cases hsame : other = timer
        · subst hsame
          refine spaced_inactive ?_ _
          rw [active_write_clear fun _ => rfl, if_pos rfl]
          exact Bool.false_ne_true
        · exact (hothers other hsame).other hsame
  · rw [visit_idle hdue, turned, if_neg hdue]
    exact ⟨h.spaced, h.delayed, h.runsOnce⟩

end

/-! ## Runs -/

theorem Apart.turn {s : System C} (h : Apart s) {behaviour : Behaviour C} {p : Poll}
    (hpoll : s.poll = some p) (hsettles : s.Settles (.turn behaviour)) :
    Apart (s.turn behaviour p) := by
  unfold System.turn
  split
  · rename_i hmore
    split
    · exact ⟨h.spaced, h.delayed, h.runsOnce⟩
    · rename_i timer htimer
      have hvisit := h.visit p.now timer (hsettles p timer hpoll hmore htimer)
      generalize Timers.visit behaviour p.now timer s.world = result at hvisit
      obtain ⟨_, w⟩ | ⟨_, w⟩ := result
      · exact hvisit _
      · exact hvisit _
  · exact ⟨h.spaced, h.delayed, h.runsOnce⟩

theorem Apart.step {s : System C} (h : Apart s) (label : Label C) (hsettles : s.Settles label) :
    Apart (s.step label) := by
  cases label with
  | call action =>
    unfold System.step
    dsimp only
    split
    · exact ⟨fun timer => perform_spaced action (h.spaced timer), perform_delayed action h.delayed,
        runsOnce_armings [action] s.world h.runsOnce⟩
    · exact h
  | poll =>
    unfold System.step
    dsimp only
    split
    · exact ⟨h.spaced, h.delayed, h.runsOnce⟩
    · exact h
  | turn behaviour =>
    unfold System.step
    dsimp only
    split
    · exact h
    · rename_i p hpoll
      exact h.turn hpoll hsettles

/-- **A timer runs once for each time it is armed.** In every run whose raising callbacks settle
their timers: no one-shot timer is invoked twice without being armed in between, and no interval
twice for the same due time. -/
theorem runs_once (clock : Nat → Int) (labels : List (Label C))
    (hsettles : Meets step Settles (new clock) labels) :
    RunsOnce (run step (new clock) labels).log := by
  refine (run_invariant (P := Apart) (fun s label h hs => h.step label hs) ?_ hsettles).runsOnce
  exact
    { spaced := fun _ _ hs => by cases hs
      delayed := fun _ hs => by cases hs
      runsOnce := trivial }

/-- A callback that closes its timer and raises. -/
theorem runs_once_closed :
    RunsOnce (run step (new fun _ => 0) [.call (.setTimeout () 0), .poll,
      .turn ⟨[.close ⟨0⟩], some ⟨"failed"⟩⟩, .poll, .turn ⟨[], none⟩]).log :=
  runs_once (fun _ => 0) [.call (.setTimeout () 0), .poll,
    .turn ⟨[.close ⟨0⟩], some ⟨"failed"⟩⟩, .poll, .turn ⟨[], none⟩] <| by
      refine ⟨trivial, trivial, ?_, trivial, fun _ _ _ _ _ _ _ h => (by cases h), trivial⟩
      intro p timer hp _ htimer _ _ _
      obtain rfl := Option.some.inj hp
      obtain rfl := Option.some.inj htimer
      exact ⟨_, List.mem_singleton.mpr rfl, .inl rfl⟩

/-- One timer, armed once, whose callback raises in the first of two polls. -/
theorem invoked_again :
    ¬ RunsOnce (run step (new fun _ => 0) [.call (.setTimeout () 0), .poll,
      .turn ⟨[], some ⟨"failed"⟩⟩, .poll, .turn ⟨[], none⟩]).log := by
  intro h
  have hlog : (run step (new fun _ => 0) [.call (.setTimeout () 0), .poll,
      .turn ⟨[], some ⟨"failed"⟩⟩, .poll, .turn ⟨[], none⟩]).log =
      [.invoked ⟨0⟩ 0 false, .invoked ⟨0⟩ 0 false, .armed ⟨0⟩] := rfl
  rw [hlog] at h
  exact absurd (h.1 0 (by decide)).1 (by decide)

/-! ## The machine is the poll -/

/-- The turns of a poll from a position on, and its end. -/
def turns (behaviour : Nat → Behaviour C) (index remaining : Nat) : List (Label C) :=
  (List.range' index remaining).map (fun i => .turn (behaviour i)) ++ [.turn ⟨[], none⟩]

theorem run_idle {s : System C} (hpoll : s.poll = none) {labels : List (Label C)}
    (hturns : ∀ label ∈ labels, ∃ behaviour, label = .turn behaviour) : run step s labels = s := by
  induction labels with
  | nil => rfl
  | cons label labels ih =>
    obtain ⟨behaviour, rfl⟩ := hturns label (List.mem_cons_self ..)
    have hsame : s.step (.turn behaviour) = s := by simp [step, hpoll]
    rw [run_cons, hsame]
    exact ih fun l hl => hturns l (List.mem_cons_of_mem _ hl)

theorem mem_turns {behaviour : Nat → Behaviour C} {index remaining : Nat} :
    ∀ label ∈ turns behaviour index remaining, ∃ b, label = .turn b := by
  intro label hlabel
  rcases List.mem_append.mp hlabel with h | h
  · obtain ⟨i, -, rfl⟩ := List.mem_map.mp h
    exact ⟨_, rfl⟩
  · exact ⟨_, List.mem_singleton.mp h⟩

theorem pollFrom_run (behaviour : Nat → Behaviour C) (now : Int) (remaining index : Nat)
    (didWork : Bool) (retained : List Timeout) (w : World C) (log : List Event) :
    ∃ log', run step ⟨w, some ⟨now, index + remaining, index, retained⟩, log⟩
        (turns behaviour index remaining) =
      ⟨match pollFrom behaviour now remaining index didWork retained w with
        | .ok (_, retained) w' => { w' with timers := retained }
        | .error _ w' => w', none, log'⟩ := by
  induction remaining generalizing index didWork retained w log with
  | zero =>
    refine ⟨log, ?_⟩
    have hend : ¬ index < index + 0 := Nat.lt_irrefl index
    show (turn ⟨[], none⟩ ⟨now, index + 0, index, retained⟩
      ⟨w, some ⟨now, index + 0, index, retained⟩, log⟩ : System C) = _
    rw [turn]
    exact if_neg hend
  | succ remaining ih =>
    have hturns : turns behaviour index (remaining + 1) =
        .turn (behaviour index) :: turns behaviour (index + 1) remaining := rfl
    have hstep : step ⟨w, some ⟨now, index + (remaining + 1), index, retained⟩, log⟩
        (.turn (behaviour index)) = turn (behaviour index)
          ⟨now, index + (remaining + 1), index, retained⟩
          ⟨w, some ⟨now, index + (remaining + 1), index, retained⟩, log⟩ := rfl
    rw [hturns, run_cons, hstep, turn, if_pos (by show index < index + (remaining + 1); omega)]
    unfold pollFrom
    rw [bind_run, get_run]
    dsimp only
    cases w.timers[index]? with
    | none =>
      exact ⟨log, run_idle rfl mem_turns⟩
    | some timer =>
      dsimp only
      rw [bind_run]
      generalize Timers.visit (behaviour index) now timer w = result
      obtain ⟨⟨fired, keep⟩, w'⟩ | ⟨error, w'⟩ := result
      · have hcount : index + (remaining + 1) = index + 1 + remaining := by omega
        rw [hcount]
        exact ih (index + 1) _ _ w' _
      · exact ⟨_, run_idle rfl mem_turns⟩

/-- The turns of the machine are those of `pollTimers`, whatever its callbacks do. -/
theorem pollTimers_run (behaviour : Nat → Behaviour C) (w : World C) (log : List Event) :
    ∃ log', run step ⟨w, none, log⟩ (.poll :: turns behaviour 0 w.timers.length) =
      ⟨finalState (pollTimers behaviour w), none, log'⟩ := by
  obtain ⟨log', hrun⟩ := pollFrom_run behaviour (w.clock w.readings) w.timers.length 0 false []
    { w with readings := w.readings + 1 } log
  refine ⟨log', ?_⟩
  rw [Nat.zero_add] at hrun
  have hstep : step ⟨w, none, log⟩ .poll = ⟨{ w with readings := w.readings + 1 },
      some ⟨w.clock w.readings, w.timers.length, 0, []⟩, log⟩ := rfl
  have hread : (monotonic : M C Int) w =
      .ok (w.clock w.readings) { w with readings := w.readings + 1 } := rfl
  unfold pollTimers
  rw [run_cons, hstep, hrun, bind_run, hread]
  dsimp only
  rw [bind_run, get_run]
  dsimp only
  rw [bind_run]
  generalize pollFrom behaviour (w.clock w.readings) w.timers.length 0 false []
    { w with readings := w.readings + 1 } = result
  obtain ⟨⟨didWork, retained⟩, w'⟩ | ⟨error, w'⟩ := result
  · rfl
  · rfl

end System

end TsonicNode.Timers
