import Mathlib.Data.List.Pairwise
import TsonicNode.Events.Emitter
import TsonicNode.Lib.Emissions
import TsonicNode.Lib.Run

/-!
# Emissions

A listener may do to the emitter what the program may, emit included, so the
emissions in progress form a stack: on top of it stands the one whose listener
runs. An action is what the running code does next. What it does are moves of
`Lib.Emissions` (`Sound.step_leads`), so what holds of emissions there holds of
every run here.
-/

namespace TsonicNode.Events

open TsonicNode.Lib

variable {JsValue : Type}

/-- An `_emit` inside the call of a listener; `rest` is what is left of its snapshot. -/
structure Emission (JsValue : Type) where
  emit : Nat
  values : JsValue × JsValue × JsValue
  place : Nat
  rest : List ListenerRegistration

inductive Record (JsValue : Type)
  | started (emit : Nat) (snapshot : List ListenerRegistration)
  | called (emit : Nat) (registration : ListenerRegistration) (arguments : List JsValue)
  /-- The `_emit` returned. -/
  | finished (emit : Nat)
  /-- The `_emit` was cut short. -/
  | raised (emit : Nat)

structure System (JsValue : Type) where
  state : EventEmitterState JsValue := {}
  stack : List (Emission JsValue) := []
  emits : Nat := 0
  log : List (Record JsValue) := []

inductive Action (JsValue : Type)
  | add (event : JsValue) (callback : EventCallback) (once prepend : Bool)
  | remove (event : JsValue) (callback : EventCallback)
  | removeAllListeners
  | removeAllListenersFor (event : JsValue)
  | emit (event : JsValue) (values : JsValue × JsValue × JsValue)
  /-- The running listener returns. -/
  | return
  /-- The running listener raises. -/
  | raise

namespace System

/-- The loop of the topmost `_emit`, up to its next callback or its end. -/
def proceed (system : System JsValue) : System JsValue :=
  match system.stack with
  | [] => system
  | emission :: stack =>
    match system.state.nextCallback emission.place emission.rest with
    | (state, some (registration, rest)) =>
      { system with
        state, stack := { emission with rest } :: stack,
        log := system.log ++
          [.called emission.emit registration (invokedWith registration.callback emission.values)] }
    | (state, none) => { system with state, stack, log := system.log ++ [.finished emission.emit] }

/-- A new `_emit` takes its snapshot. -/
def begins (system : System JsValue) (values : JsValue × JsValue × JsValue) (place : Nat) : System JsValue :=
  { system with
    stack := ⟨system.emits, values, place, system.state.listeners place⟩ :: system.stack,
    emits := system.emits + 1,
    log := system.log ++ [.started system.emits (system.state.listeners place)] }

/-- `_emit`, up to its first callback. -/
def emit (js : Values JsValue) (system : System JsValue) (event : JsValue)
    (values : JsValue × JsValue × JsValue) : Except Error (System JsValue) := do
  validateEvent js event
  match system.state.find js event with
  | none =>
    if isErrorEvent js event then
      let text ← js.valueToString values.1
      throw ⟨"Unhandled error event: " ++ text⟩
    else
      return { system with
        emits := system.emits + 1,
        log := system.log ++ [.started system.emits [], .finished system.emits] }
  | some place => return (system.begins values place).proceed

def raise (system : System JsValue) : System JsValue :=
  match system.stack with
  | [] => system
  | emission :: stack => { system with stack, log := system.log ++ [.raised emission.emit] }

/-- The outcome of an operation on the state; the code that called it goes on if it raises. -/
def operate (system : System JsValue) (outcome : Except Error (EventEmitterState JsValue)) : System JsValue :=
  match outcome with
  | .ok state => { system with state }
  | .error _ => system

def step (js : Values JsValue) (system : System JsValue) : Action JsValue → System JsValue
  | .add event callback once prepend => system.operate (system.state.add js event callback once prepend)
  | .remove event callback => system.operate (system.state.remove js event callback)
  | .removeAllListeners => system.operate (.ok system.state.removeAllListeners)
  | .removeAllListenersFor event => system.operate (system.state.removeAllListenersFor js event)
  | .emit event values =>
    match system.emit js event values with
    | .ok system => system
    | .error _ => system
  | .return => system.proceed
  | .raise => system.raise

end System

/-! ## What has happened -/

def Record.call : Record JsValue → Option (Nat × ListenerRegistration)
  | .called emit registration _ => some (emit, registration)
  | _ => none

def Record.start : Record JsValue → Option (Nat × List ListenerRegistration)
  | .started emit snapshot => some (emit, snapshot)
  | _ => none

def Record.finish : Record JsValue → Option Nat
  | .finished emit => some emit
  | _ => none

def Record.cut : Record JsValue → Option Nat
  | .raised emit => some emit
  | _ => none

def callsIn (log : List (Record JsValue)) : List (Nat × ListenerRegistration) := log.filterMap Record.call

/-- The system as emissions. -/
def System.emissions (system : System JsValue) : Emissions ListenerRegistration where
  flags := system.state.flags
  running := system.stack.map fun emission => (emission.emit, emission.rest)
  emits := system.emits
  started := system.log.filterMap Record.start
  calls := callsIn system.log
  finished := system.log.filterMap Record.finish
  raised := system.log.filterMap Record.cut

/-- What is told by one record only. -/
theorem mem_told {α : Type} {told : Record JsValue → Option α} {record : Record JsValue} {x : α}
    (htold : ∀ other, told other = some x ↔ other = record) {log : List (Record JsValue)} :
    x ∈ log.filterMap told ↔ record ∈ log := by
  simp [List.mem_filterMap, htold]

theorem mem_started {emit : Nat} {snapshot : List ListenerRegistration} {log : List (Record JsValue)} :
    (emit, snapshot) ∈ log.filterMap Record.start ↔ .started emit snapshot ∈ log :=
  mem_told fun other => by cases other <;> simp [Record.start]

theorem mem_finished {emit : Nat} {log : List (Record JsValue)} :
    emit ∈ log.filterMap Record.finish ↔ .finished emit ∈ log :=
  mem_told fun other => by cases other <;> simp [Record.finish]

theorem mem_raised {emit : Nat} {log : List (Record JsValue)} : emit ∈ log.filterMap Record.cut ↔ .raised emit ∈ log :=
  mem_told fun other => by cases other <;> simp [Record.cut]

namespace EventEmitterState

/-- The `_emit` of an event begins: the name is one, and no error is left unhandled. -/
def Emits (js : Values JsValue) (state : EventEmitterState JsValue) (event : JsValue) : Prop :=
  validateEvent js event = .ok () ∧ (isErrorEvent js event = true → (state.find js event).isSome = true)

/-- The registrations of an event. -/
def snapshot (js : Values JsValue) (state : EventEmitterState JsValue) (event : JsValue) : List ListenerRegistration :=
  match state.find js event with
  | none => []
  | some place => state.listeners place

end EventEmitterState

/-! ## Moves -/

section Moves

variable {js : Values JsValue} {system : System JsValue}

/-- Moves from one system to the other, as emissions. -/
abbrev Leads (system system' : System JsValue) : Prop :=
  Relation.ReflTransGen (Move ListenerRegistration.once) system.emissions system'.emissions

/-- The cases of the loop of the topmost `_emit`. -/
theorem proceed_cases (system : System JsValue) :
    (system.stack = [] ∧ system.proceed = system) ∨ ∃ emission stack, system.stack = emission :: stack ∧
      ((∀ other ∈ emission.rest, Spent ListenerRegistration.once system.state.flags other) ∧
          system.proceed = { system with stack, log := system.log ++ [.finished emission.emit] } ∨
        ∃ skipped registration rest, emission.rest = skipped ++ registration :: rest ∧
          (∀ other ∈ skipped, Spent ListenerRegistration.once system.state.flags other) ∧
          ¬ Spent ListenerRegistration.once system.state.flags registration ∧
          ∃ state, (registration.once = none ∧ state = system.state ∨
              ∃ flag, registration.once = some flag ∧ state = system.state.consume emission.place flag) ∧
            system.proceed = { system with
              state, stack := { emission with rest } :: stack,
              log := system.log ++
                [.called emission.emit registration (invokedWith registration.callback emission.values)] }) := by
  unfold System.proceed
  cases hstack : system.stack with
  | nil => exact .inl ⟨rfl, rfl⟩
  | cons emission stack =>
    refine .inr ⟨emission, stack, rfl, ?_⟩
    dsimp only
    obtain ⟨skipped, hskipped, ⟨rfl, hnext⟩ | ⟨registration, rest, hrest, hnext⟩⟩ :=
      nextCallback_inv system.state emission.place emission.rest
    · rw [hnext]
      exact .inl ⟨hskipped, rfl⟩
    · right
      rcases hnext with ⟨hnone, hnext⟩ | ⟨flag, honce, hfresh, hnext⟩
      · rw [hnext]
        refine ⟨skipped, registration, rest, hrest, hskipped, ?_, _, .inl ⟨hnone, rfl⟩, rfl⟩
        rintro ⟨flag, hflag, -⟩
        cases hnone.symm.trans hflag
      · rw [hnext]
        refine ⟨skipped, registration, rest, hrest, hskipped, ?_, _, .inr ⟨flag, honce, rfl⟩, rfl⟩
        rintro ⟨flag', hflag', hspent⟩
        cases honce.symm.trans hflag'
        cases hfresh.symm.trans hspent

theorem running_cons {emission : Emission JsValue} {stack : List (Emission JsValue)}
    (hstack : system.stack = emission :: stack) : system.emissions.running =
      (emission.emit, emission.rest) :: stack.map fun emission => (emission.emit, emission.rest) := by
  unfold System.emissions
  rw [hstack]
  rfl

theorem proceed_leads (system : System JsValue) : Leads system system.proceed := by
  rcases proceed_cases system with ⟨-, hproceed⟩ | ⟨emission, stack, hstack, hcases⟩
  · rw [Leads, hproceed]
  · have hrunning := running_cons hstack
    rcases hcases with ⟨hskipped, hproceed⟩ |
      ⟨skipped, registration, rest, hrest, hskipped, hfresh, state, hstate, hproceed⟩
    · have hmove := Move.finishes system.emissions emission.emit emission.rest _ hrunning hskipped
      refine .single ?_
      rw [hproceed]
      convert hmove using 1
      simp [System.emissions, callsIn, Record.start, Record.call, Record.finish, Record.cut]
    · rw [hrest] at hrunning
      have hmove := Move.calls system.emissions emission.emit skipped rest registration _ hrunning hskipped hfresh
      refine .single ?_
      rw [hproceed]
      convert hmove using 1
      have hflags : state.flags = mark ListenerRegistration.once system.state.flags registration := by
        unfold mark
        rcases hstate with ⟨hnone, rfl⟩ | ⟨flag, honce, rfl⟩
        · rw [hnone]
        · rw [honce]
          exact prune_flags _ emission.place
      simp [System.emissions, callsIn, Record.start, Record.call, Record.finish, Record.cut, hflags]

/-- Operations on the state may add a flag. -/
theorem operate_leads {state : EventEmitterState JsValue}
    (hflags : state.flags = system.state.flags ∨ state.flags = system.state.flags ++ [false]) :
    Leads system { system with state } := by
  rcases hflags with hflags | hflags
  · rw [Leads, show ({ system with state } : System JsValue).emissions = system.emissions by
      simp only [System.emissions, hflags]]
  · refine .single ?_
    rw [show ({ system with state } : System JsValue).emissions =
      { system.emissions with flags := system.emissions.flags ++ [false] } by simp only [System.emissions, hflags]]
    exact .flag system.emissions

theorem raise_leads (system : System JsValue) : Leads system system.raise := by
  unfold System.raise
  split
  · exact .refl
  · rename_i emission stack hstack
    have hmove : Move ListenerRegistration.once system.emissions _ :=
      .raises system.emissions emission.emit emission.rest _ (running_cons hstack)
    refine .single ?_
    convert hmove using 1
    simp [System.emissions, callsIn, Record.start, Record.call, Record.finish, Record.cut]

theorem begins_leads (h : Sound js system.state) (values : JsValue × JsValue × JsValue) (place : Nat) :
    Leads system (system.begins values place) := by
  obtain ⟨hnodup, hbound⟩ := h.snapshots place
  have hmove := Move.begins system.emissions (system.state.listeners place) ⟨hnodup, hbound⟩
  refine .single ?_
  convert hmove using 1
  simp [System.emissions, System.begins, callsIn, Record.start, Record.call, Record.finish, Record.cut]

theorem Sound.proceeds (h : Sound js system.state) : Sound js system.proceed.state := by
  rcases proceed_cases system with ⟨-, hproceed⟩ | ⟨emission, stack, -, ⟨-, hproceed⟩ |
    ⟨skipped, registration, rest, -, -, -, state, ⟨-, rfl⟩ | ⟨flag, -, rfl⟩, hproceed⟩⟩
  · rw [hproceed]
    exact h
  · rw [hproceed]
    exact h
  · rw [hproceed]
    exact h
  · rw [hproceed]
    exact h.consumes emission.place flag

/-- Without a group the `_emit` is over at once, as with one that is empty. -/
theorem emit_missing (system : System JsValue) (values : JsValue × JsValue × JsValue) :
    { system with
      emits := system.emits + 1,
      log := system.log ++ [.started system.emits [], .finished system.emits] } =
      (system.begins values system.state.memory.length).proceed := by
  have hempty : system.state.listeners system.state.memory.length = [] := by
    rw [EventEmitterState.listeners, List.getElem?_eq_none (Nat.le_refl _)]
    rfl
  simp only [System.begins, System.proceed, hempty, EventEmitterState.nextCallback, List.append_assoc,
    List.singleton_append]

/-- An `_emit` is refused, or begins with the listeners of its event. -/
theorem emit_cases (js : Values JsValue) (system : System JsValue) (event : JsValue)
    (values : JsValue × JsValue × JsValue) :
    (¬ system.state.Emits js event ∧ system.step js (.emit event values) = system) ∨
      ∃ place, system.state.Emits js event ∧ system.state.listeners place = system.state.snapshot js event ∧
        system.step js (.emit event values) = (system.begins values place).proceed := by
  show (_ ∧ (match system.emit js event values with
    | .ok system => system
    | .error _ => system) = system) ∨ ∃ place, _ ∧ _ ∧ (match system.emit js event values with
    | .ok system => system
    | .error _ => system) = (system.begins values place).proceed
  unfold System.emit EventEmitterState.Emits EventEmitterState.snapshot
  cases hvalid : validateEvent js event with
  | error error => exact .inl ⟨nofun, rfl⟩
  | ok =>
    cases hfound : system.state.find js event with
    | some place => exact .inr ⟨place, ⟨rfl, fun _ => rfl⟩, rfl, rfl⟩
    | none =>
      cases herror : isErrorEvent js event with
      | false =>
        refine .inr ⟨system.state.memory.length, ⟨rfl, nofun⟩, ?_, emit_missing system values⟩
        rw [EventEmitterState.listeners, List.getElem?_eq_none (Nat.le_refl _)]
        rfl
      | true =>
        refine .inl ⟨fun hemits => Bool.false_ne_true (hemits.2 rfl), ?_⟩
        cases js.valueToString values.1 <;> rfl

/-- A step is a sequence of moves, and keeps the state sound. -/
theorem Sound.step_leads (h : Sound js system.state) (action : Action JsValue) :
    Sound js (system.step js action).state ∧ Leads system (system.step js action) := by
  cases action with
  | add event callback once prepend =>
    show Sound js (system.operate (system.state.add js event callback once prepend)).state ∧
      Leads system (system.operate (system.state.add js event callback once prepend))
    cases hadd : system.state.add js event callback once prepend with
    | error error => exact ⟨h, .refl⟩
    | ok state =>
      obtain ⟨hsound, hflags⟩ := h.adds hadd
      exact ⟨hsound, operate_leads hflags⟩
  | remove event callback =>
    show Sound js (system.operate (system.state.remove js event callback)).state ∧
      Leads system (system.operate (system.state.remove js event callback))
    cases hremove : system.state.remove js event callback with
    | error error => exact ⟨h, .refl⟩
    | ok state =>
      obtain ⟨hsound, hflags⟩ := h.removes hremove
      exact ⟨hsound, operate_leads (.inl hflags)⟩
  | removeAllListeners => exact ⟨h.drops (List.nil_sublist _), operate_leads (.inl rfl)⟩
  | removeAllListenersFor event =>
    show Sound js (system.operate (system.state.removeAllListenersFor js event)).state ∧
      Leads system (system.operate (system.state.removeAllListenersFor js event))
    cases hremove : system.state.removeAllListenersFor js event with
    | error error => exact ⟨h, .refl⟩
    | ok state =>
      obtain ⟨hsound, hflags⟩ := h.removesFor hremove
      exact ⟨hsound, operate_leads (.inl hflags)⟩
  | emit event values =>
    rcases emit_cases js system event values with ⟨-, hemit⟩ | ⟨place, -, -, hemit⟩
    · rw [hemit]
      exact ⟨h, .refl⟩
    · rw [hemit]
      exact ⟨@Sound.proceeds _ js (system.begins values place) h,
        (begins_leads h values place).trans (proceed_leads _)⟩
  | «return» => exact ⟨h.proceeds, proceed_leads system⟩
  | raise =>
    refine ⟨?_, raise_leads system⟩
    show Sound js system.raise.state
    unfold System.raise
    split <;> exact h

/-! ## Snapshots -/

theorem proceed_starts (system : System JsValue) {emit : Nat} {snapshot : List ListenerRegistration} :
    .started emit snapshot ∈ system.proceed.log ↔ .started emit snapshot ∈ system.log := by
  rcases proceed_cases system with ⟨-, hproceed⟩ | ⟨emission, stack, -, ⟨-, hproceed⟩ |
    ⟨skipped, registration, rest, -, -, -, state, -, hproceed⟩⟩
  · rw [hproceed]
  · rw [hproceed]
    simp
  · rw [hproceed]
    simp

/-- A snapshot is recorded where an `_emit` begins, and nowhere else. -/
theorem step_starts (js : Values JsValue) (system : System JsValue) (action : Action JsValue) {emit : Nat}
    {snapshot : List ListenerRegistration} :
    .started emit snapshot ∈ (system.step js action).log ↔ .started emit snapshot ∈ system.log ∨
      ∃ event values, action = .emit event values ∧ system.state.Emits js event ∧ emit = system.emits ∧
        snapshot = system.state.snapshot js event := by
  have hkeeps : ∀ {log : List (Record JsValue)}, log = system.log → (∀ event values, action ≠ .emit event values) →
      (.started emit snapshot ∈ log ↔ .started emit snapshot ∈ system.log ∨
        ∃ event values, action = .emit event values ∧ system.state.Emits js event ∧ emit = system.emits ∧
          snapshot = system.state.snapshot js event) := by
    rintro log rfl hother
    exact ⟨.inl, fun h => h.resolve_right fun ⟨event, values, hemit, _⟩ => hother event values hemit⟩
  have hoperate : ∀ outcome : Except Error (EventEmitterState JsValue), (system.operate outcome).log = system.log := by
    intro outcome
    cases outcome <;> rfl
  cases action with
  | add event callback once prepend => exact hkeeps (hoperate _) nofun
  | remove event callback => exact hkeeps (hoperate _) nofun
  | removeAllListeners => exact hkeeps (hoperate _) nofun
  | removeAllListenersFor event => exact hkeeps (hoperate _) nofun
  | emit event values =>
    rcases emit_cases js system event values with ⟨hnot, hemit⟩ | ⟨place, hemits, hsnapshot, hemit⟩
    · rw [hemit]
      refine ⟨.inl, fun h => h.resolve_right ?_⟩
      rintro ⟨event', values', hsame, hemits, -⟩
      cases hsame
      exact hnot hemits
    · rw [hemit, proceed_starts]
      simp only [System.begins, List.mem_append, List.mem_singleton, Record.started.injEq, hsnapshot]
      refine or_congr_right ⟨fun ⟨hemit, hsame⟩ => ⟨event, values, rfl, hemits, hemit, hsame⟩, ?_⟩
      rintro ⟨event', values', hsame, -, hemit, rfl⟩
      cases hsame
      exact ⟨hemit, rfl⟩
  | «return» =>
    show .started emit snapshot ∈ system.proceed.log ↔ _
    rw [proceed_starts]
    exact hkeeps rfl nofun
  | raise =>
    show .started emit snapshot ∈ system.raise.log ↔ _
    unfold System.raise
    split
    · exact hkeeps rfl nofun
    · rw [List.mem_append, or_iff_left (by simp)]
      exact hkeeps rfl nofun

/-- The snapshots on record are those of the `_emit`s that were not refused, as they began. -/
theorem run_starts (js : Values JsValue) (actions : List (Action JsValue)) (emit : Nat)
    (snapshot : List ListenerRegistration) :
    .started emit snapshot ∈ (run (System.step js) {} actions).log ↔
      ∃ before event values after, actions = before ++ .emit event values :: after ∧
        (run (System.step js) {} before).state.Emits js event ∧ emit = (run (System.step js) {} before).emits ∧
        snapshot = (run (System.step js) {} before).state.snapshot js event := by
  have hrun := @run_iff _ _ (System.step js) (fun _ => True) (fun system => .started emit snapshot ∈ system.log) _
    (fun _ _ _ => trivial) (fun system action _ => step_starts js system action) {} trivial actions
  rw [hrun, or_iff_right List.not_mem_nil]
  constructor
  · rintro ⟨before, action, after, hactions, event, values, rfl, hbegun⟩
    exact ⟨before, event, values, after, hactions, hbegun⟩
  · rintro ⟨before, event, values, after, hactions, hbegun⟩
    exact ⟨before, .emit event values, after, hactions, event, values, rfl, hbegun⟩

end Moves

theorem emission_run (js : Values JsValue) (actions : List (Action JsValue)) :
    Sound js (run (System.step js) {} actions).state ∧
      Orderly ListenerRegistration.once (run (System.step js) {} actions).emissions :=
  @run_preserves _ _ (System.step js)
    (fun system => Sound js system.state ∧ Orderly ListenerRegistration.once system.emissions)
    (fun _ action h => ⟨(h.1.step_leads action).1, h.2.leads (h.1.step_leads action).2⟩) _ ⟨sound_new js, .new⟩ actions

theorem Sound.keys {js : Values JsValue} {state : EventEmitterState JsValue} (h : Sound js state)
    (hsymm : ∀ event event', js.eventKeyEqual event event' = js.eventKeyEqual event' event) {place place' : Nat}
    (hplace : place ∈ state.groups) (hplace' : place' ∈ state.groups) (hne : place ≠ place')
    {group group' : EventGroup JsValue} (hgroup : state.memory[place]? = some group)
    (hgroup' : state.memory[place']? = some group') : js.eventKeyEqual group.event group'.event = false := by
  have : Std.Symm fun place place' : Nat => ∀ group group' : EventGroup JsValue,
      state.memory[place]? = some group → state.memory[place']? = some group' →
        js.eventKeyEqual group.event group'.event = false :=
    ⟨fun place place' hpair group group' hgroup hgroup' => (hsymm _ _).trans (hpair group' group hgroup' hgroup)⟩
  exact h.distinct.forall hplace hplace' hne group group' hgroup hgroup'

/-- Whatever the listeners do, each `_emit` that returns has called, in order, the registrations of its
snapshot, but for the once registrations that another one has consumed; its snapshot is what its group had
when it began. -/
theorem emit_calls_snapshot (js : Values JsValue)
    (hsymm : ∀ event event', js.eventKeyEqual event event' = js.eventKeyEqual event' event)
    (actions : List (Action JsValue)) :
    let system := run (System.step js) {} actions
    system.state.groups.Nodup ∧
    (∀ place ∈ system.state.groups, ∃ group, system.state.memory[place]? = some group ∧ group.listeners ≠ []) ∧
    (∀ place ∈ system.state.groups, ∀ place' ∈ system.state.groups, place ≠ place' → ∀ group group',
      system.state.memory[place]? = some group → system.state.memory[place']? = some group' →
        js.eventKeyEqual group.event group'.event = false) ∧
    (∀ emit < system.emits, (∃ emission ∈ system.stack, emission.emit = emit) ∨
      .finished emit ∈ system.log ∨ .raised emit ∈ system.log) ∧
    (∀ emit snapshot, .started emit snapshot ∈ system.log ↔ ∃ before event values after,
      actions = before ++ .emit event values :: after ∧
        let start := run (System.step js) {} before
        start.state.Emits js event ∧ emit = start.emits ∧ snapshot = start.state.snapshot js event) ∧
    (∀ emit snapshot snapshot', .started emit snapshot ∈ system.log → .started emit snapshot' ∈ system.log →
      snapshot = snapshot') ∧
    (∀ emit snapshot, .started emit snapshot ∈ system.log → .finished emit ∈ system.log →
      callsOf (callsIn system.log) emit = snapshot.filter fun registration =>
        !firedElsewhere ListenerRegistration.once (callsIn system.log) emit registration) ∧
    (∀ flag, (callsIn system.log).countP (fun call => call.2.once == some flag) ≤ 1) := by
  intro system
  obtain ⟨hsound, horderly⟩ : Sound js system.state ∧ Orderly ListenerRegistration.once system.emissions :=
    emission_run js actions
  refine ⟨hsound.nodup, ?_, ?_, ?_, run_starts js actions, ?_, ?_, ?_⟩
  · intro place hplace
    refine ⟨_, List.getElem?_eq_getElem (hsound.place_lt hplace), ?_⟩
    rw [← listeners_eq (List.getElem?_eq_getElem (hsound.place_lt hplace))]
    exact hsound.live place hplace
  · intro place hplace place' hplace' hne group group' hgroup hgroup'
    exact hsound.keys hsymm hplace hplace' hne hgroup hgroup'
  · intro emit hemit
    rcases horderly.ended emit hemit with hrunning | hfinished | hraised
    · obtain ⟨running, hmem, hsame⟩ := List.mem_map.mp hrunning
      obtain ⟨emission, hemission, rfl⟩ := List.mem_map.mp hmem
      exact .inl ⟨emission, hemission, hsame⟩
    · exact .inr (.inl (mem_finished.mp hfinished))
    · exact .inr (.inr (mem_raised.mp hraised))
  · intro emit snapshot snapshot' hstarted hstarted'
    exact horderly.started_unique (mem_started.mpr hstarted) (mem_started.mpr hstarted')
  · intro emit snapshot hstarted hfinished
    exact ((horderly.finished emit (mem_finished.mpr hfinished)).2 snapshot (mem_started.mpr hstarted)).called
  · intro flag
    have hcounted : (callsIn system.log).countP (fun call => call.2.once == some flag) = _ := horderly.counted flag
    rw [hcounted]
    split_ifs
    · exact Nat.le_refl _
    · exact Nat.zero_le _

/-- Values that are strings. -/
def textValues : Values String where
  isString _ := true
  isSymbol _ := false
  isErrorText text := text == "error"
  eventKeyEqual event event' := event == event'
  valueToString text := .ok text

/-- A listener emits its own event again: the once listener behind it is called by the inner `_emit`,
and the outer one goes on without it. -/
def nestedEmits : List (Action String) :=
  [.add "event" (.listener1 0) false false, .add "event" (.listener0 1) true false,
    .add "event" (.listener0 2) false false, .emit "event" ("a", "", ""), .emit "event" ("b", "", ""),
    .return, .return, .return, .return, .return]

theorem emit_calls_nested :
    let system := run (System.step textValues) {} nestedEmits
    let once : ListenerRegistration := ⟨.listener0 1, some 0⟩
    .started 0 [⟨.listener1 0, none⟩, once, ⟨.listener0 2, none⟩] ∈ system.log ∧
    .finished 0 ∈ system.log ∧
    callsOf (callsIn system.log) 1 = [⟨.listener1 0, none⟩, once, ⟨.listener0 2, none⟩] ∧
    callsOf (callsIn system.log) 0 = [⟨.listener1 0, none⟩, ⟨.listener0 2, none⟩] := by
  intro system once
  have hlog : system.log = [.started 0 [⟨.listener1 0, none⟩, once, ⟨.listener0 2, none⟩],
      .called 0 ⟨.listener1 0, none⟩ ["a"], .started 1 [⟨.listener1 0, none⟩, once, ⟨.listener0 2, none⟩],
      .called 1 ⟨.listener1 0, none⟩ ["b"], .called 1 once [], .called 1 ⟨.listener0 2, none⟩ [], .finished 1,
      .called 0 ⟨.listener0 2, none⟩ [], .finished 0] := rfl
  have hstarted : .started 0 [⟨.listener1 0, none⟩, once, ⟨.listener0 2, none⟩] ∈ system.log := by
    rw [hlog]
    exact List.mem_cons_self
  have hfinished : .finished 0 ∈ system.log := by
    rw [hlog]
    simp only [List.mem_cons, reduceCtorEq, true_or, or_true]
  obtain ⟨-, -, -, -, -, -, hcalls, -⟩ := emit_calls_snapshot textValues (fun event event' => Bool.beq_comm) nestedEmits
  have hsettled := hcalls 0 _ hstarted hfinished
  refine ⟨hstarted, hfinished, ?_, hsettled.trans ?_⟩
  · rw [hlog]
    rfl
  · show List.filter (fun registration => !firedElsewhere ListenerRegistration.once (callsIn system.log) 0 registration) _ = _
    rw [hlog]
    rfl

end TsonicNode.Events
