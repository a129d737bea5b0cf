import TsonicNode.Filesystem.Delivery

/-!
# Where watchers and events come from

A watcher is made by a call of the program, with the listener of that call, and an
event is what libuv told its native watcher of in a poll (`Sourced`). With what is
kept of events and handles that is what the program can rely on
(`watching_orderly`).
-/

namespace TsonicNode.Filesystem.Watch

open TsonicNode.Lib

variable {Callback Stat : Type}

/-- The call asks for such a watcher. -/
def System.Action.Asks : System.Action Callback Stat → WatchState Callback → Prop
  | .watch path _ _ listener _, state => state.path = path ∧ state.change = listener ∧ state.stat = none
  | .watchFile path _ _ listener _, state => state.path = path ∧ state.change = none ∧ state.stat = some listener
  | _, _ => False

/-- A native watcher is told of such an event. Without a file name there is none in it, and one that cannot be
copied, as any status that is an error, is an error of the event. -/
def System.Occurrence.Reports : System.Occurrence Stat → Nat → FsEvent Stat → Prop
  | .changed place filename rename status _ _, native, value =>
    place = native ∧ value.rename = rename ∧ (value.error = 0 → 0 ≤ status ∧ value.filename = filename)
  | .statChanged place status previous current _, native, value =>
    place = native ∧ value.error = 0 ∧ (∀ stat, previous = some stat → value.previous = stat) ∧
      ∀ stat, status = 0 → current = some stat → value.current = stat
  | .closed _, _, _ => False

/-- A watcher was asked for, and an event was reported in a poll. -/
def Entry.Sourced (actions : List (System.Action Callback Stat)) (events : List (FsEvent Stat)) :
    Entry Callback Stat → Prop
  | .opened state => ∃ action ∈ actions, action.Asks state
  | .enqueued native event => ∃ value, events[event]? = some value ∧ ∃ occurrences, .poll occurrences ∈ actions ∧
      ∃ occurrence ∈ occurrences, occurrence.Reports native value
  | _ => True

theorem Entry.Sourced.mono {actions : List (System.Action Callback Stat)} {events more : List (FsEvent Stat)}
    {entry : Entry Callback Stat} (hevents : events <+: more) (h : entry.Sourced actions events) :
    entry.Sourced actions more := by
  cases entry with
  | enqueued native event =>
    obtain ⟨value, hvalue, hreported⟩ := h
    exact ⟨value, getElem?_extends hevents hvalue, hreported⟩
  | opened state => exact h
  | _ => trivial

namespace System

def Sourced (actions : List (Action Callback Stat)) (system : System Callback Stat) : Prop :=
  ∀ entry ∈ system.record, entry.Sourced actions system.events

/-! ## What is noted -/

/-- What is noted from one state to the other has its source among the actions. -/
structure Adds (actions : List (Action Callback Stat)) (before after : System Callback Stat) : Prop where
  events : before.events <+: after.events
  record : ∀ entry ∈ after.record, entry ∈ before.record ∨ entry.Sourced actions after.events

section
variable {actions : List (Action Callback Stat)} {before middle after : System Callback Stat}

theorem Sourced.adds (h : Sourced actions before) (hadds : Adds actions before after) : Sourced actions after :=
  fun entry hmem => (hadds.record entry hmem).elim (fun hmem => (h entry hmem).mono hadds.events) id

theorem Adds.refl (actions : List (Action Callback Stat)) (system : System Callback Stat) :
    Adds actions system system :=
  ⟨List.prefix_rfl, fun _ hmem => .inl hmem⟩

theorem Adds.trans (h : Adds actions before middle) (h' : Adds actions middle after) : Adds actions before after where
  events := h.events.trans h'.events
  record entry hmem := by
    rcases h'.record entry hmem with hmem | hsourced
    · exact (h.record entry hmem).imp id (Entry.Sourced.mono h'.events)
    · exact .inr hsourced

theorem Adds.notes {entries : List (Entry Callback Stat)} (hrecord : after.record = before.record ++ entries)
    (hentries : ∀ entry ∈ entries, entry.Sourced actions after.events) (hevents : before.events <+: after.events) :
    Adds actions before after :=
  ⟨hevents, fun entry hmem => (List.mem_append.mp (hrecord ▸ hmem)).imp id (hentries entry)⟩

theorem Adds.same (hrecord : after.record = before.record) (hevents : after.events = before.events) :
    Adds actions before after :=
  .notes (hrecord.trans (List.append_nil _).symm) (fun _ hmem => absurd hmem List.not_mem_nil)
    (hevents ▸ List.prefix_rfl)

theorem Adds.note {entry : Entry Callback Stat} (system : System Callback Stat)
    (hentry : entry.Sourced actions system.events) : Adds actions system (system.note entry) :=
  .notes rfl (fun _ hmem => List.mem_singleton.mp hmem ▸ hentry) List.prefix_rfl

end

section
variable {actions : List (Action Callback Stat)} {system : System Callback Stat} {native watcher event : Nat}
  {value : FsWatcher}

theorem Adds.setNative (native : Nat) (value : FsWatcher) (system : System Callback Stat) :
    Adds actions system (system.setNative native value) := .same rfl rfl

theorem Adds.push (codes : List Code) (system : System Callback Stat) : Adds actions system (system.push codes) :=
  .same rfl rfl

theorem Adds.pop (stack : List Code) (system : System Callback Stat) : Adds actions system { system with stack } :=
  .same rfl rfl

/-- libuv tells of an event. -/
theorem Adds.enqueue {occurrences : List (Occurrence Stat)} {occurrence : Occurrence Stat} {told : FsEvent Stat}
    (hpoll : .poll occurrences ∈ actions) (hmem : occurrence ∈ occurrences) (htold : occurrence.Reports native told) :
    Adds actions system (system.enqueue native value told) := by
  refine .notes rfl (fun entry hentry => ?_) (List.prefix_append _ _)
  rw [List.mem_singleton.mp hentry]
  exact ⟨told, List.getElem?_concat_length, occurrences, hpoll, occurrence, hmem, htold⟩

theorem Adds.occur [Inhabited Stat] {occurrences : List (Occurrence Stat)} {occurrence : Occurrence Stat}
    (hpoll : .poll occurrences ∈ actions) (hmem : occurrence ∈ occurrences) (system : System Callback Stat) :
    Adds actions system (system.occur occurrence) := by
  cases occurrence with
  | changed native filename rename status allocates copies =>
    have hstatus : (if status < 0 then status.natAbs else 0) = 0 → 0 ≤ status := by
      split_ifs <;> omega
    dsimp only [System.occur]
    split
    · exact .refl actions system
    · split
      · exact .refl actions system
      · split
        · exact .same rfl rfl
        · split
          · exact .enqueue hpoll hmem ⟨rfl, rfl, fun herror => ⟨hstatus herror, rfl⟩⟩
          · split
            · exact .enqueue hpoll hmem ⟨rfl, rfl, fun herror => absurd herror (show enomem ≠ 0 by decide)⟩
            · exact .enqueue hpoll hmem ⟨rfl, rfl, fun herror => ⟨hstatus herror, rfl⟩⟩
  | statChanged native status previous current allocates =>
    dsimp only [System.occur]
    split
    · exact .refl actions system
    · split
      · exact .refl actions system
      · split
        · exact .same rfl rfl
        · refine .enqueue hpoll hmem ⟨rfl, rfl, ?_, ?_⟩
          · rintro stat rfl
            rfl
          · rintro stat rfl rfl
            rfl
  | closed native =>
    dsimp only [System.occur]
    split
    · exact .refl actions system
    · split
      · exact .refl actions system
      · refine .notes rfl (fun entry hentry => ?_) List.prefix_rfl
        obtain ⟨event, -, rfl⟩ := List.mem_map.mp hentry
        trivial

theorem Adds.occurs [Inhabited Stat] {occurrences : List (Occurrence Stat)} (hpoll : .poll occurrences ∈ actions)
    {rest : List (Occurrence Stat)} (hrest : rest ⊆ occurrences) (system : System Callback Stat) :
    Adds actions system (rest.foldl System.occur system) := by
  induction rest generalizing system with
  | nil => exact .refl actions system
  | cons occurrence rest ih =>
    obtain ⟨hmem, hrest⟩ := List.cons_subset.mp hrest
    exact (Adds.occur hpoll hmem system).trans (ih hrest _)

/-! ## The program -/

theorem Adds.watch {action : Action Callback Stat} (hmem : action ∈ actions) (path : Bytes) (interval : Option Number)
    (persistent : Bool) (change stat : Option Callback) (answer : NewAnswer)
    (hasks : ∀ handle, action.Asks ⟨handle, path, change, stat⟩) (system : System Callback Stat) :
    Adds actions system (system.watch path interval persistent change stat answer) := by
  unfold System.watch
  split
  · exact .refl actions system
  · cases answer with
    | failed => exact .refl actions system
    | unstarted =>
      refine .notes rfl (fun entry hentry => ?_) List.prefix_rfl
      rw [List.mem_singleton.mp hentry]
      trivial
    | started =>
      refine .notes rfl (fun entry hentry => ?_) List.prefix_rfl
      rw [List.mem_singleton.mp hentry]
      exact ⟨action, hmem, hasks _⟩

theorem Adds.close (watcher : Nat) (system : System Callback Stat) :
    Adds actions system (system.close watcher) := by
  unfold System.close
  split
  · exact .refl actions system
  · split
    · exact .refl actions system
    · unfold closeNative
      dsimp only
      split
      · exact .same rfl rfl
      · split
        · exact .same rfl rfl
        · refine .notes rfl (fun entry hentry => ?_) List.prefix_rfl
          rw [List.mem_singleton.mp hentry]
          trivial

theorem Adds.setReferenced (watcher : Nat) (referenced : Bool) (system : System Callback Stat) :
    Adds actions system (system.setReferenced watcher referenced) := by
  unfold System.setReferenced
  split
  · exact .refl actions system
  · split
    · exact .refl actions system
    · exact .same rfl rfl

theorem Adds.unwatchFile (same : Callback → Callback → Bool) (path : Bytes) (listener : Option Callback)
    (system : System Callback Stat) : Adds actions system (system.unwatchFile same path listener) := by
  unfold System.unwatchFile
  generalize system.registry = watchers
  induction watchers generalizing system with
  | nil => exact .refl actions system
  | cons watcher watchers ih =>
    rw [List.foldl_cons]
    refine Adds.trans ?_ (ih _)
    split
    · exact .refl actions system
    · split
      · exact .refl actions system
      · split
        · exact .close watcher system
        · exact .refl actions system

/-! ## Polls -/

theorem Adds.raise (system : System Callback Stat) : Adds actions system system.raise := by
  refine .notes rfl (fun entry hentry => ?_) List.prefix_rfl
  obtain ⟨event, -, rfl⟩ := List.mem_map.mp hentry
  trivial

theorem Adds.free (event : Nat) (system : System Callback Stat) : Adds actions system (system.free event) :=
  .note system trivial

theorem Adds.handleEvent (state : WatchState Callback) (told : FsEvent Stat) (again : Code)
    (system : System Callback Stat) :
    Adds actions system (system.handleEvent watcher native event state told again) := by
  have hdrops : Adds actions system (system.free event).raise := (Adds.free event system).trans (.raise _)
  have hcalls : ∀ callback arguments, Adds actions system ((system.note (.called watcher native event callback arguments
      (system.isOpen watcher))).push [.outside, .release event, again]) := by
    intro callback arguments
    have hnoted : Adds actions system (system.note (.called watcher native event callback arguments
        (system.isOpen watcher))) := .note system trivial
    exact hnoted.trans (.push _ _)
  unfold System.handleEvent
  split
  · exact (Adds.close watcher system).trans ((Adds.free event _).trans (.raise _))
  · split
    · exact hcalls _ _
    · split
      · exact hdrops
      · exact hcalls _ _
    · exact (Adds.free event system).trans (.push _ _)

theorem Adds.turn (worked : Bool) (rest : List Nat) (system : System Callback Stat) :
    Adds actions system (system.turn worked rest) := by
  cases rest with
  | nil => exact .same rfl rfl
  | cons watcher rest =>
    dsimp only [System.turn]
    split
    · exact .push _ system
    · split
      · exact .push _ system
      · rename_i native _
        split
        · exact .push _ system
        · rename_i value _
          split
          · exact (Adds.setNative native _ system).trans ((Adds.close watcher _).trans (.raise _))
          · split
            · exact .push _ system
            · rename_i event queue _
              have htook : Adds actions system (system.took native event value queue) :=
                (Adds.setNative native _ system).trans (.note _ trivial)
              split
              · exact htook
              · exact htook.trans (.handleEvent _ _ _ _)

/-! ## Runs -/

variable [Inhabited Stat] (same : Callback → Callback → Bool)

theorem Adds.act {action : Action Callback Stat} (hmem : action ∈ actions) (system : System Callback Stat) :
    Adds actions system (system.act same action) := by
  cases action with
  | watch path interval persistent listener answer =>
    exact .watch hmem path interval persistent listener none answer (fun _ => ⟨rfl, rfl, rfl⟩) system
  | watchFile path interval persistent listener answer =>
    exact .watch hmem path interval persistent none (some listener) answer (fun _ => ⟨rfl, rfl, rfl⟩) system
  | unwatchFile path listener => exact .unwatchFile same path listener system
  | close watcher => exact .close watcher system
  | setReferenced watcher referenced => exact .setReferenced watcher referenced system
  | poll occurrences => exact (Adds.occurs hmem (List.Subset.refl _) system).trans (.push _ _)
  | «return» => exact .pop _ system
  | raise => exact (Adds.pop system.stack.tail system).trans (.raise _)
  | go => exact .refl actions system

theorem Adds.step {action : Action Callback Stat} (hmem : action ∈ actions) (system : System Callback Stat) :
    Adds actions system (system.step same action) := by
  unfold System.step
  split
  · exact .act same hmem system
  · exact .act same hmem system
  · rename_i rest worked stack _
    split
    · exact (Adds.pop stack system).trans (.turn worked rest _)
    · exact .refl actions system
  · rename_i event stack _
    split
    · exact (Adds.pop stack system).trans (.free event _)
    · exact .refl actions system

theorem sourced_run (actions : List (Action Callback Stat)) :
    Sourced actions (Lib.run (System.step same) {} actions) :=
  run_within (fun _ _ hmem h => h.adds (.step same hmem _)) (fun _ hmem => absurd hmem List.not_mem_nil) actions
    (List.Subset.refl _)

end

/-- However polls nest, whatever listeners do and whenever the system reports. -/
theorem watching_orderly [Inhabited Stat] (same : Callback → Callback → Bool) (actions : List (Action Callback Stat)) :
    let system := Lib.run (System.step same) {} actions
    Watched system ∧ Sourced actions system :=
  ⟨(Orderly.run same actions).watched, sourced_run same actions⟩

end System

end TsonicNode.Filesystem.Watch
