import Mathlib.Data.List.Nodup
import TsonicNode.Filesystem.Watch
import TsonicNode.Lib.Ledger

/-!
# Events and handles of watchers

The events of the bridge are kept in a `Ledger` whose places are the native
watchers. `Handles` says that a native watcher is open as long as one watcher has
its handle, and that open watchers are listed; `Heard` that listeners get what was
taken. A run keeps all three, and `Watched` is what the program sees of them.
-/

namespace TsonicNode.Filesystem.Watch

open TsonicNode.Lib

variable {Callback Stat : Type}

/-! ## What is told of a run -/

def Entry.enqueues : Entry Callback Stat → Option (Nat × Nat)
  | .enqueued native event => some (native, event)
  | _ => none

def Entry.takes : Entry Callback Stat → Option (Nat × Nat)
  | .took native event => some (native, event)
  | _ => none

def Entry.frees : Entry Callback Stat → Option Nat
  | .freed event => some event
  | _ => none

def Entry.discards : Entry Callback Stat → Option Nat
  | .discarded event => some event
  | _ => none

def Entry.shuts : Entry Callback Stat → Option Nat
  | .closes native => some native
  | _ => none

/-- The event that a listener gets. -/
def Entry.gives : Entry Callback Stat → Option (Nat × Nat)
  | .called _ native event _ _ _ => some (native, event)
  | _ => none

def Entry.opens : Entry Callback Stat → Option (WatchState Callback)
  | .opened state => some state
  | _ => none

/-- Which listener of a watcher is told of an event, and what. -/
inductive WatchState.Tells (state : WatchState Callback) (value : FsEvent Stat) : Callback → Arguments Stat → Prop
  | stats {listener : Callback} (hstat : state.stat = some listener) :
      state.Tells value listener (.stats value.current value.previous)
  | change {listener : Callback} {filename : Option (List Char)} (hstat : state.stat = none)
      (hchange : state.change = some listener) (hname : value.filename.mapM fromUtf8 = some filename) :
      state.Tells value listener (.change value.rename filename)

/-- A call is that of the watcher's listener, while it is open, with what the system reported at its handle. -/
def Entry.Fair (opened : List (WatchState Callback)) (events : List (FsEvent Stat)) : Entry Callback Stat → Prop
  | .called watcher native event callback arguments isOpen => isOpen = true ∧ ∃ state value,
      opened[watcher]? = some state ∧ state.handle = some native ∧ events[event]? = some value ∧ value.error = 0 ∧
        state.Tells value callback arguments
  | _ => True

theorem getElem?_extends {α : Type} {xs ys : List α} (h : xs <+: ys) {i : Nat} {x : α} (hget : xs[i]? = some x) :
    ys[i]? = some x := by
  obtain ⟨rest, rfl⟩ := h
  exact List.getElem?_append_left (List.getElem?_eq_some_iff.mp hget).1 ▸ hget

theorem Entry.Fair.mono {opened listed : List (WatchState Callback)} {events more : List (FsEvent Stat)}
    {entry : Entry Callback Stat} (hopened : opened <+: listed) (hevents : events <+: more)
    (h : entry.Fair opened events) : entry.Fair listed more := by
  cases entry with
  | called watcher native event callback arguments isOpen =>
    obtain ⟨hopen, state, value, hstate, hhandle, hvalue, hsound, htells⟩ := h
    exact ⟨hopen, state, value, getElem?_extends hopened hstate, hhandle, getElem?_extends hevents hvalue, hsound,
      htells⟩
  | _ => trivial

def Code.holds : Code → Option Nat
  | .release event => some event
  | _ => none

def FsWatcher.waiting (native : FsWatcher) : Option (List Nat) := if native.freed then none else some native.queue

def WatchState.owns (native : Nat) (state : WatchState Callback) : Nat := if state.handle = some native then 1 else 0

namespace System

def enqueued (system : System Callback Stat) : List (Nat × Nat) := system.record.filterMap Entry.enqueues
def taken (system : System Callback Stat) : List (Nat × Nat) := system.record.filterMap Entry.takes
def given (system : System Callback Stat) : List (Nat × Nat) := system.record.filterMap Entry.gives
def freed (system : System Callback Stat) : List Nat := system.record.filterMap Entry.frees
def discarded (system : System Callback Stat) : List Nat := system.record.filterMap Entry.discards
def shut (system : System Callback Stat) : List Nat := system.record.filterMap Entry.shuts
def held (system : System Callback Stat) : List Nat := system.stack.filterMap Code.holds

/-- The watchers, as they were made. -/
def opened (system : System Callback Stat) : List (WatchState Callback) := system.record.filterMap Entry.opens

/-- No watcher opens. -/
def Closes (before after : System Callback Stat) : Prop :=
  ∀ (watcher : Nat) (state : WatchState Callback) (native : Nat), after.watchers[watcher]? = some state →
    state.handle = some native → before.watchers[watcher]? = some state

def ledger (system : System Callback Stat) : Ledger where
  queues := system.natives.map FsWatcher.waiting
  issued := system.events.length
  enqueued := system.enqueued
  taken := system.taken
  held := system.held
  released := system.freed
  discarded := system.discarded

def closings (system : System Callback Stat) : List Bool := system.natives.map FsWatcher.closing

/-- Who has a handle, and who is listed. -/
structure Handles (system : System Callback Stat) : Prop where
  owners : ∀ native, total (WatchState.owns native) system.watchers =
    if system.closings[native]? = some false then 1 else 0
  shut : ∀ native, system.shut.count native = if system.closings[native]? = some true then 1 else 0
  freed : ∀ value ∈ system.natives, value.freed = true → value.closing = true
  nodup : system.registry.Nodup
  bound : ∀ watcher ∈ system.registry, watcher < system.watchers.length
  listed : ∀ watcher, system.isOpen watcher = true → watcher ∈ system.registry

/-- What listeners get. -/
structure Heard (system : System Callback Stat) : Prop where
  given : system.given.Sublist system.taken
  fair : ∀ entry ∈ system.record, entry.Fair system.opened system.events
  /-- Until it is closed, a watcher is as it was made. -/
  made : ∀ (watcher : Nat) (state : WatchState Callback) (native : Nat), system.watchers[watcher]? = some state →
    state.handle = some native → system.opened[watcher]? = some state
  count : system.opened.length = system.watchers.length

structure Orderly (system : System Callback Stat) : Prop where
  ledger : system.ledger.Sound
  handles : Handles system
  heard : Heard system

section
variable {system : System Callback Stat} {native watcher : Nat} {value : FsWatcher}

/-! ## Native watchers -/

theorem map_set_same {α β : Type} {f : α → β} {xs : List α} {i : Nat} {x y : α} (h : xs[i]? = some x)
    (hsame : f y = f x) : (xs.set i y).map f = xs.map f := by
  obtain ⟨hlt, rfl⟩ := List.getElem?_eq_some_iff.mp h
  rw [List.map_set, hsame, ← List.map_set, List.set_getElem_self]

/-- What is queued at a native watcher stays. -/
theorem ledger_setNative (hnative : system.natives[native]? = some value) {after : FsWatcher}
    (hsame : after.waiting = value.waiting) : (system.setNative native after).ledger = system.ledger := by
  have hqueues : (system.natives.set native after).map FsWatcher.waiting = system.natives.map FsWatcher.waiting :=
    map_set_same hnative hsame
  unfold ledger
  rw [← hqueues]
  rfl

theorem ledger_note {entry : Entry Callback Stat} (henqueues : entry.enqueues = none) (htakes : entry.takes = none)
    (hfrees : entry.frees = none) (hdiscards : entry.discards = none) (system : System Callback Stat) :
    (system.note entry).ledger = system.ledger := by
  simp [ledger, note, enqueued, taken, freed, discarded, held, henqueues, htakes, hfrees, hdiscards]

theorem ledger_enqueue (hfreed : value.freed = false) (event : FsEvent Stat) :
    (system.enqueue native value event).ledger = system.ledger.issue native value.queue := by
  have hwaiting : FsWatcher.waiting { value with queue := value.queue ++ [system.events.length] } =
      some (value.queue ++ [system.events.length]) := if_neg (by simp [hfreed])
  simp [ledger, enqueue, note, setNative, enqueued, taken, freed, discarded, held, Ledger.issue, List.map_set, hwaiting,
    Entry.enqueues, Entry.takes, Entry.frees, Entry.discards]

theorem ledger_closed (native : Nat) (value : FsWatcher) (system : System Callback Stat) :
    ({ system.setNative native { value with queue := [], freed := true } with
      record := system.record ++ value.queue.map .discarded } : System Callback Stat).ledger =
        system.ledger.discard native value.queue := by
  have hwaiting : FsWatcher.waiting { value with queue := [], freed := true } = none := rfl
  simp [ledger, setNative, enqueued, taken, freed, discarded, held, Ledger.discard, List.map_set, hwaiting,
    Function.comp_def, Entry.enqueues, Entry.takes, Entry.frees, Entry.discards]

/-- What changes is of no account to handles. -/
theorem Handles.same (h : Handles system) {after : System Callback Stat} (hclosings : after.closings = system.closings)
    (hfreed : ∀ value ∈ after.natives, value.freed = true → value.closing = true)
    (hwatchers : after.watchers = system.watchers) (hregistry : after.registry = system.registry)
    (hshut : after.shut = system.shut) : Handles after where
  owners := by
    rw [hwatchers, hclosings]
    exact h.owners
  shut := by
    rw [hshut, hclosings]
    exact h.shut
  freed := hfreed
  nodup := hregistry ▸ h.nodup
  bound := by
    rw [hregistry, hwatchers]
    exact h.bound
  listed watcher hopen := by
    unfold isOpen handle at hopen
    rw [hwatchers] at hopen
    rw [hregistry]
    exact h.listed watcher hopen

theorem shut_note {entry : Entry Callback Stat} (hshuts : entry.shuts = none) (system : System Callback Stat) :
    (system.note entry).shut = system.shut := by
  simp [shut, note, hshuts]

/-- A native watcher changes, and neither opens nor closes. -/
theorem Handles.setNative (h : Handles system) (hnative : system.natives[native]? = some value) {after : FsWatcher}
    (hclosing : after.closing = value.closing) (hfreed : after.freed = true → after.closing = true) :
    Handles (system.setNative native after) := by
  refine h.same (map_set_same hnative hclosing) (fun other hmem => ?_) rfl rfl rfl
  rcases List.mem_or_eq_of_mem_set hmem with hmem | rfl
  · exact h.freed other hmem
  · exact hfreed

/-- What is noted is no call and no new watcher. -/
theorem Heard.closes (h : Heard system) {after : System Callback Stat} {entries : List (Entry Callback Stat)}
    (hrecord : after.record = system.record ++ entries) (hcalls : entries.filterMap Entry.gives = [])
    (hopens : entries.filterMap Entry.opens = []) (hevents : system.events <+: after.events)
    (hcloses : Closes system after) (hlength : after.watchers.length = system.watchers.length) : Heard after := by
  have hopened : after.opened = system.opened := by
    unfold opened
    rw [hrecord, List.filterMap_append, hopens, List.append_nil]
  constructor
  · unfold System.given taken
    rw [hrecord, List.filterMap_append, List.filterMap_append, hcalls, List.append_nil]
    exact h.given.trans (List.sublist_append_left _ _)
  · intro entry hmem
    rw [hrecord] at hmem
    rw [hopened]
    rcases List.mem_append.mp hmem with hmem | hmem
    · exact (h.fair entry hmem).mono List.prefix_rfl hevents
    · have hgives := List.filterMap_eq_nil_iff.mp hcalls entry hmem
      cases entry with
      | called => cases hgives
      | _ => trivial
  · intro watcher state native hstate hhandle
    rw [hopened]
    exact h.made watcher state native (hcloses watcher state native hstate hhandle) hhandle
  · rw [hopened, hlength]
    exact h.count

theorem Heard.notes (h : Heard system) {after : System Callback Stat} {entries : List (Entry Callback Stat)}
    (hrecord : after.record = system.record ++ entries) (hcalls : entries.filterMap Entry.gives = [])
    (hopens : entries.filterMap Entry.opens = []) (hevents : system.events <+: after.events)
    (hwatchers : after.watchers = system.watchers) : Heard after :=
  h.closes hrecord hcalls hopens hevents (fun _ _ _ hstate _ => hwatchers ▸ hstate) (congrArg List.length hwatchers)

theorem Heard.same (h : Heard system) {after : System Callback Stat} (hrecord : after.record = system.record)
    (hevents : after.events = system.events) (hwatchers : after.watchers = system.watchers) : Heard after :=
  h.notes (hrecord.trans (List.append_nil _).symm) rfl rfl (hevents ▸ List.prefix_rfl) hwatchers

/-! ## The system reports -/

theorem Orderly.setNative (h : Orderly system) (hnative : system.natives[native]? = some value) {after : FsWatcher}
    (hwaiting : after.waiting = value.waiting) (hclosing : after.closing = value.closing)
    (hfreed : after.freed = true → after.closing = true) : Orderly (system.setNative native after) where
  ledger := by
    rw [ledger_setNative hnative hwaiting]
    exact h.ledger
  handles := h.handles.setNative hnative hclosing hfreed
  heard := h.heard.same rfl rfl rfl

theorem queue_of (hnative : system.natives[native]? = some value) (hfreed : value.freed = false) :
    system.ledger.queues[native]? = some (some value.queue) := by
  have hwaiting : value.waiting = some value.queue := if_neg (by simp [hfreed])
  show (system.natives.map FsWatcher.waiting)[native]? = _
  rw [List.getElem?_map, hnative, Option.map_some, hwaiting]

theorem Orderly.enqueue (h : Orderly system) (hnative : system.natives[native]? = some value)
    (hopen : value.closing = false) (event : FsEvent Stat) : Orderly (system.enqueue native value event) := by
  have hfreed : value.freed = false := by
    refine Bool.eq_false_of_not_eq_true fun hfreed => ?_
    have hclosing := h.handles.freed value (List.mem_of_getElem? hnative) hfreed
    exact absurd (hopen.symm.trans hclosing) Bool.false_ne_true
  constructor
  · rw [ledger_enqueue hfreed]
    exact h.ledger.issue (queue_of hnative hfreed)
  · refine h.handles.same (map_set_same hnative rfl) (fun other hmem => ?_) rfl rfl (shut_note rfl _)
    rcases List.mem_or_eq_of_mem_set hmem with hmem | rfl
    · exact h.handles.freed other hmem
    · exact fun hafter => absurd (hfreed.symm.trans hafter) Bool.false_ne_true
  · exact h.heard.notes rfl rfl rfl (List.prefix_append _ _) rfl

theorem Orderly.occur [Inhabited Stat] (h : Orderly system) (occurrence : Occurrence Stat) :
    Orderly (system.occur occurrence) := by
  cases occurrence with
  | changed native filename rename status allocates copies =>
    dsimp only [System.occur]
    split
    · exact h
    · rename_i value hnative
      split
      · exact h
      · rename_i hidle
        have hopen : value.closing = false := by
          refine Bool.eq_false_of_not_eq_true fun hclosing => hidle ?_
          rw [hclosing]
          exact Bool.true_or _
        split
        · exact h.setNative hnative rfl rfl (h.handles.freed value (List.mem_of_getElem? hnative))
        · split
          · exact h.enqueue hnative hopen _
          · split
            · exact h.enqueue hnative hopen _
            · exact h.enqueue hnative hopen _
  | statChanged native status previous current allocates =>
    dsimp only [System.occur]
    split
    · exact h
    · rename_i value hnative
      split
      · exact h
      · rename_i hidle
        have hopen : value.closing = false := by
          refine Bool.eq_false_of_not_eq_true fun hclosing => hidle ?_
          rw [hclosing]
          exact Bool.true_or _
        split
        · exact h.setNative hnative rfl rfl (h.handles.freed value (List.mem_of_getElem? hnative))
        · exact h.enqueue hnative hopen _
  | closed native =>
    dsimp only [System.occur]
    split
    · exact h
    · rename_i value hnative
      split
      · exact h
      · rename_i hgone
        simp only [Bool.or_eq_true, Bool.not_eq_true', not_or, Bool.not_eq_true, Bool.not_eq_false] at hgone
        obtain ⟨hclosing, hfreed⟩ := hgone
        constructor
        · rw [ledger_closed]
          exact h.ledger.discard (queue_of hnative hfreed)
        · refine h.handles.same (map_set_same hnative rfl) (fun other hmem => ?_) rfl rfl ?_
          · rcases List.mem_or_eq_of_mem_set hmem with hmem | rfl
            · exact h.handles.freed other hmem
            · exact fun _ => hclosing
          · simp [System.shut, Function.comp_def, Entry.shuts]
        · exact h.heard.notes rfl (by simp [Entry.gives, Function.comp_def]) (by simp [Entry.opens, Function.comp_def])
            List.prefix_rfl rfl

/-! ## The program closes and opens watchers -/

/-- A handle is that of an open native watcher. -/
theorem Handles.native_of (h : Handles system) {state : WatchState Callback}
    (hwatcher : system.watchers[watcher]? = some state) (hhandle : state.handle = some native) :
    ∃ value, system.natives[native]? = some value ∧ value.closing = false ∧ value.freed = false := by
  have howns : state.owns native = 1 := if_pos hhandle
  have hle : state.owns native ≤ total (WatchState.owns native) system.watchers :=
    le_total (List.mem_of_getElem? hwatcher)
  have howners := h.owners native
  rw [howns] at hle
  split_ifs at howners with hclosings
  · unfold closings at hclosings
    rw [List.getElem?_map, Option.map_eq_some_iff] at hclosings
    obtain ⟨value, hvalue, hopen⟩ := hclosings
    refine ⟨value, hvalue, hopen, Bool.eq_false_of_not_eq_true fun hfreed => ?_⟩
    have hclosing := h.freed value (List.mem_of_getElem? hvalue) hfreed
    exact absurd (hopen.symm.trans hclosing) Bool.false_ne_true
  · omega

theorem isOpen_set {state : WatchState Callback} {other : Nat} {watchers : List (WatchState Callback)}
    (hwatchers : watchers = system.watchers.set watcher state) (hgone : state.handle = none)
    {after : System Callback Stat} (hafter : after.watchers = watchers) (hopen : after.isOpen other = true) :
    system.isOpen other = true := by
  unfold isOpen handle at hopen ⊢
  rw [hafter, hwatchers] at hopen
  by_cases hother : watcher = other
  · subst hother
    rw [List.getElem?_set] at hopen
    simp only [if_true] at hopen
    split at hopen
    · rw [Option.bind_some, hgone] at hopen
      cases hopen
    · cases hopen
  · rwa [List.getElem?_set_ne hother] at hopen

/-- Closing touches no event. -/
theorem close_cases (h : Handles system) (watcher : Nat) :
    (system.close watcher).ledger = system.ledger ∧ Handles (system.close watcher) ∧
      (Heard system → Heard (system.close watcher)) := by
  unfold System.close
  split
  · exact ⟨rfl, h, id⟩
  · rename_i state hwatcher
    split
    · exact ⟨rfl, h, id⟩
    · rename_i native hhandle
      obtain ⟨value, hvalue, hopen, hfreed⟩ := h.native_of hwatcher hhandle
      unfold closeNative
      dsimp only
      rw [hvalue]
      dsimp only
      rw [hopen, if_neg Bool.false_ne_true]
      have hclosings : (system.natives.set native { value with closing := true }).map FsWatcher.closing =
          system.closings.set native true := List.map_set
      have hbefore : system.closings[native]? = some false := by
        unfold closings
        rw [List.getElem?_map, hvalue, Option.map_some, hopen]
      have hlt : native < system.closings.length := (List.getElem?_eq_some_iff.mp hbefore).1
      have hset : ∀ other, total (WatchState.owns other) (system.watchers.set watcher
          { state with handle := none, change := none, stat := none }) + state.owns other =
            total (WatchState.owns other) system.watchers := fun other => total_set hwatcher _
      refine ⟨?_, ?_, fun hheard => hheard.closes rfl rfl rfl List.prefix_rfl ?_ List.length_set⟩
      · rw [ledger_note rfl rfl rfl rfl]
        have hsame := @ledger_setNative _ _ { system with
          watchers := system.watchers.set watcher { state with handle := none, change := none, stat := none } } native
            value hvalue { value with closing := true } rfl
        rw [hsame]
        rfl
      · refine ⟨fun other => ?_, fun other => ?_, fun changed hmem => ?_, h.nodup, fun listed hmem => ?_,
          fun other hother => h.listed other (isOpen_set rfl rfl rfl hother)⟩
        · show total (WatchState.owns other) (system.watchers.set watcher _) = if (List.map FsWatcher.closing
            (system.natives.set native { value with closing := true }))[other]? = some false then 1 else 0
          have hother := hset other
          rw [h.owners other] at hother
          rw [hclosings]
          by_cases hsame : native = other
          · subst hsame
            have howns : state.owns native = 1 := if_pos hhandle
            rw [List.getElem?_set_self hlt, if_neg fun h => by cases h]
            rw [if_pos hbefore, howns] at hother
            omega
          · have howns : state.owns other = 0 := if_neg fun h => hsame (Option.some.inj (hhandle.symm.trans h))
            rw [List.getElem?_set_ne hsame]
            omega
        · show (List.filterMap Entry.shuts (system.record ++ [.closes native])).count other = if (List.map
            FsWatcher.closing (system.natives.set native { value with closing := true }))[other]? = some true then 1
              else 0
          have hother : (system.record.filterMap Entry.shuts).count other = _ := h.shut other
          rw [List.filterMap_append, List.count_append, hother, hclosings]
          show _ + [native].count other = _
          by_cases hsame : native = other
          · subst hsame
            have hone : [native].count native = 1 := List.count_singleton_self
            rw [List.getElem?_set_self hlt, if_pos rfl, hbefore, hone]
            rfl
          · have hnone : [native].count other = 0 :=
              List.count_eq_zero.mpr fun hmem => hsame (List.mem_singleton.mp hmem).symm
            rw [List.getElem?_set_ne hsame, hnone, Nat.add_zero]
        · rcases List.mem_or_eq_of_mem_set hmem with hmem | rfl
          · exact h.freed changed hmem
          · exact fun _ => rfl
        · show listed < (system.watchers.set watcher _).length
          rw [List.length_set]
          exact h.bound listed hmem
      · intro other after native hafter hnative
        replace hafter : (system.watchers.set watcher _)[other]? = some after := hafter
        by_cases hother : watcher = other
        · subst hother
          rw [List.getElem?_set_self (List.getElem?_eq_some_iff.mp hwatcher).1, Option.some.injEq] at hafter
          subst hafter
          cases hnative
        · rwa [List.getElem?_set_ne hother] at hafter

theorem Orderly.close (h : Orderly system) (watcher : Nat) : Orderly (system.close watcher) := by
  obtain ⟨hledger, hhandles, hheard⟩ := close_cases h.handles watcher
  exact ⟨hledger ▸ h.ledger, hhandles, hheard h.heard⟩

theorem Orderly.setReferenced (h : Orderly system) (watcher : Nat) (referenced : Bool) :
    Orderly (system.setReferenced watcher referenced) := by
  unfold System.setReferenced
  split
  · exact h
  · split
    · exact h
    · rename_i native _ value hnative
      exact h.setNative hnative rfl rfl (h.handles.freed value (List.mem_of_getElem? hnative))

theorem Orderly.unwatchFile (h : Orderly system) (same : Callback → Callback → Bool) (path : Bytes)
    (listener : Option Callback) : Orderly (system.unwatchFile same path listener) := by
  unfold System.unwatchFile
  generalize system.registry = watchers
  induction watchers generalizing system with
  | nil => exact h
  | cons watcher watchers ih =>
    rw [List.foldl_cons]
    refine ih ?_
    split
    · exact h
    · split
      · exact h
      · split
        · exact h.close watcher
        · exact h

/-- A list with one member more, read at a place. -/
theorem getElem?_snoc {α : Type} (xs : List α) (x : α) (i : Nat) :
    (xs ++ [x])[i]? = if i = xs.length then some x else xs[i]? := by
  by_cases hend : i = xs.length
  · rw [if_pos hend, hend, List.getElem?_concat_length]
  · rw [if_neg hend]
    by_cases hlt : i < xs.length
    · exact List.getElem?_append_left hlt
    · rw [List.getElem?_eq_none (by simp; omega), List.getElem?_eq_none (by omega)]

/-- Nobody has the handle of the next native watcher, and it was not closed. -/
theorem Handles.fresh (h : Handles system) :
    total (WatchState.owns system.natives.length) system.watchers = 0 ∧
      system.shut.count system.natives.length = 0 := by
  have hnone : system.closings[system.natives.length]? = none := by
    unfold closings
    rw [List.getElem?_eq_none (by simp)]
  rw [h.owners, h.shut, hnone]
  exact ⟨rfl, rfl⟩

/-- A watcher is made. -/
theorem Heard.opens (h : Heard system) (state : WatchState Callback) {after : System Callback Stat}
    (hrecord : after.record = system.record ++ [.opened state]) (hevents : after.events = system.events)
    (hwatchers : after.watchers = system.watchers ++ [state]) : Heard after := by
  have hopened : after.opened = system.opened ++ [state] := by
    unfold opened
    rw [hrecord, List.filterMap_append]
    rfl
  constructor
  · unfold System.given taken
    rw [hrecord, List.filterMap_append, List.filterMap_append]
    exact h.given.append (List.Sublist.refl [])
  · intro entry hmem
    rw [hrecord] at hmem
    rw [hopened, hevents]
    rcases List.mem_append.mp hmem with hmem | hmem
    · exact (h.fair entry hmem).mono (List.prefix_append _ _) List.prefix_rfl
    · rw [List.mem_singleton.mp hmem]
      trivial
  · intro watcher made native hmade hhandle
    rw [hwatchers, getElem?_snoc] at hmade
    rw [hopened, getElem?_snoc, h.count]
    split_ifs at hmade ⊢ with hend
    · exact hmade
    · exact h.made watcher made native hmade hhandle
  · rw [hopened, hwatchers, List.length_append, List.length_append, h.count]

theorem Orderly.watch (h : Orderly system) (path : Bytes) (interval : Option Number) (persistent : Bool)
    (change stat : Option Callback) (answer : NewAnswer) :
    Orderly (system.watch path interval persistent change stat answer) := by
  unfold System.watch
  split
  · exact h
  · have hnew : ∀ closing : Bool, ∀ value : FsWatcher, value.closing = closing →
        (system.natives ++ [value]).map FsWatcher.closing = system.closings ++ [closing] := by
      rintro closing value rfl
      exact List.map_append
    have hlength : system.closings.length = system.natives.length := List.length_map _
    have hadd : ∀ value : FsWatcher, value.queue = [] → value.freed = false →
        (system.natives ++ [value]).map FsWatcher.waiting = system.ledger.queues ++ [some []] := by
      intro value hqueue hfreed
      rw [List.map_append]
      show _ ++ [value.waiting] = _
      rw [show value.waiting = some [] from (if_neg (by simp [hfreed])).trans (congrArg some hqueue)]
      rfl
    cases answer with
    | failed => exact h
    | unstarted =>
      constructor
      · rw [ledger_note rfl rfl rfl rfl]
        have hledger := h.ledger.add
        unfold Ledger.add at hledger
        rw [← hadd { polling := stat.isSome, closing := true } rfl rfl] at hledger
        exact hledger
      · refine ⟨fun other => ?_, fun other => ?_, fun value hmem => ?_, h.handles.nodup, h.handles.bound,
          h.handles.listed⟩
        · show total (WatchState.owns other) system.watchers = if (List.map FsWatcher.closing
            (system.natives ++ [{ polling := stat.isSome, closing := true }]))[other]? = some false then 1 else 0
          rw [hnew true _ rfl, getElem?_snoc, hlength]
          split
          · rename_i hend
            rw [hend, h.handles.fresh.1]
            rfl
          · exact h.handles.owners other
        · show (List.filterMap Entry.shuts (system.record ++ [.closes system.natives.length])).count other =
            if (List.map FsWatcher.closing
              (system.natives ++ [{ polling := stat.isSome, closing := true }]))[other]? = some true then 1 else 0
          rw [hnew true _ rfl, getElem?_snoc, hlength, List.filterMap_append, List.count_append]
          show system.shut.count other + [system.natives.length].count other = _
          split
          · rename_i hend
            rw [hend, h.handles.fresh.2, List.count_singleton_self]
            rfl
          · rename_i hother
            rw [List.count_eq_zero.mpr fun hmem => hother (List.mem_singleton.mp hmem), Nat.add_zero]
            exact h.handles.shut other
        · rcases List.mem_append.mp hmem with hmem | hmem
          · exact h.handles.freed value hmem
          · rw [List.mem_singleton.mp hmem]
            exact fun _ => rfl
      · exact h.heard.notes rfl rfl rfl List.prefix_rfl rfl
    | started =>
      constructor
      · rw [ledger_note rfl rfl rfl rfl]
        have hledger := h.ledger.add
        unfold Ledger.add at hledger
        rw [← hadd { polling := stat.isSome, referenced := persistent } rfl rfl] at hledger
        exact hledger
      · refine ⟨fun other => ?_, fun other => ?_, fun value hmem => ?_, ?_, fun listed hmem => ?_,
          fun other hopen => ?_⟩
        · show total (WatchState.owns other) (system.watchers ++ [⟨some system.natives.length, path, change, stat⟩]) =
            if (List.map FsWatcher.closing
              (system.natives ++ [{ polling := stat.isSome, referenced := persistent }]))[other]? = some false then 1
                else 0
          rw [hnew false _ rfl, getElem?_snoc, hlength, total_append]
          split
          · rename_i hend
            rw [hend, h.handles.fresh.1, if_pos rfl]
            simp [WatchState.owns]
          · rename_i hother
            have howns :
                WatchState.owns other (⟨some system.natives.length, path, change, stat⟩ : WatchState Callback) = 0 :=
              if_neg fun hsame => hother (Option.some.inj hsame).symm
            rw [total_cons, howns, total_nil]
            exact h.handles.owners other
        · rw [shut_note rfl]
          show system.shut.count other = if (List.map FsWatcher.closing
            (system.natives ++ [{ polling := stat.isSome, referenced := persistent }]))[other]? = some true then 1
              else 0
          rw [hnew false _ rfl, getElem?_snoc, hlength]
          split
          · rename_i hend
            rw [hend, h.handles.fresh.2]
            rfl
          · exact h.handles.shut other
        · rcases List.mem_append.mp hmem with hmem | hmem
          · exact h.handles.freed value hmem
          · rw [List.mem_singleton.mp hmem]
            exact fun hfreed => by cases hfreed
        · refine List.nodup_append.mpr ⟨h.handles.nodup, List.nodup_singleton _, fun listed hmem other hother => ?_⟩
          rw [List.mem_singleton.mp hother]
          exact Nat.ne_of_lt (h.handles.bound listed hmem)
        · show listed < (system.watchers ++ [_]).length
          rw [List.length_append, List.length_singleton]
          rcases List.mem_append.mp hmem with hmem | hmem
          · exact Nat.lt_succ_of_lt (h.handles.bound listed hmem)
          · rw [List.mem_singleton.mp hmem]
            exact Nat.lt_succ_self _
        · show other ∈ system.registry ++ [system.watchers.length]
          rw [List.mem_append, List.mem_singleton]
          by_cases hend : other = system.watchers.length
          · exact .inr hend
          · left
            refine h.handles.listed other ?_
            unfold isOpen handle at hopen ⊢
            replace hopen : ((system.watchers ++ [⟨some system.natives.length, path, change, stat⟩])[other]?.bind
              WatchState.handle).isSome = true := hopen
            rwa [getElem?_snoc, if_neg hend] at hopen
      · exact h.heard.opens _ rfl rfl rfl

/-! ## Polls -/

/-- An error frees what the polls that it ends hold. -/
theorem unwind_holds (stack : List Code) :
    stack.filterMap Code.holds = (unwind stack).1 ++ (unwind stack).2.filterMap Code.holds := by
  induction stack with
  | nil => rfl
  | cons code stack ih =>
    cases code with
    | outside => rfl
    | poll rest worked => exact ih
    | release event => exact congrArg (event :: ·) ih

theorem ledger_raise (system : System Callback Stat) :
    system.raise.ledger =
      system.ledger.releaseAll (unwind system.stack).1 ((unwind system.stack).2.filterMap Code.holds) := by
  simp [ledger, System.raise, enqueued, taken, freed, discarded, held, Ledger.releaseAll, Function.comp_def,
    Entry.enqueues, Entry.takes, Entry.frees, Entry.discards]

theorem Orderly.raise (h : Orderly system) : Orderly system.raise where
  ledger := by
    rw [ledger_raise]
    exact h.ledger.releaseAll (unwind_holds system.stack)
  handles := by
    refine h.handles.same rfl h.handles.freed rfl rfl ?_
    simp [System.shut, System.raise, Function.comp_def, Entry.shuts]
  heard := h.heard.notes rfl (by simp [Function.comp_def, Entry.gives]) (by simp [Function.comp_def, Entry.opens])
    List.prefix_rfl rfl

theorem ledger_free (event : Nat) (system : System Callback Stat) :
    (system.free event).ledger = { system.ledger with released := system.ledger.released ++ [event] } := by
  simp [ledger, System.free, note, enqueued, taken, freed, discarded, held, Entry.enqueues, Entry.takes, Entry.frees,
    Entry.discards]

/-- An event is freed that is held no longer. -/
theorem Orderly.free {event : Nat} (hhandles : Handles system) (hheard : Heard system)
    (hledger : Ledger.Sound { system.ledger with released := system.ledger.released ++ [event] }) :
    Orderly (system.free event) where
  ledger := by
    rw [ledger_free]
    exact hledger
  handles := hhandles.same rfl hhandles.freed rfl rfl (shut_note rfl _)
  heard := hheard.notes rfl rfl rfl List.prefix_rfl rfl

/-- What is put on the stack holds nothing. -/
theorem Orderly.push (h : Orderly system) {codes : List Code} (hcodes : codes.filterMap Code.holds = []) :
    Orderly (system.push codes) where
  ledger := by
    have hheld : (system.push codes).held = system.held := by
      show (codes ++ system.stack).filterMap Code.holds = _
      rw [List.filterMap_append, hcodes]
      rfl
    have hsame : (system.push codes).ledger = system.ledger := by
      unfold System.ledger
      rw [hheld]
      rfl
    rw [hsame]
    exact h.ledger
  handles := h.handles.same rfl h.handles.freed rfl rfl rfl
  heard := h.heard.same rfl rfl rfl

section
variable {event : Nat} {queue : List Nat} {state : WatchState Callback} {told : FsEvent Stat} {again : Code}

theorem ledger_took (hfreed : value.freed = false) :
    ((system.setNative native { value with queue }).note (.took native event)).ledger =
      { system.ledger with
        queues := system.ledger.queues.set native (some queue),
        taken := system.ledger.taken ++ [(native, event)] } := by
  have hwaiting : FsWatcher.waiting { value with queue } = some queue := if_neg (by simp [hfreed])
  simp [ledger, setNative, note, enqueued, taken, freed, discarded, held, List.map_set, hwaiting, Entry.enqueues,
    Entry.takes, Entry.frees, Entry.discards]

/-- The next event is out of its queue. -/
def took (system : System Callback Stat) (native event : Nat) (value : FsWatcher) (queue : List Nat) :
    System Callback Stat :=
  (system.setNative native { value with queue }).note (.took native event)

theorem took_cases (h : Orderly system) (hnative : system.natives[native]? = some value) :
    Handles (system.took native event value queue) ∧ Heard (system.took native event value queue) ∧
      (system.took native event value queue).given = system.given ∧
      (system.took native event value queue).taken = system.taken ++ [(native, event)] := by
  have hset : Handles (system.setNative native { value with queue }) :=
    h.handles.setNative hnative rfl (h.handles.freed value (List.mem_of_getElem? hnative))
  refine ⟨hset.same rfl hset.freed rfl rfl (shut_note rfl _), h.heard.notes rfl rfl rfl List.prefix_rfl rfl, ?_, ?_⟩
  · simp [System.given, took, note, setNative, Entry.gives]
  · simp [taken, took, note, setNative, Entry.takes]

theorem ledger_hold (hagain : again.holds = none) (system : System Callback Stat) :
    (system.push [.outside, .release event, again]).ledger =
      { system.ledger with held := event :: system.ledger.held } := by
  have hheld : (system.push [.outside, .release event, again]).held = event :: system.held := by
    show List.filterMap Code.holds (.outside :: .release event :: again :: system.stack) = _
    rw [List.filterMap_cons_none rfl, List.filterMap_cons, List.filterMap_cons_none hagain]
    rfl
  unfold ledger
  rw [hheld]
  rfl

/-- A listener is called, and the event is held until it returns. -/
theorem Orderly.call (h : Orderly system) (hwatcher : system.watchers[watcher]? = some state)
    (hhandle : state.handle = some native) (hnative : system.natives[native]? = some value)
    (hfreed : value.freed = false) (hqueue : value.queue = event :: queue) (hevent : system.events[event]? = some told)
    (hagain : again.holds = none) {listener : Callback} {arguments : Arguments Stat} (herror : told.error = 0)
    (htells : state.Tells told listener arguments) :
    Orderly (((system.took native event value queue).note (.called watcher native event listener arguments
      ((system.took native event value queue).isOpen watcher))).push [.outside, .release event, again]) := by
  obtain ⟨hhandles, hheard, hgiven, htaken⟩ : Handles (system.took native event value queue) ∧ _ :=
    took_cases h hnative
  have htake := h.ledger.take (hqueue ▸ queue_of hnative hfreed)
  have hopened : (((system.took native event value queue).note (.called watcher native event listener arguments
      ((system.took native event value queue).isOpen watcher))).push [.outside, .release event, again]).opened =
        (system.took native event value queue).opened := by
    show ((system.took native event value queue).record ++ [_]).filterMap Entry.opens = _
    rw [List.filterMap_append]
    exact List.append_nil _
  constructor
  · have hledger : (system.took native event value queue).ledger = _ := ledger_took hfreed
    rw [ledger_hold hagain, ledger_note rfl rfl rfl rfl, hledger]
    exact htake
  · exact hhandles.same rfl hhandles.freed rfl rfl (shut_note rfl _)
  · constructor
    · show List.Sublist (List.filterMap Entry.gives (_ ++ [_])) (List.filterMap Entry.takes (_ ++ [_]))
      rw [List.filterMap_append, List.filterMap_append]
      show List.Sublist ((system.took native event value queue).given ++ [(native, event)])
        ((system.took native event value queue).taken ++ [])
      rw [hgiven, htaken, List.append_nil]
      exact h.heard.given.append (List.Sublist.refl _)
    · intro entry hmem
      rw [hopened]
      rcases List.mem_append.mp hmem with hmem | hmem
      · exact hheard.fair entry hmem
      · rw [List.mem_singleton.mp hmem]
        refine ⟨?_, state, told, hheard.made watcher state native hwatcher hhandle, hhandle, hevent, herror, htells⟩
        have hopen : (system.took native event value queue).handle watcher = some native :=
          Option.bind_eq_some_iff.mpr ⟨state, hwatcher, hhandle⟩
        unfold isOpen
        rw [hopen]
        rfl
    · rw [hopened]
      exact hheard.made
    · rw [hopened]
      exact hheard.count

/-- No listener gets the event. -/
theorem Orderly.drop (h : Orderly system) (hnative : system.natives[native]? = some value)
    (hfreed : value.freed = false) (hqueue : value.queue = event :: queue) {base : System Callback Stat}
    (hhandles : Handles base) (hheard : Heard base)
    (hledger : base.ledger = (system.took native event value queue).ledger) : Orderly (base.free event) := by
  refine .free hhandles hheard ?_
  have htake := (h.ledger.take (hqueue ▸ queue_of hnative hfreed)).release rfl
  rw [hledger, show (system.took native event value queue).ledger = _ from ledger_took hfreed]
  exact htake

theorem Orderly.handleEvent (h : Orderly system) (hwatcher : system.watchers[watcher]? = some state)
    (hhandle : state.handle = some native) (hnative : system.natives[native]? = some value)
    (hqueue : value.queue = event :: queue) (hevent : system.events[event]? = some told) (hagain : again.holds = none) :
    Orderly ((system.took native event value queue).handleEvent watcher native event state told again) := by
  obtain ⟨value', hvalue, -, hfreed⟩ := h.handles.native_of hwatcher hhandle
  rw [hnative] at hvalue
  cases hvalue
  obtain ⟨hhandles, hheard, -⟩ : Handles (system.took native event value queue) ∧ _ := took_cases h hnative
  unfold System.handleEvent
  split
  · obtain ⟨hsame, hclosed, hkept⟩ := close_cases hhandles watcher
    exact (h.drop hnative hfreed hqueue hclosed (hkept hheard) hsame).raise
  · rename_i herror
    have herror : told.error = 0 := by simpa using herror
    split
    · rename_i listener hstat
      exact h.call hwatcher hhandle hnative hfreed hqueue hevent hagain herror (.stats hstat)
    · rename_i listener hstat hchange
      split
      · exact (h.drop hnative hfreed hqueue hhandles hheard rfl).raise
      · rename_i filename hfilename
        exact h.call hwatcher hhandle hnative hfreed hqueue hevent hagain herror (.change hstat hchange hfilename)
    · exact (h.drop hnative hfreed hqueue hhandles hheard rfl).push (by simp [hagain])

end

/-- The list keeps the watchers that are open. -/
theorem Orderly.prune (h : Orderly system) :
    Orderly { system with registry := system.registry.filter system.isOpen } where
  ledger := h.ledger
  handles := ⟨h.handles.owners, h.handles.shut, h.handles.freed, h.handles.nodup.filter _,
    fun watcher hmem => h.handles.bound watcher (List.mem_of_mem_filter hmem),
    fun watcher hopen => List.mem_filter.mpr ⟨h.handles.listed watcher hopen, hopen⟩⟩
  heard := h.heard.same rfl rfl rfl

theorem Orderly.turn (h : Orderly system) (worked : Bool) (rest : List Nat) : Orderly (system.turn worked rest) := by
  cases rest with
  | nil => exact h.prune
  | cons watcher rest =>
    have hgoes : Orderly (system.push [.poll rest worked]) := h.push rfl
    dsimp only [System.turn]
    split
    · exact hgoes
    · rename_i state hwatcher
      split
      · exact hgoes
      · rename_i native hhandle
        split
        · exact hgoes
        · rename_i value hnative
          split
          · refine Orderly.raise (Orderly.close ?_ watcher)
            exact h.setNative hnative rfl rfl (h.handles.freed value (List.mem_of_getElem? hnative))
          · split
            · exact hgoes
            · rename_i event queue hqueue
              split
              · -- what waits was reported
                rename_i hnone
                obtain ⟨value', hvalue, -, hfreed⟩ := h.handles.native_of hwatcher hhandle
                rw [hnative] at hvalue
                cases hvalue
                have hlt : event < system.events.length :=
                  h.ledger.waiting_lt (queue_of hnative hfreed) (hqueue ▸ List.mem_cons_self)
                exact absurd (List.getElem?_eq_none_iff.mp hnone) (Nat.not_le_of_lt hlt)
              · rename_i told hevent
                exact h.handleEvent hwatcher hhandle hnative hqueue hevent rfl

/-! ## Steps -/

/-- The code on top of the stack holds nothing. -/
theorem Orderly.pop (h : Orderly system) {stack : List Code} (hstack : stack.filterMap Code.holds = system.held) :
    Orderly { system with stack } where
  ledger := by
    have hsame : ({ system with stack } : System Callback Stat).ledger = system.ledger := by
      unfold System.ledger
      rw [← hstack]
      rfl
    rw [hsame]
    exact h.ledger
  handles := h.handles.same rfl h.handles.freed rfl rfl rfl
  heard := h.heard.same rfl rfl rfl

variable [Inhabited Stat] (same : Callback → Callback → Bool)

theorem Orderly.reported (h : Orderly system) (occurrences : List (Occurrence Stat)) :
    Orderly (occurrences.foldl System.occur system) := by
  induction occurrences generalizing system with
  | nil => exact h
  | cons occurrence occurrences ih => exact ih (h.occur occurrence)

theorem Orderly.act (h : Orderly system) (hrest : system.stack.tail.filterMap Code.holds = system.held)
    (action : Action Callback Stat) : Orderly (system.act same action) := by
  cases action with
  | watch path interval persistent listener answer => exact h.watch path interval persistent listener none answer
  | watchFile path interval persistent listener answer =>
    exact h.watch path interval persistent none (some listener) answer
  | unwatchFile path listener => exact h.unwatchFile same path listener
  | close watcher => exact h.close watcher
  | setReferenced watcher referenced => exact h.setReferenced watcher referenced
  | poll occurrences =>
    exact (h.reported occurrences).push rfl
  | «return» => exact h.pop hrest
  | raise => exact (h.pop hrest).raise
  | go => exact h

theorem Orderly.step (h : Orderly system) (action : Action Callback Stat) : Orderly (system.step same action) := by
  unfold System.step
  split
  · rename_i hstack
    refine h.act same ?_ action
    unfold held
    rw [hstack]
    rfl
  · rename_i rest hstack
    refine h.act same ?_ action
    unfold held
    rw [hstack]
    rfl
  · rename_i rest worked stack hstack
    split
    · refine (h.pop ?_).turn worked rest
      unfold held
      rw [hstack]
      rfl
    · exact h
  · rename_i event stack hstack
    split
    · -- the event that a listener got is freed behind it
      have hheld : system.ledger.held = event :: stack.filterMap Code.holds := by
        show system.stack.filterMap Code.holds = _
        rw [hstack]
        rfl
      exact @Orderly.free _ _ { system with stack } event (h.handles.same rfl h.handles.freed rfl rfl rfl)
        (h.heard.same rfl rfl rfl) (h.ledger.release hheld)
    · exact h

/-! ## Runs -/

omit [Inhabited Stat] in
theorem orderly_new : Orderly ({} : System Callback Stat) where
  ledger := Ledger.sound_new
  handles := ⟨fun _ => rfl, fun _ => rfl, fun _ hmem => absurd hmem List.not_mem_nil, List.nodup_nil,
    fun _ hmem => absurd hmem List.not_mem_nil, fun _ hopen => absurd hopen Bool.false_ne_true⟩
  heard := ⟨List.Sublist.refl _, fun _ hmem => absurd hmem List.not_mem_nil,
    fun _ _ _ hstate _ => absurd hstate (by simp), rfl⟩

theorem Orderly.run (actions : List (Action Callback Stat)) : Orderly (Lib.run (System.step same) {} actions) :=
  run_preserves (fun _ action h => h.step same action) orderly_new actions

end

/-! ## What the program sees -/

open Ledger (ofPlace)

/-- An event that waits at a native watcher. -/
def Waits (system : System Callback Stat) (event native : Nat) : Prop :=
  ∃ value, system.natives[native]? = some value ∧ value.freed = false ∧ event ∈ value.queue

/-- Where the events are and have been, and what a handle is good for. -/
structure Watched (system : System Callback Stat) : Prop where
  /-- An event is freed once, by the poll that took it or with its queue. -/
  once : (system.freed ++ system.discarded).Nodup
  complete : ∀ event < system.events.length,
    event ∈ system.freed ++ system.discarded ∨ event ∈ system.held ∨ ∃ native, system.Waits event native
  /-- What a poll has in its hands is not freed, and nobody else gets it. -/
  held : ∀ event ∈ system.held, event < system.events.length ∧ event ∉ system.freed ++ system.discarded ∧
    ∀ native, ¬ system.Waits event native
  /-- What waits is not freed and waits once, and no poll has it. -/
  waiting : ∀ event native, system.Waits event native → event < system.events.length ∧
    event ∉ system.freed ++ system.discarded ∧ event ∉ system.held ∧ ∀ other, system.Waits event other → other = native
  queued : ∀ value ∈ system.natives, value.freed = false → value.queue.Nodup
  /-- `uv_close` is called once for each handle that closes. -/
  closed : ∀ native, system.shut.count native = if system.closings[native]? = some true then 1 else 0
  /-- The handle of a watcher is neither closed nor freed, and `poll_watchers` finds the watcher. -/
  handles : ∀ watcher native, system.handle watcher = some native → watcher ∈ system.registry ∧
    ∃ value, system.natives[native]? = some value ∧ value.closing = false ∧ value.freed = false
  distinct : ∀ first second native, system.handle first = some native → system.handle second = some native →
    first = second
  listed : system.registry.Nodup
  /-- Events are taken in the order in which they were reported; until the native watcher is freed, the others wait. -/
  order : ∀ native, ∃ rest, ofPlace native system.enqueued = ofPlace native system.taken ++ rest ∧
    ∀ value, system.natives[native]? = some value → value.freed = false → rest = value.queue
  given : ∀ native, (ofPlace native system.given).Sublist (ofPlace native system.taken)
  fair : ∀ entry ∈ system.record, entry.Fair system.opened system.events
  /-- Until it is closed, a watcher has the handle and the listeners that it was made with. -/
  made : ∀ (watcher : Nat) (state : WatchState Callback) (native : Nat), system.watchers[watcher]? = some state →
    state.handle = some native → system.opened[watcher]? = some state

section
variable {system : System Callback Stat}

theorem ledger_queue {native : Nat} {queue : List Nat} :
    system.ledger.queues[native]? = some (some queue) ↔
      ∃ value, system.natives[native]? = some value ∧ value.freed = false ∧ value.queue = queue := by
  show (system.natives.map FsWatcher.waiting)[native]? = _ ↔ _
  rw [List.getElem?_map, Option.map_eq_some_iff]
  refine exists_congr fun value => and_congr_right fun _ => ?_
  unfold FsWatcher.waiting
  cases value.freed <;> simp

theorem handle_eq {watcher native : Nat} (hhandle : system.handle watcher = some native) :
    ∃ state, system.watchers[watcher]? = some state ∧ state.handle = some native :=
  Option.bind_eq_some_iff.mp hhandle

theorem Handles.apart (h : Handles system) {first second native : Nat} (hfirst : system.handle first = some native)
    (hsecond : system.handle second = some native) : ¬ first < second := by
  intro hlt
  obtain ⟨one, hone, howns⟩ := handle_eq hfirst
  obtain ⟨two, htwo, howns'⟩ := handle_eq hsecond
  have hle := @add_le_total _ (WatchState.owns native) _ _ _ _ _ hone htwo hlt
  have hone : one.owns native = 1 := if_pos howns
  have htwo : two.owns native = 1 := if_pos howns'
  have howners := h.owners native
  split_ifs at howners <;> omega

theorem Orderly.watched (h : Orderly system) : Watched system where
  once := h.ledger.nodup
  complete event hevent := by
    refine (h.ledger.complete hevent).imp id (Or.imp id ?_)
    rintro ⟨native, queue, hqueue, hmem⟩
    obtain ⟨value, hvalue, hfreed, rfl⟩ := ledger_queue.mp hqueue
    exact ⟨native, value, hvalue, hfreed, hmem⟩
  held event hheld := by
    obtain ⟨hlt, hgone, hwaits⟩ := h.ledger.of_held hheld
    refine ⟨hlt, hgone, fun native ⟨value, hvalue, hfreed, hmem⟩ => ?_⟩
    exact hwaits native value.queue (ledger_queue.mpr ⟨value, hvalue, hfreed, rfl⟩) hmem
  waiting event native := by
    rintro ⟨value, hvalue, hfreed, hmem⟩
    have hqueue := ledger_queue.mpr ⟨value, hvalue, hfreed, rfl⟩
    obtain ⟨hheld, hgone, halone⟩ := h.ledger.of_waiting hqueue hmem
    refine ⟨h.ledger.waiting_lt hqueue hmem, hgone, hheld, fun other ⟨after, hafter, hopen, hmem⟩ => ?_⟩
    exact halone other after.queue (ledger_queue.mpr ⟨after, hafter, hopen, rfl⟩) hmem
  queued value hmem hfreed := by
    obtain ⟨native, hnative⟩ := List.mem_iff_getElem?.mp hmem
    exact h.ledger.queue_nodup (ledger_queue.mpr ⟨value, hnative, hfreed, rfl⟩)
  closed := h.handles.shut
  handles watcher native hhandle := by
    obtain ⟨state, hstate, hnative⟩ := handle_eq hhandle
    refine ⟨h.handles.listed watcher ?_, h.handles.native_of hstate hnative⟩
    unfold isOpen
    rw [hhandle]
    rfl
  distinct first second native hfirst hsecond := by
    have hle := h.handles.apart hfirst hsecond
    have hge := h.handles.apart hsecond hfirst
    omega
  listed := h.handles.nodup
  order native := by
    obtain ⟨rest, horder, hqueue⟩ := h.ledger.order native
    exact ⟨rest, horder, fun value hvalue hfreed => hqueue _ (ledger_queue.mpr ⟨value, hvalue, hfreed, rfl⟩)⟩
  given native := (h.heard.given.filter _).map _
  fair := h.heard.fair
  made := h.heard.made

end

end System

end TsonicNode.Filesystem.Watch
