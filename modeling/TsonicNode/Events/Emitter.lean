import Mathlib.Data.List.Basic
import Mathlib.Data.List.Nodup
import TsonicNode.Runtime

/-!
# Event emitters

The state of an `EventEmitter` and the operations on it. A group is shared by
the list of groups and by the emissions that hold it, so groups stand in a
memory and the list has their places; the flag of a once registration is
shared with the snapshots and stands in a memory too. `Sound` is what holds of
the state between the operations: no group is empty, no two have one key.
-/

namespace TsonicNode.Events

variable {JsValue : Type}

/-- What the emitter asks of the values of the language. -/
structure Values (JsValue : Type) where
  isString : JsValue → Bool
  isSymbol : JsValue → Bool
  /-- The string is `error`. -/
  isErrorText : JsValue → Bool
  eventKeyEqual : JsValue → JsValue → Bool
  /-- `js_value_to_string`, as native text. -/
  valueToString : JsValue → Except Error String

/-- A callable by its environment, with the number of values it takes. -/
inductive EventCallback
  | listener0 (identity : Nat)
  | listener1 (identity : Nat)
  | listener2 (identity : Nat)
  | listener3 (identity : Nat)
  deriving DecidableEq

def callbackIdentity : EventCallback → Nat
  | .listener0 identity => identity
  | .listener1 identity => identity
  | .listener2 identity => identity
  | .listener3 identity => identity

/-- The values that `invoke_callback` passes on. -/
def invokedWith (callback : EventCallback) (values : JsValue × JsValue × JsValue) : List JsValue :=
  match callback with
  | .listener0 _ => []
  | .listener1 _ => [values.1]
  | .listener2 _ => [values.1, values.2.1]
  | .listener3 _ => [values.1, values.2.1, values.2.2]

/-- `once` is the place of the flag. -/
structure ListenerRegistration where
  callback : EventCallback
  once : Option Nat
  deriving DecidableEq

structure EventGroup (JsValue : Type) where
  event : JsValue
  listeners : List ListenerRegistration

structure EventEmitterState (JsValue : Type) where
  groups : List Nat := []
  memory : List (EventGroup JsValue) := []
  flags : List Bool := []

def validateEvent (js : Values JsValue) (event : JsValue) : Except Error Unit :=
  if !js.isString event && !js.isSymbol event then .error ⟨"Event name must be a string or symbol"⟩ else .ok ()

def isErrorEvent (js : Values JsValue) (event : JsValue) : Bool := js.isString event && js.isErrorText event

namespace EventEmitterState

/-- The group of a key in the list. -/
def HasKey (js : Values JsValue) (state : EventEmitterState JsValue) (event : JsValue) (place : Nat) : Bool :=
  (state.memory[place]?).any fun group => js.eventKeyEqual group.event event

def find (js : Values JsValue) (state : EventEmitterState JsValue) (event : JsValue) : Option Nat :=
  state.groups.find? (state.HasKey js event)

def listeners (state : EventEmitterState JsValue) (place : Nat) : List ListenerRegistration :=
  ((state.memory[place]?).map EventGroup.listeners).getD []

def modifyListeners (state : EventEmitterState JsValue) (place : Nat)
    (change : List ListenerRegistration → List ListenerRegistration) : EventEmitterState JsValue :=
  { state with memory := state.memory.modify place fun group => { group with listeners := change group.listeners } }

def prune (state : EventEmitterState JsValue) (place : Nat) : EventEmitterState JsValue :=
  if (state.listeners place).length ≠ 0 then state else { state with groups := state.groups.erase place }

/-- The group that `_add` selects. -/
def select (js : Values JsValue) (state : EventEmitterState JsValue) (event : JsValue) :
    Nat × EventEmitterState JsValue :=
  match state.find js event with
  | some place => (place, state)
  | none =>
    (state.memory.length,
      { state with memory := state.memory ++ [⟨event, []⟩], groups := state.groups ++ [state.memory.length] })

/-- `ListenerRegistration(callback, once)`. -/
def register (state : EventEmitterState JsValue) (callback : EventCallback) (once : Bool) :
    ListenerRegistration × EventEmitterState JsValue :=
  if once then (⟨callback, some state.flags.length⟩, { state with flags := state.flags ++ [false] })
  else (⟨callback, none⟩, state)

/-- `_add`. -/
def add (js : Values JsValue) (state : EventEmitterState JsValue) (event : JsValue) (callback : EventCallback)
    (once prepend : Bool) : Except Error (EventEmitterState JsValue) := do
  validateEvent js event
  let (place, state) := state.select js event
  let (entry, state) := state.register callback once
  return state.modifyListeners place fun listeners => if prepend then entry :: listeners else listeners ++ [entry]

/-- The loop of `_remove`, from the last registration on. -/
def removeLast (state : EventEmitterState JsValue) (place identity : Nat) : Nat → EventEmitterState JsValue
  | 0 => state
  | index + 1 =>
    if ((state.listeners place)[index]?).any fun entry => callbackIdentity entry.callback == identity then
      (state.modifyListeners place fun listeners => listeners.eraseIdx index).prune place
    else state.removeLast place identity index

/-- `_remove`. -/
def remove (js : Values JsValue) (state : EventEmitterState JsValue) (event : JsValue) (callback : EventCallback) :
    Except Error (EventEmitterState JsValue) := do
  validateEvent js event
  match state.find js event with
  | none => return state
  | some place => return state.removeLast place (callbackIdentity callback) (state.listeners place).length

def removeAllListeners (state : EventEmitterState JsValue) : EventEmitterState JsValue := { state with groups := [] }

def removeAllListenersFor (js : Values JsValue) (state : EventEmitterState JsValue) (event : JsValue) :
    Except Error (EventEmitterState JsValue) := do
  validateEvent js event
  return { state with groups := state.groups.eraseP (state.HasKey js event) }

def consumed (state : EventEmitterState JsValue) (flag : Nat) : Bool := state.flags[flag]?.getD false

/-- A once registration is consumed, and leaves its group. -/
def consume (state : EventEmitterState JsValue) (place flag : Nat) : EventEmitterState JsValue :=
  let state := { state with flags := state.flags.set flag true }
  (state.modifyListeners place fun listeners => listeners.eraseP fun candidate => candidate.once == some flag).prune
    place

/-- The loop of `_emit` up to the next callback: that, with what is behind it in the snapshot. -/
def nextCallback (state : EventEmitterState JsValue) (place : Nat) :
    List ListenerRegistration → EventEmitterState JsValue × Option (ListenerRegistration × List ListenerRegistration)
  | [] => (state, none)
  | registration :: rest =>
    match registration.once with
    | none => (state, some (registration, rest))
    | some flag =>
      if state.consumed flag then state.nextCallback place rest
      else (state.consume place flag, some (registration, rest))

end EventEmitterState

/-! ## The groups -/

/-- No two groups of the list have one key. -/
def DistinctKeys (js : Values JsValue) (memory : List (EventGroup JsValue)) (groups : List Nat) : Prop :=
  groups.Pairwise fun place place' => ∀ group group' : EventGroup JsValue,
    memory[place]? = some group → memory[place']? = some group' → js.eventKeyEqual group.event group'.event = false

/-- What holds of the state of an emitter. -/
structure Sound (js : Values JsValue) (state : EventEmitterState JsValue) : Prop where
  nodup : state.groups.Nodup
  live : ∀ place ∈ state.groups, state.listeners place ≠ []
  distinct : DistinctKeys js state.memory state.groups
  flagged : ∀ group ∈ state.memory, ∀ registration ∈ group.listeners, ∀ flag,
    registration.once = some flag → flag < state.flags.length
  once : ∀ group ∈ state.memory, (group.listeners.filterMap ListenerRegistration.once).Nodup

theorem sound_new (js : Values JsValue) : Sound js {} where
  nodup := List.nodup_nil
  live _ hplace := absurd hplace List.not_mem_nil
  distinct := List.Pairwise.nil
  flagged _ hgroup := absurd hgroup List.not_mem_nil
  once _ hgroup := absurd hgroup List.not_mem_nil

section Groups

variable {js : Values JsValue} {state : EventEmitterState JsValue}

theorem listeners_eq {place : Nat} {group : EventGroup JsValue} (h : state.memory[place]? = some group) :
    state.listeners place = group.listeners := by
  rw [EventEmitterState.listeners, h]
  rfl

theorem memory_modify (state : EventEmitterState JsValue) (place : Nat)
    (change : List ListenerRegistration → List ListenerRegistration) (place' : Nat) :
    (state.modifyListeners place change).memory[place']? = (state.memory[place']?).map fun group =>
      if place = place' then { group with listeners := change group.listeners } else group := by
  simp only [EventEmitterState.modifyListeners, List.getElem?_modify, Option.map_eq_map]

theorem listeners_modify_self {place : Nat} (h : place < state.memory.length)
    (change : List ListenerRegistration → List ListenerRegistration) :
    (state.modifyListeners place change).listeners place = change (state.listeners place) := by
  rw [EventEmitterState.listeners, memory_modify, EventEmitterState.listeners, List.getElem?_eq_getElem h]
  simp only [Option.map_some, if_true, Option.getD_some]

theorem listeners_modify_other {place place' : Nat} (h : place ≠ place')
    (change : List ListenerRegistration → List ListenerRegistration) :
    (state.modifyListeners place change).listeners place' = state.listeners place' := by
  rw [EventEmitterState.listeners, memory_modify, EventEmitterState.listeners]
  simp only [if_neg h, Option.map_id']

theorem Sound.place_lt (h : Sound js state) {place : Nat} (hplace : place ∈ state.groups) :
    place < state.memory.length := by
  by_contra hnot
  apply h.live place hplace
  rw [EventEmitterState.listeners, List.getElem?_eq_none (Nat.le_of_not_lt hnot)]
  rfl

/-- Changing listeners keeps the keys. -/
theorem distinct_modify {groups : List Nat} (place : Nat)
    (change : List ListenerRegistration → List ListenerRegistration) (h : DistinctKeys js state.memory groups) :
    DistinctKeys js (state.modifyListeners place change).memory groups := by
  have hevent : ∀ (place' : Nat) (group : EventGroup JsValue), (state.modifyListeners place change).memory[place']? = some group →
      ∃ old : EventGroup JsValue, state.memory[place']? = some old ∧ old.event = group.event := by
    intro place' group hgroup
    rw [memory_modify, Option.map_eq_some_iff] at hgroup
    obtain ⟨old, hold, rfl⟩ := hgroup
    refine ⟨old, hold, ?_⟩
    split_ifs <;> rfl
  refine h.imp fun hpair group group' hgroup hgroup' => ?_
  obtain ⟨old, hold, hsame⟩ := hevent _ group hgroup
  obtain ⟨old', hold', hsame'⟩ := hevent _ group' hgroup'
  rw [← hsame, ← hsame']
  exact hpair old old' hold hold'

/-- A group of the changed memory is an old one, or the one that was changed. -/
theorem mem_modify {place : Nat} {change : List ListenerRegistration → List ListenerRegistration}
    {group : EventGroup JsValue} (h : group ∈ (state.modifyListeners place change).memory) :
    group ∈ state.memory ∨ ∃ old ∈ state.memory, state.memory[place]? = some old ∧
      group = { old with listeners := change old.listeners } := by
  obtain ⟨place', hplace'⟩ := List.mem_iff_getElem?.mp h
  rw [memory_modify, Option.map_eq_some_iff] at hplace'
  obtain ⟨old, hold, hgroup⟩ := hplace'
  have hmem : old ∈ state.memory := List.mem_iff_getElem?.mpr ⟨place', hold⟩
  split_ifs at hgroup with hsame
  · subst hsame
    exact .inr ⟨old, hmem, hold, hgroup.symm⟩
  · exact .inl (hgroup ▸ hmem)

theorem prune_memory (state : EventEmitterState JsValue) (place : Nat) :
    (state.prune place).memory = state.memory := by
  unfold EventEmitterState.prune
  split_ifs <;> rfl

theorem prune_flags (state : EventEmitterState JsValue) (place : Nat) :
    (state.prune place).flags = state.flags := by
  unfold EventEmitterState.prune
  split_ifs <;> rfl

theorem prune_listeners (state : EventEmitterState JsValue) (place place' : Nat) :
    (state.prune place).listeners place' = state.listeners place' := by
  rw [EventEmitterState.listeners, prune_memory, EventEmitterState.listeners]

theorem prune_sublist (state : EventEmitterState JsValue) (place : Nat) :
    List.Sublist (state.prune place).groups state.groups := by
  unfold EventEmitterState.prune
  split_ifs
  · exact List.Sublist.refl _
  · exact List.erase_sublist

/-- Listeners leave a group, and the group leaves the list with the last one. -/
theorem Sound.narrows (h : Sound js state) (place : Nat)
    {change : List ListenerRegistration → List ListenerRegistration}
    (hchange : ∀ listeners, List.Sublist (change listeners) listeners) :
    Sound js ((state.modifyListeners place change).prune place) where
  nodup := h.nodup.sublist (prune_sublist _ place)
  live place' hplace' := by
    rw [prune_listeners]
    by_cases hsame : place = place'
    · subst hsame
      unfold EventEmitterState.prune at hplace'
      split_ifs at hplace' with hempty
      · exact fun hnil => hempty (List.length_eq_zero_iff.mpr hnil)
      · exact absurd hplace' (List.Nodup.not_mem_erase h.nodup)
    · rw [listeners_modify_other hsame]
      exact h.live place' ((prune_sublist (state.modifyListeners place change) place).subset hplace')
  distinct := by
    rw [prune_memory]
    exact (distinct_modify place change h.distinct).sublist (prune_sublist _ place)
  flagged group hgroup registration hregistration flag hflag := by
    rw [prune_flags]
    rw [prune_memory] at hgroup
    rcases mem_modify hgroup with hold | ⟨old, hold, -, rfl⟩
    · exact h.flagged group hold registration hregistration flag hflag
    · exact h.flagged old hold registration ((hchange _).subset hregistration) flag hflag
  once group hgroup := by
    rw [prune_memory] at hgroup
    rcases mem_modify hgroup with hold | ⟨old, hold, -, rfl⟩
    · exact h.once group hold
    · exact (h.once old hold).sublist ((hchange _).filterMap _)

/-! ## The operations -/

/-- The list of groups may lose some. -/
theorem Sound.drops (h : Sound js state) {groups : List Nat} (hgroups : List.Sublist groups state.groups) :
    Sound js { state with groups } where
  nodup := h.nodup.sublist hgroups
  live place hplace := h.live place (hgroups.subset hplace)
  distinct := h.distinct.sublist hgroups
  flagged := h.flagged
  once := h.once

theorem Sound.removesLast (h : Sound js state) (place identity index : Nat) :
    Sound js (state.removeLast place identity index) := by
  induction index with
  | zero => exact h
  | succ index ih =>
    unfold EventEmitterState.removeLast
    split_ifs
    · exact h.narrows place fun listeners => List.eraseIdx_sublist listeners index
    · exact ih

theorem removeLast_flags (state : EventEmitterState JsValue) (place identity index : Nat) :
    (state.removeLast place identity index).flags = state.flags := by
  induction index with
  | zero => rfl
  | succ index ih =>
    unfold EventEmitterState.removeLast
    split_ifs
    · exact prune_flags _ place
    · exact ih

/-- Setting flags changes no group. -/
theorem Sound.sets (h : Sound js state) {flags : List Bool} (hflags : state.flags.length ≤ flags.length) :
    Sound js { state with flags } where
  nodup := h.nodup
  live := h.live
  distinct := h.distinct
  flagged group hgroup registration hregistration flag hflag :=
    Nat.lt_of_lt_of_le (h.flagged group hgroup registration hregistration flag hflag) hflags
  once := h.once

theorem Sound.consumes (h : Sound js state) (place flag : Nat) : Sound js (state.consume place flag) := by
  have hset : Sound js { state with flags := state.flags.set flag true } :=
    h.sets (Nat.le_of_eq List.length_set.symm)
  exact hset.narrows place fun listeners => List.eraseP_sublist

/-- A group is selected, and may still be empty. -/
structure Opened (js : Values JsValue) (state : EventEmitterState JsValue) (place : Nat) : Prop where
  nodup : state.groups.Nodup
  live : ∀ place' ∈ state.groups, place' ≠ place → state.listeners place' ≠ []
  distinct : DistinctKeys js state.memory state.groups
  flagged : ∀ group ∈ state.memory, ∀ registration ∈ group.listeners, ∀ flag,
    registration.once = some flag → flag < state.flags.length
  once : ∀ group ∈ state.memory, (group.listeners.filterMap ListenerRegistration.once).Nodup
  placed : place < state.memory.length

theorem Sound.selects (h : Sound js state) (event : JsValue) :
    Opened js (state.select js event).2 (state.select js event).1 := by
  unfold EventEmitterState.select
  split
  · rename_i place hfound
    exact ⟨h.nodup, fun place' hplace' _ => h.live place' hplace', h.distinct, h.flagged, h.once,
      h.place_lt (List.mem_of_find?_eq_some hfound)⟩
  · rename_i hnone
    have hold : ∀ place' ∈ state.groups, place' < state.memory.length := fun place' hplace' => h.place_lt hplace'
    have hsame : ∀ (place' : Nat), place' < state.memory.length →
        (state.memory ++ [(⟨event, []⟩ : EventGroup JsValue)])[place']? = state.memory[place']? :=
      fun place' hplace' => List.getElem?_append_left hplace'
    refine ⟨?_, ?_, ?_, ?_, ?_, ?_⟩
    · refine List.nodup_append.mpr ⟨h.nodup, List.nodup_singleton _, fun place' hplace' last hlast => ?_⟩
      rw [List.mem_singleton.mp hlast]
      exact Nat.ne_of_lt (hold place' hplace')
    · intro place' hplace' hne
      rcases List.mem_append.mp hplace' with hplace' | hplace'
      · have hlisteners := h.live place' hplace'
        rw [EventEmitterState.listeners] at hlisteners ⊢
        rwa [hsame place' (hold place' hplace')]
      · exact absurd (List.mem_singleton.mp hplace') hne
    -- an older group has another key than the new one, which was not found
    · refine List.pairwise_append.mpr ⟨?_, List.pairwise_singleton _ _, ?_⟩
      · refine h.distinct.imp_of_mem fun {a b} ha hb hpair group group' hgroup hgroup' => ?_
        rw [hsame a (hold a ha)] at hgroup
        rw [hsame b (hold b hb)] at hgroup'
        exact hpair group group' hgroup hgroup'
      · intro place' hplace' last hlast group group' hgroup hgroup'
        rw [List.mem_singleton.mp hlast, List.getElem?_concat_length] at hgroup'
        rw [hsame place' (hold place' hplace')] at hgroup
        obtain rfl := Option.some.inj hgroup'
        have hmiss := List.find?_eq_none.mp hnone place' hplace'
        rw [EventEmitterState.HasKey, hgroup] at hmiss
        exact Bool.not_eq_true _ ▸ hmiss
    · intro group hgroup registration hregistration
      rcases List.mem_append.mp hgroup with hgroup | hgroup
      · exact h.flagged group hgroup registration hregistration
      · rw [List.mem_singleton.mp hgroup] at hregistration
        cases hregistration
    · intro group hgroup
      rcases List.mem_append.mp hgroup with hgroup | hgroup
      · exact h.once group hgroup
      · rw [List.mem_singleton.mp hgroup]
        exact List.nodup_nil
    · rw [List.length_append]
      exact Nat.lt_succ_self _

/-- The new registration comes to the selected group. -/
theorem Opened.fills {place : Nat} (h : Opened js state place) {entry : ListenerRegistration} {flags : List Bool}
    (hentry : ∀ flag, entry.once = some flag → flag = state.flags.length)
    (hflags : ∀ flag, entry.once = some flag ∨ flag < state.flags.length → flag < flags.length)
    (prepend : Bool) :
    Sound js (({ state with flags }).modifyListeners place fun listeners =>
      if prepend then entry :: listeners else listeners ++ [entry]) := by
  have hperm : ∀ listeners, List.Perm (if prepend then entry :: listeners else listeners ++ [entry])
      (entry :: listeners) := by
    intro listeners
    split_ifs
    · exact List.Perm.refl _
    · exact List.perm_append_singleton entry listeners
  refine ⟨h.nodup, ?_, distinct_modify place _ h.distinct, ?_, ?_⟩
  · intro place' hplace'
    by_cases hsame : place = place'
    · subst hsame
      rw [@listeners_modify_self _ { state with flags } place h.placed]
      intro hnil
      cases prepend with
      | true => exact List.cons_ne_nil _ _ hnil
      | false => exact List.append_ne_nil_of_right_ne_nil _ (List.cons_ne_nil _ _) hnil
    · rw [@listeners_modify_other _ { state with flags } _ _ hsame]
      exact h.live place' hplace' (Ne.symm hsame)
  · intro group hgroup registration hregistration flag hflag
    apply hflags flag
    rcases mem_modify hgroup with hold | ⟨old, hold, -, rfl⟩
    · exact .inr (h.flagged group hold registration hregistration flag hflag)
    · rcases List.mem_cons.mp ((hperm _).subset hregistration) with rfl | hregistration
      · exact .inl hflag
      · exact .inr (h.flagged old hold registration hregistration flag hflag)
  · intro group hgroup
    rcases mem_modify hgroup with hold | ⟨old, hold, -, rfl⟩
    · exact h.once group hold
    · refine ((hperm _).filterMap _).nodup_iff.mpr ?_
      cases honce : entry.once with
      | none =>
        rw [List.filterMap_cons_none honce]
        exact h.once old hold
      | some flag =>
        rw [List.filterMap_cons_some honce]
        refine List.nodup_cons.mpr ⟨fun hmem => ?_, h.once old hold⟩
        obtain ⟨registration, hregistration, hflag⟩ := List.mem_filterMap.mp hmem
        have hlt := h.flagged old hold registration hregistration flag hflag
        have hnew := hentry flag honce
        omega

theorem add_inv {event : JsValue} {callback : EventCallback} {once prepend : Bool}
    {state' : EventEmitterState JsValue} (hadd : state.add js event callback once prepend = .ok state') :
    state' = (((state.select js event).2.register callback once).2).modifyListeners (state.select js event).1
      fun listeners => if prepend then ((state.select js event).2.register callback once).1 :: listeners
        else listeners ++ [((state.select js event).2.register callback once).1] := by
  unfold EventEmitterState.add at hadd
  cases hvalid : validateEvent js event with
  | error error =>
    rw [hvalid] at hadd
    cases hadd
  | ok =>
    rw [hvalid] at hadd
    exact (Except.ok.inj hadd).symm

theorem select_flags (event : JsValue) : (state.select js event).2.flags = state.flags := by
  unfold EventEmitterState.select
  split <;> rfl

theorem Sound.adds (h : Sound js state) {event : JsValue} {callback : EventCallback} {once prepend : Bool}
    {state' : EventEmitterState JsValue} (hadd : state.add js event callback once prepend = .ok state') :
    Sound js state' ∧ (state'.flags = state.flags ∨ state'.flags = state.flags ++ [false]) := by
  have hopened := h.selects event
  have hflags := @select_flags _ js state event
  rw [add_inv hadd]
  generalize state.select js event = selected at *
  cases once with
  | true =>
    refine ⟨@Opened.fills _ js _ _ hopened ⟨callback, some selected.2.flags.length⟩ _ ?_ ?_ prepend, .inr ?_⟩
    · intro flag hflag
      exact (Option.some.inj hflag).symm
    · intro flag hflag
      rw [List.length_append, List.length_singleton]
      rcases hflag with hflag | hflag
      · have := Option.some.inj hflag
        omega
      · omega
    · rw [← hflags]
      rfl
  | false =>
    exact ⟨@Opened.fills _ js _ _ hopened ⟨callback, none⟩ _ nofun (fun flag hflag => hflag.resolve_left nofun)
      prepend, .inl hflags⟩

theorem Sound.removes (h : Sound js state) {event : JsValue} {callback : EventCallback}
    {state' : EventEmitterState JsValue} (hremove : state.remove js event callback = .ok state') :
    Sound js state' ∧ state'.flags = state.flags := by
  unfold EventEmitterState.remove at hremove
  cases hvalid : validateEvent js event with
  | error error =>
    rw [hvalid] at hremove
    cases hremove
  | ok =>
    rw [hvalid] at hremove
    change (match state.find js event with
      | none => .ok state
      | some place => .ok (state.removeLast place (callbackIdentity callback) (state.listeners place).length)) =
        Except.ok state' at hremove
    split at hremove
    · obtain rfl := Except.ok.inj hremove
      exact ⟨h, rfl⟩
    · obtain rfl := Except.ok.inj hremove
      exact ⟨h.removesLast _ _ _, removeLast_flags state _ _ _⟩

theorem Sound.removesFor (h : Sound js state) {event : JsValue} {state' : EventEmitterState JsValue}
    (hremove : state.removeAllListenersFor js event = .ok state') :
    Sound js state' ∧ state'.flags = state.flags := by
  unfold EventEmitterState.removeAllListenersFor at hremove
  cases hvalid : validateEvent js event with
  | error error =>
    rw [hvalid] at hremove
    cases hremove
  | ok =>
    rw [hvalid] at hremove
    obtain rfl := Except.ok.inj hremove
    exact ⟨h.drops List.eraseP_sublist, rfl⟩

/-- The listeners of a group are registrations of the state. -/
theorem Sound.snapshots (h : Sound js state) (place : Nat) :
    ((state.listeners place).filterMap ListenerRegistration.once).Nodup ∧
      ∀ registration ∈ state.listeners place, ∀ flag, registration.once = some flag → flag < state.flags.length := by
  unfold EventEmitterState.listeners
  cases hplace : state.memory[place]? with
  | none => exact ⟨List.nodup_nil, fun registration hregistration => absurd hregistration List.not_mem_nil⟩
  | some group =>
    have hmem : group ∈ state.memory := List.mem_iff_getElem?.mpr ⟨place, hplace⟩
    exact ⟨h.once group hmem, h.flagged group hmem⟩

end Groups

/-! ## The loop of `_emit` -/

section Loop

variable {state : EventEmitterState JsValue}

/-- What the loop does up to the next callback: the registrations before it were consumed. -/
theorem nextCallback_inv (state : EventEmitterState JsValue) (place : Nat) (rest : List ListenerRegistration) :
    ∃ skipped, (∀ registration ∈ skipped, ∃ flag, registration.once = some flag ∧ state.consumed flag = true) ∧
      ((rest = skipped ∧ state.nextCallback place rest = (state, none)) ∨
        ∃ registration rest', rest = skipped ++ registration :: rest' ∧
          ((registration.once = none ∧ state.nextCallback place rest = (state, some (registration, rest'))) ∨
            ∃ flag, registration.once = some flag ∧ state.consumed flag = false ∧
              state.nextCallback place rest = (state.consume place flag, some (registration, rest')))) := by
  induction rest with
  | nil => exact ⟨[], fun _ hregistration => absurd hregistration List.not_mem_nil, .inl ⟨rfl, rfl⟩⟩
  | cons registration rest ih =>
    cases honce : registration.once with
    | none =>
      refine ⟨[], fun _ hregistration => absurd hregistration List.not_mem_nil,
        .inr ⟨registration, rest, rfl, .inl ⟨honce, ?_⟩⟩⟩
      rw [EventEmitterState.nextCallback, honce]
    | some flag =>
      cases hconsumed : state.consumed flag with
      | false =>
        refine ⟨[], fun _ hregistration => absurd hregistration List.not_mem_nil,
          .inr ⟨registration, rest, rfl, .inr ⟨flag, honce, hconsumed, ?_⟩⟩⟩
        rw [EventEmitterState.nextCallback, honce]
        simp only [hconsumed, Bool.false_eq_true, if_false]
      | true =>
        have hstep : state.nextCallback place (registration :: rest) = state.nextCallback place rest := by
          rw [EventEmitterState.nextCallback, honce]
          simp only [hconsumed, if_true]
        obtain ⟨skipped, hskipped, hrest⟩ := ih
        refine ⟨registration :: skipped, List.forall_mem_cons.mpr ⟨⟨flag, honce, hconsumed⟩, hskipped⟩, ?_⟩
        rw [hstep]
        rcases hrest with ⟨rfl, hnext⟩ | ⟨next, rest', rfl, hnext⟩
        · exact .inl ⟨rfl, hnext⟩
        · exact .inr ⟨next, rest', rfl, hnext⟩

end Loop

end TsonicNode.Events
