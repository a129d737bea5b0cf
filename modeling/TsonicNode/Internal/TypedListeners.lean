import TsonicNode.Lib.Emissions
import TsonicNode.Lib.Run
import TsonicNode.Runtime

/-!
# Typed listeners

A `TypedListeners` value and the code that uses it. A listener may call it
again, emit included, so the emits in progress form a stack, as in
`Events.Emission`; what they do are moves of `Lib.Emissions` (`Known.step_leads`).
`Known` says where the listeners of the system come from.
-/

namespace TsonicNode.Internal

open TsonicNode.Lib

variable {Callback Arguments : Type}

/-- `fired` is the place of the flag of a once listener. -/
structure Listener (Callback : Type) where
  identity : UInt64
  callback : Callback
  fired : Option Nat

/-- `_Listeners`, with the flags of the once listeners. -/
structure Listeners (Callback : Type) where
  entries : List (Listener Callback) := []
  nextIdentity : UInt64 := 0
  flags : List Bool := []

namespace Listeners

/-- The listener that `add` appends. -/
def listener (state : Listeners Callback) (callback : Callback) (once : Bool) : Listener Callback where
  identity := state.nextIdentity + 1
  callback
  fired := if once then some state.flags.length else none

def add (state : Listeners Callback) (callback : Callback) (once : Bool) : Except Error (Listeners Callback) :=
  if state.entries.length ≥ 1048576 ∨ state.nextIdentity = 18446744073709551615 then
    .error ⟨"Event listeners exceed the finite runtime limit"⟩
  else
    .ok {
      entries := state.entries ++ [state.listener callback once],
      nextIdentity := state.nextIdentity + 1,
      flags := if once then state.flags ++ [false] else state.flags }

/-- The first loop of `remove`, from an index on. -/
def lastSame (same : Callback → Callback → Bool) (selected : Callback) (index : Nat) (found : Option Nat) :
    List (Listener Callback) → Option Nat
  | [] => found
  | entry :: entries =>
    lastSame same selected (index + 1) (if same entry.callback selected then some index else found) entries

def remove (same : Callback → Callback → Bool) (state : Listeners Callback) (callback : Callback) :
    Listeners Callback :=
  match lastSame same callback 0 none state.entries with
  | none => state
  | some found => { state with entries := state.entries.eraseIdx found }

/-- A once listener fires, and leaves the list. -/
def fire (state : Listeners Callback) (listener : Listener Callback) (flag : Nat) : Listeners Callback :=
  { state with
    flags := state.flags.set flag true,
    entries := state.entries.filter fun current => current.identity != listener.identity }

/-- The loop of `emit` up to the next callback: its listener, with what is behind it in the snapshot. -/
def nextCallback (state : Listeners Callback) :
    List (Listener Callback) → Listeners Callback × Option (Listener Callback × List (Listener Callback))
  | [] => (state, none)
  | listener :: rest =>
    match listener.fired with
    | none => (state, some (listener, rest))
    | some flag =>
      if flagged state.flags flag then state.nextCallback rest else (state.fire listener flag, some (listener, rest))

end Listeners

/-- An `emit` inside the call of a listener; `rest` is what is left of its snapshot. -/
structure Emission (Callback Arguments : Type) where
  emit : Nat
  arguments : Arguments
  snapshot : List (Listener Callback)
  rest : List (Listener Callback)

/-- The listeners, the emits in progress, and what has happened: the listeners added, the snapshots
taken, the calls, and the emits that have returned (with their results) or were cut short. -/
structure System (Callback Arguments : Type) where
  state : Listeners Callback := {}
  stack : List (Emission Callback Arguments) := []
  emits : Nat := 0
  added : List (Listener Callback) := []
  started : List (Nat × List (Listener Callback)) := []
  calls : List (Nat × Listener Callback × Arguments) := []
  finished : List (Nat × Bool) := []
  raised : List Nat := []

inductive Action (Callback Arguments : Type)
  | add (callback : Callback) (once : Bool)
  | remove (callback : Callback)
  | emit (arguments : Arguments)
  /-- The running listener returns. -/
  | return
  /-- The running listener raises. -/
  | raise

namespace System

/-- The loop of the topmost `emit`, up to its next callback or its end. -/
def proceed (system : System Callback Arguments) : System Callback Arguments :=
  match system.stack with
  | [] => system
  | emission :: stack =>
    match system.state.nextCallback emission.rest with
    | (state, some (listener, rest)) =>
      { system with
        state, stack := { emission with rest } :: stack,
        calls := system.calls ++ [(emission.emit, listener, emission.arguments)] }
    | (state, none) =>
      { system with state, stack, finished := system.finished ++ [(emission.emit, !emission.snapshot.isEmpty)] }

/-- A new `emit` takes its snapshot. -/
def begins (system : System Callback Arguments) (arguments : Arguments) : System Callback Arguments :=
  { system with
    stack := ⟨system.emits, arguments, system.state.entries, system.state.entries⟩ :: system.stack,
    emits := system.emits + 1,
    started := system.started ++ [(system.emits, system.state.entries)] }

def raise (system : System Callback Arguments) : System Callback Arguments :=
  match system.stack with
  | [] => system
  | emission :: stack => { system with stack, raised := system.raised ++ [emission.emit] }

def add (system : System Callback Arguments) (callback : Callback) (once : Bool) : System Callback Arguments :=
  match system.state.add callback once with
  | .ok state => { system with state, added := system.added ++ [system.state.listener callback once] }
  | .error _ => system

def step (same : Callback → Callback → Bool) (system : System Callback Arguments) :
    Action Callback Arguments → System Callback Arguments
  | .add callback once => system.add callback once
  | .remove callback => { system with state := system.state.remove same callback }
  | .emit arguments => (system.begins arguments).proceed
  | .return => system.proceed
  | .raise => system.raise

/-- The listeners called, with their emits. -/
def called (system : System Callback Arguments) : List (Nat × Listener Callback) :=
  system.calls.map fun call => (call.1, call.2.1)

/-- The system as emissions. -/
def emissions (system : System Callback Arguments) : Emissions (Listener Callback) where
  flags := system.state.flags
  running := system.stack.map fun emission => (emission.emit, emission.rest)
  emits := system.emits
  started := system.started
  calls := system.called
  finished := system.finished.map Prod.fst
  raised := system.raised

end System

/-! ## The operations -/

section Operations

variable {same : Callback → Callback → Bool} {state : Listeners Callback}

/-- What `add` does, unless it raises. -/
theorem add_cases (state : Listeners Callback) (callback : Callback) (once : Bool) :
    (∃ error, state.add callback once = .error error) ∨
      (state.nextIdentity + 1).toNat = state.nextIdentity.toNat + 1 ∧
        state.add callback once = .ok {
          entries := state.entries ++ [state.listener callback once],
          nextIdentity := state.nextIdentity + 1,
          flags := if once then state.flags ++ [false] else state.flags } := by
  unfold Listeners.add
  by_cases hfull : state.entries.length ≥ 1048576 ∨ state.nextIdentity = 18446744073709551615
  · rw [if_pos hfull]
    exact .inl ⟨_, rfl⟩
  · have hlt := state.nextIdentity.toNat_lt
    have hne : state.nextIdentity.toNat ≠ 18446744073709551615 :=
      fun heq => hfull (.inr (UInt64.toNat_inj.mp heq))
    refine .inr ⟨?_, if_neg hfull⟩
    rw [UInt64.toNat_add]
    show (state.nextIdentity.toNat + 1) % 2 ^ 64 = _
    omega

theorem lastSame_spec (same : Callback → Callback → Bool) (selected : Callback) (index : Nat) (found : Option Nat)
    (entries : List (Listener Callback)) :
    (∃ front entry back, entries = front ++ entry :: back ∧ same entry.callback selected = true ∧
        (∀ other ∈ back, same other.callback selected = false) ∧
        Listeners.lastSame same selected index found entries = some (index + front.length)) ∨
      (∀ entry ∈ entries, same entry.callback selected = false) ∧
        Listeners.lastSame same selected index found entries = found := by
  induction entries generalizing index found with
  | nil => exact .inr ⟨by simp, rfl⟩
  | cons entry entries ih =>
    unfold Listeners.lastSame
    rcases ih (index + 1) (if same entry.callback selected then some index else found) with
      ⟨front, last, back, rfl, hlast, hback, hfound⟩ | ⟨hnone, hfound⟩
    · refine .inl ⟨entry :: front, last, back, rfl, hlast, hback, ?_⟩
      rw [hfound, List.length_cons]
      congr 1
      omega
    · cases hentry : same entry.callback selected with
      | true =>
        rw [hentry] at hfound
        exact .inl ⟨[], entry, entries, rfl, hentry, hnone, hfound⟩
      | false =>
        rw [hentry] at hfound
        refine .inr ⟨?_, hfound⟩
        intro other hother
        rcases List.mem_cons.mp hother with rfl | hother
        · exact hentry
        · exact hnone other hother

/-- The last registration of a callback is gone, or there was none. -/
inductive Removes (same : Callback → Callback → Bool) (callback : Callback) :
    List (Listener Callback) → List (Listener Callback) → Prop
  | last (front back : List (Listener Callback)) (entry : Listener Callback)
    (hsame : same entry.callback callback = true) (hback : ∀ other ∈ back, same other.callback callback = false) :
    Removes same callback (front ++ entry :: back) (front ++ back)
  | none (entries : List (Listener Callback)) (hnone : ∀ entry ∈ entries, same entry.callback callback = false) :
    Removes same callback entries entries

theorem remove_removes (same : Callback → Callback → Bool) (state : Listeners Callback) (callback : Callback) :
    ∃ entries, state.remove same callback = { state with entries } ∧ Removes same callback state.entries entries := by
  unfold Listeners.remove
  rcases lastSame_spec same callback 0 none state.entries with
    ⟨front, entry, back, hentries, hsame, hback, hfound⟩ | ⟨hnone, hfound⟩
  · rw [hfound]
    refine ⟨_, rfl, ?_⟩
    have herase : (front ++ entry :: back).eraseIdx (0 + front.length) = front ++ back := by
      rw [Nat.zero_add, List.eraseIdx_append_of_length_le (Nat.le_refl _), Nat.sub_self, List.eraseIdx_cons_zero]
    rw [hentries, herase]
    exact .last front back entry hsame hback
  · rw [hfound]
    exact ⟨state.entries, rfl, .none _ hnone⟩

theorem Removes.sublist {callback : Callback} {entries entries' : List (Listener Callback)}
    (h : Removes same callback entries entries') : entries'.Sublist entries := by
  cases h with
  | last front back entry => exact (List.sublist_cons_self entry back).append_left front
  | none => exact List.Sublist.refl _

/-- What the loop does up to the next callback: the listeners before it have fired. -/
theorem nextCallback_inv (state : Listeners Callback) (rest : List (Listener Callback)) :
    ∃ skipped, (∀ listener ∈ skipped, Spent Listener.fired state.flags listener) ∧
      ((rest = skipped ∧ state.nextCallback rest = (state, none)) ∨
        ∃ listener rest', rest = skipped ++ listener :: rest' ∧ ¬ Spent Listener.fired state.flags listener ∧
          ((listener.fired = none ∧ state.nextCallback rest = (state, some (listener, rest'))) ∨
            ∃ flag, listener.fired = some flag ∧
              state.nextCallback rest = (state.fire listener flag, some (listener, rest')))) := by
  induction rest with
  | nil => exact ⟨[], by simp, .inl ⟨rfl, rfl⟩⟩
  | cons listener rest ih =>
    cases hfired : listener.fired with
    | none =>
      refine ⟨[], by simp, .inr ⟨listener, rest, rfl, ?_, .inl ⟨hfired, ?_⟩⟩⟩
      · rintro ⟨flag, hflag, -⟩
        cases hfired.symm.trans hflag
      · rw [Listeners.nextCallback, hfired]
    | some flag =>
      cases hflag : flagged state.flags flag with
      | false =>
        refine ⟨[], by simp, .inr ⟨listener, rest, rfl, ?_, .inr ⟨flag, hfired, ?_⟩⟩⟩
        · rintro ⟨flag', hflag', hspent⟩
          cases hfired.symm.trans hflag'
          cases hflag.symm.trans hspent
        · rw [Listeners.nextCallback, hfired]
          simp only [hflag, Bool.false_eq_true, if_false]
      | true =>
        have hstep : state.nextCallback (listener :: rest) = state.nextCallback rest := by
          rw [Listeners.nextCallback, hfired]
          simp only [hflag, if_true]
        obtain ⟨skipped, hskipped, hrest⟩ := ih
        refine ⟨listener :: skipped, List.forall_mem_cons.mpr ⟨⟨flag, hfired, hflag⟩, hskipped⟩, ?_⟩
        rw [hstep]
        rcases hrest with ⟨rfl, hnext⟩ | ⟨next, rest', rfl, hnext⟩
        · exact .inl ⟨rfl, hnext⟩
        · exact .inr ⟨next, rest', rfl, hnext⟩

end Operations

/-! ## Emissions -/

section Moves

variable {system : System Callback Arguments}

/-- Moves from one system to the other, as emissions. -/
abbrev Leads (system system' : System Callback Arguments) : Prop :=
  Relation.ReflTransGen (Move Listener.fired) system.emissions system'.emissions

/-- The cases of the loop of the topmost `emit`. -/
theorem proceed_cases (system : System Callback Arguments) :
    (system.stack = [] ∧ system.proceed = system) ∨ ∃ emission stack, system.stack = emission :: stack ∧
      ((∀ listener ∈ emission.rest, Spent Listener.fired system.state.flags listener) ∧
          system.proceed = { system with
            stack, finished := system.finished ++ [(emission.emit, !emission.snapshot.isEmpty)] } ∨
        ∃ skipped listener rest, emission.rest = skipped ++ listener :: rest ∧
          (∀ other ∈ skipped, Spent Listener.fired system.state.flags other) ∧
          ¬ Spent Listener.fired system.state.flags listener ∧
          ∃ state, (listener.fired = none ∧ state = system.state ∨
              ∃ flag, listener.fired = some flag ∧ state = system.state.fire listener flag) ∧
            system.proceed = { system with
              state, stack := { emission with rest } :: stack,
              calls := system.calls ++ [(emission.emit, listener, emission.arguments)] }) := by
  unfold System.proceed
  cases hstack : system.stack with
  | nil => exact .inl ⟨rfl, rfl⟩
  | cons emission stack =>
    refine .inr ⟨emission, stack, rfl, ?_⟩
    dsimp only
    obtain ⟨skipped, hskipped, ⟨rfl, hnext⟩ | ⟨listener, rest, hrest, hfresh, hnext⟩⟩ :=
      nextCallback_inv system.state emission.rest
    · rw [hnext]
      exact .inl ⟨hskipped, rfl⟩
    · refine .inr ⟨skipped, listener, rest, hrest, hskipped, hfresh, ?_⟩
      rcases hnext with ⟨hnone, hnext⟩ | ⟨flag, hflag, hnext⟩
      · rw [hnext]
        exact ⟨_, .inl ⟨hnone, rfl⟩, rfl⟩
      · rw [hnext]
        exact ⟨_, .inr ⟨flag, hflag, rfl⟩, rfl⟩

theorem proceed_leads (system : System Callback Arguments) : Leads system system.proceed := by
  rcases proceed_cases system with ⟨-, hproceed⟩ | ⟨emission, stack, hstack, hcases⟩
  · rw [Leads, hproceed]
  · have hrunning : system.emissions.running =
        (emission.emit, emission.rest) :: stack.map fun emission => (emission.emit, emission.rest) := by
      unfold System.emissions
      rw [hstack]
      rfl
    rcases hcases with ⟨hskipped, hproceed⟩ | ⟨skipped, listener, rest, hrest, hskipped, hfresh, state, hstate, hproceed⟩
    · have hmove := Move.finishes system.emissions emission.emit emission.rest _ hrunning hskipped
      refine .single ?_
      rw [hproceed]
      convert hmove using 1
      simp [System.emissions, System.called]
    · rw [hrest] at hrunning
      have hmove := Move.calls system.emissions emission.emit skipped rest listener _ hrunning hskipped hfresh
      refine .single ?_
      rw [hproceed]
      convert hmove using 1
      have hflags : state.flags = mark Listener.fired system.state.flags listener := by
        unfold mark
        rcases hstate with ⟨hnone, rfl⟩ | ⟨flag, hflag, rfl⟩
        · rw [hnone]
        · rw [hflag]
          rfl
      simp [System.emissions, System.called, hflags]

end Moves

/-! ## The listeners of a run -/

/-- Where the listeners come from: all were added, each with an identity and a flag of its own. -/
structure Known (system : System Callback Arguments) : Prop where
  increasing : system.added.Pairwise fun listener other => listener.identity.toNat < other.identity.toNat
  bounded : ∀ listener ∈ system.added, listener.identity.toNat ≤ system.state.nextIdentity.toNat
  flags : Flags Listener.fired system.state.flags system.added
  entries : system.state.entries.Sublist system.added
  started : ∀ emission ∈ system.started, emission.2.Sublist system.added
  stack : ∀ emission ∈ system.stack, (emission.emit, emission.snapshot) ∈ system.started ∧
    emission.rest ⊆ emission.snapshot
  called : ∀ call ∈ system.called, call.2 ∈ system.added
  /-- What has fired has left the list. -/
  live : ∀ entry ∈ system.state.entries, ¬ Spent Listener.fired system.state.flags entry
  finished : ∀ emission ∈ system.finished, ∃ snapshot, (emission.1, snapshot) ∈ system.started ∧
    emission.2 = !snapshot.isEmpty

namespace Known

variable {system : System Callback Arguments}

theorem new : Known ({} : System Callback Arguments) where
  increasing := .nil
  bounded _ hmem := absurd hmem List.not_mem_nil
  flags := ⟨List.nodup_nil, fun _ hmem => absurd hmem List.not_mem_nil⟩
  entries := .slnil
  started _ hmem := absurd hmem List.not_mem_nil
  stack _ hmem := absurd hmem List.not_mem_nil
  called _ hmem := absurd hmem List.not_mem_nil
  live _ hmem := absurd hmem List.not_mem_nil
  finished _ hmem := absurd hmem List.not_mem_nil

theorem identities (h : Known system) : (system.added.map Listener.identity).Nodup :=
  List.pairwise_map.mpr (h.increasing.imp fun hlt heq => Nat.ne_of_lt hlt (congrArg UInt64.toNat heq))

theorem eq_of_identity (h : Known system) {listener other : Listener Callback} (hmem : listener ∈ system.added)
    (hother : other ∈ system.added) (hsame : listener.identity = other.identity) : listener = other :=
  List.inj_on_of_nodup_map h.identities hmem hother hsame

/-- A once listener has a new flag. -/
theorem flags_add (h : Known system) (callback : Callback) (once : Bool) :
    Flags Listener.fired (if once then system.state.flags ++ [false] else system.state.flags)
      (system.added ++ [system.state.listener callback once]) := by
  cases once with
  | false =>
    have hnone : [system.state.listener callback false].filterMap Listener.fired = [] := rfl
    refine ⟨?_, ?_⟩
    · rw [List.filterMap_append, hnone, List.append_nil]
      exact h.flags.nodup
    · intro listener hlistener flag hflag
      rcases List.mem_append.mp hlistener with hlistener | hlistener
      · exact h.flags.bound listener hlistener flag hflag
      · rw [List.mem_singleton.mp hlistener] at hflag
        cases hflag
  | true =>
    have hsome : [system.state.listener callback true].filterMap Listener.fired = [system.state.flags.length] := rfl
    rw [if_pos rfl]
    refine ⟨?_, ?_⟩
    · rw [List.filterMap_append, hsome, List.nodup_append]
      refine ⟨h.flags.nodup, List.nodup_singleton _, ?_⟩
      intro flag hflag flag' hflag' hsame
      obtain ⟨listener, hlistener, honce⟩ := List.mem_filterMap.mp hflag
      have hlt := h.flags.bound listener hlistener flag honce
      rw [hsame, List.mem_singleton.mp hflag'] at hlt
      exact Nat.lt_irrefl _ hlt
    · intro listener hlistener flag hflag
      rw [List.length_append, List.length_singleton]
      rcases List.mem_append.mp hlistener with hlistener | hlistener
      · exact Nat.lt_succ_of_lt (h.flags.bound listener hlistener flag hflag)
      · rw [List.mem_singleton.mp hlistener] at hflag
        cases hflag
        exact Nat.lt_succ_self _

theorem adds (h : Known system) (callback : Callback) (once : Bool) : Known (system.add callback once) := by
  unfold System.add
  rcases add_cases system.state callback once with ⟨error, hadd⟩ | ⟨hnext, hadd⟩
  · rw [hadd]
    exact h
  · rw [hadd]
    have hmem : ∀ {listener}, listener ∈ system.added →
        listener ∈ system.added ++ [system.state.listener callback once] := fun hold => List.mem_append_left _ hold
    have hflags := h.flags_add callback once
    refine ⟨?_, ?_, hflags, ?_, ?_, h.stack, ?_, ?_, h.finished⟩
    · refine List.pairwise_append.mpr ⟨h.increasing, List.pairwise_singleton _ _, ?_⟩
      intro listener hlistener other hother
      have hbound := h.bounded listener hlistener
      rw [List.mem_singleton.mp hother]
      show listener.identity.toNat < (system.state.nextIdentity + 1).toNat
      omega
    · intro listener hlistener
      show listener.identity.toNat ≤ (system.state.nextIdentity + 1).toNat
      rcases List.mem_append.mp hlistener with hlistener | hlistener
      · have hbound := h.bounded listener hlistener
        omega
      · rw [List.mem_singleton.mp hlistener]
        exact Nat.le_refl _
    · exact h.entries.append_right _
    · exact fun emission hemission => (h.started emission hemission).trans (List.sublist_append_left _ _)
    · exact fun call hcall => hmem (h.called call hcall)
    · have hsame : ∀ flag, flagged (if once then system.state.flags ++ [false] else system.state.flags) flag =
          flagged system.state.flags flag := by
        intro flag
        split
        · exact flagged_append system.state.flags flag
        · rfl
      rintro entry hentry ⟨flag, hfired, hflag⟩
      dsimp only at hentry hflag
      rw [hsame] at hflag
      rcases List.mem_append.mp hentry with hentry | hentry
      · exact h.live entry hentry ⟨flag, hfired, hflag⟩
      · rw [List.mem_singleton.mp hentry] at hfired
        cases once with
        | false => cases hfired
        | true =>
          cases hfired
          rw [flagged, List.getElem?_eq_none (Nat.le_refl _)] at hflag
          cases hflag

theorem removes (h : Known system) (same : Callback → Callback → Bool) (callback : Callback) :
    Known { system with state := system.state.remove same callback } := by
  obtain ⟨entries, hremove, hremoves⟩ := remove_removes same system.state callback
  rw [hremove]
  refine { h with entries := hremoves.sublist.trans h.entries, live := ?_ }
  exact fun entry hentry => h.live entry (hremoves.sublist.subset hentry)

theorem begins (h : Known system) (arguments : Arguments) : Known (system.begins arguments) := by
  have hold : ∀ {emission}, emission ∈ system.started → emission ∈ (system.begins arguments).started :=
    fun hmem => List.mem_append_left _ hmem
  refine { h with started := ?_, stack := ?_, finished := ?_ }
  · intro emission hemission
    rcases List.mem_append.mp hemission with hemission | hemission
    · exact h.started emission hemission
    · rw [List.mem_singleton.mp hemission]
      exact h.entries
  · intro emission hemission
    rcases List.mem_cons.mp hemission with rfl | hemission
    · exact ⟨List.mem_append_right _ (List.mem_singleton_self _), List.Subset.refl _⟩
    · obtain ⟨hstarted, hrest⟩ := h.stack emission hemission
      exact ⟨hold hstarted, hrest⟩
  · intro emission hemission
    obtain ⟨snapshot, hstarted, hresult⟩ := h.finished emission hemission
    exact ⟨snapshot, hold hstarted, hresult⟩

/-- Of the entries that stay, none has the flag of the listener that fires. -/
theorem fires (h : Known system) {listener : Listener Callback} (hlistener : listener ∈ system.added) {flag : Nat}
    (hflag : listener.fired = some flag) :
    (system.state.fire listener flag).entries.Sublist system.added ∧
      ∀ entry ∈ (system.state.fire listener flag).entries,
        ¬ Spent Listener.fired (system.state.fire listener flag).flags entry := by
  have hsub : (system.state.fire listener flag).entries.Sublist system.state.entries := List.filter_sublist
  refine ⟨hsub.trans h.entries, ?_⟩
  rintro entry hentry ⟨flag', hfired, hspent⟩
  have hmark : (system.state.fire listener flag).flags = mark Listener.fired system.state.flags listener := by
    unfold mark
    rw [hflag]
    rfl
  rw [hmark, flagged_mark (h.flags.bound listener hlistener)] at hspent
  rcases Bool.or_eq_true_iff.mp hspent with hold | hsame
  · exact h.live entry (hsub.subset hentry) ⟨flag', hfired, hold⟩
  · have hentry' : entry ∈ system.added := h.entries.subset (hsub.subset hentry)
    have hkept : (entry.identity != listener.identity) = true := (List.mem_filter.mp hentry).2
    rw [h.flags.eq_of_flag hentry' hlistener hfired (beq_iff_eq.mp hsame), bne_self_eq_false] at hkept
    cases hkept

theorem proceeds (h : Known system) : Known system.proceed := by
  rcases proceed_cases system with ⟨-, hproceed⟩ | ⟨emission, stack, hstack, hcases⟩
  · rw [hproceed]
    exact h
  · obtain ⟨hstarted, hsubset⟩ := h.stack emission (hstack ▸ List.mem_cons_self)
    have hothers : ∀ other ∈ stack, (other.emit, other.snapshot) ∈ system.started ∧ other.rest ⊆ other.snapshot :=
      fun other hother => h.stack other (hstack ▸ List.mem_cons_of_mem _ hother)
    rcases hcases with ⟨-, hproceed⟩ | ⟨skipped, listener, rest, hrest, -, -, state, hstate, hproceed⟩
    · rw [hproceed]
      refine { h with stack := hothers, finished := ?_ }
      intro other hother
      rcases List.mem_append.mp hother with hother | hother
      · exact h.finished other hother
      · rw [List.mem_singleton.mp hother]
        exact ⟨emission.snapshot, hstarted, rfl⟩
    · have hlistener : listener ∈ system.added := by
        refine (h.started _ hstarted).subset (hsubset ?_)
        rw [hrest]
        exact List.mem_append_right _ List.mem_cons_self
      have hlive : state.nextIdentity = system.state.nextIdentity ∧ state.flags.length = system.state.flags.length ∧
          state.entries.Sublist system.added ∧
          ∀ entry ∈ state.entries, ¬ Spent Listener.fired state.flags entry := by
        rcases hstate with ⟨-, rfl⟩ | ⟨flag, hflag, rfl⟩
        · exact ⟨rfl, rfl, h.entries, h.live⟩
        · exact ⟨rfl, List.length_set, h.fires hlistener hflag⟩
      obtain ⟨hnext, hlength, hentries, hunspent⟩ := hlive
      rw [hproceed]
      refine ⟨h.increasing, ?_, h.flags.mono (Nat.le_of_eq hlength.symm), hentries, h.started, ?_, ?_, hunspent,
        h.finished⟩
      · show ∀ listener ∈ system.added, listener.identity.toNat ≤ state.nextIdentity.toNat
        rw [hnext]
        exact h.bounded
      · intro other hother
        rcases List.mem_cons.mp hother with rfl | hother
        · refine ⟨hstarted, fun entry hentry => hsubset ?_⟩
          rw [hrest]
          exact List.mem_append_right _ (List.mem_cons_of_mem _ hentry)
        · exact hothers other hother
      · intro call hcall
        rw [System.called, List.map_append] at hcall
        rcases List.mem_append.mp hcall with hcall | hcall
        · exact h.called call hcall
        · rw [List.mem_singleton.mp hcall]
          exact hlistener

theorem raises (h : Known system) : Known system.raise := by
  unfold System.raise
  split
  · exact h
  · rename_i emission stack hstack
    refine { h with stack := ?_ }
    exact fun other hother => h.stack other (hstack ▸ List.mem_cons_of_mem _ hother)

end Known

/-! ## Runs -/

section Runs

variable {system : System Callback Arguments}

theorem Known.steps (h : Known system) (same : Callback → Callback → Bool) (action : Action Callback Arguments) :
    Known (system.step same action) := by
  cases action with
  | add callback once => exact h.adds callback once
  | remove callback => exact h.removes same callback
  | emit arguments => exact (h.begins arguments).proceeds
  | «return» => exact h.proceeds
  | raise => exact h.raises

theorem add_leads (system : System Callback Arguments) (callback : Callback) (once : Bool) :
    Leads system (system.add callback once) := by
  unfold Leads System.add
  rcases add_cases system.state callback once with ⟨error, hadd⟩ | ⟨-, hadd⟩
  · rw [hadd]
  · rw [hadd]
    cases once with
    | false => exact .refl
    | true => exact .single (.flag system.emissions)

theorem remove_leads (system : System Callback Arguments) (same : Callback → Callback → Bool) (callback : Callback) :
    Leads system { system with state := system.state.remove same callback } := by
  obtain ⟨entries, hremove, -⟩ := remove_removes same system.state callback
  rw [hremove]
  exact .refl

theorem raise_leads (system : System Callback Arguments) : Leads system system.raise := by
  unfold System.raise
  split
  · exact .refl
  · rename_i emission stack hstack
    have hrunning : system.emissions.running =
        (emission.emit, emission.rest) :: stack.map fun emission => (emission.emit, emission.rest) := by
      unfold System.emissions
      rw [hstack]
      rfl
    exact .single (.raises system.emissions emission.emit emission.rest _ hrunning)

/-- A step of the system is a sequence of moves. -/
theorem Known.step_leads (h : Known system) (same : Callback → Callback → Bool) (action : Action Callback Arguments) :
    Leads system (system.step same action) := by
  cases action with
  | add callback once => exact add_leads system callback once
  | remove callback => exact remove_leads system same callback
  | emit arguments =>
    have hflags : Flags Listener.fired system.state.flags system.state.entries :=
      ⟨(h.entries.filterMap Listener.fired).nodup h.flags.nodup,
        fun listener hlistener => h.flags.bound listener (h.entries.subset hlistener)⟩
    have hbegins : Leads system (system.begins arguments) :=
      .single (.begins system.emissions system.state.entries hflags)
    exact hbegins.trans (proceed_leads (system.begins arguments))
  | «return» => exact proceed_leads system
  | raise => exact raise_leads system

theorem system_run (same : Callback → Callback → Bool) (actions : List (Action Callback Arguments)) :
    Known (run (System.step same) {} actions) ∧
      Orderly Listener.fired (run (System.step same) {} actions).emissions :=
  run_preserves (P := fun system => Known system ∧ Orderly Listener.fired system.emissions)
    (fun _ action h => ⟨h.1.steps same action, h.2.leads (h.1.step_leads same action)⟩) ⟨.new, .new⟩ actions

theorem proceed_started (system : System Callback Arguments) : system.proceed.started = system.started := by
  rcases proceed_cases system with ⟨-, hproceed⟩ | ⟨emission, stack, -, ⟨-, hproceed⟩ |
    ⟨skipped, listener, rest, -, -, -, state, -, hproceed⟩⟩
  · rw [hproceed]
  · rw [hproceed]
  · rw [hproceed]

/-- Snapshots stay on record. -/
theorem started_step (same : Callback → Callback → Bool) (system : System Callback Arguments)
    (action : Action Callback Arguments) : system.started ⊆ (system.step same action).started := by
  cases action with
  | add callback once =>
    show system.started ⊆ (system.add callback once).started
    unfold System.add
    split
    · exact List.Subset.refl _
    · exact List.Subset.refl _
  | remove callback => exact List.Subset.refl _
  | emit arguments =>
    show system.started ⊆ (system.begins arguments).proceed.started
    rw [proceed_started]
    exact List.subset_append_left _ _
  | «return» =>
    show system.started ⊆ system.proceed.started
    rw [proceed_started]
    exact List.Subset.refl _
  | raise =>
    show system.started ⊆ system.raise.started
    unfold System.raise
    split
    · exact List.Subset.refl _
    · exact List.Subset.refl _

/-- Another emit has called the listener, which fires once. -/
def System.firedElsewhere (system : System Callback Arguments) (emit : Nat) (listener : Listener Callback) : Bool :=
  listener.fired.isSome && system.called.any fun call => call.1 != emit && call.2.identity == listener.identity

/-- A flag tells as much as an identity. -/
theorem Known.fired_eq (h : Known system) {listener other : Listener Callback} (hmem : listener ∈ system.added)
    (hother : other ∈ system.added) (honce : listener.fired.isSome) :
    (other.fired == listener.fired) = (other.identity == listener.identity) := by
  obtain ⟨flag, hflag⟩ := Option.isSome_iff_exists.mp honce
  rw [Bool.eq_iff_iff, beq_iff_eq, beq_iff_eq]
  constructor
  · intro hsame
    rw [h.flags.eq_of_flag hother hmem (hsame.trans hflag) hflag]
  · intro hsame
    rw [h.eq_of_identity hother hmem hsame]

theorem Known.firedElsewhere_eq (h : Known system) {listener : Listener Callback} (hmem : listener ∈ system.added)
    (emit : Nat) :
    Lib.firedElsewhere Listener.fired system.called emit listener = system.firedElsewhere emit listener := by
  unfold Lib.firedElsewhere System.firedElsewhere
  cases honce : listener.fired.isSome with
  | false => rfl
  | true =>
    rw [Bool.true_and, Bool.true_and]
    rw [Bool.eq_iff_iff, List.any_eq_true, List.any_eq_true]
    refine exists_congr fun call => and_congr_right fun hcall => ?_
    rw [h.fired_eq hmem (h.called call hcall) honce]

/-- The snapshot of an emit is the list when it began. -/
theorem started_run (same : Callback → Callback → Bool) (before after : List (Action Callback Arguments))
    (arguments : Arguments) :
    let start := run (System.step same) {} before
    (start.emits, start.state.entries) ∈ (run (System.step same) {} (before ++ .emit arguments :: after)).started := by
  intro start
  have hnew : (start.emits, start.state.entries) ∈ (start.step same (.emit arguments)).started := by
    show _ ∈ (start.begins arguments).proceed.started
    rw [proceed_started]
    exact List.mem_append_right _ (List.mem_singleton_self _)
  rw [run_append, run_cons]
  exact run_relation (R := fun system system' : System Callback Arguments => system.started ⊆ system'.started)
    (fun _ => List.Subset.refl _) (fun h h' => List.Subset.trans h h') (started_step same) _ after hnew

/-- The flag of a once listener tells whether it was called. -/
theorem Known.once (h : Known system) (horderly : Orderly Listener.fired system.emissions)
    {listener : Listener Callback} (hmem : listener ∈ system.added) (honce : listener.fired.isSome) :
    ∃ flag, listener.fired = some flag ∧
      system.called.countP (fun call => call.2.identity == listener.identity) =
        if flagged system.state.flags flag then 1 else 0 := by
  obtain ⟨flag, hflag⟩ := Option.isSome_iff_exists.mp honce
  have hsame : system.called.countP (fun call => call.2.identity == listener.identity) =
      system.called.countP fun call => call.2.fired == some flag := by
    refine List.countP_congr fun call hcall => ?_
    rw [← hflag, h.fired_eq hmem (h.called call hcall) honce]
  exact ⟨flag, hflag, hsame.trans (horderly.counted flag)⟩

/-- Whatever the listeners do, the identities in the list are distinct and `remove` takes the last
registration of a callback; each `emit` that returns has called, in order, the listeners that stood in
the list when it began, but for the once listeners that another one had called; no once listener is
called twice. -/
theorem typed_emit_snapshot (same : Callback → Callback → Bool) (actions : List (Action Callback Arguments)) :
    let system := run (System.step same) {} actions
    (system.state.entries.map Listener.identity).Nodup ∧
    (∀ callback, ∃ entries, system.state.remove same callback = { system.state with entries } ∧
      Removes same callback system.state.entries entries) ∧
    (∀ before arguments after, actions = before ++ .emit arguments :: after →
      let start := run (System.step same) {} before
      (start.emits, start.state.entries) ∈ system.started) ∧
    (system.started.map Prod.fst).Nodup ∧
    (∀ emission ∈ system.started, (∃ running ∈ system.stack, running.emit = emission.1) ∨
      emission.1 ∈ system.finished.map Prod.fst ∨ emission.1 ∈ system.raised) ∧
    (∀ emit result, (emit, result) ∈ system.finished → ∃ snapshot, (emit, snapshot) ∈ system.started ∧
      result = !snapshot.isEmpty ∧
      callsOf system.called emit = snapshot.filter fun listener => !system.firedElsewhere emit listener) ∧
    (∀ listener ∈ system.added, listener.fired.isSome →
      system.called.countP (fun call => call.2.identity == listener.identity) ≤ 1) ∧
    ∀ entry ∈ system.state.entries, entry.fired.isSome → ∀ call ∈ system.called,
      call.2.identity ≠ entry.identity := by
  intro system
  obtain ⟨h, horderly⟩ := system_run same actions
  refine ⟨(h.entries.map _).nodup h.identities, remove_removes same system.state, ?_, ?_, ?_, ?_, ?_, ?_⟩
  · rintro before arguments after rfl
    exact started_run same before after arguments
  · rw [show system.started.map Prod.fst = List.range system.emits from horderly.started]
    exact List.nodup_range
  · intro emission hemission
    rcases horderly.ended emission.1 (horderly.started_lt hemission) with hrunning | hover
    · obtain ⟨running, hmem, hsame⟩ := List.mem_map.mp hrunning
      obtain ⟨top, htop, rfl⟩ := List.mem_map.mp hmem
      exact .inl ⟨top, htop, hsame⟩
    · exact .inr hover
  · intro emit result hfinished
    obtain ⟨snapshot, hstarted, hresult⟩ := h.finished (emit, result) hfinished
    refine ⟨snapshot, hstarted, hresult, ?_⟩
    have hsettled := (horderly.finished emit (List.mem_map_of_mem hfinished)).2 snapshot hstarted
    refine hsettled.called.trans (List.filter_congr fun listener hlistener => ?_)
    have hmem := (h.started _ hstarted).subset hlistener
    exact congrArg (!·) (h.firedElsewhere_eq hmem emit)
  · intro listener hmem honce
    obtain ⟨flag, -, hcount⟩ := h.once horderly hmem honce
    rw [hcount]
    split_ifs <;> omega
  · intro entry hentry honce call hcall hsame
    obtain ⟨flag, hflag, hcount⟩ := h.once horderly (h.entries.subset hentry) honce
    rw [if_neg fun hfired => h.live entry hentry ⟨flag, hflag, hfired⟩, List.countP_eq_zero] at hcount
    exact hcount call hcall (beq_iff_eq.mpr hsame)

end Runs

end TsonicNode.Internal
