import TsonicNode.Filesystem.Watching

/-!
# What a poll delivers

`Goes` is what any stretch of a run keeps of the listeners and of what they get. A
poll comes to its end with nothing left of what had been reported before it to the
watchers that are open (`poll_drains`).
-/

namespace TsonicNode.Filesystem.Watch

open TsonicNode.Lib
open Ledger (ofPlace ofPlace_append ofPlace_same ofPlace_other)

variable {Callback Stat : Type}

namespace System

/-- A name that is no UTF-8. -/
def Unreadable (system : System Callback Stat) (event : Nat) : Prop :=
  ∃ value name, system.events[event]? = some value ∧ value.filename = some name ∧ fromUtf8 name = none

/-- The watcher's own listener was called with what the event says. -/
def Told (system : System Callback Stat) (watcher native event : Nat) (state : WatchState Callback) : Prop :=
  ∃ value callback arguments, system.events[event]? = some value ∧ state.Tells value callback arguments ∧
    .called watcher native event callback arguments true ∈ system.record

/-- The listener of the watcher has the event, where there is one; a name may stand in the way that it cannot get. -/
def Informed (system : System Callback Stat) (watcher native event : Nat) (state : WatchState Callback) : Prop :=
  (state.stat = none ∧ state.change = none) ∨ system.Told watcher native event state ∨
    (state.stat = none ∧ system.Unreadable event)

/-- A watcher that is open was open before, or its native watcher is new; what was taken for it, its listener has. -/
structure Goes (before after : System Callback Stat) : Prop where
  record : before.record <+: after.record
  events : before.events <+: after.events
  natives : before.natives.length ≤ after.natives.length
  informed : ∀ (watcher : Nat) (state : WatchState Callback) (native : Nat), after.watchers[watcher]? = some state →
    state.handle = some native →
    (before.watchers[watcher]? = some state ∧ ∀ event ∈ ofPlace native after.taken,
      event ∈ ofPlace native before.taken ∨ after.Informed watcher native event state) ∨
    (before.natives.length ≤ native ∧ ∀ event ∈ ofPlace native after.taken,
      after.Informed watcher native event state)

section
variable {before middle after : System Callback Stat} {native watcher event : Nat} {state : WatchState Callback}

theorem ofPlace_extends {entries more : List (Nat × Nat)} (h : entries <+: more) (place : Nat) :
    ofPlace place entries <+: ofPlace place more := by
  obtain ⟨rest, rfl⟩ := h
  rw [ofPlace_append]
  exact List.prefix_append _ _

theorem filterMap_extends {α β : Type} (f : α → Option β) {xs ys : List α} (h : xs <+: ys) :
    xs.filterMap f <+: ys.filterMap f := by
  obtain ⟨rest, rfl⟩ := h
  rw [List.filterMap_append]
  exact List.prefix_append _ _

theorem Goes.enqueued (h : Goes before after) : before.enqueued <+: after.enqueued := filterMap_extends _ h.record

theorem Goes.taken (h : Goes before after) : before.taken <+: after.taken := filterMap_extends _ h.record

theorem Informed.mono (hrecord : before.record <+: after.record) (hevents : before.events <+: after.events)
    (h : before.Informed watcher native event state) : after.Informed watcher native event state := by
  rcases h with hnone | ⟨value, callback, arguments, hvalue, htells, hmem⟩ | ⟨hstat, value, name, hvalue, hname, hbad⟩
  · exact .inl hnone
  · exact .inr (.inl ⟨value, callback, arguments, getElem?_extends hevents hvalue, htells, hrecord.mem hmem⟩)
  · exact .inr (.inr ⟨hstat, value, name, getElem?_extends hevents hvalue, hname, hbad⟩)

theorem Goes.refl (system : System Callback Stat) : Goes system system where
  record := List.prefix_rfl
  events := List.prefix_rfl
  natives := Nat.le_refl _
  informed _ _ _ hstate _ := .inl ⟨hstate, fun _ hmem => .inl hmem⟩

theorem Goes.trans (h : Goes before middle) (h' : Goes middle after) : Goes before after where
  record := h.record.trans h'.record
  events := h.events.trans h'.events
  natives := Nat.le_trans h.natives h'.natives
  informed watcher state native hstate hhandle := by
    rcases h'.informed watcher state native hstate hhandle with ⟨hmiddle, htold'⟩ | ⟨hnew, htold'⟩
    · have hlast : ∀ event, middle.Informed watcher native event state → after.Informed watcher native event state :=
        fun event => Informed.mono h'.record h'.events
      rcases h.informed watcher state native hmiddle hhandle with ⟨hbefore, htold⟩ | ⟨hnew, htold⟩
      · refine .inl ⟨hbefore, fun event hmem => ?_⟩
        rcases htold' event hmem with hmem | hinformed
        · exact (htold event hmem).imp id (hlast event)
        · exact .inr hinformed
      · refine .inr ⟨hnew, fun event hmem => ?_⟩
        rcases htold' event hmem with hmem | hinformed
        · exact hlast event (htold event hmem)
        · exact hinformed
    · exact .inr ⟨Nat.le_trans h.natives hnew, htold'⟩

/-- Nothing is taken. -/
theorem Goes.notes {entries : List (Entry Callback Stat)} (hrecord : after.record = before.record ++ entries)
    (htakes : entries.filterMap Entry.takes = []) (hevents : before.events <+: after.events)
    (hnatives : before.natives.length ≤ after.natives.length) (hcloses : Closes before after) : Goes before after := by
  have hfront : before.record <+: after.record := ⟨entries, hrecord.symm⟩
  have htaken : after.taken = before.taken := by
    unfold System.taken
    rw [hrecord, List.filterMap_append, htakes, List.append_nil]
  refine ⟨hfront, hevents, hnatives, fun watcher state native hstate hhandle => ?_⟩
  exact .inl ⟨hcloses watcher state native hstate hhandle, fun event hmem => .inl (htaken ▸ hmem)⟩

theorem Goes.same (hrecord : after.record = before.record) (hevents : before.events <+: after.events)
    (hnatives : before.natives.length ≤ after.natives.length) (hcloses : Closes before after) : Goes before after :=
  .notes (hrecord.trans (List.append_nil _).symm) rfl hevents hnatives hcloses

end

section
variable {system : System Callback Stat} {native watcher : Nat} {value : FsWatcher}

theorem Goes.setNative (native : Nat) (value : FsWatcher) (system : System Callback Stat) :
    Goes system (system.setNative native value) :=
  .same rfl List.prefix_rfl (Nat.le_of_eq List.length_set.symm) fun _ _ _ hstate _ => hstate

theorem Goes.enqueue (native : Nat) (value : FsWatcher) (event : FsEvent Stat) (system : System Callback Stat) :
    Goes system (system.enqueue native value event) :=
  .notes rfl rfl (List.prefix_append _ _) (Nat.le_of_eq List.length_set.symm) fun _ _ _ hstate _ => hstate

theorem Goes.occur [Inhabited Stat] (system : System Callback Stat) (occurrence : Occurrence Stat) :
    Goes system (system.occur occurrence) := by
  cases occurrence with
  | changed native filename rename status allocates copies =>
    dsimp only [System.occur]
    split
    · exact .refl system
    · rename_i value hnative
      split
      · exact .refl system
      · split
        · exact .setNative native _ system
        · split
          · exact .enqueue native value _ system
          · split
            · exact .enqueue native value _ system
            · exact .enqueue native value _ system
  | statChanged native status previous current allocates =>
    dsimp only [System.occur]
    split
    · exact .refl system
    · rename_i value hnative
      split
      · exact .refl system
      · split
        · exact .setNative native _ system
        · exact .enqueue native value _ system
  | closed native =>
    dsimp only [System.occur]
    split
    · exact .refl system
    · rename_i value hnative
      split
      · exact .refl system
      · exact .notes rfl (by simp [Function.comp_def, Entry.takes]) List.prefix_rfl
          (Nat.le_of_eq List.length_set.symm) fun _ _ _ hstate _ => hstate

theorem Goes.occurs [Inhabited Stat] (occurrences : List (Occurrence Stat)) (system : System Callback Stat) :
    Goes system (occurrences.foldl System.occur system) := by
  induction occurrences generalizing system with
  | nil => exact .refl system
  | cons occurrence occurrences ih => exact (Goes.occur system occurrence).trans (ih _)

/-- A watcher that is closed has no handle, and the others are as they were. -/
theorem close_watchers (system : System Callback Stat) (watcher : Nat) :
    (∃ entries, (system.close watcher).record = system.record ++ entries ∧ entries.filterMap Entry.takes = []) ∧
      (system.close watcher).events = system.events ∧
      (system.close watcher).natives.length = system.natives.length ∧ Closes system (system.close watcher) ∧
      (system.close watcher).handle watcher = none := by
  have hstays : system.handle watcher = none → (∃ entries : List (Entry Callback Stat),
      system.record = system.record ++ entries ∧ entries.filterMap Entry.takes = []) ∧ system.events = system.events ∧
        system.natives.length = system.natives.length ∧ Closes system system ∧ system.handle watcher = none :=
    fun hnone => ⟨⟨[], (List.append_nil _).symm, rfl⟩, rfl, rfl, fun _ _ _ hstate _ => hstate, hnone⟩
  unfold System.close
  split
  · rename_i hwatcher
    refine hstays ?_
    unfold handle
    rw [hwatcher]
    rfl
  · rename_i state hwatcher
    split
    · rename_i hnone
      refine hstays ?_
      unfold handle
      rw [hwatcher]
      exact hnone
    · rename_i native hhandle
      have hlt : watcher < system.watchers.length := (List.getElem?_eq_some_iff.mp hwatcher).1
      have hset : ∀ after : System Callback Stat, after.watchers = system.watchers.set watcher
          { state with handle := none, change := none, stat := none } →
            Closes system after ∧ after.handle watcher = none := by
        intro after hafter
        constructor
        · intro other state native hstate hopen
          rw [hafter] at hstate
          by_cases hother : watcher = other
          · subst hother
            rw [List.getElem?_set_self hlt, Option.some.injEq] at hstate
            subst hstate
            cases hopen
          · rwa [List.getElem?_set_ne hother] at hstate
        · unfold handle
          rw [hafter, List.getElem?_set_self hlt]
          rfl
      unfold closeNative
      dsimp only
      split
      · exact ⟨⟨[], (List.append_nil _).symm, rfl⟩, rfl, rfl, hset _ rfl⟩
      · split
        · exact ⟨⟨[], (List.append_nil _).symm, rfl⟩, rfl, rfl, hset _ rfl⟩
        · exact ⟨⟨[.closes native], rfl, rfl⟩, rfl, List.length_set, hset _ rfl⟩

theorem close_stack (system : System Callback Stat) (watcher : Nat) : (system.close watcher).stack = system.stack := by
  unfold System.close
  split
  · rfl
  · split
    · rfl
    · unfold closeNative
      dsimp only
      split
      · rfl
      · split <;> rfl

theorem freed_takes (events : List Nat) :
    (events.map Entry.freed : List (Entry Callback Stat)).filterMap Entry.takes = [] := by
  simp [Function.comp_def, Entry.takes]

theorem Goes.close (system : System Callback Stat) (watcher : Nat) : Goes system (system.close watcher) := by
  obtain ⟨⟨entries, hrecord, htakes⟩, hevents, hnatives, hcloses, -⟩ := close_watchers system watcher
  exact .notes hrecord htakes (hevents ▸ List.prefix_rfl) (Nat.le_of_eq hnatives.symm) hcloses

theorem Goes.setReferenced (system : System Callback Stat) (watcher : Nat) (referenced : Bool) :
    Goes system (system.setReferenced watcher referenced) := by
  unfold System.setReferenced
  split
  · exact .refl system
  · split
    · exact .refl system
    · exact .setNative _ _ system

theorem Goes.unwatchFile (same : Callback → Callback → Bool) (path : Bytes) (listener : Option Callback)
    (system : System Callback Stat) : Goes system (system.unwatchFile same path listener) := by
  unfold System.unwatchFile
  generalize system.registry = watchers
  induction watchers generalizing system with
  | nil => exact .refl system
  | cons watcher watchers ih =>
    rw [List.foldl_cons]
    refine Goes.trans ?_ (ih _)
    split
    · exact .refl system
    · split
      · exact .refl system
      · split
        · exact .close system watcher
        · exact .refl system

/-- A place that is new has nothing that was taken. -/
theorem Orderly.taken_new (h : Orderly system) (hnew : system.natives.length ≤ native) :
    ofPlace native system.taken = [] := by
  obtain ⟨rest, horder, -⟩ := h.ledger.order native
  have hnone : ofPlace native system.ledger.enqueued = [] := by
    refine Ledger.ofPlace_none fun entry hentry hplace => ?_
    have hlt := h.ledger.enqueued_lt entry hentry
    rw [show system.ledger.queues.length = system.natives.length from List.length_map _] at hlt
    omega
  rw [hnone] at horder
  exact (List.append_eq_nil_iff.mp horder.symm).1

theorem Goes.watch (h : Orderly system) (path : Bytes) (interval : Option Number) (persistent : Bool)
    (change stat : Option Callback) (answer : NewAnswer) :
    Goes system (system.watch path interval persistent change stat answer) := by
  unfold System.watch
  split
  · exact .refl system
  · cases answer with
    | failed => exact .refl system
    | unstarted =>
      exact .notes rfl rfl List.prefix_rfl (by simp [note]) fun _ _ _ hstate _ => hstate
    | started =>
      refine ⟨List.prefix_append _ _, List.prefix_rfl, by simp [note], fun watcher state native hstate hhandle => ?_⟩
      have htaken : (system.record ++ [Entry.opened ⟨some system.natives.length, path, change, stat⟩]).filterMap
          Entry.takes = system.taken := by
        rw [List.filterMap_append]
        exact List.append_nil _
      replace hstate := (getElem?_snoc _ _ _).symm.trans hstate
      split_ifs at hstate with hend
      · right
        cases hstate
        cases hhandle
        refine ⟨Nat.le_refl _, fun event hmem => ?_⟩
        have hnone : ofPlace system.natives.length system.taken = [] := h.taken_new (Nat.le_refl _)
        rw [← htaken] at hnone
        exact absurd (hnone ▸ hmem) List.not_mem_nil
      · refine .inl ⟨hstate, fun event hmem => .inl ?_⟩
        rw [← htaken]
        exact hmem

/-! ## An event is taken -/

/-- What is taken, the listeners of the native watcher have. -/
theorem Goes.takes {before after : System Callback Stat} {event : Nat} {entries : List (Entry Callback Stat)}
    (hrecord : after.record = before.record ++ .took native event :: entries)
    (htakes : entries.filterMap Entry.takes = []) (hevents : before.events <+: after.events)
    (hnatives : before.natives.length ≤ after.natives.length) (hcloses : Closes before after)
    (hinformed : ∀ (watcher : Nat) (state : WatchState Callback), after.watchers[watcher]? = some state →
      state.handle = some native → after.Informed watcher native event state) : Goes before after := by
  have hfront : before.record <+: after.record := ⟨_, hrecord.symm⟩
  have htaken : after.taken = before.taken ++ [(native, event)] := by
    have hentries : (Entry.took native event :: entries).filterMap Entry.takes =
        (native, event) :: entries.filterMap Entry.takes := rfl
    unfold System.taken
    rw [hrecord, List.filterMap_append, hentries, htakes]
  refine ⟨hfront, hevents, hnatives, fun watcher state other hstate hhandle => ?_⟩
  refine .inl ⟨hcloses watcher state other hstate hhandle, fun thing hmem => ?_⟩
  rw [htaken, ofPlace_append, List.mem_append] at hmem
  refine hmem.imp id fun hmem => ?_
  by_cases hother : native = other
  · subst hother
    rw [ofPlace_same, List.mem_singleton] at hmem
    rw [hmem]
    exact hinformed watcher state hstate hhandle
  · rw [ofPlace_other hother] at hmem
    cases hmem

theorem mapM_none {α β : Type} {f : α → Option β} {value : Option α} (h : value.mapM f = none) :
    ∃ inner, value = some inner ∧ f inner = none := by
  cases value with
  | none => cases h
  | some inner =>
    refine ⟨inner, rfl, ?_⟩
    cases hf : f inner with
    | none => rfl
    | some result => simp [hf] at h

/-- An event comes to the listener, or an error to the code outside. -/
theorem handleEvent_cases {event : Nat} {queue : List Nat} {state : WatchState Callback} {told : FsEvent Stat}
    (again : Code) (h : Orderly system) (hwatcher : system.watchers[watcher]? = some state)
    (hhandle : state.handle = some native) (hevent : system.events[event]? = some told) :
    Goes system ((system.took native event value queue).handleEvent watcher native event state told again) ∧
      (((system.took native event value queue).handleEvent watcher native event state told again).stack =
          (unwind system.stack).2 ∨
        ∃ codes, ((system.took native event value queue).handleEvent watcher native event state told again).stack =
          codes ++ again :: system.stack) := by
  have hlength : system.natives.length ≤ (system.took native event value queue).natives.length :=
    Nat.le_of_eq List.length_set.symm
  have hsole : ∀ {other : Nat} {after : WatchState Callback}, system.watchers[other]? = some after →
      after.handle = some native → other = watcher ∧ after = state := by
    intro other after hafter hnative
    have hsame : other = watcher := h.watched.distinct other watcher native
      (Option.bind_eq_some_iff.mpr ⟨after, hafter, hnative⟩) (Option.bind_eq_some_iff.mpr ⟨state, hwatcher, hhandle⟩)
    subst hsame
    exact ⟨rfl, Option.some.inj (hafter.symm.trans hwatcher)⟩
  have hopen : (system.took native event value queue).isOpen watcher = true := by
    have hhandled : (system.took native event value queue).handle watcher = some native :=
      Option.bind_eq_some_iff.mpr ⟨state, hwatcher, hhandle⟩
    unfold isOpen
    rw [hhandled]
    rfl
  have hcalled : ∀ {callback : Callback} {arguments : Arguments Stat}, state.Tells told callback arguments →
      Goes system (((system.took native event value queue).note (.called watcher native event callback arguments
        ((system.took native event value queue).isOpen watcher))).push [.outside, .release event, again]) := by
    intro callback arguments htells
    rw [hopen]
    have hrecord : (system.record ++ [Entry.took native event]) ++ [.called watcher native event callback arguments
        true] = system.record ++ .took native event :: [.called watcher native event callback arguments true] :=
      List.append_assoc _ _ _
    refine .takes hrecord rfl List.prefix_rfl hlength (fun _ _ _ hstate _ => hstate) fun other after hafter hnative => ?_
    obtain ⟨rfl, rfl⟩ := hsole hafter hnative
    exact .inr (.inl ⟨told, callback, arguments, hevent, htells, List.mem_append_right _ (List.mem_singleton_self _)⟩)
  unfold handleEvent
  split
  · -- the watcher is closed, and nobody else has its native watcher
    obtain ⟨⟨entries, hrecord, htakes⟩, hevents, hnatives, hcloses, hgone⟩ :=
      close_watchers (system.took native event value queue) watcher
    have hstack : ((system.took native event value queue).close watcher).stack = system.stack := close_stack _ _
    refine ⟨?_, .inl (congrArg (fun stack => (unwind stack).2) hstack)⟩
    have hall : (((system.took native event value queue).close watcher).free event).raise.record =
        system.record ++ .took native event :: (entries ++ .freed event ::
          (unwind ((system.took native event value queue).close watcher).stack).1.map .freed) := by
      show ((system.took native event value queue).close watcher).record ++ [_] ++ _ = _
      rw [hrecord]
      show (system.record ++ [_]) ++ entries ++ [_] ++ _ = _
      simp only [List.append_assoc, List.cons_append, List.nil_append]
      rfl
    refine .takes hall ?_ (hevents ▸ List.prefix_rfl) (hnatives ▸ hlength) (fun _ _ _ => hcloses _ _ _) ?_
    · rw [List.filterMap_append, htakes]
      exact freed_takes (event :: _)
    · intro other after hafter hnative
      obtain ⟨rfl, -⟩ := hsole (hcloses other after native hafter hnative) hnative
      have hopen : ((system.took native event value queue).close other).handle other = some native :=
        Option.bind_eq_some_iff.mpr ⟨after, hafter, hnative⟩
      rw [hgone] at hopen
      cases hopen
  · split
    · rename_i listener hstat
      exact ⟨hcalled (.stats hstat), .inr ⟨[.outside, .release event], rfl⟩⟩
    · rename_i listener hstat hchange
      split
      · rename_i hfilename
        obtain ⟨name, hname, hbad⟩ := mapM_none hfilename
        have hall : ((system.took native event value queue).free event).raise.record =
            system.record ++ .took native event :: (.freed event :: (unwind system.stack).1.map .freed) := by
          show (system.record ++ [_]) ++ [_] ++ _ = _
          simp only [List.append_assoc, List.cons_append, List.nil_append]
          rfl
        refine ⟨?_, .inl rfl⟩
        refine .takes hall (freed_takes (event :: _)) List.prefix_rfl hlength (fun _ _ _ hstate _ => hstate)
          fun other after hafter hnative => ?_
        obtain ⟨rfl, rfl⟩ := hsole hafter hnative
        exact .inr (.inr ⟨hstat, told, name, hevent, hname, hbad⟩)
      · rename_i filename hfilename
        exact ⟨hcalled (.change hstat hchange hfilename), .inr ⟨[.outside, .release event], rfl⟩⟩
    · rename_i hstat hchange
      refine ⟨?_, .inr ⟨[], rfl⟩⟩
      have hall : (((system.took native event value queue).free event).push [again]).record =
          system.record ++ .took native event :: [.freed event] := List.append_assoc _ _ _
      refine .takes hall rfl List.prefix_rfl hlength (fun _ _ _ hstate _ => hstate) fun other after hafter hnative => ?_
      obtain ⟨rfl, rfl⟩ := hsole hafter hnative
      exact .inl ⟨hstat, hchange⟩

theorem Goes.push (codes : List Code) (system : System Callback Stat) : Goes system (system.push codes) :=
  .same rfl List.prefix_rfl (Nat.le_refl _) fun _ _ _ hstate _ => hstate

theorem Goes.raise (system : System Callback Stat) : Goes system system.raise :=
  .notes rfl (freed_takes _) List.prefix_rfl (Nat.le_refl _) fun _ _ _ hstate _ => hstate

/-- A poll that goes on to the next watcher leaves nothing at this one; it stays at this one; or an error ends it. -/
theorem turn_cases (h : Orderly system) (worked : Bool) (rest : List Nat) :
    Goes system (system.turn worked (watcher :: rest)) ∧
      (((system.turn worked (watcher :: rest)).stack = .poll rest worked :: system.stack ∧ ∀ native,
          system.handle watcher = some native → ofPlace native system.enqueued = ofPlace native system.taken) ∨
        (system.turn worked (watcher :: rest)).stack = (unwind system.stack).2 ∨
        ∃ codes, (system.turn worked (watcher :: rest)).stack =
          codes ++ .poll (watcher :: rest) true :: system.stack) := by
  have hgoes : Goes system (system.push [.poll rest worked]) := .push _ system
  dsimp only [System.turn]
  split
  · rename_i hnone
    refine ⟨hgoes, .inl ⟨rfl, fun native hhandle => ?_⟩⟩
    unfold handle at hhandle
    rw [hnone] at hhandle
    cases hhandle
  · rename_i state hwatcher
    have hhandle_of : system.handle watcher = state.handle := by
      unfold handle
      rw [hwatcher, Option.bind_some]
    split
    · rename_i hnone
      refine ⟨hgoes, .inl ⟨rfl, fun native hhandle => ?_⟩⟩
      rw [hhandle_of, hnone] at hhandle
      cases hhandle
    · rename_i native hhandle
      obtain ⟨value, hnative, -, hfreed⟩ := h.handles.native_of hwatcher hhandle
      rw [hnative]
      dsimp only
      split
      · refine ⟨((Goes.setNative native _ system).trans (.close _ watcher)).trans (.raise _), .inr (.inl ?_)⟩
        exact congrArg (fun stack => (unwind stack).2) (close_stack _ watcher)
      · split
        · rename_i hqueue
          refine ⟨hgoes, .inl ⟨rfl, fun other hother => ?_⟩⟩
          obtain rfl : native = other := Option.some.inj (hhandle.symm.trans (hhandle_of.symm.trans hother))
          obtain ⟨left, horder, hleft⟩ := h.watched.order native
          rw [horder, hleft value hnative hfreed, hqueue, List.append_nil]
        · rename_i event queue hqueue
          split
          · rename_i hnone
            have hlt : event < system.events.length :=
              h.ledger.waiting_lt (queue_of hnative hfreed) (hqueue ▸ List.mem_cons_self)
            exact absurd (List.getElem?_eq_none_iff.mp hnone) (Nat.not_le_of_lt hlt)
          · rename_i told hevent
            obtain ⟨hgoes, hstack⟩ := @handleEvent_cases _ _ _ _ _ value event queue _ _
              (.poll (watcher :: rest) true) h hwatcher hhandle hevent
            exact ⟨hgoes, .inr hstack⟩

/-! ## A poll that goes on -/

theorem unwind_length (stack : List Code) : (unwind stack).2.length ≤ stack.length := by
  induction stack with
  | nil => exact Nat.le_refl 0
  | cons code stack ih =>
    cases code with
    | outside => exact Nat.le_refl _
    | poll rest worked => exact Nat.le_succ_of_le ih
    | release event => exact Nat.le_succ_of_le ih

/-- An error leaves the polls below the code that gets it. -/
theorem unwind_suffix {rest : List Nat} {worked : Bool} {base stack : List Code}
    (hframe : .poll rest worked :: base <:+ stack) :
    .poll rest worked :: base <:+ (unwind stack).2 ∨ (unwind stack).2.length ≤ base.length := by
  induction stack with
  | nil => exact absurd (List.suffix_nil.mp hframe) (List.cons_ne_nil _ _)
  | cons code stack ih =>
    rcases List.suffix_cons_iff.mp hframe with heq | hbelow
    · rw [← heq]
      exact .inr (unwind_length base)
    · cases code with
      | outside => exact .inl hframe
      | poll rest worked => exact ih hbelow
      | release event => exact ih hbelow

/-- What was reported to the watchers that are open was taken, if they do not come yet. -/
def Covers (polled : System Callback Stat) (rest : List Nat) (system : System Callback Stat) : Prop :=
  ∀ watcher native, system.handle watcher = some native →
    watcher ∈ rest ∨ ofPlace native polled.enqueued <+: ofPlace native system.taken

theorem Covers.mono {polled before after : System Callback Stat} {rest : List Nat} (hpolled : Orderly polled)
    (hgone : Goes polled before) (hgoes : Goes before after) (h : Covers polled rest before) :
    Covers polled rest after := by
  intro watcher native hhandle
  obtain ⟨state, hstate, hnative⟩ := handle_eq hhandle
  rcases hgoes.informed watcher state native hstate hnative with ⟨hbefore, -⟩ | ⟨hnew, -⟩
  · have hopen : before.handle watcher = some native := Option.bind_eq_some_iff.mpr ⟨state, hbefore, hnative⟩
    exact (h watcher native hopen).imp id fun hfront => hfront.trans (ofPlace_extends hgoes.taken native)
  · right
    have hnone : ofPlace native polled.enqueued = [] := by
      refine Ledger.ofPlace_none fun entry hentry hplace => ?_
      have hlt := hpolled.ledger.enqueued_lt entry hentry
      have hlength : polled.ledger.queues.length = polled.natives.length := List.length_map _
      have hle := hgone.natives
      omega
    rw [hnone]
    exact List.nil_prefix

/-- The poll is still there, with what it covers; or it came to its end. -/
def Polling (polled : System Callback Stat) (base : List Code) (system : System Callback Stat) : Prop :=
  (∃ rest worked, .poll rest worked :: base <:+ system.stack ∧ Covers polled rest system) ∨
    system.stack.length ≤ base.length

section
variable [Inhabited Stat] (same : Callback → Callback → Bool)

theorem occur_stack (occurrence : Occurrence Stat) (system : System Callback Stat) :
    (system.occur occurrence).stack = system.stack := by
  cases occurrence with
  | changed native filename rename status allocates copies =>
    dsimp only [System.occur]
    split
    · rfl
    · split
      · rfl
      · split
        · rfl
        · split
          · rfl
          · split <;> rfl
  | statChanged native status previous current allocates =>
    dsimp only [System.occur]
    split
    · rfl
    · split
      · rfl
      · split <;> rfl
  | closed native =>
    dsimp only [System.occur]
    split
    · rfl
    · split <;> rfl

theorem occurs_stack (occurrences : List (Occurrence Stat)) (system : System Callback Stat) :
    (occurrences.foldl System.occur system).stack = system.stack := by
  induction occurrences generalizing system with
  | nil => rfl
  | cons occurrence occurrences ih => rw [List.foldl_cons, ih, occur_stack]

omit [Inhabited Stat] in
theorem unwatchFile_stack (path : Bytes) (listener : Option Callback) (system : System Callback Stat) :
    (system.unwatchFile same path listener).stack = system.stack := by
  unfold System.unwatchFile
  generalize system.registry = watchers
  induction watchers generalizing system with
  | nil => rfl
  | cons watcher watchers ih =>
    rw [List.foldl_cons, ih]
    split
    · rfl
    · split
      · rfl
      · split
        · exact close_stack system watcher
        · rfl

/-- What code outside does to the stack. -/
theorem act_cases (h : Orderly system) (action : Action Callback Stat) :
    Goes system (system.act same action) ∧
      (system.stack <:+ (system.act same action).stack ∨ (system.act same action).stack = system.stack.tail ∨
        (system.act same action).stack = (unwind system.stack.tail).2) := by
  have hpop : Goes system { system with stack := system.stack.tail } :=
    .same rfl List.prefix_rfl (Nat.le_refl _) fun _ _ _ hstate _ => hstate
  have hstays : ∀ {after : System Callback Stat}, after.stack = system.stack → system.stack <:+ after.stack :=
    fun hafter => hafter ▸ List.suffix_rfl
  have hwatch : ∀ path interval persistent (change stat : Option Callback) answer,
      (system.watch path interval persistent change stat answer).stack = system.stack := by
    intro path interval persistent change stat answer
    unfold System.watch
    split
    · rfl
    · cases answer <;> rfl
  cases action with
  | watch path interval persistent listener answer =>
    exact ⟨.watch h path interval persistent listener none answer, .inl (hstays (hwatch _ _ _ _ _ _))⟩
  | watchFile path interval persistent listener answer =>
    exact ⟨.watch h path interval persistent none (some listener) answer, .inl (hstays (hwatch _ _ _ _ _ _))⟩
  | unwatchFile path listener =>
    exact ⟨.unwatchFile same path listener system, .inl (hstays (unwatchFile_stack same path listener system))⟩
  | close watcher => exact ⟨.close system watcher, .inl (hstays (close_stack system watcher))⟩
  | setReferenced watcher referenced =>
    refine ⟨.setReferenced system watcher referenced, .inl (hstays ?_)⟩
    show (system.setReferenced watcher referenced).stack = _
    unfold System.setReferenced
    split
    · rfl
    · split <;> rfl
  | poll occurrences =>
    refine ⟨(Goes.occurs occurrences system).trans (.push _ _), .inl ?_⟩
    show system.stack <:+ _ :: (occurrences.foldl System.occur system).stack
    rw [occurs_stack]
    exact List.suffix_cons _ _
  | «return» => exact ⟨hpop, .inr (.inl rfl)⟩
  | raise => exact ⟨hpop.trans (.raise _), .inr (.inr rfl)⟩
  | go => exact ⟨.refl system, .inl List.suffix_rfl⟩

theorem Goes.step (h : Orderly system) (action : Action Callback Stat) : Goes system (system.step same action) := by
  have hpop : ∀ stack : List Code, Goes system { system with stack } := fun _ =>
    .same rfl List.prefix_rfl (Nat.le_refl _) fun _ _ _ hstate _ => hstate
  unfold System.step
  split
  · exact (act_cases same h action).1
  · exact (act_cases same h action).1
  · rename_i rest worked stack hstack
    split
    · have hbelow : Orderly { system with stack } := by
        refine h.pop ?_
        unfold held
        rw [hstack]
        rfl
      cases rest with
      | nil => exact (hpop stack).trans (.same rfl List.prefix_rfl (Nat.le_refl _) fun _ _ _ hstate _ => hstate)
      | cons watcher rest => exact (hpop stack).trans (turn_cases hbelow worked rest).1
    · exact .refl system
  · split
    · exact .notes rfl rfl List.prefix_rfl (Nat.le_refl _) fun _ _ _ hstate _ => hstate
    · exact .refl system

theorem Polling.step {polled : System Callback Stat} {base : List Code} (hpolled : Orderly polled)
    (hgone : Goes polled system) (h : Orderly system) (hbase : base.length < system.stack.length)
    (hpolling : Polling polled base system) (action : Action Callback Stat) :
    Polling polled base (system.step same action) := by
  obtain ⟨rest, worked, hframe, hcovers⟩ := hpolling.resolve_right (Nat.not_le_of_lt hbase)
  have hkeeps : .poll rest worked :: base <:+ (system.step same action).stack →
      Polling polled base (system.step same action) :=
    fun hsuffix => .inl ⟨rest, worked, hsuffix, hcovers.mono hpolled hgone (.step same h action)⟩
  have hcatches : ∀ {stack}, .poll rest worked :: base <:+ stack →
      (system.step same action).stack = (unwind stack).2 → Polling polled base (system.step same action) := by
    intro stack hbelow hafter
    rcases unwind_suffix hbelow with hsuffix | hshort
    · exact hkeeps (hafter ▸ hsuffix)
    · exact .inr (hafter ▸ hshort)
  cases hstack : system.stack with
  | nil =>
    rw [hstack] at hbase
    exact absurd hbase (Nat.not_lt_zero _)
  | cons code stack =>
    rw [hstack] at hframe
    cases code with
    | outside =>
      have hbelow : .poll rest worked :: base <:+ stack :=
        (List.suffix_cons_iff.mp hframe).resolve_left fun heq => by cases heq
      have hact : system.step same action = system.act same action := by
        unfold System.step
        rw [hstack]
      rw [hact] at hkeeps hcatches ⊢
      rcases (act_cases same h action).2 with hsuffix | htail | hraised
      · rw [hstack] at hsuffix
        exact hkeeps (hframe.trans hsuffix)
      · rw [hstack] at htail
        exact hkeeps (htail ▸ hbelow)
      · rw [hstack] at hraised
        exact hcatches hbelow hraised
    | release event =>
      have hbelow : .poll rest worked :: base <:+ stack :=
        (List.suffix_cons_iff.mp hframe).resolve_left fun heq => by cases heq
      refine hkeeps ?_
      unfold System.step
      rw [hstack]
      dsimp only
      split
      · exact hbelow
      · rw [hstack]
        exact hframe
    | poll others done =>
      have hpop : Orderly { system with stack } := by
        refine h.pop ?_
        unfold held
        rw [hstack]
        rfl
      by_cases hgo : action = .go
      · subst hgo
        have hturn : system.step same .go = ({ system with stack } : System Callback Stat).turn done others := by
          unfold System.step
          rw [hstack]
        rw [hturn] at hkeeps hcatches ⊢
        rcases List.suffix_cons_iff.mp hframe with heq | hbelow
        · -- the poll itself
          cases heq
          cases rest with
          | nil => exact .inr (Nat.le_refl _)
          | cons watcher rest =>
            have hpopped : Goes polled { system with stack := base } :=
              hgone.trans (.same rfl List.prefix_rfl (Nat.le_refl _) fun _ _ _ hstate _ => hstate)
            obtain ⟨hgoes, hnext | hraised | ⟨codes, hstays⟩⟩ := @turn_cases _ _ _ watcher hpop worked rest
            · -- nothing waits at the watcher that is passed
              have hrest : Covers polled rest { system with stack := base } := by
                intro other native hhandle
                rcases hcovers other native hhandle with hmem | hfront
                · rcases List.mem_cons.mp hmem with rfl | hmem
                  · exact .inr (hnext.2 native hhandle ▸ ofPlace_extends hpopped.enqueued native)
                  · exact .inl hmem
                · exact .inr hfront
              exact .inl ⟨rest, worked, hnext.1 ▸ List.suffix_rfl, hrest.mono hpolled hpopped hgoes⟩
            · refine .inr ?_
              rw [hraised]
              exact unwind_length base
            · have hafter := @Covers.mono _ _ _ _ _ _ hpolled hpopped hgoes hcovers
              exact .inl ⟨watcher :: rest, true, hstays ▸ List.suffix_append _ _, hafter⟩
        · cases others with
          | nil => exact hkeeps hbelow
          | cons watcher others =>
            obtain ⟨-, hnext | hraised | ⟨codes, hstays⟩⟩ := @turn_cases _ _ _ watcher hpop done others
            · exact hkeeps (hnext.1 ▸ hbelow.trans (List.suffix_cons _ _))
            · exact hcatches hbelow hraised
            · refine hkeeps (hstays ▸ ?_)
              exact hbelow.trans ((List.suffix_cons _ _).trans (List.suffix_append _ _))
      · have hidle : system.step same action = system := by
          unfold System.step
          rw [hstack]
          cases action with
          | go => exact absurd rfl hgo
          | _ => rfl
        rw [hidle] at hkeeps ⊢
        exact hkeeps (hstack ▸ hframe)

theorem Goes.run {start : System Callback Stat} (h : Orderly start) (actions : List (Action Callback Stat)) :
    Orderly (Lib.run (System.step same) start actions) ∧ Goes start (Lib.run (System.step same) start actions) :=
  @run_preserves _ _ (System.step same) (fun system => Orderly system ∧ Goes start system)
    (fun _ action h => ⟨h.1.step same action, h.2.trans (.step same h.1 action)⟩) start ⟨h, .refl start⟩ actions

/-- Where a poll begins, it has all the watchers that are open before it. -/
theorem Polling.start {start : System Callback Stat} (h : Orderly start) (occurrences : List (Occurrence Stat)) :
    Polling (start.step same (.poll occurrences)) start.stack (start.step same (.poll occurrences)) := by
  have hpolls : Polling (start.act same (.poll occurrences)) start.stack (start.act same (.poll occurrences)) := by
    refine .inl ⟨(occurrences.foldl System.occur start).registry, false, ?_, fun watcher native hhandle => .inl ?_⟩
    · exact ⟨[], congrArg (_ :: ·) (occurs_stack occurrences start).symm⟩
    · refine (h.reported occurrences).handles.listed watcher ?_
      have hopen : (occurrences.foldl System.occur start).handle watcher = some native := hhandle
      unfold isOpen
      rw [hopen]
      rfl
  unfold System.step
  split
  · exact hpolls
  · exact hpolls
  · exact .inr (Nat.le_refl _)
  · exact .inr (Nat.le_refl _)

end

end

/-- Whatever listeners do while a poll goes on: where it comes to its end, all that had been reported before to the
watchers that are still open was taken and is with their listeners, and only these watchers stay listed. -/
theorem poll_drains [Inhabited Stat] (same : Callback → Callback → Bool) (before after : List (Action Callback Stat))
    (occurrences : List (Occurrence Stat)) (worked : Bool) :
    let start := Lib.run (System.step same) {} before
    let polled := start.step same (.poll occurrences)
    let done := Lib.run (System.step same) polled after
    Meets (System.step same) (fun system _ => start.stack.length < system.stack.length) polled after →
      done.stack = .poll [] worked :: start.stack →
      (∀ (watcher : Nat) (state : WatchState Callback) (native : Nat), done.watchers[watcher]? = some state →
        state.handle = some native → ofPlace native polled.enqueued <+: ofPlace native done.taken ∧
          ∀ event ∈ ofPlace native done.taken, done.Informed watcher native event state) ∧
      ∀ watcher, watcher ∈ (done.step same .go).registry ↔ done.isOpen watcher = true := by
  intro start polled done hmeets hstack
  have hstart : Orderly start := .run same before
  have hpolled : Orderly polled := hstart.step same _
  obtain ⟨hdone, hsince, hpolling⟩ : Orderly done ∧ Goes polled done ∧ Polling polled start.stack done := by
    refine @run_invariant _ _ _ _
      (fun system => Orderly system ∧ Goes polled system ∧ Polling polled start.stack system)
      (fun system action h hlong => ?_) polled after ⟨hpolled, .refl polled, .start same hstart occurrences⟩ hmeets
    obtain ⟨hsystem, hgoes, hpolling⟩ := h
    exact ⟨hsystem.step same action, hgoes.trans (.step same hsystem action),
      hpolling.step same hpolled hgoes hsystem hlong action⟩
  obtain ⟨rest, _, hframe, hcovers⟩ := hpolling.resolve_right (by rw [hstack]; exact Nat.not_succ_le_self _)
  have hrest : rest = [] := by
    rw [hstack] at hframe
    rcases List.suffix_cons_iff.mp hframe with heq | hbelow
    · cases heq
      rfl
    · exact absurd hbelow.length_le (Nat.not_succ_le_self _)
  have hall : Goes {} done := (Goes.run same orderly_new before).2.trans ((Goes.step same hstart _).trans hsince)
  refine ⟨fun watcher state native hstate hhandle => ?_, fun watcher => ?_⟩
  · have hopen : done.handle watcher = some native := Option.bind_eq_some_iff.mpr ⟨state, hstate, hhandle⟩
    refine ⟨(hcovers watcher native hopen).resolve_left (hrest ▸ List.not_mem_nil), ?_⟩
    rcases hall.informed watcher state native hstate hhandle with ⟨hnone, -⟩ | ⟨-, hinformed⟩
    · cases hnone
    · exact hinformed
  · have hprunes : (done.step same .go).registry = done.registry.filter done.isOpen := by
      unfold System.step
      rw [hstack]
      rfl
    rw [hprunes, List.mem_filter]
    exact ⟨And.right, fun hopen => ⟨hdone.handles.listed watcher hopen, hopen⟩⟩

/-- A file is watched and changes; the listener is called with what was reported, and returns. -/
theorem poll_drains_changed :
    let done : System Nat Nat := Lib.run (System.step fun one other => one == other) {}
      [.watchFile [47] none true 7 .started, .poll [.statChanged 0 0 (some 1) (some 2) true], .go, .return, .go, .go]
    [0] <+: ofPlace 0 done.taken ∧
      (∀ event ∈ ofPlace 0 done.taken, done.Informed 0 0 event ⟨some 0, [47], none, some 7⟩) ∧
      .called 0 0 0 7 (.stats 2 1) true ∈ done.record := by
  have hmeets := poll_drains (fun one other => one == other) [.watchFile [47] none true 7 .started]
    [.go, .return, .go, .go] [.statChanged 0 0 (some 1) (some 2) true] true
    ⟨by decide, by decide, by decide, by decide, trivial⟩ rfl
  obtain ⟨hfront, hinformed⟩ := hmeets.1 0 _ 0 rfl rfl
  exact ⟨hfront, hinformed, .tail _ (.tail _ (.tail _ (.head _)))⟩

end System

end TsonicNode.Filesystem.Watch
