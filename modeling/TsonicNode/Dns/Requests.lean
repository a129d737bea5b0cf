import TsonicNode.Dns.Lookups
import TsonicNode.Internal.QueueMachine

/-!
# Requests for names

`_requests` and the callbacks behind them. A request has two owners, the C library
until it is ready and the list until its callback is queued; the second of them
frees it. `poll_dns` goes over the list it has taken (`loop`) with no program code
in between; the callbacks it queues run in `poll` of the queue.
-/

namespace TsonicNode.Dns

open TsonicNode.Lib
open TsonicNode.Internal (Machine Control QueueLabel)

def requestLimit : Nat := 16384

/-- The kinds of `DnsCallback`. -/
inductive CallbackKind where
  | lookup | addressList | lookupAll | lookupAny

structure PendingRequest (Callback : Type) where
  request : Nat
  kind : CallbackKind
  all : Bool
  callback : Callback

/-- `TsonicDnsRequest`, with the counter of its owners. -/
structure Native where
  references : Nat := 2
  /-- There once it is ready. -/
  answer : Option Request := none

inductive Arguments where
  | lookup (failure : Option Failure) (address : Option Result)
  | addressList (failure : Option Failure) (values : Option (List Bytes))
  | lookupAll (failure : Option Failure) (addresses : Option (List Result))
  | lookupAny (failure : Option Failure) (address : Option (Result ⊕ List Result))

/-- A callback bound to its arguments. -/
structure Call (Callback : Type) where
  request : Nat
  callback : Callback
  arguments : Arguments

/-- `lookup_address`, if it does not raise. -/
def lookupAddress (answer : Request) : Option Result :=
  match answer.values with
  | [result] => if result.family = 4 ∨ result.family = 6 then some result else none
  | _ => none

/-- `lookup_addresses`, if it does not raise. -/
def lookupAddresses (answer : Request) : Option (List Result) :=
  if answer.values.all fun result => result.family == 4 || result.family == 6 then some answer.values else none

/-- What `_publish` gives a callback, if it does not raise. -/
def published (kind : CallbackKind) (all : Bool) (answer : Request) : Option Arguments :=
  match kind with
  | .lookup =>
    if answer.failed then some (.lookup answer.failure none)
    else (lookupAddress answer).map fun result => .lookup none (some result)
  | .addressList =>
    if answer.failed then some (.addressList answer.failure none)
    else some (.addressList none (some (answer.values.map Result.value)))
  | .lookupAll =>
    if answer.failed then some (.lookupAll answer.failure none)
    else (lookupAddresses answer).map fun results => .lookupAll none (some results)
  | .lookupAny =>
    if answer.failed then some (.lookupAny answer.failure none)
    else if all then (lookupAddresses answer).map fun results => .lookupAny none (some (.inr results))
    else (lookupAddress answer).map fun result => .lookupAny none (some (.inl result))

structure System (Callback : Type) where
  natives : List Native := []
  /-- Every request there was. -/
  issued : List (PendingRequest Callback) := []
  requests : List (PendingRequest Callback) := []
  /-- What is left of the list that `poll_dns` goes over. -/
  loop : Option (List (PendingRequest Callback)) := none
  queue : Machine (Call Callback) := .new requestLimit

namespace System

variable {Callback : Type}

/-- `live_requests`. -/
def live (system : System Callback) : Nat := total (fun native => if native.references = 0 then 0 else 1) system.natives

/-- What comes of `DnsRequest`: options, the input or memory refuse it, or it starts; it may be ready at once. -/
inductive Started where
  | refused
  | started (immediate : Option Request)

def newNative : Option Request → Native
  | none => {}
  | some answer => { references := 1, answer := some answer }

/-- `_enqueue`, where it returns or raises. -/
def enqueue (kind : CallbackKind) (all : Bool) (callback : Callback) (started : Started) (system : System Callback) :
    System Callback :=
  if system.requests.length + system.queue.queue.pendingCount ≥ requestLimit then system
  else
    match started with
    | .refused => system
    | .started immediate =>
      if system.live ≥ requestLimit then system
      else
        let pending := ⟨system.natives.length, kind, all, callback⟩
        { system with
          natives := system.natives ++ [newNative immediate],
          issued := system.issued ++ [pending],
          requests := system.requests ++ [pending] }

/-- `tsonic_node_dns_request_free`, which frees the request with its last owner. -/
def release (request : Nat) (natives : List Native) : List Native :=
  match natives[request]? with
  | none => natives
  | some native => natives.set request { native with references := native.references - 1 }

/-- `tsonic_dns_request_complete`, behind what was collected; it comes once. -/
def complete (request : Nat) (answer : Request) (system : System Callback) : System Callback :=
  match system.natives[request]? with
  | none => system
  | some native =>
    if native.answer.isSome then system
    else
      { system with
        natives := system.natives.set request { references := native.references - 1, answer := some answer } }

/-- The rest of the loop goes back to the list, and the error on to the caller. -/
def giveBack (pending : List (PendingRequest Callback)) (system : System Callback) : System Callback :=
  { system with requests := system.requests ++ pending, loop := none }

/-- The next turn of the loop of `poll_dns`, or the poll of the queue behind it. -/
def next (system : System Callback) : System Callback :=
  match system.loop with
  | none => system
  | some [] => { system with loop := none, queue := system.queue.enter }
  | some (pending :: rest) =>
    match (system.natives[pending.request]?).bind Native.answer with
    | none => { system with requests := system.requests ++ [pending], loop := some rest }
    | some answer =>
      match published pending.kind pending.all answer with
      | none => system.giveBack (pending :: rest)
      | some arguments =>
        match Machine.push ⟨pending.request, pending.callback, arguments⟩ system.queue with
        | .error _ _ => system.giveBack (pending :: rest)
        | .ok _ queue => { system with natives := release pending.request system.natives, loop := some rest, queue }

inductive Action (Callback : Type) where
  | enqueue (kind : CallbackKind) (all : Bool) (callback : Callback) (started : Started)
  | complete (request : Nat) (answer : Request)
  | poll
  | next
  /-- The queue calls its next callback. -/
  | start
  /-- The callback returns. -/
  | return
  /-- It raises. -/
  | raise
  | leave

/-- The program or a callback runs. -/
def programRuns (system : System Callback) : Bool :=
  system.loop.isNone &&
    match system.queue.control with
    | .ready _ => false
    | _ => true

def step (system : System Callback) : Action Callback → System Callback
  | .enqueue kind all callback started =>
    if system.programRuns then system.enqueue kind all callback started else system
  | .complete request answer => system.complete request answer
  | .poll => if system.programRuns then { system with requests := [], loop := some system.requests } else system
  | .next => system.next
  | .start => if system.loop.isNone then { system with queue := system.queue.start } else system
  | .return => if system.loop.isNone then { system with queue := system.queue.return_ } else system
  | .raise => if system.loop.isNone then { system with queue := system.queue.raise } else system
  | .leave => if system.loop.isNone then { system with queue := system.queue.leave } else system

/-! ## Where the requests are -/

/-- The requests whose callbacks are not queued yet. -/
def waiting (system : System Callback) : List (PendingRequest Callback) := system.loop.getD [] ++ system.requests

def waits (system : System Callback) (request : Nat) : Nat :=
  (system.waiting.map PendingRequest.request).count request

def queued (system : System Callback) (request : Nat) : Nat :=
  (system.queue.commits.map Call.request).count request

/-- The callback is that of its request, and gets what the request was answered. -/
def Told (system : System Callback) (call : Call Callback) : Prop :=
  ∃ pending native answer, system.issued[call.request]? = some pending ∧
    system.natives[call.request]? = some native ∧ native.answer = some answer ∧ pending.callback = call.callback ∧
      published pending.kind pending.all answer = some call.arguments

structure Kept (system : System Callback) : Prop where
  queue : system.queue.Consistent
  limit : system.queue.queue.limit = requestLimit
  places : ∀ request, system.waits request + system.queued request = if request < system.natives.length then 1 else 0
  length : system.issued.length = system.natives.length
  issued : ∀ pending ∈ system.waiting, system.issued[pending.request]? = some pending
  told : ∀ call ∈ system.queue.commits, system.Told call
  references : ∀ request native, system.natives[request]? = some native →
    native.references = (if native.answer.isNone then 1 else 0) + system.waits request
  bound : system.waiting.length ≤ requestLimit
  live : system.live ≤ requestLimit

section
variable {system : System Callback}

theorem kept_new : Kept ({} : System Callback) where
  queue := Machine.new_consistent requestLimit
  limit := rfl
  places _ := rfl
  length := rfl
  issued _ hmem := absurd hmem List.not_mem_nil
  told _ hmem := absurd hmem List.not_mem_nil
  references _ _ hnative := by cases hnative
  bound := Nat.zero_le _
  live := Nat.zero_le _

/-- The lists change places, and the queue goes on with the same calls. -/
theorem Kept.moved (h : Kept system) {after : System Callback} (hnatives : after.natives = system.natives)
    (hissued : after.issued = system.issued) (hwaiting : after.waiting.Perm system.waiting)
    (hqueue : after.queue.Consistent) (hlimit : after.queue.queue.limit = system.queue.queue.limit)
    (hcommits : after.queue.commits = system.queue.commits) : Kept after := by
  have hwaits : ∀ request, after.waits request = system.waits request :=
    fun request => (hwaiting.map _).count_eq request
  refine ⟨hqueue, hlimit.trans h.limit, fun request => ?_, ?_, fun pending hmem => ?_, fun call hmem => ?_,
    fun request native hnative => ?_, hwaiting.length_eq ▸ h.bound, ?_⟩
  · have hplaces := h.places request
    unfold queued at hplaces ⊢
    rwa [hwaits, hcommits, hnatives]
  · rw [hissued, hnatives]
    exact h.length
  · rw [hissued]
    exact h.issued pending (hwaiting.mem_iff.mp hmem)
  · rw [hcommits] at hmem
    unfold Told
    rw [hissued, hnatives]
    exact h.told call hmem
  · rw [hnatives] at hnative
    rw [hwaits]
    exact h.references request native hnative
  · unfold System.live
    rw [hnatives]
    exact h.live

/-- One step of the queue that commits nothing. -/
theorem Kept.queueMoved (h : Kept system) {queue : Machine (Call Callback)} (hqueue : queue.Consistent)
    (hlimit : queue.queue.limit = system.queue.queue.limit) (hcommits : queue.commits = system.queue.commits) :
    Kept { system with queue } :=
  h.moved rfl rfl (List.Perm.refl _) hqueue hlimit hcommits

/-! ## Owners -/

/-- An answer stays. -/
theorem Told.mono {after : System Callback} {call : Call Callback}
    (hissued : ∀ (request : Nat) (pending : PendingRequest Callback), system.issued[request]? = some pending →
      after.issued[request]? = some pending)
    (hnatives : ∀ (request : Nat) (native : Native) (answer : Request), system.natives[request]? = some native →
      native.answer = some answer → ∃ later, after.natives[request]? = some later ∧ later.answer = some answer)
    (h : system.Told call) : after.Told call := by
  obtain ⟨pending, native, answer, hpending, hnative, hanswer, hcallback, hpublished⟩ := h
  obtain ⟨later, hlater, hsame⟩ := hnatives call.request native answer hnative hanswer
  exact ⟨pending, later, answer, hissued _ _ hpending, hlater, hsame, hcallback, hpublished⟩

section
variable {natives : List Native} {request : Nat} {native after : Native}

/-- A request that loses an owner is not alive anew. -/
theorem live_set (hnative : natives[request]? = some native) (hafter : after.references = native.references - 1) :
    total (fun native : Native => if native.references = 0 then 0 else 1) (natives.set request after) ≤
      total (fun native : Native => if native.references = 0 then 0 else 1) natives := by
  have hset := @total_set _ (fun native : Native => if native.references = 0 then 0 else 1) _ _ _ hnative after
  have hle : (if after.references = 0 then 0 else 1) ≤ if native.references = 0 then 0 else 1 := by
    rw [hafter]
    split_ifs <;> omega
  omega

theorem set_answers (hnative : natives[request]? = some native)
    (hafter : ∀ answer, native.answer = some answer → after.answer = some answer) (other : Nat) (one : Native)
    (answer : Request) (hone : natives[other]? = some one) (hanswer : one.answer = some answer) :
    ∃ later, (natives.set request after)[other]? = some later ∧ later.answer = some answer := by
  by_cases hsame : request = other
  · subst hsame
    rw [hnative, Option.some.injEq] at hone
    subst hone
    exact ⟨after, List.getElem?_set_self (List.getElem?_eq_some_iff.mp hnative).1, hafter answer hanswer⟩
  · exact ⟨one, (List.getElem?_set_ne hsame).trans hone, hanswer⟩

end

theorem Kept.complete (h : Kept system) (request : Nat) (answer : Request) : Kept (system.complete request answer) := by
  unfold System.complete
  split
  · exact h
  · rename_i native hnative
    split
    · exact h
    · rename_i hready
      have hready : native.answer = none := by simpa using hready
      have hlt := (List.getElem?_eq_some_iff.mp hnative).1
      refine ⟨h.queue, h.limit, fun other => ?_, ?_, h.issued, fun call hmem => ?_, fun other later hlater => ?_,
        h.bound, ?_⟩
      · rw [List.length_set]
        exact h.places other
      · rw [List.length_set]
        exact h.length
      · refine @Told.mono Callback system _ call (fun _ _ hpending => hpending) ?_ (h.told call hmem)
        refine set_answers hnative fun earlier hearlier => ?_
        rw [hready] at hearlier
        cases hearlier
      · by_cases hsame : request = other
        · subst hsame
          rw [List.getElem?_set_self hlt, Option.some.injEq] at hlater
          have hreferences := h.references request native hnative
          rw [hready] at hreferences
          rw [← hlater]
          show native.references - 1 = 0 + system.waits request
          simp only [Option.isNone_none, if_true] at hreferences
          omega
        · rw [List.getElem?_set_ne hsame] at hlater
          exact h.references other later hlater
      · exact Nat.le_trans (live_set hnative rfl) h.live

theorem Kept.enqueue (h : Kept system) (hloop : system.loop = none) (kind : CallbackKind) (all : Bool)
    (callback : Callback) (started : Started) : Kept (system.enqueue kind all callback started) := by
  unfold System.enqueue
  split
  · exact h
  · rename_i hroom
    cases started with
    | refused => exact h
    | started immediate =>
      dsimp only
      split
      · exact h
      · rename_i hlive
        have hwaiting : system.waiting = system.requests := by
          unfold System.waiting
          rw [hloop]
          rfl
        have hlast : system.waits system.natives.length = 0 ∧ system.queued system.natives.length = 0 := by
          have hplaces := h.places system.natives.length
          rw [if_neg (Nat.lt_irrefl _)] at hplaces
          omega
        have hwaits : ∀ other, ((system.loop.getD [] ++ (system.requests ++ [(⟨system.natives.length, kind, all,
            callback⟩ : PendingRequest Callback)])).map PendingRequest.request).count other =
              system.waits other + if other = system.natives.length then 1 else 0 := by
          intro other
          rw [← List.append_assoc, List.map_append, List.count_append]
          refine congrArg (system.waits other + ·) ?_
          rw [List.map_singleton, List.count_singleton]
          by_cases hother : other = system.natives.length
          · rw [if_pos hother, hother]
            exact if_pos (beq_self_eq_true _)
          · rw [if_neg hother]
            exact if_neg fun hsame => hother (eq_of_beq hsame).symm
        have hnew : ∀ other native, (system.natives ++ [newNative immediate])[other]? = some native →
            (other < system.natives.length ∧ system.natives[other]? = some native) ∨
              (other = system.natives.length ∧ native = newNative immediate) := by
          intro other native hnative
          have hlt := (List.getElem?_eq_some_iff.mp hnative).1
          rw [List.length_append, List.length_singleton] at hlt
          rcases Nat.lt_or_eq_of_le (Nat.le_of_lt_succ hlt) with hold | rfl
          · exact .inl ⟨hold, (List.getElem?_append_left hold).symm.trans hnative⟩
          · rw [List.getElem?_concat_length, Option.some.injEq] at hnative
            exact .inr ⟨rfl, hnative.symm⟩
        refine ⟨h.queue, h.limit, fun other => ?_, ?_, fun pending hmem => ?_, fun call hmem => ?_,
          fun other native hnative => ?_, ?_, ?_⟩
        · show (_ : List Nat).count other + system.queued other =
            if other < (system.natives ++ [_]).length then 1 else 0
          rw [List.length_append, List.length_singleton]
          have hplaces := h.places other
          have hother := hwaits other
          unfold System.waiting
          rw [hother]
          split_ifs at hplaces ⊢ <;> omega
        · show (system.issued ++ [_]).length = (system.natives ++ [_]).length
          rw [List.length_append, List.length_append, h.length]
          rfl
        · unfold System.waiting at hmem
          rw [← List.append_assoc, List.mem_append] at hmem
          rcases hmem with hmem | hmem
          · have hpending := h.issued pending hmem
            exact (List.getElem?_append_left (List.getElem?_eq_some_iff.mp hpending).1).trans hpending
          · rw [List.mem_singleton.mp hmem]
            show (system.issued ++ [_])[system.natives.length]? = _
            rw [← h.length, List.getElem?_concat_length]
        · refine @Told.mono Callback system _ call (fun other pending hpending => ?_)
            (fun other native answer hnative hanswer => ?_) (h.told call hmem)
          · exact (List.getElem?_append_left (List.getElem?_eq_some_iff.mp hpending).1).trans hpending
          · exact ⟨native, (List.getElem?_append_left (List.getElem?_eq_some_iff.mp hnative).1).trans hnative, hanswer⟩
        · show native.references = _ + (_ : List Nat).count other
          unfold System.waiting
          rw [hwaits other]
          rcases hnew other native hnative with ⟨hlt, hold⟩ | ⟨rfl, rfl⟩
          · rw [if_neg (Nat.ne_of_lt hlt)]
            exact h.references other native hold
          · rw [hlast.1, if_pos rfl]
            cases immediate <;> rfl
        · have hbound : system.waiting.length + 1 ≤ requestLimit := by
            rw [hwaiting]
            omega
          unfold System.waiting at hbound ⊢
          simp only [List.length_append, List.length_singleton] at hbound ⊢
          omega
        · have hone : (if (newNative immediate).references = 0 then 0 else 1) ≤ 1 := by
            split <;> omega
          show total _ (system.natives ++ [_]) ≤ _
          rw [total_append, total_cons, total_nil]
          unfold System.live at hlive
          omega

/-! ## The loop -/

theorem push_cases {queue later : Machine (Call Callback)} {call : Call Callback} {done : Unit}
    (h : queue.Consistent) (hpush : Machine.push call queue = .ok done later) :
    later.Consistent ∧ later.queue.limit = queue.queue.limit ∧ later.commits = queue.commits ++ [call] := by
  have hstep : queue.step (.push call) = later := by
    show finalState (Machine.push call queue) = later
    rw [hpush]
    rfl
  refine ⟨hstep ▸ h.step (.push call), hstep ▸ (Machine.step_grows queue (.push call)).limit, ?_⟩
  by_cases hroom : queue.HasRoom
  · have hactive : queue.queue.allocated ∈ queue.took.queue.active := Finset.mem_insert_self _ _
    rw [Machine.push_ok hroom, Machine.commit_ok hactive] at hpush
    cases hpush
    rfl
  · rw [Machine.push_error hroom] at hpush
    cases hpush

/-- The callback of a request is queued, and the list gives the request up. -/
theorem Kept.publish (h : Kept system) {pending : PendingRequest Callback} {rest : List (PendingRequest Callback)}
    (hloop : system.loop = some (pending :: rest)) {native : Native} {answer : Request}
    (hnative : system.natives[pending.request]? = some native) (hanswer : native.answer = some answer)
    {arguments : Arguments} (hpublished : published pending.kind pending.all answer = some arguments)
    {queue : Machine (Call Callback)} {done : Unit}
    (hpush : Machine.push ⟨pending.request, pending.callback, arguments⟩ system.queue = .ok done queue) :
    Kept { system with natives := release pending.request system.natives, loop := some rest, queue } := by
  obtain ⟨hqueue, hlimit, hcommits⟩ := push_cases h.queue hpush
  have hrelease : release pending.request system.natives =
      system.natives.set pending.request { native with references := native.references - 1 } := by
    unfold release
    rw [hnative]
  have hlt := (List.getElem?_eq_some_iff.mp hnative).1
  have hwaiting : system.waiting = pending :: (rest ++ system.requests) := by
    unfold System.waiting
    rw [hloop]
    rfl
  have hwaits : ∀ other, system.waits other =
      ((rest ++ system.requests).map PendingRequest.request).count other +
        if pending.request = other then 1 else 0 := by
    intro other
    unfold System.waits
    rw [hwaiting, List.map_cons, List.count_cons]
    simp
  rw [hrelease]
  refine ⟨hqueue, hlimit.trans h.limit, fun other => ?_, ?_, fun other hmem => ?_, fun call hmem => ?_,
    fun other later hlater => ?_, ?_, ?_⟩
  · have hplaces := h.places other
    have hother := hwaits other
    show ((rest ++ system.requests).map PendingRequest.request).count other +
      (queue.commits.map Call.request).count other = if other < (system.natives.set _ _).length then 1 else 0
    have hcount : (queue.commits.map Call.request).count other =
        system.queued other + if pending.request = other then 1 else 0 := by
      rw [hcommits, List.map_append, List.count_append, List.map_singleton, List.count_singleton]
      simp [System.queued]
    rw [hcount, List.length_set]
    omega
  · rw [List.length_set]
    exact h.length
  · refine h.issued other ?_
    rw [hwaiting]
    exact List.mem_cons_of_mem pending hmem
  · have hissued := h.issued pending (hwaiting ▸ List.mem_cons_self)
    have hkeeps := @set_answers system.natives pending.request native
      { native with references := native.references - 1 } hnative fun _ hsame => hsame
    have hcall : call ∈ system.queue.commits ++ [⟨pending.request, pending.callback, arguments⟩] := hcommits ▸ hmem
    rcases List.mem_append.mp hcall with hold | hnew
    · exact @Told.mono Callback system _ call (fun _ _ hpending => hpending) hkeeps (h.told call hold)
    · rw [List.mem_singleton.mp hnew]
      obtain ⟨later, hlater, hsame⟩ := hkeeps pending.request native answer hnative hanswer
      exact ⟨pending, later, answer, hissued, hlater, hsame, rfl, hpublished⟩
  · show later.references = _ + ((rest ++ system.requests).map PendingRequest.request).count other
    have hother := hwaits other
    by_cases hsame : pending.request = other
    · subst hsame
      rw [List.getElem?_set_self hlt, Option.some.injEq] at hlater
      have hreferences := h.references pending.request native hnative
      rw [if_pos rfl] at hother
      rw [← hlater]
      show native.references - 1 = (if native.answer.isNone then 1 else 0) + _
      omega
    · rw [List.getElem?_set_ne hsame] at hlater
      rw [if_neg hsame, Nat.add_zero] at hother
      rw [← hother]
      exact h.references other later hlater
  · have hbound := h.bound
    rw [hwaiting] at hbound
    exact Nat.le_trans (Nat.le_succ _) hbound
  · exact Nat.le_trans (live_set hnative rfl) h.live

theorem Kept.giveBack (h : Kept system) {pending : List (PendingRequest Callback)}
    (hloop : system.loop = some pending) : Kept (system.giveBack pending) := by
  refine h.moved rfl rfl ?_ h.queue rfl rfl
  unfold System.waiting
  rw [hloop]
  show (system.requests ++ pending).Perm (pending ++ system.requests)
  exact List.perm_append_comm

theorem enter_commits (queue : Machine (Call Callback)) : queue.enter.commits = queue.commits := by
  unfold Machine.enter
  split <;> rfl

theorem Kept.next (h : Kept system) : Kept system.next := by
  unfold System.next
  split
  · exact h
  · rename_i hloop
    refine h.moved rfl rfl ?_ h.queue.enter (Machine.step_grows system.queue .poll).limit (enter_commits system.queue)
    unfold System.waiting
    rw [hloop]
    exact List.Perm.refl _
  · rename_i pending rest hloop
    split
    · refine h.moved rfl rfl ?_ h.queue rfl rfl
      unfold System.waiting
      rw [hloop]
      show (rest ++ (system.requests ++ [pending])).Perm ((pending :: rest) ++ system.requests)
      rw [← List.append_assoc]
      exact List.perm_append_singleton pending _
    · rename_i answer hready
      obtain ⟨native, hnative, hanswer⟩ := Option.bind_eq_some_iff.mp hready
      split
      · exact h.giveBack hloop
      · rename_i arguments hpublished
        split
        · exact h.giveBack hloop
        · rename_i done queue hpush
          exact h.publish hloop hnative hanswer hpublished hpush

theorem Kept.step (h : Kept system) (action : Action Callback) : Kept (system.step action) := by
  cases action with
  | enqueue kind all callback started =>
    dsimp only [System.step]
    split
    · rename_i hruns
      unfold programRuns at hruns
      rw [Bool.and_eq_true, Option.isNone_iff_eq_none] at hruns
      exact h.enqueue hruns.1 kind all callback started
    · exact h
  | complete request answer => exact h.complete request answer
  | poll =>
    dsimp only [System.step]
    split
    · rename_i hruns
      unfold programRuns at hruns
      rw [Bool.and_eq_true, Option.isNone_iff_eq_none] at hruns
      refine h.moved rfl rfl ?_ h.queue rfl rfl
      unfold System.waiting
      rw [hruns.1]
      exact (List.append_nil _).symm ▸ List.Perm.refl _
    · exact h
  | next => exact h.next
  | start =>
    dsimp only [System.step]
    split
    · refine h.queueMoved h.queue.start (Machine.step_grows system.queue .start).limit ?_
      unfold Machine.start
      split <;> rfl
    · exact h
  | «return» =>
    dsimp only [System.step]
    split
    · refine h.queueMoved h.queue.return_ (Machine.step_grows system.queue .return).limit ?_
      unfold Machine.return_
      split <;> rfl
    · exact h
  | raise =>
    dsimp only [System.step]
    split
    · refine h.queueMoved h.queue.raise (Machine.step_grows system.queue .raise).limit ?_
      unfold Machine.raise
      split <;> rfl
    · exact h
  | leave =>
    dsimp only [System.step]
    split
    · refine h.queueMoved h.queue.leave (Machine.step_grows system.queue .leave).limit ?_
      unfold Machine.leave
      split <;> rfl
    · exact h

end

/-! ## Runs -/

/-- Where the requests of a run are, and what became of them. -/
structure Settled (system : System Callback) : Prop where
  /-- A request waits, or its callback was queued, and only once. -/
  once : (system.waiting.map PendingRequest.request ++ system.queue.commits.map Call.request).Nodup
  complete : ∀ request, request ∈ system.waiting.map PendingRequest.request ++ system.queue.commits.map Call.request ↔
    request < system.natives.length
  /-- The callbacks queued are called in their order. -/
  called : system.queue.commits = system.queue.starts ++ system.queue.outstanding
  told : ∀ call ∈ system.queue.commits, system.Told call
  /-- A request is freed once it is ready and its callback is queued. -/
  freed : ∀ request native, system.natives[request]? = some native →
    (native.references = 0 ↔ native.answer.isSome = true ∧ request ∈ system.queue.commits.map Call.request)
  waiting_le : system.waiting.length ≤ requestLimit
  outstanding_le : system.queue.outstanding.length ≤ requestLimit
  live_le : system.live ≤ requestLimit

theorem Kept.settled {system : System Callback} (h : Kept system) : Settled system where
  once := by
    rw [List.nodup_iff_count]
    intro request
    have hplaces := h.places request
    rw [List.count_append]
    unfold waits queued at hplaces
    split_ifs at hplaces <;> omega
  complete request := by
    have hplaces := h.places request
    unfold waits queued at hplaces
    rw [← List.count_pos_iff, List.count_append]
    split_ifs at hplaces with hlt <;> omega
  called := h.queue.order
  told := h.told
  freed request native hnative := by
    have hreferences := h.references request native hnative
    have hplaces := h.places request
    rw [if_pos (List.getElem?_eq_some_iff.mp hnative).1] at hplaces
    unfold queued at hplaces
    rw [← List.count_pos_iff]
    cases hanswer : native.answer with
    | none =>
      rw [hanswer] at hreferences
      simp only [Option.isNone_none, if_true] at hreferences
      simp only [Option.isSome_none, Bool.false_eq_true, false_and, iff_false]
      omega
    | some answer =>
      rw [hanswer] at hreferences
      simp only [Option.isNone_some, Bool.false_eq_true, if_false] at hreferences
      simp only [Option.isSome_some, true_and]
      omega
  waiting_le := h.bound
  outstanding_le := by
    have hcommitted := h.queue.committed
    have hlimit := h.queue.limit
    have hreserved := h.queue.reserved
    rw [h.limit] at hlimit
    omega
  live_le := h.live

/-- Whatever the callbacks do, whenever requests become ready and whichever publication raises. -/
theorem requests_settled (actions : List (Action Callback)) : Settled (run step ({} : System Callback) actions) :=
  (run_preserves (fun _ action h => h.step action) kept_new actions).settled

end System

end TsonicNode.Dns
