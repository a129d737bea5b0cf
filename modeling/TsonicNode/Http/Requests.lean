import Mathlib.Data.List.Nodup
import TsonicNode.Http.Client
import TsonicNode.Lib.Run

/-!
# The requests of a client

`poll_requests` takes the list of requests, keeps those that are not complete,
and gives each of the others its turn: its error is raised, or its callback is
called. A request is its number. While a callback runs the poll stands at
`calling`, and what the callback does are ordinary actions. `Tracked` is the
invariant: a request that was ended is queued with its native request, or had
its turn once, or was destroyed before it.
-/

namespace TsonicNode.Http

open TsonicNode.Lib TsonicNode.Lib.Http

variable {Options : Type}

/-- What a native request has come to. -/
inductive Completion where
  | pending
  | failed (error : String)
  | response (status : Int) (body : Bytes)
  deriving DecidableEq

/-- `check_error`. -/
def Completion.checkError : Completion → Option String
  | .failed error => some error
  | _ => none

def Completion.status : Completion → Int
  | .response status _ => status
  | _ => 0

def Completion.body : Completion → Bytes
  | .response _ body => body
  | _ => []

/-- The state of a request, whether it has a callback, and whether it was made with one. -/
structure ClientRequest (Options : Type) where
  state : ClientState Options
  callback : Bool
  given : Bool
  completion : Completion := .pending

/-- `complete` of its native request. -/
def ClientRequest.complete (request : ClientRequest Options) : Bool := request.completion != .pending

/-- What a request has got at its turn. -/
inductive Resolution where
  | called (status : Int) (body : Bytes)
  /-- It has no callback. -/
  | unheard
  | raised (error : String)
  deriving DecidableEq

/-- The program point of `poll_requests`, with the completed requests behind the one whose callback runs. -/
inductive ClientControl where
  | idle
  | calling (request : Nat) (rest : List Nat)
  deriving DecidableEq

def ClientControl.rest : ClientControl → List Nat
  | .idle => []
  | .calling _ rest => rest

def ClientControl.current : ClientControl → Option Nat
  | .idle => none
  | .calling request _ => some request

structure Client (Options : Type) where
  states : List (ClientRequest Options) := []
  /-- `_requests`. -/
  requests : List Nat := []
  control : ClientControl := .idle
  /-- What `poll_requests` returns. -/
  didWork : Bool := false
  /-- A native request was missing where one is used. -/
  aborted : Bool := false
  resolved : List (Nat × Resolution) := []

/-- `destroy`, which also drops the callback. -/
def clientDestroy : ClientMethod Options Unit :=
  modify fun s => { s with destroyed := true, body := [], native := none }

variable [Inhabited Options]

namespace Client

def request (client : Client Options) (index : Nat) : ClientRequest Options :=
  client.states.getD index
    { state := { address := [], options := default, method := [] }, callback := false, given := false }

def put (client : Client Options) (index : Nat) (request : ClientRequest Options) : Client Options :=
  { client with states := client.states.set index request }

/-- `end`. -/
def endRequest (client : Client Options) (index : Nat) (answer : NativeAnswer Options) : Client Options :=
  let request := client.request index
  match clientEnd answer request.state with
  | .error _ state => client.put index { request with state }
  | .ok _ state =>
    let client := client.put index { request with state }
    if request.state.ended then client else { client with requests := client.requests ++ [index] }

def destroy (client : Client Options) (index : Nat) : Client Options :=
  let request := client.request index
  client.put index { request with state := finalState (clientDestroy request.state), callback := false }

/-- The native request is closed behind its turn. -/
def finish (client : Client Options) (index : Nat) : Client Options :=
  let request := client.request index
  client.put index { request with state := { request.state with native := none }, callback := false }

def resolve (client : Client Options) (index : Nat) (resolution : Resolution) : Client Options :=
  { client with resolved := client.resolved ++ [(index, resolution)] }

/-- The loop over the requests: which are complete. -/
def collect : List Nat → List Nat → Client Options → List Nat × Client Options
  | [], completed, client => (completed, client)
  | index :: rest, completed, client =>
    let request := client.request index
    if request.state.destroyed then collect rest completed client
    else if request.state.native.isNone then (completed, { client with aborted := true })
    else if request.complete then collect rest (completed ++ [index]) client
    else collect rest completed { client with requests := client.requests ++ [index] }

/-- The loop over the completed requests, up to the next callback or the end of the poll. -/
def deliver : List Nat → Client Options → Client Options
  | [], client => { client with control := .idle }
  | index :: rest, client =>
    let request := client.request index
    if request.state.destroyed then deliver rest client
    else if request.state.native.isNone then { client with aborted := true }
    else
      match request.completion.checkError with
      | some error =>
        let client := (client.resolve index (.raised error)).finish index
        { client with requests := client.requests ++ rest, control := .idle }
      | none =>
        if request.callback then
          { client.resolve index (.called request.completion.status request.completion.body) with
            control := .calling index rest }
        else deliver rest ((client.resolve index .unheard).finish index)

/-- `poll_requests`; `transport` is whether the poll of the transport goes well. -/
def pollRequests (client : Client Options) (transport : Bool) : Client Options :=
  if client.requests = [] then { client with didWork := false }
  else if !transport then client
  else
    let (completed, client) := collect client.requests [] { client with requests := [] }
    if client.aborted then client else deliver completed { client with didWork := completed != [] }

/-- The callback returns. -/
def returned (client : Client Options) : Client Options :=
  match client.control with
  | .idle => client
  | .calling index rest => deliver rest (client.finish index)

/-- The callback raises. -/
def raised (client : Client Options) : Client Options :=
  match client.control with
  | .idle => client
  | .calling index rest =>
    { client.finish index with requests := client.requests ++ rest, control := .idle }

end Client

inductive ClientAction (Options : Type) where
  | new (address : Bytes) (options : Options) (method : Bytes) (callback : Bool)
  /-- What `set_header` and `remove_header` make of the headers. -/
  | headers (request : Nat) (headers : List Field)
  | write (request : Nat) (value : Bytes)
  | end (request : Nat) (answer : NativeAnswer Options)
  | destroy (request : Nat)
  | complete (request : Nat) (completion : Completion)
  | poll (transport : Bool)
  | return
  | raise

/-- The constructor refuses a method that is no token. -/
def Client.new (client : Client Options) (address : Bytes) (options : Options) (method : Bytes) (callback : Bool) :
    Client Options :=
  let state : ClientState Options := { address, options, method }
  match checkToken method "method" state with
  | .error _ _ => client
  | .ok _ state => { client with states := client.states ++ [{ state, callback, given := callback }] }

/-- Nothing happens behind an abort. -/
def Client.step (client : Client Options) (action : ClientAction Options) : Client Options :=
  if client.aborted then client
  else
    match action with
    | .new address options method callback => client.new address options method callback
    | .headers index headers =>
      let request := client.request index
      if request.state.ended || request.state.destroyed then client
      else client.put index { request with state := { request.state with headers } }
    | .write index value =>
      let request := client.request index
      client.put index { request with state := finalState (clientWriteBuffer value request.state) }
    | .end index answer => if index < client.states.length then client.endRequest index answer else client
    | .destroy index => client.destroy index
    | .complete index completion =>
      let request := client.request index
      if request.complete then client else client.put index { request with completion }
    | .poll transport => if client.control = .idle then client.pollRequests transport else client
    | .return => client.returned
    | .raise => client.raised

/-! ## Where the requests are -/

/-- How often a request had its turn. -/
def Client.turns (client : Client Options) (index : Nat) : Nat :=
  client.resolved.countP fun entry => entry.1 == index

/-- The requests by where they are: `waiting` for their turn, or at the callback that is `current`. -/
structure Tracked (client : Client Options) (waiting : List Nat) (current : Option Nat) : Prop where
  once : waiting.Nodup
  queued : ∀ index ∈ waiting, index < client.states.length ∧ (client.request index).state.ended = true ∧
    client.turns index = 0 ∧
    (client.request index).state.native.isSome = !(client.request index).state.destroyed
  gone : ∀ index < client.states.length, index ∉ waiting →
    ((client.request index).state.ended = false ∧ client.turns index = 0 ∧
      (client.request index).state.native = none) ∨
    ((client.request index).state.ended = true ∧
      (client.turns index = 1 ∨ client.turns index = 0 ∧ (client.request index).state.destroyed = true) ∧
      (index ∉ current → (client.request index).state.native = none))
  called : ∀ index ∈ current, index ∉ waiting ∧ index < client.states.length ∧ client.turns index = 1 ∧
    (client.request index).state.ended = true
  heard : ∀ index < client.states.length, client.turns index = 0 →
    (client.request index).state.destroyed = false → (client.request index).callback = (client.request index).given
  unheard : ∀ index, (index, .unheard) ∈ client.resolved → (client.request index).given = false
  bound : ∀ entry ∈ client.resolved, entry.1 < client.states.length
  alive : client.aborted = false

section Tracked

variable {client : Client Options} {index : Nat} {waiting rest : List Nat} {current : Option Nat}

theorem request_put (client : Client Options) (index : Nat) (request : ClientRequest Options) (index' : Nat) :
    (client.put index request).request index' =
      if index = index' ∧ index < client.states.length then request else client.request index' := by
  simp only [Client.put, Client.request, List.getD_eq_getElem?_getD, List.getElem?_set]
  split_ifs with hsame hlt hboth hboth
  · rfl
  · exact absurd ⟨hsame, hlt⟩ hboth
  · exact absurd hboth.2 hlt
  · rw [← hsame, List.getElem?_eq_none (Nat.le_of_not_lt hlt)]
  · exact absurd ‹_ ∧ _›.1 hsame
  · rfl

omit [Inhabited Options] in
theorem states_put (client : Client Options) (index : Nat) (request : ClientRequest Options) :
    (client.put index request).states.length = client.states.length := List.length_set

/-- What the invariant sees of a request. -/
structure Same (request request' : ClientRequest Options) : Prop where
  ended : request'.state.ended = request.state.ended
  destroyed : request'.state.destroyed = request.state.destroyed
  native : request'.state.native = request.state.native
  callback : request'.callback = request.callback
  given : request'.given = request.given

omit [Inhabited Options] in
theorem Same.refl (request : ClientRequest Options) : Same request request := ⟨rfl, rfl, rfl, rfl, rfl⟩

theorem Tracked.same (h : Tracked client waiting current) {client' : Client Options}
    (hsame : ∀ index, Same (client.request index) (client'.request index))
    (hlength : client'.states.length = client.states.length) (hresolved : client'.resolved = client.resolved)
    (halive : client'.aborted = client.aborted) : Tracked client' waiting current := by
  have hturns : ∀ index, client'.turns index = client.turns index := fun index => by
    rw [Client.turns, hresolved, Client.turns]
  refine ⟨h.once, ?_, ?_, ?_, ?_, ?_, ?_, halive.trans h.alive⟩
  · intro index hmem
    rw [hlength, hturns, (hsame index).ended, (hsame index).native, (hsame index).destroyed]
    exact h.queued index hmem
  · intro index hlt hnot
    rw [hturns, (hsame index).ended, (hsame index).native, (hsame index).destroyed]
    exact h.gone index (hlength ▸ hlt) hnot
  · intro index hmem
    rw [hlength, hturns, (hsame index).ended]
    exact h.called index hmem
  · intro index hlt
    rw [hturns, (hsame index).destroyed, (hsame index).callback, (hsame index).given]
    exact h.heard index (hlength ▸ hlt)
  · intro index hmem
    rw [(hsame index).given]
    exact h.unheard index (hresolved ▸ hmem)
  · rw [hresolved, hlength]
    exact h.bound

/-- Writing to a request that stands as it stood. -/
theorem Tracked.puts (h : Tracked client waiting current) {request : ClientRequest Options}
    (hsame : Same (client.request index) request) : Tracked (client.put index request) waiting current := by
  refine h.same (fun index' => ?_) (states_put _ _ _) rfl rfl
  rw [request_put]
  split_ifs with hboth
  · rw [← hboth.1]
    exact hsame
  · exact Same.refl _

theorem Tracked.perm (h : Tracked client waiting current) {waiting' : List Nat} (hperm : List.Perm waiting' waiting) :
    Tracked client waiting' current where
  once := hperm.nodup_iff.mpr h.once
  queued index hmem := h.queued index (hperm.subset hmem)
  gone index hlt hnot := h.gone index hlt fun hmem => hnot (hperm.symm.subset hmem)
  called index hmem := by
    obtain ⟨hnot, hrest⟩ := h.called index hmem
    exact ⟨fun hmem => hnot (hperm.subset hmem), hrest⟩
  heard := h.heard
  unheard := h.unheard
  bound := h.bound
  alive := h.alive

/-- A destroyed request is passed over. -/
theorem Tracked.passes (h : Tracked client (index :: waiting) current)
    (hdestroyed : (client.request index).state.destroyed = true) : Tracked client waiting current where
  once := (List.nodup_cons.mp h.once).2
  queued other hmem := h.queued other (List.mem_cons_of_mem _ hmem)
  gone other hlt hnot := by
    by_cases hsame : other = index
    · subst hsame
      obtain ⟨-, hended, hturns, hnative⟩ := h.queued other List.mem_cons_self
      rw [hdestroyed] at hnative
      exact .inr ⟨hended, .inr ⟨hturns, hdestroyed⟩, fun _ => Option.not_isSome_iff_eq_none.mp (Bool.eq_false_iff.mp hnative)⟩
    · exact h.gone other hlt fun hmem => (List.mem_cons.mp hmem).elim hsame hnot
  called other hmem := by
    obtain ⟨hnot, hrest⟩ := h.called other hmem
    exact ⟨fun hmem => hnot (List.mem_cons_of_mem _ hmem), hrest⟩
  heard := h.heard
  unheard := h.unheard
  bound := h.bound
  alive := h.alive

omit [Inhabited Options] in
theorem turns_resolve (client : Client Options) (index : Nat) (resolution : Resolution) (other : Nat) :
    (client.resolve index resolution).turns other = client.turns other + if index = other then 1 else 0 := by
  simp only [Client.turns, Client.resolve, List.countP_append, List.countP_singleton, beq_iff_eq]

/-- A request has its turn. -/
theorem Tracked.resolves (h : Tracked client (index :: waiting) none)
    (hdestroyed : (client.request index).state.destroyed = false) {resolution : Resolution}
    (hheard : resolution = .unheard → (client.request index).callback = false) :
    Tracked (client.resolve index resolution) waiting (some index) := by
  obtain ⟨hlt, hended, hturns, hnative⟩ := h.queued index List.mem_cons_self
  have hnodup := List.nodup_cons.mp h.once
  have hother : ∀ other, index ≠ other → (client.resolve index resolution).turns other = client.turns other := by
    intro other hne
    rw [turns_resolve, if_neg hne, Nat.add_zero]
  have hself : (client.resolve index resolution).turns index = 1 := by
    rw [turns_resolve, if_pos rfl, hturns]
  refine ⟨hnodup.2, ?_, ?_, ?_, ?_, ?_, ?_, h.alive⟩
  · intro other hmem
    rw [hother other (by rintro rfl; exact hnodup.1 hmem)]
    exact h.queued other (List.mem_cons_of_mem _ hmem)
  · intro other hin hnot
    by_cases hsame : index = other
    · subst hsame
      exact .inr ⟨hended, .inl hself, fun hnot => absurd rfl hnot⟩
    · rw [hother other hsame]
      refine (h.gone other hin fun hmem => ?_).imp id fun hgone => ⟨hgone.1, hgone.2.1, fun _ => hgone.2.2 nofun⟩
      exact (List.mem_cons.mp hmem).elim (fun heq => hsame heq.symm) hnot
  · intro other hmem
    obtain rfl := Option.some.inj hmem
    exact ⟨hnodup.1, hlt, hself, hended⟩
  · intro other hin hzero
    have hne : index ≠ other := by
      rintro rfl
      omega
    rw [hother other hne] at hzero
    exact h.heard other hin hzero
  · intro other hmem
    rcases List.mem_append.mp hmem with hmem | hmem
    · exact h.unheard other hmem
    · obtain ⟨rfl, hkind⟩ := Prod.mk.inj (List.mem_singleton.mp hmem)
      exact (h.heard other hlt hturns hdestroyed).symm.trans (hheard hkind.symm)
  · intro entry hmem
    rcases List.mem_append.mp hmem with hmem | hmem
    · exact h.bound entry hmem
    · rw [List.mem_singleton.mp hmem]
      exact hlt

/-- Its turn is over. -/
theorem Tracked.finishes (h : Tracked client waiting (some index)) : Tracked (client.finish index) waiting none := by
  obtain ⟨hnot, hlt, hturns, hended⟩ := h.called index rfl
  have hput : ∀ other, (client.finish index).request other =
      if index = other then { client.request index with
        state := { (client.request index).state with native := none }, callback := false }
      else client.request other := by
    intro other
    refine (request_put _ _ _ _).trans ?_
    simp only [hlt, and_true]
  have hother : ∀ other, index ≠ other → (client.finish index).request other = client.request other :=
    fun other hne => (hput other).trans (if_neg hne)
  refine ⟨h.once, ?_, ?_, (fun _ hmem => by cases hmem), ?_, ?_, ?_, h.alive⟩
  · intro other hmem
    rw [hother other (by rintro rfl; exact hnot hmem)]
    exact ⟨(states_put _ _ _).symm ▸ (h.queued other hmem).1, (h.queued other hmem).2⟩
  · intro other hin hout
    by_cases hsame : index = other
    · subst hsame
      rw [hput, if_pos rfl]
      exact .inr ⟨hended, .inl hturns, fun _ => rfl⟩
    · rw [hother other hsame]
      refine (h.gone other ((states_put _ _ _) ▸ hin) hout).imp id fun hgone => ⟨hgone.1, hgone.2.1, fun _ => ?_⟩
      exact hgone.2.2 fun hmem => hsame (Option.some.inj hmem)
  · intro other hin hzero
    have hne : index ≠ other := by
      rintro rfl
      exact absurd (hturns.symm.trans hzero) Nat.one_ne_zero
    rw [hother other hne]
    exact h.heard other ((states_put _ _ _) ▸ hin) hzero
  · intro other hmem
    have hgiven := h.unheard other hmem
    rw [hput]
    split_ifs with hsame
    · rw [← hsame] at hgiven
      exact hgiven
    · exact hgiven
  · intro entry hmem
    exact (states_put _ _ _).symm ▸ h.bound entry hmem

omit [Inhabited Options] in
theorem clientEnd_spec (answer : NativeAnswer Options) (state : ClientState Options) :
    wp (clientEnd answer) (fun _ state' => (state.ended = true ∧ state' = state) ∨
      (state.ended = false ∧ state.destroyed = false ∧ ∃ native, state' =
        { state with native := some native, ended := true, body := [], requests := state.requests + 1 }))
      (fun _ state' => state' = state) state := by
  unfold clientEnd
  simp only [wp_bind, wp_get, wp_ite, wp_throw, wp_pure]
  split_ifs with hdestroyed hended
  · exact .inl ⟨hended, trivial⟩
  · obtain ⟨-, native, hstart⟩ | ⟨-, error, hstart⟩ := startNative_eq answer state
    · rw [hstart]
      simp only [wp_modify]
      exact .inr ⟨Bool.not_eq_true _ ▸ hended, Bool.not_eq_true _ ▸ hdestroyed, native, rfl⟩
    · rw [hstart]
      simp only [wp_throw]

/-- A request that is ended waits for its turn. -/
theorem Tracked.queues (h : Tracked client waiting current) (hlt : index < client.states.length)
    (hended : (client.request index).state.ended = false) (hdestroyed : (client.request index).state.destroyed = false)
    {state : ClientState Options} (hnow : state.ended = true) (hkept : state.destroyed = false)
    (hnative : state.native.isSome = true) :
    Tracked (client.put index { client.request index with state }) (index :: waiting) current := by
  have hnew : index ∉ waiting := by
    intro hmem
    cases hended.symm.trans (h.queued index hmem).2.1
  have hnotCalled : index ∉ current := by
    intro hmem
    cases hended.symm.trans (h.called index hmem).2.2.2
  have hturns : client.turns index = 0 := by
    rcases h.gone index hlt hnew with hgone | hgone
    · exact hgone.2.1
    · cases hended.symm.trans hgone.1
  have hput : ∀ other, (client.put index { client.request index with state }).request other =
      if index = other then { client.request index with state } else client.request other := by
    intro other
    rw [request_put]
    simp only [hlt, and_true]
  have hother : ∀ other, index ≠ other →
      (client.put index { client.request index with state }).request other = client.request other :=
    fun other hne => (hput other).trans (if_neg hne)
  refine ⟨List.nodup_cons.mpr ⟨hnew, h.once⟩, ?_, ?_, ?_, ?_, ?_, ?_, h.alive⟩
  · intro other hmem
    rw [states_put]
    rcases List.mem_cons.mp hmem with rfl | hmem
    · rw [hput, if_pos rfl, hnative, hkept]
      exact ⟨hlt, hnow, hturns, rfl⟩
    · rw [hother other (by rintro rfl; exact hnew hmem)]
      exact h.queued other hmem
  · intro other hin hnot
    rw [states_put] at hin
    rw [hother other fun hsame => hnot (List.mem_cons.mpr (.inl hsame.symm))]
    exact h.gone other hin fun hmem => hnot (List.mem_cons_of_mem _ hmem)
  · intro other hmem
    have hne : index ≠ other := by
      rintro rfl
      exact hnotCalled hmem
    obtain ⟨hnot, hrest⟩ := h.called other hmem
    rw [hother other hne, states_put]
    exact ⟨fun hmem => (List.mem_cons.mp hmem).elim (fun heq => hne heq.symm) hnot, hrest⟩
  · intro other hin hzero
    rw [hput]
    split_ifs with hsame
    · exact fun _ => h.heard index hlt hturns hdestroyed
    · exact h.heard other ((states_put _ _ _) ▸ hin) hzero
  · intro other hmem
    rw [hput]
    split_ifs with hsame
    · subst hsame
      exact h.unheard index hmem
    · exact h.unheard other hmem
  · intro entry hmem
    exact (states_put _ _ _).symm ▸ h.bound entry hmem

theorem Tracked.ends (h : Tracked client waiting current) (hlt : index < client.states.length)
    (answer : NativeAnswer Options) :
    ((client.endRequest index answer).requests = client.requests ∧
      Tracked (client.endRequest index answer) waiting current) ∨
    ((client.endRequest index answer).requests = client.requests ++ [index] ∧
      Tracked (client.endRequest index answer) (index :: waiting) current) := by
  unfold Client.endRequest
  dsimp only
  have hspec := clientEnd_spec answer (client.request index).state
  cases hend : clientEnd answer (client.request index).state with
  | error error state =>
    obtain rfl := wp_error hspec hend
    exact .inl ⟨rfl, h.puts (Same.refl _)⟩
  | ok result state =>
    dsimp only
    rcases wp_ok hspec hend with ⟨hended, rfl⟩ | ⟨hended, hdestroyed, native, rfl⟩
    · rw [if_pos hended]
      exact .inl ⟨rfl, h.puts (Same.refl _)⟩
    · rw [if_neg (by rw [hended]; exact Bool.false_ne_true)]
      have hqueued := @Tracked.queues _ _ _ _ _ _ h hlt hended hdestroyed { (client.request index).state with
        native := some native, ended := true, body := [], requests := (client.request index).state.requests + 1 }
        rfl hdestroyed rfl
      exact .inr ⟨rfl, hqueued.same (fun _ => Same.refl _) rfl rfl rfl⟩

theorem Tracked.destroys (h : Tracked client waiting current) (index : Nat) :
    Tracked (client.destroy index) waiting current := by
  by_cases hlt : index < client.states.length
  · have hput : ∀ other, (client.destroy index).request other =
        if index = other then { client.request index with
          state := { (client.request index).state with destroyed := true, body := [], native := none }
          callback := false }
        else client.request other := by
      intro other
      refine (request_put _ _ _ _).trans ?_
      simp only [hlt, and_true]
      rfl
    have hlength : (client.destroy index).states.length = client.states.length := states_put _ _ _
    refine ⟨h.once, ?_, ?_, ?_, ?_, ?_, ?_, h.alive⟩
    · intro other hmem
      rw [hlength, hput]
      split_ifs with hsame
      · subst hsame
        obtain ⟨hin, hended, hturns, -⟩ := h.queued index hmem
        exact ⟨hin, hended, hturns, rfl⟩
      · exact h.queued other hmem
    · intro other hin hnot
      rw [hlength] at hin
      rw [hput]
      split_ifs with hsame
      · subst hsame
        rcases h.gone index hin hnot with ⟨hended, hturns, -⟩ | ⟨hended, hturns, -⟩
        · exact .inl ⟨hended, hturns, rfl⟩
        · exact .inr ⟨hended, hturns.imp id fun hzero => ⟨hzero.1, rfl⟩, fun _ => rfl⟩
      · exact h.gone other hin hnot
    · intro other hmem
      obtain ⟨hnot, hin, hturns, hended⟩ := h.called other hmem
      rw [hlength, hput]
      refine ⟨hnot, hin, hturns, ?_⟩
      split_ifs with hsame
      · subst hsame
        exact hended
      · exact hended
    · intro other hin hzero
      rw [hlength] at hin
      rw [hput]
      split_ifs with hsame
      · intro hkept
        cases hkept
      · exact h.heard other hin hzero
    · intro other hmem
      rw [hput]
      split_ifs with hsame
      · subst hsame
        exact h.unheard index hmem
      · exact h.unheard other hmem
    · intro entry hmem
      rw [hlength]
      exact h.bound entry hmem
  · have hsame : client.destroy index = client := by
      simp only [Client.destroy, Client.put, List.set_eq_of_length_le (Nat.le_of_not_lt hlt)]
    rw [hsame]
    exact h

theorem Tracked.creates (h : Tracked client waiting current) (address : Bytes) (options : Options) (method : Bytes)
    (callback : Bool) : Tracked (client.new address options method callback) waiting current := by
  unfold Client.new
  dsimp only
  split
  · exact h
  · rename_i state hstate
    have hplain : state.ended = false ∧ state.destroyed = false ∧ state.native = none := by
      have hspec : wp (checkToken method "method") (fun _ (after : ClientState Options) => after.ended = false ∧
          after.destroyed = false ∧ after.native = none) (fun _ _ => True) { address, options, method } := by
        simp only [checkToken, wp_ite, wp_throw, wp_pure]
        split_ifs
        trivial
      unfold wp at hspec
      rw [hstate] at hspec
      exact hspec
    have hold : ∀ index < client.states.length,
        ({ client with states := client.states ++ [{ state, callback, given := callback }] } : Client Options).request
          index = client.request index := by
      intro index hlt
      simp only [Client.request, List.getD_eq_getElem?_getD, List.getElem?_append_left hlt]
    have hnew : ({ client with states := client.states ++ [{ state, callback, given := callback }] } :
        Client Options).request client.states.length = { state, callback, given := callback } := by
      simp only [Client.request, List.getD_eq_getElem?_getD, List.getElem?_concat_length, Option.getD_some]
    have hfresh : client.turns client.states.length = 0 := by
      rw [Client.turns, List.countP_eq_zero]
      intro entry hmem hsame
      exact absurd (beq_iff_eq.mp hsame) (Nat.ne_of_lt (h.bound entry hmem))
    have hcases : ∀ index < client.states.length + 1, index < client.states.length ∨ index = client.states.length :=
      fun index hlt => Nat.lt_succ_iff_lt_or_eq.mp hlt
    have hlength : (client.states ++ [({ state, callback, given := callback } : ClientRequest Options)]).length =
        client.states.length + 1 := by
      rw [List.length_append, List.length_singleton]
    refine ⟨h.once, ?_, ?_, ?_, ?_, ?_, ?_, h.alive⟩
    · intro index hmem
      obtain ⟨hin, hrest⟩ := h.queued index hmem
      rw [hold index hin, hlength]
      exact ⟨Nat.lt_succ_of_lt hin, hrest⟩
    · intro index hin hnot
      rcases hcases index (hlength ▸ hin) with hlt | rfl
      · rw [hold index hlt]
        exact h.gone index hlt hnot
      · rw [hnew]
        exact .inl ⟨hplain.1, hfresh, hplain.2.2⟩
    · intro index hmem
      obtain ⟨hnot, hin, hrest⟩ := h.called index hmem
      rw [hold index hin, hlength]
      exact ⟨hnot, Nat.lt_succ_of_lt hin, hrest⟩
    · intro index hin hzero
      rcases hcases index (hlength ▸ hin) with hlt | rfl
      · rw [hold index hlt]
        exact h.heard index hlt hzero
      · rw [hnew]
        exact fun _ => rfl
    · intro index hmem
      rw [hold index (h.bound _ hmem)]
      exact h.unheard index hmem
    · intro entry hmem
      rw [hlength]
      exact Nat.lt_succ_of_lt (h.bound entry hmem)

/-! ## The poll -/

theorem Tracked.collects {completed : List Nat} (h : Tracked client (client.requests ++ rest ++ completed) none) :
    (Client.collect rest completed client).2.aborted = false ∧
    Tracked (Client.collect rest completed client).2
      ((Client.collect rest completed client).2.requests ++ (Client.collect rest completed client).1) none := by
  induction rest generalizing client completed with
  | nil =>
    rw [List.append_nil] at h
    exact ⟨h.alive, h⟩
  | cons index rest ih =>
    have hfirst : Tracked client (index :: (client.requests ++ rest ++ completed)) none := by
      refine h.perm ?_
      rw [List.append_assoc, List.append_assoc]
      exact List.perm_middle.symm
    obtain ⟨-, -, -, hnative⟩ := hfirst.queued index List.mem_cons_self
    unfold Client.collect
    dsimp only
    split_ifs with hdestroyed hmissing hcomplete
    · exact ih (hfirst.passes hdestroyed)
    · rw [Bool.not_eq_true] at hdestroyed
      rw [hdestroyed] at hnative
      rw [Option.isNone_iff_eq_none.mp hmissing] at hnative
      cases hnative
    · refine ih (hfirst.perm ?_)
      rw [← List.append_assoc]
      exact List.perm_append_singleton _ _
    · have hmoved : Tracked client (client.requests ++ [index] ++ rest ++ completed) none := by
        refine h.perm ?_
        rw [List.append_assoc client.requests, List.singleton_append]
      exact ih (hmoved.same (fun _ => Same.refl _) rfl rfl rfl)

/-- What holds between the actions. -/
def Orderly (client : Client Options) : Prop :=
  Tracked client (client.requests ++ client.control.rest) client.control.current

theorem Tracked.delivers (h : Tracked client (client.requests ++ rest) none) :
    Orderly (Client.deliver rest client) := by
  induction rest generalizing client with
  | nil => exact h.same (fun _ => Same.refl _) rfl rfl rfl
  | cons index rest ih =>
    have hfirst : Tracked client (index :: (client.requests ++ rest)) none := h.perm List.perm_middle.symm
    obtain ⟨-, -, -, hnative⟩ := hfirst.queued index List.mem_cons_self
    unfold Client.deliver
    dsimp only
    by_cases hdestroyed : (client.request index).state.destroyed = true
    · rw [if_pos hdestroyed]
      exact ih (hfirst.passes hdestroyed)
    · rw [if_neg hdestroyed]
      rw [Bool.not_eq_true] at hdestroyed
      rw [hdestroyed] at hnative
      rw [if_neg (by rw [Option.isNone_iff_eq_none, ← Option.not_isSome_iff_eq_none, hnative]; decide)]
      split
      · rename_i error _
        have hdone : Tracked ((client.resolve index (.raised error)).finish index) (client.requests ++ rest) none :=
          (@Tracked.resolves _ _ _ _ _ hfirst hdestroyed (.raised error) fun hkind => by cases hkind).finishes
        show Tracked _ (client.requests ++ rest ++ []) none
        rw [List.append_nil]
        exact hdone.same (fun _ => Same.refl _) rfl rfl rfl
      · split_ifs with hcallback
        · exact (@Tracked.resolves _ _ _ _ _ hfirst hdestroyed (.called _ _) fun hkind => by cases hkind).same
            (fun _ => Same.refl _) rfl rfl rfl
        · exact ih (hfirst.resolves hdestroyed fun _ => Bool.not_eq_true _ ▸ hcallback).finishes

theorem Orderly.polls (h : Orderly client) (hidle : client.control = .idle) (transport : Bool) :
    Orderly (client.pollRequests transport) := by
  have htracked : Tracked client client.requests none := by
    unfold Orderly at h
    rw [hidle] at h
    exact (List.append_nil client.requests) ▸ h
  unfold Client.pollRequests
  split_ifs
  · exact h.same (fun _ => Same.refl _) rfl rfl rfl
  · exact h
  · have hstart : Tracked { client with requests := [] } ([] ++ client.requests ++ []) none := by
      rw [List.append_nil]
      exact htracked.same (fun _ => Same.refl _) rfl rfl rfl
    obtain ⟨halive, hcollected⟩ := hstart.collects
    generalize Client.collect client.requests [] { client with requests := [] } = collected at *
    obtain ⟨completed, collected⟩ := collected
    dsimp only at halive hcollected ⊢
    rw [if_neg (by rw [halive]; decide)]
    exact (hcollected.same (fun _ => Same.refl _) rfl rfl rfl : Tracked { collected with didWork := completed != [] }
      (collected.requests ++ completed) none).delivers

theorem Orderly.returns (h : Orderly client) : Orderly client.returned := by
  unfold Client.returned
  unfold Orderly at h
  split
  · exact h
  · rename_i index rest hcalling
    rw [hcalling] at h
    exact h.finishes.delivers

theorem Orderly.raises (h : Orderly client) : Orderly client.raised := by
  unfold Client.raised
  unfold Orderly at h
  split
  · exact h
  · rename_i index rest hcalling
    rw [hcalling] at h
    show Tracked _ (client.requests ++ rest ++ []) none
    rw [List.append_nil]
    exact h.finishes.same (fun _ => Same.refl _) rfl rfl rfl

theorem Orderly.ends (h : Orderly client) (hlt : index < client.states.length) (answer : NativeAnswer Options) :
    Orderly (client.endRequest index answer) := by
  have hcontrol : (client.endRequest index answer).control = client.control := by
    unfold Client.endRequest
    dsimp only
    split
    · rfl
    · split_ifs <;> rfl
  unfold Orderly at h ⊢
  rw [hcontrol]
  obtain ⟨hrequests, hended⟩ | ⟨hrequests, hended⟩ := h.ends hlt answer
  · rw [hrequests]
    exact hended
  · rw [hrequests]
    refine hended.perm ?_
    rw [List.append_assoc]
    exact List.perm_middle

theorem Orderly.steps (h : Orderly client) (action : ClientAction Options) : Orderly (client.step action) := by
  unfold Client.step
  rw [if_neg (by rw [h.alive]; decide)]
  cases action with
  | new address options method callback =>
    have hcreated := h.creates address options method callback
    have hsame : (client.new address options method callback).requests = client.requests ∧
        (client.new address options method callback).control = client.control := by
      unfold Client.new
      dsimp only
      split <;> exact ⟨rfl, rfl⟩
    unfold Orderly
    rw [hsame.1, hsame.2]
    exact hcreated
  | headers index headers =>
    dsimp only
    split_ifs
    · exact h
    · exact h.puts ⟨rfl, rfl, rfl, rfl, rfl⟩
  | write index value =>
    refine h.puts ?_
    have hspec := clientWriteBuffer_spec (client.request index).state value
    have hsame : ∀ state, state = (client.request index).state ∨ state = (client.request index).state.wrote value →
        Same (client.request index) { client.request index with state } := by
      rintro state (rfl | rfl)
      · exact Same.refl _
      · exact ⟨rfl, rfl, rfl, rfl, rfl⟩
    apply hsame
    cases hm : clientWriteBuffer value (client.request index).state with
    | ok _ state => exact .inr (wp_ok hspec hm).2
    | error _ state => exact .inl (wp_error hspec hm).2
  | «end» index answer =>
    dsimp only
    split_ifs with hlt
    · exact h.ends hlt answer
    · exact h
  | destroy index => exact h.destroys index
  | complete index completion =>
    dsimp only
    split_ifs
    · exact h
    · exact h.puts ⟨rfl, rfl, rfl, rfl, rfl⟩
  | poll transport =>
    dsimp only
    split_ifs with hidle
    · exact h.polls hidle transport
    · exact h
  | «return» => exact h.returns
  | raise => exact h.raises

theorem orderly_clients : Orderly ({} : Client Options) where
  once := List.nodup_nil
  queued _ hmem := absurd hmem List.not_mem_nil
  gone _ hlt := absurd hlt (Nat.not_lt_zero _)
  called _ hmem := by cases hmem
  heard _ hlt := absurd hlt (Nat.not_lt_zero _)
  unheard _ hmem := absurd hmem List.not_mem_nil
  bound _ hmem := absurd hmem List.not_mem_nil
  alive := rfl

/-! ## Turns -/

/-- What the first loop does where no native request is missing. -/
theorem collect_eq {rest completed : List Nat}
    (hnative : ∀ index ∈ rest, (client.request index).state.destroyed = false →
      (client.request index).state.native.isNone = false) :
    Client.collect rest completed client =
      (completed ++ rest.filter fun index => !(client.request index).state.destroyed && (client.request index).complete,
        { client with requests := client.requests ++ rest.filter fun index =>
          !(client.request index).state.destroyed && !(client.request index).complete }) := by
  induction rest generalizing client completed with
  | nil => simp only [Client.collect, List.filter_nil, List.append_nil]
  | cons index rest ih =>
    obtain ⟨hfirst, hrest⟩ := List.forall_mem_cons.mp hnative
    unfold Client.collect
    dsimp only
    cases hdestroyed : (client.request index).state.destroyed with
    | true =>
      rw [if_pos rfl, ih hrest]
      simp only [List.filter_cons, hdestroyed, Bool.not_true, Bool.false_and, Bool.false_eq_true, if_false]
    | false =>
      rw [if_neg Bool.false_ne_true, hfirst hdestroyed, if_neg Bool.false_ne_true]
      cases hcomplete : (client.request index).complete with
      | true =>
        rw [if_pos rfl, ih hrest]
        simp only [List.filter_cons, hdestroyed, hcomplete, Bool.not_false, Bool.not_true, Bool.and_true,
          Bool.and_false, Bool.false_eq_true, if_true, if_false, List.append_assoc, List.singleton_append]
      | false =>
        rw [if_neg Bool.false_ne_true, @ih { client with requests := client.requests ++ [index] } _ hrest]
        simp only [List.filter_cons, hdestroyed, hcomplete, Bool.not_false, Bool.and_true, Bool.and_false,
          Bool.false_eq_true, if_true, if_false, List.append_assoc, List.singleton_append]
        rfl

theorem turns_deliver (rest : List Nat) (client : Client Options) (other : Nat) :
    client.turns other ≤ (Client.deliver rest client).turns other := by
  induction rest generalizing client with
  | nil => exact Nat.le_refl _
  | cons index rest ih =>
    unfold Client.deliver
    dsimp only
    split
    · exact ih client
    · split
      · exact Nat.le_refl _
      · have hmore : ∀ resolution, client.turns other ≤ (client.resolve index resolution).turns other := by
          intro resolution
          rw [turns_resolve]
          exact Nat.le_add_right _ _
        split
        · exact hmore _
        · split
          · exact hmore _
          · exact Nat.le_trans (hmore .unheard) (ih ((client.resolve index .unheard).finish index))

/-- The first of the completed requests has its turn. -/
theorem turns_first {client : Client Options} {index : Nat} (rest : List Nat)
    (hdestroyed : (client.request index).state.destroyed = false)
    (hnative : (client.request index).state.native.isNone = false) :
    client.turns index < (Client.deliver (index :: rest) client).turns index := by
  have hmore : ∀ resolution, client.turns index < (client.resolve index resolution).turns index := by
    intro resolution
    rw [turns_resolve, if_pos rfl]
    exact Nat.lt_succ_self _
  unfold Client.deliver
  dsimp only
  rw [if_neg (by rw [hdestroyed]; decide), if_neg (by rw [hnative]; decide)]
  split
  · exact hmore _
  · split
    · exact hmore _
    · exact Nat.lt_of_lt_of_le (hmore .unheard) (turns_deliver rest ((client.resolve index .unheard).finish index) index)

/-- A poll of the transport that goes well gives one of the completed requests its turn. -/
theorem Tracked.progresses (h : Tracked client client.requests none) (hmem : index ∈ client.requests)
    (hdestroyed : (client.request index).state.destroyed = false) (hcomplete : (client.request index).complete = true) :
    ∃ other ∈ client.requests, client.turns other < (client.pollRequests true).turns other := by
  have hnative : ∀ other ∈ client.requests, (client.request other).state.destroyed = false →
      (client.request other).state.native.isNone = false := by
    intro other hother hkept
    obtain ⟨-, -, -, hpresent⟩ := h.queued other hother
    rw [hkept] at hpresent
    rw [← Option.not_isSome, hpresent]
    rfl
  have hcollect : Client.collect client.requests [] { client with requests := [] } =
      (client.requests.filter fun index =>
        !(client.request index).state.destroyed && (client.request index).complete,
      { client with requests := client.requests.filter fun index =>
        !(client.request index).state.destroyed && !(client.request index).complete }) :=
    @collect_eq _ _ { client with requests := [] } client.requests [] hnative
  unfold Client.pollRequests
  rw [if_neg (List.ne_nil_of_mem hmem), if_neg (by decide), hcollect]
  dsimp only
  rw [if_neg (by rw [h.alive]; decide)]
  have hin : index ∈ client.requests.filter fun index =>
      !(client.request index).state.destroyed && (client.request index).complete := by
    refine List.mem_filter.mpr ⟨hmem, ?_⟩
    rw [hdestroyed, hcomplete]
    rfl
  generalize hcompleted : (client.requests.filter fun index =>
    !(client.request index).state.destroyed && (client.request index).complete) = completed at hin
  cases completed with
  | nil => cases hin
  | cons first rest =>
    have hready : first ∈ client.requests.filter fun index =>
        !(client.request index).state.destroyed && (client.request index).complete := by
      rw [hcompleted]
      exact List.mem_cons_self
    obtain ⟨hfirst, hready⟩ := List.mem_filter.mp hready
    have hkept : (client.request first).state.destroyed = false := by
      have := (Bool.and_eq_true_iff.mp hready).1
      rwa [Bool.not_eq_true'] at this
    have hlater : ∀ (left : List Nat) (didWork : Bool), client.turns first <
        (Client.deliver (first :: rest) { client with requests := left, didWork }).turns first :=
      fun left didWork => @turns_first _ _ { client with requests := left, didWork } first rest hkept
        (hnative first hfirst hkept)
    exact ⟨first, hfirst, hlater _ _⟩

/-- No request has a second turn. -/
theorem Tracked.turns_le (h : Tracked client waiting current) (index : Nat) : client.turns index ≤ 1 := by
  by_cases hzero : client.turns index = 0
  · omega
  · obtain ⟨entry, hentry, hsame⟩ := List.countP_pos_iff.mp (Nat.pos_of_ne_zero hzero)
    have hlt := h.bound entry hentry
    rw [beq_iff_eq.mp hsame] at hlt
    by_cases hmem : index ∈ waiting
    · exact Nat.le_of_eq ((h.queued index hmem).2.2.1.trans rfl) |>.trans (Nat.zero_le 1)
    · rcases h.gone index hlt hmem with ⟨-, hturns, -⟩ | ⟨-, hturns | ⟨hturns, -⟩, -⟩
      all_goals omega

end Tracked

/-! ## Which requests were ended -/

section Ended

variable {client : Client Options} {index : Nat}

/-- `end` of a request returns. -/
def Client.EndReturns (client : Client Options) (index : Nat) (answer : NativeAnswer Options) : Prop :=
  index < client.states.length ∧ ∃ state, clientEnd answer (client.request index).state = .ok () state

theorem ended_put {request : ClientRequest Options} (hsame : request.state.ended = (client.request index).state.ended)
    (other : Nat) : ((client.put index request).request other).state.ended = (client.request other).state.ended := by
  rw [request_put]
  split_ifs with hboth
  · rw [hsame, hboth.1]
  · rfl

theorem ended_finish (client : Client Options) (index other : Nat) :
    ((client.finish index).request other).state.ended = (client.request other).state.ended := by
  unfold Client.finish
  refine ended_put ?_ other
  rfl

theorem ended_collect (rest completed : List Nat) (client : Client Options) (other : Nat) :
    ((Client.collect rest completed client).2.request other).state.ended = (client.request other).state.ended := by
  induction rest generalizing completed client with
  | nil => rfl
  | cons index rest ih =>
    unfold Client.collect
    dsimp only
    split_ifs
    · exact ih completed client
    · rfl
    · exact ih _ client
    · exact ih completed _

theorem ended_deliver (rest : List Nat) (client : Client Options) (other : Nat) :
    ((Client.deliver rest client).request other).state.ended = (client.request other).state.ended := by
  induction rest generalizing client with
  | nil => rfl
  | cons index rest ih =>
    unfold Client.deliver
    dsimp only
    split
    · exact ih client
    · split
      · rfl
      · split
        · exact ended_finish (client.resolve index _) index other
        · split
          · rfl
          · exact (ih _).trans (ended_finish (client.resolve index _) index other)

theorem ended_poll (client : Client Options) (transport : Bool) (other : Nat) :
    ((client.pollRequests transport).request other).state.ended = (client.request other).state.ended := by
  have hcollected : ((Client.collect client.requests [] { client with requests := [] }).2.request other).state.ended =
      (client.request other).state.ended := ended_collect _ _ _ other
  unfold Client.pollRequests
  split_ifs
  · rfl
  · rfl
  · dsimp only
    split_ifs
    · exact hcollected
    · exact (ended_deliver _ _ other).trans hcollected

theorem ended_new (client : Client Options) (address : Bytes) (options : Options) (method : Bytes) (callback : Bool)
    (other : Nat) : ((client.new address options method callback).request other).state.ended =
      (client.request other).state.ended := by
  unfold Client.new
  dsimp only
  split
  · rfl
  · rename_i state hstate
    have hfresh : state.ended = false := by
      have hspec : wp (checkToken method "method") (fun _ (after : ClientState Options) => after.ended = false)
          (fun _ _ => True) { address, options, method } := by
        simp only [checkToken, wp_ite, wp_throw, wp_pure]
        split_ifs
      unfold wp at hspec
      rw [hstate] at hspec
      exact hspec
    simp only [Client.request, List.getD_eq_getElem?_getD, List.getElem?_append]
    split_ifs with hlt
    · rfl
    · rw [List.getElem?_singleton, List.getElem?_eq_none (Nat.le_of_not_lt hlt)]
      split_ifs
      · exact hfresh
      · rfl

/-- A call that returns ends its request; one that raises changes nothing. -/
theorem ended_end (client : Client Options) (index : Nat) (answer : NativeAnswer Options) (other : Nat)
    (hlt : index < client.states.length) :
    ((client.endRequest index answer).request other).state.ended = true ↔
      (client.request other).state.ended = true ∨ (index = other ∧ client.EndReturns index answer) := by
  have hspec := clientEnd_spec answer (client.request index).state
  unfold Client.endRequest Client.EndReturns
  dsimp only
  cases hend : clientEnd answer (client.request index).state with
  | error error state =>
    obtain rfl := wp_error hspec hend
    dsimp only
    rw [ended_put rfl, or_iff_left fun ⟨_, _, _, hok⟩ => by cases hok]
  | ok result state =>
    have hnow : state.ended = true := by
      rcases wp_ok hspec hend with ⟨hended, rfl⟩ | ⟨-, -, native, rfl⟩
      · exact hended
      · rfl
    have hput : ((client.put index { client.request index with state }).request other).state.ended = true ↔
        (client.request other).state.ended = true ∨ index = other := by
      rw [request_put]
      simp only [hlt, and_true]
      split_ifs with hsame
      · exact ⟨fun _ => .inr hsame, fun _ => hnow⟩
      · exact (or_iff_left hsame).symm
    have hreturns : (index = other ∧ index < client.states.length ∧
        ∃ after, EStateM.Result.ok result state = (.ok () after : EStateM.Result Error (ClientState Options) Unit)) ↔
          index = other := and_iff_left ⟨hlt, state, rfl⟩
    rw [hreturns, ← hput]
    dsimp only
    split_ifs <;> rfl

theorem Orderly.step_ended (h : Orderly client) (action : ClientAction Options) (other : Nat) :
    ((client.step action).request other).state.ended = true ↔ (client.request other).state.ended = true ∨
      ∃ answer, action = .end other answer ∧ client.EndReturns other answer := by
  have hkeeps : ∀ {after : Client Options}, (after.request other).state.ended = (client.request other).state.ended →
      (∀ answer, action ≠ .end other answer) → ((after.request other).state.ended = true ↔
        (client.request other).state.ended = true ∨
          ∃ answer, action = .end other answer ∧ client.EndReturns other answer) := by
    intro after hsame hnot
    rw [hsame, or_iff_left fun ⟨answer, hend, _⟩ => hnot answer hend]
  unfold Client.step
  rw [if_neg (by rw [h.alive]; decide)]
  cases action with
  | new address options method callback => exact hkeeps (ended_new client address options method callback other) nofun
  | headers index headers =>
    refine hkeeps ?_ nofun
    dsimp only
    split_ifs
    · rfl
    · refine ended_put ?_ other
      rfl
  | write index value =>
    refine hkeeps (ended_put ?_ other) nofun
    have hspec := clientWriteBuffer_spec (client.request index).state value
    cases hm : clientWriteBuffer value (client.request index).state with
    | ok _ state =>
      rw [(wp_ok hspec hm).2]
      rfl
    | error _ state =>
      rw [(wp_error hspec hm).2]
      rfl
  | «end» index answer =>
    have hthis : (∃ answer', ClientAction.end index answer = .end other answer' ∧ client.EndReturns other answer') ↔
        index = other ∧ client.EndReturns index answer := by
      constructor
      · rintro ⟨answer', hsame, hreturns⟩
        cases hsame
        exact ⟨rfl, hreturns⟩
      · rintro ⟨rfl, hreturns⟩
        exact ⟨answer, rfl, hreturns⟩
    rw [hthis]
    dsimp only
    split_ifs with hlt
    · exact ended_end client index answer other hlt
    · exact (or_iff_left fun ⟨_, hreturns⟩ => hlt hreturns.1).symm
  | destroy index =>
    refine hkeeps ?_ nofun
    show ((client.destroy index).request other).state.ended = _
    unfold Client.destroy
    refine ended_put ?_ other
    rfl
  | complete index completion =>
    refine hkeeps ?_ nofun
    dsimp only
    split_ifs
    · rfl
    · refine ended_put ?_ other
      rfl
  | poll transport =>
    refine hkeeps ?_ nofun
    dsimp only
    split_ifs
    · exact ended_poll client transport other
    · rfl
  | «return» =>
    refine hkeeps ?_ nofun
    show (client.returned.request other).state.ended = _
    unfold Client.returned
    split
    · rfl
    · exact (ended_deliver _ _ other).trans (ended_finish client _ other)
  | raise =>
    refine hkeeps ?_ nofun
    show (client.raised.request other).state.ended = _
    unfold Client.raised
    split
    · rfl
    · exact ended_finish client _ other

theorem orderly_client_run (actions : List (ClientAction Options)) :
    Orderly (run Client.step ({} : Client Options) actions) :=
  @run_preserves _ _ Client.step Orderly (fun _ action h => h.steps action) _ orderly_clients actions

/-- The requests that were ended are those with an `end` that returned. -/
theorem run_ended (actions : List (ClientAction Options)) (index : Nat) :
    ((run Client.step ({} : Client Options) actions).request index).state.ended = true ↔ ∃ before answer after,
      actions = before ++ .end index answer :: after ∧ (run Client.step {} before).EndReturns index answer := by
  have hrun := @run_iff _ _ Client.step Orderly
    (fun client : Client Options => (client.request index).state.ended = true) _ (fun _ action h => h.steps action)
    (fun _ action h => h.step_ended action index) {} orderly_clients actions
  rw [hrun, or_iff_right (show ¬ (Client.request {} index).state.ended = true from Bool.false_ne_true)]
  constructor
  · rintro ⟨before, action, after, hactions, answer, rfl, hreturns⟩
    exact ⟨before, answer, after, hactions, hreturns⟩
  · rintro ⟨before, answer, after, hactions, hreturns⟩
    exact ⟨before, .end index answer, after, hactions, answer, rfl, hreturns⟩

end Ended

/-- The requests that wait for their turn: those of the list and, inside a poll, those behind the callback. -/
def Client.queue (client : Client Options) : List Nat := client.requests ++ client.control.rest

/-- Each request that was ended (an `end` of it has returned) is queued with its native request, or had its turn
once, or was destroyed before it; and the turns of the others go on when a callback raises. -/
theorem requests_resolve (actions : List (ClientAction Options)) :
    let client := run Client.step ({} : Client Options) actions
    client.aborted = false ∧ client.queue.Nodup ∧
    (∀ index, (client.request index).state.ended = true ↔ ∃ before answer after,
      actions = before ++ .end index answer :: after ∧ (run Client.step {} before).EndReturns index answer) ∧
    (∀ index ∈ client.queue, (client.request index).state.ended = true ∧
      ((client.request index).state.destroyed = false → (client.request index).state.native.isSome = true)) ∧
    (∀ index < client.states.length, (client.request index).state.ended = true →
      (index ∈ client.queue ∧ client.turns index = 0) ∨
      (index ∉ client.queue ∧ client.turns index = 1) ∨
      (index ∉ client.queue ∧ client.turns index = 0 ∧ (client.request index).state.destroyed = true)) ∧
    (∀ index < client.states.length, (client.request index).state.ended = false →
      index ∉ client.queue ∧ client.turns index = 0) ∧
    (∀ index, (index, .unheard) ∈ client.resolved → (client.request index).given = false) ∧
    (∀ index rest, client.control = .calling index rest →
      client.raised.control = .idle ∧ client.raised.queue = client.requests ++ rest ∧
      ∀ other, other ≠ index → client.raised.request other = client.request other) ∧
    (client.control = .idle → ∀ index ∈ client.requests, (client.request index).state.destroyed = false →
      (client.request index).complete = true →
        ∃ other ∈ client.requests, (client.pollRequests true).turns other = 1) := by
  intro client
  have h : Orderly client := orderly_client_run actions
  refine ⟨h.alive, h.once, run_ended actions, ?_, ?_, ?_, h.unheard, ?_, ?_⟩
  · intro index hmem
    obtain ⟨-, hended, -, hnative⟩ := h.queued index hmem
    refine ⟨hended, fun hkept => ?_⟩
    rw [hnative, hkept]
    rfl
  · intro index hlt hended
    by_cases hmem : index ∈ client.queue
    · exact .inl ⟨hmem, (h.queued index hmem).2.2.1⟩
    · rcases h.gone index hlt hmem with ⟨hnot, -⟩ | ⟨-, hturns | ⟨hturns, hdestroyed⟩, -⟩
      · cases hended.symm.trans hnot
      · exact .inr (.inl ⟨hmem, hturns⟩)
      · exact .inr (.inr ⟨hmem, hturns, hdestroyed⟩)
  · intro index hlt hended
    have hmem : index ∉ client.queue := by
      intro hmem
      cases hended.symm.trans (h.queued index hmem).2.1
    rcases h.gone index hlt hmem with ⟨-, hturns, -⟩ | ⟨hnot, -⟩
    · exact ⟨hmem, hturns⟩
    · cases hended.symm.trans hnot
  · intro index rest hcalling
    have hraised : client.raised =
        { client.finish index with requests := client.requests ++ rest, control := .idle } := by
      unfold Client.raised
      rw [hcalling]
    rw [hraised]
    refine ⟨rfl, List.append_nil _, fun other hne => ?_⟩
    exact (request_put _ _ _ _).trans (if_neg fun hboth => hne hboth.1.symm)
  · intro hidle index hmem hkept hcomplete
    have htracked : Tracked client client.requests none := by
      have hnow := h
      unfold Orderly at hnow
      rw [hidle] at hnow
      exact (List.append_nil client.requests) ▸ hnow
    obtain ⟨other, hother, hmore⟩ := htracked.progresses hmem hkept hcomplete
    have hpolled := h.polls hidle true
    have hone := hpolled.turns_le other
    exact ⟨other, hother, by omega⟩

end TsonicNode.Http
