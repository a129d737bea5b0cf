import Mathlib.Tactic.Common
import Mathlib.Data.List.Basic

/-!
# Limited codec output

`TsonicCodecOutput` grows towards a limit; at the limit it offers one spare byte
to find out whether the engine has more. `drive` is the loop its users share: a
space is offered, the engine is called, the piece is counted. What an engine
does in it is a `Driver`, and `Delivers` says of a driver alone, with no output in
sight, that it comes to success with some pieces.
-/

namespace TsonicNode.Compression

def outputLimit : Nat := 268435456

/-- The output: `data` is what is allocated and `size` how much of it is used. -/
structure Output where
  data : List UInt8 := []
  size : Nat := 0
  limit : Nat
  chunkSize : Nat
  overflow : UInt8 := 0

/-- Where the engine may write. -/
inductive Space where
  | overflow
  | data (offset available : Nat)

namespace Space

def available : Space → Nat
  | .overflow => 1
  | .data _ available => available

end Space

/-- `realloc`: the bytes with a new length, or a refusal. -/
abbrev Realloc := List UInt8 → Nat → Option (List UInt8)

/-- What is granted has the length asked for and begins with the old bytes. -/
structure Realloc.Lawful (realloc : Realloc) : Prop where
  length : ∀ data capacity granted, realloc data capacity = some granted → granted.length = capacity
  keeps : ∀ data capacity granted, realloc data capacity = some granted → data.length ≤ capacity →
    granted.take data.length = data

def codecOutputInit (limit chunkSize : Nat) : Except String Output :=
  if limit = 0 ∨ limit > outputLimit ∨ chunkSize < 64 ∨ chunkSize > outputLimit then
    .error "Invalid compression output limit or chunk size"
  else .ok { limit := limit, chunkSize := chunkSize }

namespace Output

def capacity (output : Output) : Nat := output.data.length

/-- The next capacity. -/
def grown (output : Output) : Nat :=
  let capacity :=
    if output.capacity = 0 then output.chunkSize
    else if output.capacity > output.limit / 2 then output.limit else output.capacity * 2
  if capacity > output.limit then output.limit else capacity

/-- What is asked of `realloc` before the next space. -/
def asks (output : Output) : Option Nat :=
  if output.size ≠ output.limit ∧ output.size = output.capacity then some output.grown else none

/-- The engine writes a piece at the beginning of its space. -/
def store (output : Output) (space : Space) (piece : List UInt8) : Output :=
  match space with
  | .overflow => { output with overflow := piece.headD output.overflow }
  | .data offset _ =>
    { output with data := output.data.take offset ++ piece ++ output.data.drop (offset + piece.length) }

/-- The bytes that are returned. -/
def bytes (output : Output) : List UInt8 := output.data.take output.size

end Output

def codecOutputSpace (realloc : Realloc) (output : Output) : Except String (Output × Space) :=
  if output.size = output.limit then .ok (output, .overflow)
  else do
    let output ←
      if output.size = output.capacity then
        match realloc output.data output.grown with
        | none => .error "Unable to allocate compression output"
        | some data => .ok { output with data := data }
      else .ok output
    let available := output.capacity - output.size
    return (output, .data output.size (if available > output.chunkSize then output.chunkSize else available))

def codecOutputAdvance (output : Output) (count : Nat) : Except String Output :=
  if count > output.limit - output.size then .error "Compression output exceeds maxOutputLength"
  else .ok { output with size := output.size + count }

/-- What an engine says before it is called. -/
inductive Opening (σ : Type) where
  | closed (session : σ)
  | failed (message : String)
  | ready (session : σ)

/-- What a call of the engine says of the loop. -/
inductive Verdict (σ : Type) where
  | finished (session : σ)
  | failed (message : String)
  | goesOn (session : σ)

/-- What a call returns: the state it leaves, what it wrote and what is to follow. -/
structure Reply (σ : Type) where
  session : σ
  piece : List UInt8
  verdict : Verdict σ

/-- An engine as the loop sees it. -/
structure Driver (σ : Type) where
  opening : σ → Opening σ
  call : σ → Nat → Reply σ

/-- What the loop does outside of itself, with the capacity at a call. -/
inductive Event where
  | allocated (capacity : Nat)
  | refused (capacity : Nat)
  | called (space : Space) (capacity : Nat) (piece : List UInt8)

inductive Result (σ : Type) where
  | succeeded (session : σ) (output : Output)
  | failed (session : σ) (message : String)

variable {σ : Type}

/-- Turns of the loop with what they did before; `none` when there are more to come. -/
def drive (realloc : Realloc) (driver : Driver σ) :
    Nat → σ → Output → List Event → Option (Result σ × List Event)
  | 0, _, _, _ => none
  | turns + 1, session, output, events =>
    match codecOutputSpace realloc output with
    | .error message => some (.failed session message, events ++ output.asks.toList.map .refused)
    | .ok (offered, space) =>
      let events := events ++ output.asks.toList.map .allocated
      match driver.opening session with
      | .closed session => some (.succeeded session offered, events)
      | .failed message => some (.failed session message, events)
      | .ready session =>
        let reply := driver.call session space.available
        let events := events ++ [.called space offered.capacity reply.piece]
        match codecOutputAdvance (offered.store space reply.piece) reply.piece.length with
        | .error message => some (.failed reply.session message, events)
        | .ok output =>
          match reply.verdict with
          | .finished session => some (.succeeded session output, events)
          | .failed message => some (.failed reply.session message, events)
          | .goesOn session => drive realloc driver turns session output events

/-- The engine comes to success: offered these spaces it returns these pieces. -/
def Delivers (driver : Driver σ) : σ → List (Nat × List UInt8) → Prop
  | session, [] => ∃ last, driver.opening session = .closed last
  | session, (space, piece) :: rest =>
    ∃ ready, driver.opening session = .ready ready ∧ (driver.call ready space).piece = piece ∧
      match (driver.call ready space).verdict with
      | .finished _ => rest = []
      | .failed _ => False
      | .goesOn next => Delivers driver next rest

/-- The calls among the events: the space offered and the piece returned. -/
def calls (events : List Event) : List (Nat × List UInt8) :=
  events.filterMap fun
    | .called space _ piece => some (space.available, piece)
    | _ => none

/-- All the pieces of some calls. -/
def delivered (calls : List (Nat × List UInt8)) : List UInt8 := (calls.map Prod.snd).flatten

/-- An event stays within the limit, a piece within its space and a space within
what is allocated. -/
def Event.Within (limit : Nat) : Event → Prop
  | .allocated capacity => capacity ≤ limit
  | .refused capacity => capacity ≤ limit
  | .called space capacity piece => piece.length ≤ space.available ∧ capacity ≤ limit ∧
    match space with
    | .overflow => True
    | .data offset available => offset + available ≤ capacity

/-! ## One turn -/

namespace Output

/-- The output holds some bytes and is in order. -/
structure Holds (output : Output) (bytes : List UInt8) : Prop where
  chunk : 0 < output.chunkSize
  size : output.size ≤ output.capacity
  capacity : output.capacity ≤ output.limit
  bytes : output.bytes = bytes

theorem Holds.length {output : Output} {bytes : List UInt8} (h : output.Holds bytes) :
    bytes.length = output.size := by
  have hsize := h.size
  rw [← h.bytes, Output.bytes, List.length_take]
  exact Nat.min_eq_left hsize

/-- Growing stays within the limit and makes room. -/
theorem Holds.grown {output : Output} {bytes : List UInt8} (h : output.Holds bytes)
    (hsize : output.size ≠ output.limit) (hfull : output.size = output.capacity) :
    output.capacity < output.grown ∧ output.grown ≤ output.limit := by
  have hchunk := h.chunk
  have hcapacity := h.capacity
  unfold Output.grown
  simp only
  split
  all_goals
    split
    all_goals first | omega | (split <;> omega)

theorem asks_full {output : Output} (hsize : output.size ≠ output.limit)
    (hfull : output.size = output.capacity) : output.asks = some output.grown :=
  if_pos ⟨hsize, hfull⟩

end Output

/-- The space offered lies behind the bytes that are held. -/
def Space.Behind (space : Space) (output : Output) : Prop :=
  match space with
  | .overflow => output.size = output.limit
  | .data offset available => offset = output.size ∧ offset + available ≤ output.capacity

section Turn

variable {realloc : Realloc} {output offered : Output} {space : Space} {bytes : List UInt8}

/-- What is offered: a space with room, behind the same bytes. -/
theorem space_offered (hrealloc : realloc.Lawful) (h : output.Holds bytes)
    (hoffered : codecOutputSpace realloc output = .ok (offered, space)) :
    offered.Holds bytes ∧ offered.size = output.size ∧ offered.limit = output.limit ∧
      0 < space.available ∧ space.Behind offered := by
  unfold codecOutputSpace at hoffered
  by_cases hsize : output.size = output.limit
  · rw [if_pos hsize] at hoffered
    cases hoffered
    exact ⟨h, rfl, rfl, Nat.one_pos, hsize⟩
  rw [if_neg hsize] at hoffered
  -- room for a byte is there in the grown output and in one that need not grow
  have hroom : ∀ grown : Output, grown.Holds bytes → grown.size = output.size →
      grown.limit = output.limit → grown.size < grown.capacity →
      .ok (grown, .data grown.size (if grown.capacity - grown.size > grown.chunkSize then grown.chunkSize
        else grown.capacity - grown.size)) = (.ok (offered, space) : Except String (Output × Space)) →
      offered.Holds bytes ∧ offered.size = output.size ∧ offered.limit = output.limit ∧
        0 < space.available ∧ space.Behind offered := by
    intro grown hgrown hsame hlimit hlt heq
    cases heq
    have hchunk := hgrown.chunk
    refine ⟨hgrown, hsame, hlimit, ?_, rfl, ?_⟩
    · simp only [Space.available]
      split <;> omega
    · split <;> omega
  by_cases hfull : output.size = output.capacity
  · rw [if_pos hfull] at hoffered
    obtain ⟨hlt, hle⟩ := h.grown hsize hfull
    cases hgranted : realloc output.data output.grown with
    | none =>
      rw [hgranted] at hoffered
      cases hoffered
    | some data =>
      rw [hgranted] at hoffered
      have hlength : data.length = output.grown := hrealloc.length _ _ _ hgranted
      have hkeeps : data.take output.data.length = output.data :=
        hrealloc.keeps _ _ _ hgranted (Nat.le_of_lt hlt)
      refine hroom { output with data := data } ⟨h.chunk, ?_, ?_, ?_⟩ rfl rfl ?_ hoffered
      · exact Nat.le_trans h.size (by rw [Output.capacity, Output.capacity, hlength]; exact Nat.le_of_lt hlt)
      · rw [Output.capacity, hlength]
        exact hle
      · rw [← h.bytes, Output.bytes, Output.bytes]
        simp only
        rw [← hkeeps, List.take_take, Nat.min_eq_left (show output.size ≤ output.data.length from h.size)]
      · rw [Output.capacity, hlength]
        exact hfull ▸ hlt
  · rw [if_neg hfull] at hoffered
    exact hroom output h rfl rfl (Nat.lt_of_le_of_ne h.size hfull) hoffered

/-- No space is offered when an allocation within the limit is refused. -/
theorem space_refused (h : output.Holds bytes) {message : String}
    (hrefused : codecOutputSpace realloc output = .error message) :
    ∃ capacity ≤ output.limit, output.asks = some capacity := by
  unfold codecOutputSpace at hrefused
  by_cases hsize : output.size = output.limit
  · rw [if_pos hsize] at hrefused
    cases hrefused
  rw [if_neg hsize] at hrefused
  by_cases hfull : output.size = output.capacity
  · exact ⟨output.grown, (h.grown hsize hfull).2, Output.asks_full hsize hfull⟩
  · rw [if_neg hfull] at hrefused
    cases hrefused

theorem asks_within (h : output.Holds bytes) {capacity : Nat} (hasks : output.asks = some capacity) :
    capacity ≤ output.limit := by
  unfold Output.asks at hasks
  split at hasks
  case isTrue hcond =>
    cases hasks
    exact (h.grown hcond.1 hcond.2).2
  case isFalse => cases hasks

/-- A piece that is counted is held behind the bytes before. -/
theorem advance_ok {piece : List UInt8} {next : Output} (h : offered.Holds bytes)
    (hbehind : space.Behind offered) (hfits : piece.length ≤ space.available)
    (hnext : codecOutputAdvance (offered.store space piece) piece.length = .ok next) :
    next.Holds (bytes ++ piece) ∧ next.size = offered.size + piece.length ∧
      next.limit = offered.limit := by
  unfold codecOutputAdvance at hnext
  have hsize := h.size
  cases space with
  | overflow =>
    split at hnext
    case isTrue => cases hnext
    case isFalse hcount =>
      cases hnext
      have hfull : offered.size = offered.limit := hbehind
      have hempty : piece = [] := by
        apply List.eq_nil_of_length_eq_zero
        simp only [Output.store] at hcount
        omega
      subst hempty
      rw [List.append_nil]
      exact ⟨⟨h.chunk, h.size, h.capacity, h.bytes⟩, rfl, rfl⟩
  | data offset available =>
    obtain ⟨rfl, hwithin⟩ := hbehind
    split at hnext
    case isTrue => cases hnext
    case isFalse hcount =>
      cases hnext
      have hfits : piece.length ≤ available := hfits
      have htake : (offered.data.take offered.size).length = offered.size := by
        rw [List.length_take]
        exact Nat.min_eq_left hsize
      have hlength : (offered.data.take offered.size ++ piece ++
          offered.data.drop (offered.size + piece.length)).length = offered.data.length := by
        have : offered.size + available ≤ offered.data.length := hwithin
        rw [List.length_append, List.length_append, htake, List.length_drop]
        omega
      refine ⟨⟨h.chunk, ?_, ?_, ?_⟩, rfl, rfl⟩
      · simp only [Output.store, Output.capacity, hlength]
        exact Nat.le_trans (Nat.add_le_add_left hfits _) hwithin
      · simp only [Output.store, Output.capacity, hlength]
        exact h.capacity
      · simp only [Output.store, Output.bytes]
        rw [List.take_left' (by rw [List.length_append, htake]), ← h.bytes]
        rfl

theorem advance_error {piece : List UInt8} {message : String} (h : offered.Holds bytes)
    (herror : codecOutputAdvance (offered.store space piece) piece.length = .error message) :
    offered.limit < offered.size + piece.length := by
  have hsize := h.size
  have hcapacity := h.capacity
  unfold codecOutputAdvance at herror
  split at herror
  case isTrue hcount =>
    cases space with
    | overflow =>
      simp only [Output.store] at hcount
      omega
    | data offset available =>
      simp only [Output.store] at hcount
      omega
  case isFalse => cases herror

end Turn

/-! ## The loop -/

theorem calls_append (before after : List Event) : calls (before ++ after) = calls before ++ calls after :=
  List.filterMap_append

theorem delivered_cons (space : Nat) (piece : List UInt8) (rest : List (Nat × List UInt8)) :
    delivered ((space, piece) :: rest) = piece ++ delivered rest := rfl

/-- The loop, as far as its user sees it: it succeeds exactly when the engine
does within the limit and no allocation is refused, and returns what the engine
delivered. -/
structure Bounded (driver : Driver σ) (session : σ) (bytes : List UInt8) (limit : Nat)
    (result : Result σ) (events : List Event) : Prop where
  succeeds : (∃ last output, result = .succeeded last output) ↔
    Delivers driver session (calls events) ∧ bytes.length + (delivered (calls events)).length ≤ limit ∧
      ∀ capacity, .refused capacity ∉ events
  returns : ∀ last output, result = .succeeded last output →
    output.bytes = bytes ++ delivered (calls events)
  within : ∀ event ∈ events, event.Within limit

/-- An engine keeps to its space, and where the loop goes on it got further:
it wrote something or is nearer to its end. -/
structure Driver.Advances (driver : Driver σ) (distance : σ → Nat) : Prop where
  fits : ∀ session space, (driver.call session space).piece.length ≤ space
  nearer : ∀ session ready space next, 0 < space → driver.opening session = .ready ready →
    (driver.call ready space).verdict = .goesOn next →
    distance next < distance session + 2 * (driver.call ready space).piece.length

theorem mem_asked {output : Output} {event : Event} {kind : Nat → Event}
    (h : event ∈ output.asks.toList.map kind) : ∃ capacity, output.asks = some capacity ∧ event = kind capacity := by
  rw [List.mem_map] at h
  obtain ⟨capacity, hmem, rfl⟩ := h
  exact ⟨capacity, Option.mem_toList.mp hmem, rfl⟩

theorem calls_asked (output : Output) : calls (output.asks.toList.map .allocated) = [] := by
  cases output.asks <;> rfl

/-- A failure of something that does not hold. -/
theorem Bounded.failed {driver : Driver σ} {session last : σ} {bytes : List UInt8} {limit : Nat}
    {message : String} {events : List Event}
    (hnot : Delivers driver session (calls events) →
      bytes.length + (delivered (calls events)).length ≤ limit → ¬ ∀ capacity, .refused capacity ∉ events)
    (hwithin : ∀ event ∈ events, event.Within limit) :
    Bounded driver session bytes limit (.failed last message) events where
  succeeds := ⟨fun ⟨_, _, h⟩ => (by cases h), fun ⟨hdelivers, hlength, hgranted⟩ =>
    absurd hgranted (hnot hdelivers hlength)⟩
  returns _ _ h := by cases h
  within := hwithin

/-- A success and what it returns. -/
theorem Bounded.succeeded {driver : Driver σ} {session last : σ} {bytes : List UInt8} {limit : Nat}
    {output : Output} {events : List Event} (hdelivers : Delivers driver session (calls events))
    (hheld : output.Holds (bytes ++ delivered (calls events))) (hlimit : output.limit = limit)
    (hgranted : ∀ capacity, .refused capacity ∉ events)
    (hwithin : ∀ event ∈ events, event.Within limit) :
    Bounded driver session bytes limit (.succeeded last output) events where
  succeeds := by
    refine ⟨fun _ => ⟨hdelivers, ?_, hgranted⟩, fun _ => ⟨last, output, rfl⟩⟩
    rw [← List.length_append, hheld.length, ← hlimit]
    exact Nat.le_trans hheld.size hheld.capacity
  returns _ _ h := by
    cases h
    exact hheld.bytes
  within := hwithin

/-- A call in front. -/
theorem Bounded.call {driver : Driver σ} {session ready next : σ} {bytes : List UInt8} {limit space : Nat}
    {result : Result σ} {events here : List Event}
    (h : Bounded driver next (bytes ++ (driver.call ready space).piece) limit result events)
    (hopening : driver.opening session = .ready ready)
    (hverdict : (driver.call ready space).verdict = .goesOn next)
    (hcalls : calls here = [(space, (driver.call ready space).piece)])
    (hgranted : ∀ capacity, .refused capacity ∉ here) (hwithin : ∀ event ∈ here, event.Within limit) :
    Bounded driver session bytes limit result (here ++ events) := by
  have hall : calls (here ++ events) = (space, (driver.call ready space).piece) :: calls events := by
    rw [calls_append, hcalls, List.singleton_append]
  have hdelivers : Delivers driver session (calls (here ++ events)) ↔ Delivers driver next (calls events) := by
    rw [hall, Delivers]
    constructor
    · rintro ⟨ready', hready', -, hrest⟩
      rw [hopening] at hready'
      cases hready'
      rw [hverdict] at hrest
      exact hrest
    · intro hrest
      refine ⟨ready, hopening, rfl, ?_⟩
      rw [hverdict]
      exact hrest
  have hrefused : (∀ capacity, .refused capacity ∉ here ++ events) ↔ ∀ capacity, .refused capacity ∉ events :=
    forall_congr' fun capacity => by rw [List.mem_append, or_iff_right (hgranted capacity)]
  refine ⟨?_, fun last output hresult => ?_, fun event hevent => ?_⟩
  · rw [h.succeeds, hdelivers, hrefused, hall, delivered_cons, List.length_append, List.length_append,
      Nat.add_assoc]
  · rw [h.returns last output hresult, hall, delivered_cons, List.append_assoc]
  · rcases List.mem_append.mp hevent with hhere | hlater
    · exact hwithin event hhere
    · exact h.within event hlater

/-- The loop ends, whatever it did before. -/
theorem drive_bounded {realloc : Realloc} (hrealloc : realloc.Lawful) {driver : Driver σ}
    {distance : σ → Nat} (hadvances : driver.Advances distance) (bound : Nat) (session : σ)
    (output : Output) (bytes : List UInt8) (before : List Event) (hheld : output.Holds bytes)
    (hbound : distance session + 2 * (output.limit - output.size) < bound) :
    ∃ turns result events,
      (∀ more, drive realloc driver (turns + more) session output before = some (result, before ++ events)) ∧
        Bounded driver session bytes output.limit result events := by
  induction bound generalizing session output bytes before with
  | zero => exact absurd hbound (Nat.not_lt_zero _)
  | succ bound ih =>
    cases hspace : codecOutputSpace realloc output with
    | error message =>
      obtain ⟨capacity, hcapacity, hasks⟩ := space_refused hheld hspace
      refine ⟨1, .failed session message, [.refused capacity], fun more => ?_,
        .failed (fun _ _ hgranted => hgranted capacity (List.mem_singleton_self _)) fun event hevent => ?_⟩
      · simp only [Nat.add_comm 1 more, drive, hspace, hasks]
        rfl
      · rw [List.mem_singleton.mp hevent]
        exact hcapacity
    | ok offer =>
      obtain ⟨offered, space⟩ := offer
      obtain ⟨hoffered, hsize, hlimit, hroom, hbehind⟩ := space_offered hrealloc hheld hspace
      have hasked : ∀ event ∈ output.asks.toList.map Event.allocated, event.Within output.limit := by
        intro event hevent
        obtain ⟨capacity, hasks, rfl⟩ := mem_asked hevent
        exact asks_within hheld hasks
      have hgranted : ∀ capacity, .refused capacity ∉ output.asks.toList.map Event.allocated := by
        intro capacity hevent
        obtain ⟨_, _, h⟩ := mem_asked hevent
        cases h
      cases hopening : driver.opening session with
      | closed last =>
        refine ⟨1, .succeeded last offered, output.asks.toList.map .allocated, fun more => ?_,
          .succeeded ?_ ?_ hlimit hgranted hasked⟩
        · simp only [Nat.add_comm 1 more, drive, hspace, hopening]
        · rw [calls_asked]
          exact ⟨last, hopening⟩
        · rw [calls_asked]
          exact (List.append_nil bytes).symm ▸ hoffered
      | failed message =>
        refine ⟨1, .failed session message, output.asks.toList.map .allocated, fun more => ?_,
          .failed (fun hdelivers => ?_) hasked⟩
        · simp only [Nat.add_comm 1 more, drive, hspace, hopening]
        · rw [calls_asked] at hdelivers
          obtain ⟨last, hlast⟩ := hdelivers
          rw [hopening] at hlast
          cases hlast
      | ready ready =>
        -- one call, and what the loop has done up to it
        obtain ⟨reply, hreply⟩ : ∃ reply, driver.call ready space.available = reply := ⟨_, rfl⟩
        obtain ⟨here, hhere⟩ : ∃ here, output.asks.toList.map Event.allocated ++
            [.called space offered.capacity reply.piece] = here := ⟨_, rfl⟩
        have hfits : reply.piece.length ≤ space.available := hreply ▸ hadvances.fits ready space.available
        have hcalls : calls here = [(space.available, reply.piece)] := by
          rw [← hhere, calls_append, calls_asked]
          rfl
        have hgranted' : ∀ capacity, .refused capacity ∉ here := by
          intro capacity hmem
          rw [← hhere, List.mem_append, or_iff_right (hgranted capacity), List.mem_singleton] at hmem
          cases hmem
        have hwithin : ∀ event ∈ here, event.Within output.limit := by
          intro event hevent
          rw [← hhere, List.mem_append, List.mem_singleton] at hevent
          rcases hevent with hevent | rfl
          · exact hasked event hevent
          · refine ⟨hfits, hlimit ▸ hoffered.capacity, ?_⟩
            cases space with
            | overflow => trivial
            | data offset available => exact hbehind.2
        cases hadvance : codecOutputAdvance (offered.store space reply.piece) reply.piece.length with
        | error message =>
          have hmore := advance_error hoffered hadvance
          refine ⟨1, .failed reply.session message, here, fun more => ?_, .failed (fun _ hlength => ?_) hwithin⟩
          · simp only [Nat.add_comm 1 more, drive, hspace, hopening, hreply, hadvance, ← hhere,
              List.append_assoc]
          · rw [hcalls, delivered_cons, hheld.length, ← hsize, ← hlimit] at hlength
            exact absurd hmore (Nat.not_lt.mpr (Nat.le_trans
              (Nat.add_le_add_left (List.length_append ▸ Nat.le_add_right _ _) _) hlength))
        | ok next =>
          obtain ⟨hnext, hgrown, hnextLimit⟩ := advance_ok hoffered hbehind hfits hadvance
          cases hverdict : reply.verdict with
          | finished last =>
            refine ⟨1, .succeeded last next, here, fun more => ?_,
              .succeeded ?_ ?_ (hnextLimit.trans hlimit) hgranted' hwithin⟩
            · simp only [Nat.add_comm 1 more, drive, hspace, hopening, hreply, hadvance, hverdict, ← hhere,
                List.append_assoc]
            · rw [hcalls, Delivers]
              exact ⟨ready, hopening, congrArg Reply.piece hreply, by rw [hreply, hverdict]⟩
            · rw [hcalls, delivered_cons]
              exact (List.append_nil reply.piece).symm ▸ hnext
          | failed message =>
            refine ⟨1, .failed reply.session message, here, fun more => ?_, .failed (fun hdelivers => ?_) hwithin⟩
            · simp only [Nat.add_comm 1 more, drive, hspace, hopening, hreply, hadvance, hverdict, ← hhere,
                List.append_assoc]
            · rw [hcalls, Delivers] at hdelivers
              obtain ⟨ready', hready', -, hrest⟩ := hdelivers
              rw [hopening] at hready'
              cases hready'
              rw [hreply, hverdict] at hrest
              exact hrest.elim
          | goesOn following =>
            have hnearer := hadvances.nearer session ready space.available following hroom hopening
              (hreply ▸ hverdict)
            rw [hreply] at hnearer
            have hnextSize := hnext.size
            have hnextCapacity := hnext.capacity
            obtain ⟨turns, result, events, hturns, hbounded⟩ :=
              ih following next (bytes ++ reply.piece) (before ++ here) hnext (by omega)
            rw [hnextLimit, hlimit] at hbounded
            refine ⟨turns + 1, result, here ++ events, fun more => ?_, ?_⟩
            · rw [← List.append_assoc, ← hturns more, ← hhere]
              simp only [Nat.add_right_comm turns 1 more, drive, hspace, hopening, hreply, hadvance, hverdict,
                List.append_assoc]
            · rw [← hreply] at hbounded hcalls
              exact .call hbounded hopening (hreply ▸ hverdict) hcalls hgranted' hwithin

end TsonicNode.Compression
