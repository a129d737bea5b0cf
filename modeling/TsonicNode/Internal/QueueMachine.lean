import TsonicNode.Internal.CallbackQueue
import TsonicNode.Lib.Run

/-!
# The callback queue, step by step

`poll` runs arbitrary callbacks in the middle of its loop, and these use the
same queue. `Machine` is the queue together with the program point of the
running `_poll_batch` (`Control`), so that a callback's operations are
ordinary steps taken while the loop stands at `calling`. The record `commits`
lists the callbacks in commit order, `starts` those that were started.

`Machine.Consistent` is the invariant of every run: the counters count what
they should, and the callbacks started so far, followed by the outstanding
ones, are the committed ones in commit order. `poll_run` connects the steps
with the function `poll`.
-/

namespace TsonicNode.Internal

open TsonicNode.Lib

variable {N : Type}

/-- The program point of the batch loop, with the part of the batch not yet started. -/
inductive Control (N : Type) where
  | idle
  /-- At the head of the loop. -/
  | ready (rest : List N)
  /-- Inside the call of a callback. -/
  | calling (rest : List N)
  deriving DecidableEq

/-- The part of the batch that has not been started. -/
def Control.rest : Control N → List N
  | .idle => []
  | .ready rest => rest
  | .calling rest => rest

structure Machine (N : Type) where
  queue : QueueState N
  control : Control N
  commits : List N
  starts : List N

inductive QueueLabel (N : Type) where
  | reserve
  | commit (reservation : ReservationId) (callback : N)
  | drop (reservation : ReservationId)
  | push (callback : N)
  /-- A call of `poll`, nested or not. -/
  | poll
  /-- The loop takes the next callback and calls it. -/
  | start
  /-- The callback returns. -/
  | return
  /-- The callback raises: the batch ends. -/
  | raise
  /-- The loop has run the whole batch. -/
  | leave

namespace Machine

def new (limit : Nat) : Machine N := ⟨.new limit, .idle, [], []⟩

/-- The committed callbacks that have not been started, in the order they will be. -/
def outstanding (m : Machine N) : List N := m.control.rest ++ m.queue.pending

def reserve : EStateM Error (Machine N) ReservationId :=
  zoom queue (fun queue m => { m with queue }) QueueState.reserve

def commit (reservation : ReservationId) (callback : N) : EStateM Error (Machine N) Unit := do
  zoom queue (fun queue m => { m with queue }) (QueueState.commit reservation callback)
  modify fun m => { m with commits := m.commits ++ [callback] }

def drop (reservation : ReservationId) : EStateM Error (Machine N) Unit :=
  zoom queue (fun queue m => { m with queue }) (QueueState.drop reservation)

def push (callback : N) : EStateM Error (Machine N) Unit := do
  commit (← reserve) callback

/-- `poll` up to the head of its loop. -/
def enter (m : Machine N) : Machine N :=
  if m.queue.polling || !m.queue.hasPending then m
  else
    { m with
      queue := { m.queue with polling := true, pending := [] }
      control := .ready m.queue.pending }

/-- One turn of the loop up to the call. -/
def start (m : Machine N) : Machine N :=
  match m.control with
  | .ready (n :: rest) =>
    { m with
      queue := { m.queue with committed := m.queue.committed - 1 }
      control := .calling rest
      starts := m.starts ++ [n] }
  | _ => m

def return_ (m : Machine N) : Machine N :=
  match m.control with
  | .calling rest => { m with control := .ready rest }
  | _ => m

def raise (m : Machine N) : Machine N :=
  match m.control with
  | .calling rest =>
    { m with
      queue := { m.queue with pending := rest ++ m.queue.pending, polling := false }
      control := .idle }
  | _ => m

def leave (m : Machine N) : Machine N :=
  match m.control with
  | .ready [] => { m with queue := { m.queue with polling := false }, control := .idle }
  | _ => m

def step (m : Machine N) : QueueLabel N → Machine N
  | .reserve => finalState (reserve m)
  | .commit reservation callback => finalState (commit reservation callback m)
  | .drop reservation => finalState (drop reservation m)
  | .push callback => finalState (push callback m)
  | .poll => m.enter
  | .start => m.start
  | .return => m.return_
  | .raise => m.raise
  | .leave => m.leave

/-! ## What the operations do -/

/-- The queue after a successful `reserve`. -/
def took (m : Machine N) : Machine N :=
  { m with
    queue :=
      { m.queue with
        active := insert m.queue.allocated m.queue.active
        allocated := m.queue.allocated + 1
        reserved := m.queue.reserved + 1 } }

/-- The queue after `reservation` was dropped while active. -/
def released (m : Machine N) (reservation : ReservationId) : Machine N :=
  { m with
    queue :=
      { m.queue with
        active := m.queue.active.erase reservation
        reserved := m.queue.reserved - 1 } }

/-- The queue after `callback` was committed against an active reservation. -/
def delivered (m : Machine N) (reservation : ReservationId) (callback : N) : Machine N :=
  { m with
    queue :=
      { m.queue with
        active := m.queue.active.erase reservation
        reserved := m.queue.reserved - 1
        committed := m.queue.committed + 1
        pending := m.queue.pending ++ [callback] }
    commits := m.commits ++ [callback] }

/-- The queue has room for one more reservation. -/
def HasRoom (m : Machine N) : Prop := m.queue.committed + m.queue.reserved < m.queue.limit

theorem reserve_ok {m : Machine N} (h : m.HasRoom) :
    reserve m = .ok m.queue.allocated m.took := by
  have h' : ¬ m.queue.committed + m.queue.reserved ≥ m.queue.limit := by
    unfold HasRoom at h; omega
  simp only [reserve, zoom, QueueState.reserve, QueueState.requireCapacity, bind_run, get_run, if_neg h']
  rfl

theorem reserve_error {m : Machine N} (h : ¬ m.HasRoom) :
    reserve m = .error ⟨"Pending callbacks exceed the finite runtime limit"⟩ m := by
  have h' : m.queue.committed + m.queue.reserved ≥ m.queue.limit := by
    unfold HasRoom at h; omega
  simp only [reserve, zoom, QueueState.reserve, QueueState.requireCapacity, bind_run, get_run, if_pos h']
  rfl

theorem commit_ok {m : Machine N} {r : ReservationId} (h : r ∈ m.queue.active) (n : N) :
    commit r n m = .ok () (m.delivered r n) := by
  simp only [commit, zoom, QueueState.commit, bind_run, get_run, if_pos h]
  rfl

theorem commit_error {m : Machine N} {r : ReservationId} (h : r ∉ m.queue.active) (n : N) :
    commit r n m = .error ⟨"Callback reservation was already consumed"⟩ m := by
  simp only [commit, zoom, QueueState.commit, bind_run, get_run, if_neg h]
  rfl

theorem drop_active {m : Machine N} {r : ReservationId} (h : r ∈ m.queue.active) :
    drop r m = .ok () (m.released r) := by
  simp only [drop, zoom, QueueState.drop, bind_run, get_run, if_pos h]
  rfl

theorem drop_inactive {m : Machine N} {r : ReservationId} (h : r ∉ m.queue.active) :
    drop r m = .ok () m := by
  simp only [drop, zoom, QueueState.drop, bind_run, get_run, if_neg h]
  rfl

theorem push_ok {m : Machine N} (h : m.HasRoom) (n : N) :
    push n m = commit m.queue.allocated n m.took := by
  simp only [push, bind_run, reserve_ok h]

theorem push_error {m : Machine N} (h : ¬ m.HasRoom) (n : N) :
    push n m = .error ⟨"Pending callbacks exceed the finite runtime limit"⟩ m := by
  simp only [push, bind_run, reserve_error h]

/-! ## The invariant -/

/-- The counters and the records of a queue in any state of any run. -/
structure Consistent (m : Machine N) : Prop where
  committed : m.queue.committed = m.outstanding.length
  reserved : m.queue.reserved = m.queue.active.card
  limit : m.queue.committed + m.queue.reserved ≤ m.queue.limit
  order : m.commits = m.starts ++ m.outstanding
  polling : m.queue.polling = true ↔ m.control ≠ .idle
  fresh : ∀ r ∈ m.queue.active, r < m.queue.allocated

theorem new_consistent (limit : Nat) : (new limit : Machine N).Consistent where
  committed := rfl
  reserved := rfl
  limit := by simp [new, QueueState.new]
  order := rfl
  polling := by simp [new, QueueState.new]
  fresh := by simp [new, QueueState.new]

theorem Consistent.took {m : Machine N} (h : m.Consistent) (hroom : m.HasRoom) :
    m.took.Consistent where
  committed := h.committed
  reserved := by
    have hnew : m.queue.allocated ∉ m.queue.active := fun hm => Nat.lt_irrefl _ (h.fresh _ hm)
    simp only [Machine.took, Finset.card_insert_of_notMem hnew, h.reserved]
    push_cast
    rfl
  limit := by
    unfold HasRoom at hroom
    simp only [Machine.took]
    omega
  order := h.order
  polling := h.polling
  fresh := by
    intro r hr
    simp only [Machine.took, Finset.mem_insert] at hr ⊢
    rcases hr with rfl | hr
    · exact Nat.lt_succ_self _
    · exact Nat.lt_succ_of_lt (h.fresh r hr)

theorem Consistent.released {m : Machine N} (h : m.Consistent) {r : ReservationId}
    (hr : r ∈ m.queue.active) : (m.released r).Consistent where
  committed := h.committed
  reserved := by
    have hcard := Finset.card_erase_add_one hr
    have := h.reserved
    simp only [Machine.released]
    omega
  limit := by
    have := h.limit
    simp only [Machine.released]
    omega
  order := h.order
  polling := h.polling
  fresh := fun s hs => h.fresh s (Finset.mem_of_mem_erase hs)

theorem Consistent.delivered {m : Machine N} (h : m.Consistent) {r : ReservationId}
    (hr : r ∈ m.queue.active) (n : N) : (m.delivered r n).Consistent where
  committed := by
    have := h.committed
    simp only [Machine.delivered, outstanding, List.length_append, List.length_singleton] at this ⊢
    push_cast at this ⊢
    omega
  reserved := by
    have hcard := Finset.card_erase_add_one hr
    have := h.reserved
    simp only [Machine.delivered]
    omega
  limit := by
    have := h.limit
    simp only [Machine.delivered]
    omega
  order := by
    simp only [Machine.delivered, outstanding, h.order, List.append_assoc]
  polling := h.polling
  fresh := fun s hs => h.fresh s (Finset.mem_of_mem_erase hs)

theorem Consistent.enter {m : Machine N} (h : m.Consistent) : m.enter.Consistent := by
  unfold Machine.enter
  split
  · exact h
  · rename_i hc
    simp only [Bool.or_eq_true, not_or, Bool.not_eq_true] at hc
    have hidle : m.control = .idle := by
      by_contra hne
      rw [h.polling.mpr hne] at hc
      exact absurd hc.1 (by decide)
    have hcom := h.committed
    have hord := h.order
    simp only [outstanding, hidle, Control.rest, List.nil_append] at hcom hord
    exact ⟨by simpa [outstanding, Control.rest] using hcom, h.reserved, h.limit,
      by simpa [outstanding, Control.rest] using hord, by simp, h.fresh⟩

theorem Consistent.start {m : Machine N} (h : m.Consistent) : m.start.Consistent := by
  unfold Machine.start
  split
  · rename_i n rest hc
    have hcom := h.committed
    have hord := h.order
    have hpol := h.polling
    have hlim := h.limit
    simp only [outstanding, hc, Control.rest] at hcom hord hpol
    refine ⟨?_, h.reserved, by simp only; omega, ?_, by simpa using hpol, h.fresh⟩
    · simp only [outstanding, Control.rest, hcom, List.cons_append, List.length_cons]
      push_cast
      omega
    · simp [outstanding, Control.rest, hord]
  · exact h

theorem Consistent.return_ {m : Machine N} (h : m.Consistent) : m.return_.Consistent := by
  unfold Machine.return_
  split
  · rename_i rest hc
    have hcom := h.committed
    have hord := h.order
    have hpol := h.polling
    simp only [outstanding, hc, Control.rest] at hcom hord hpol
    exact ⟨hcom, h.reserved, h.limit, hord, by simpa using hpol, h.fresh⟩
  · exact h

theorem Consistent.raise {m : Machine N} (h : m.Consistent) : m.raise.Consistent := by
  unfold Machine.raise
  split
  · rename_i rest hc
    have hcom := h.committed
    have hord := h.order
    simp only [outstanding, hc, Control.rest] at hcom hord
    exact ⟨by simpa [outstanding, Control.rest] using hcom, h.reserved, h.limit,
      by simpa [outstanding, Control.rest] using hord, by simp, h.fresh⟩
  · exact h

theorem Consistent.leave {m : Machine N} (h : m.Consistent) : m.leave.Consistent := by
  unfold Machine.leave
  split
  · rename_i hc
    have hcom := h.committed
    have hord := h.order
    simp only [outstanding, hc, Control.rest] at hcom hord
    exact ⟨by simpa [outstanding, Control.rest] using hcom, h.reserved, h.limit,
      by simpa [outstanding, Control.rest] using hord, by simp, h.fresh⟩
  · exact h

theorem Consistent.reserve {m : Machine N} (h : m.Consistent) :
    (finalState (Machine.reserve m)).Consistent := by
  by_cases hroom : m.HasRoom
  · rw [reserve_ok hroom]
    exact h.took hroom
  · rw [reserve_error hroom]
    exact h

theorem Consistent.commit {m : Machine N} (h : m.Consistent) (r : ReservationId) (n : N) :
    (finalState (Machine.commit r n m)).Consistent := by
  by_cases hr : r ∈ m.queue.active
  · rw [commit_ok hr]
    exact h.delivered hr n
  · rw [commit_error hr]
    exact h

theorem Consistent.step {m : Machine N} (h : m.Consistent) (l : QueueLabel N) :
    (m.step l).Consistent := by
  cases l with
  | reserve => exact h.reserve
  | commit r n => exact h.commit r n
  | drop r =>
    by_cases hr : r ∈ m.queue.active
    · rw [Machine.step, drop_active hr]
      exact h.released hr
    · rw [Machine.step, drop_inactive hr]
      exact h
  | push n =>
    by_cases hroom : m.HasRoom
    · rw [Machine.step, push_ok hroom]
      exact (h.took hroom).commit _ n
    · rw [Machine.step, push_error hroom]
      exact h
  | poll => exact h.enter
  | start => exact h.start
  | «return» => exact h.return_
  | raise => exact h.raise
  | leave => exact h.leave

theorem run_consistent (limit : Nat) (ls : List (QueueLabel N)) :
    (run step (new limit) ls).Consistent :=
  run_preserves (P := Consistent) (fun _ l h => h.step l) (new_consistent limit) ls

/-! ## Growth -/

/-- A later state of the same queue: the records only grow. -/
structure Grows (m m' : Machine N) : Prop where
  limit : m'.queue.limit = m.queue.limit
  commits : m.commits <+: m'.commits
  starts : m.starts <+: m'.starts

theorem Grows.refl (m : Machine N) : Grows m m :=
  ⟨rfl, List.prefix_refl _, List.prefix_refl _⟩

theorem Grows.trans {a b c : Machine N} (h₁ : Grows a b) (h₂ : Grows b c) : Grows a c :=
  ⟨h₂.limit.trans h₁.limit, h₁.commits.trans h₂.commits, h₁.starts.trans h₂.starts⟩

theorem took_grows (m : Machine N) : Grows m m.took :=
  ⟨rfl, List.prefix_refl _, List.prefix_refl _⟩

theorem reserve_grows (m : Machine N) : Grows m (finalState (reserve m)) := by
  by_cases hroom : m.HasRoom
  · rw [reserve_ok hroom]
    exact took_grows m
  · rw [reserve_error hroom]
    exact .refl m

theorem commit_grows (m : Machine N) (r : ReservationId) (n : N) :
    Grows m (finalState (commit r n m)) := by
  by_cases hr : r ∈ m.queue.active
  · rw [commit_ok hr]
    exact ⟨rfl, List.prefix_append _ _, List.prefix_refl _⟩
  · rw [commit_error hr]
    exact .refl m

theorem step_grows (m : Machine N) (l : QueueLabel N) : Grows m (m.step l) := by
  cases l with
  | reserve => exact reserve_grows m
  | commit r n => exact commit_grows m r n
  | drop r =>
    by_cases hr : r ∈ m.queue.active
    · rw [step, drop_active hr]
      exact ⟨rfl, List.prefix_refl _, List.prefix_refl _⟩
    · rw [step, drop_inactive hr]
      exact .refl m
  | push n =>
    by_cases hroom : m.HasRoom
    · rw [step, push_ok hroom]
      exact (took_grows m).trans (commit_grows _ _ n)
    · rw [step, push_error hroom]
      exact .refl m
  | poll =>
    rw [step, enter]
    split <;> exact ⟨rfl, List.prefix_refl _, List.prefix_refl _⟩
  | start =>
    rw [step, start]
    split
    · exact ⟨rfl, List.prefix_refl _, List.prefix_append _ _⟩
    · exact .refl m
  | «return» =>
    rw [step, return_]
    split <;> exact ⟨rfl, List.prefix_refl _, List.prefix_refl _⟩
  | raise =>
    rw [step, raise]
    split <;> exact ⟨rfl, List.prefix_refl _, List.prefix_refl _⟩
  | leave =>
    rw [step, leave]
    split <;> exact ⟨rfl, List.prefix_refl _, List.prefix_refl _⟩

theorem run_grows (m : Machine N) (ls : List (QueueLabel N)) : Grows m (run step m ls) :=
  run_relation Grows.refl Grows.trans step_grows m ls

/-- A poll of an idle queue starts the first outstanding callback. -/
theorem poll_starts {m : Machine N} (h : m.Consistent) (hidle : m.control = .idle) {n : N}
    {rest : List N} (hout : m.outstanding = n :: rest) :
    (run step m [.poll, .start]).starts = m.starts ++ [n] := by
  have hpend : m.queue.pending = n :: rest := by
    simpa [outstanding, hidle, Control.rest] using hout
  have hpol : m.queue.polling = false := by
    have := h.polling
    simpa [hidle] using this
  simp [run, step, enter, start, hpol, hpend, QueueState.hasPending]

/-- **The queue's accounts and order, in every state of every run.** A callback's own operations,
nested polls included, are steps of the run taken while the loop stands at `calling`. -/
theorem queue_accounts (limit : Nat) (ls : List (QueueLabel N)) :
    let m := run step (new limit : Machine N) ls
    m.queue.committed = m.outstanding.length ∧
    m.queue.reserved = m.queue.active.card ∧
    m.queue.committed + m.queue.reserved ≤ limit ∧
    m.commits = m.starts ++ m.outstanding ∧
    (∀ rest, m.control = .calling rest →
      m.raise.control = .idle ∧ m.raise.outstanding = rest ++ m.queue.pending ∧
      ∀ ls', ∃ later,
        (run step m.raise ls').starts ++ (run step m.raise ls').outstanding =
          m.starts ++ (rest ++ m.queue.pending ++ later)) ∧
    (∀ n rest, m.control = .idle → m.outstanding = n :: rest →
      (run step m [.poll, .start]).starts = m.starts ++ [n]) := by
  intro m
  have h : m.Consistent := run_consistent limit ls
  refine ⟨h.committed, h.reserved, ?_, h.order, fun rest hc => ?_,
    fun n rest hidle hout => poll_starts h hidle hout⟩
  · have hlim : m.queue.limit = limit := (run_grows (new limit) ls).limit
    have := h.limit
    rwa [hlim] at this
  · have hraise : m.raise.control = .idle ∧ m.raise.outstanding = rest ++ m.queue.pending ∧
        m.raise.starts = m.starts := by
      unfold raise
      simp [hc, outstanding, Control.rest]
    refine ⟨hraise.1, hraise.2.1, fun ls' => ?_⟩
    obtain ⟨later, hlater⟩ := (run_grows m.raise ls').commits
    have hend : (run step m.raise ls').Consistent :=
      run_preserves (P := Consistent) (fun _ l h => h.step l) h.raise ls'
    refine ⟨later, ?_⟩
    rw [← hend.order, ← hlater, h.raise.order, hraise.2.1, hraise.2.2, List.append_assoc]

/-! ## The steps of `poll` -/

/-- The operations a callback can perform on the queue. -/
def IsOperation : QueueLabel N → Prop
  | .reserve | .commit .. | .drop _ | .push _ | .poll => True
  | _ => False

/-- A callback touches the queue through its operations only. -/
def ActsBy (call : N → QueueState.M N Unit) : Prop :=
  ∀ n (m : Machine N), m.queue.polling = true →
    ∃ ls : List (QueueLabel N), (∀ l ∈ ls, IsOperation l) ∧
      (run step m ls).queue = finalState (call n m.queue)

/-- An operation inside a poll leaves the loop where it is. -/
theorem operation_control {m : Machine N} (hpol : m.queue.polling = true) {l : QueueLabel N}
    (hl : IsOperation l) :
    (m.step l).control = m.control ∧ (m.step l).queue.polling = true := by
  cases l with
  | reserve =>
    by_cases hroom : m.HasRoom
    · rw [step, reserve_ok hroom]
      exact ⟨rfl, hpol⟩
    · rw [step, reserve_error hroom]
      exact ⟨rfl, hpol⟩
  | commit r n =>
    by_cases hr : r ∈ m.queue.active
    · rw [step, commit_ok hr]
      exact ⟨rfl, hpol⟩
    · rw [step, commit_error hr]
      exact ⟨rfl, hpol⟩
  | drop r =>
    by_cases hr : r ∈ m.queue.active
    · rw [step, drop_active hr]
      exact ⟨rfl, hpol⟩
    · rw [step, drop_inactive hr]
      exact ⟨rfl, hpol⟩
  | push n =>
    by_cases hroom : m.HasRoom
    · have hr : m.queue.allocated ∈ m.took.queue.active := Finset.mem_insert_self _ _
      rw [step, push_ok hroom, commit_ok hr]
      exact ⟨rfl, hpol⟩
    · rw [step, push_error hroom]
      exact ⟨rfl, hpol⟩
  | poll =>
    have : m.enter = m := by simp [enter, hpol]
    rw [step, this]
    exact ⟨rfl, hpol⟩
  | start | «return» | raise | leave => exact hl.elim

theorem operations_control {ls : List (QueueLabel N)} :
    ∀ {m : Machine N}, m.queue.polling = true → (∀ l ∈ ls, IsOperation l) →
      (run step m ls).control = m.control ∧ (run step m ls).queue.polling = true := by
  induction ls with
  | nil => exact fun hpol _ => ⟨rfl, hpol⟩
  | cons l ls ih =>
    intro m hpol hls
    obtain ⟨hc, hp⟩ := operation_control hpol (hls l (by simp))
    obtain ⟨hc', hp'⟩ := ih hp fun l' hl' => hls l' (by simp [hl'])
    exact ⟨hc'.trans hc, hp'⟩

theorem start_of_ready {m : Machine N} {n : N} {rest : List N} (h : m.control = .ready (n :: rest)) :
    m.start =
      { m with
        queue := { m.queue with committed := m.queue.committed - 1 }
        control := .calling rest
        starts := m.starts ++ [n] } := by
  simp only [start, h]

theorem return_of_calling {m : Machine N} {rest : List N} (h : m.control = .calling rest) :
    m.return_ = { m with control := .ready rest } := by
  simp only [return_, h]

theorem raise_of_calling {m : Machine N} {rest : List N} (h : m.control = .calling rest) :
    m.raise =
      { m with
        queue := { m.queue with pending := rest ++ m.queue.pending, polling := false }
        control := .idle } := by
  simp only [raise, h]

/-- The loop over a batch, from its head to its end. -/
theorem runBatch_run {call : N → QueueState.M N Unit} (hcall : ActsBy call) :
    ∀ (batch : List N) (m : Machine N), m.control = .ready batch → m.queue.polling = true →
      ∃ ls, (run step m ls).control = .idle ∧
        (run step m ls).queue =
          { finalState (QueueState.runBatch call batch m.queue) with polling := false }
  | [], m, hc, _ => ⟨[.leave], by simp [run, step, leave, hc], by
      simp only [run, step, leave, hc]
      rfl⟩
  | n :: rest, m, hc, hpol => by
    have hstart := start_of_ready hc
    have hpol₁ : m.start.queue.polling = true := by rw [hstart]; exact hpol
    obtain ⟨ls, hops, hq⟩ := hcall n m.start hpol₁
    obtain ⟨hctl, hpol'⟩ := operations_control hpol₁ hops
    have hcalling : (run step m.start ls).control = .calling rest := by rw [hctl, hstart]
    have hbatch : QueueState.runBatch call (n :: rest) m.queue =
        match call n m.start.queue with
        | .ok _ q => QueueState.runBatch call rest q
        | .error e q => .error e { q with pending := rest ++ q.pending } := by
      rw [hstart]
      simp only [QueueState.runBatch, bind_run, modify_run, tryCatch_run]
      cases call n { m.queue with committed := m.queue.committed - 1 } <;> rfl
    cases hres : call n m.start.queue with
    | ok a q =>
      have hret := return_of_calling hcalling
      obtain ⟨ls', hidle, hq'⟩ := runBatch_run hcall rest (run step m.start ls).return_
        (by rw [hret]) (by rw [hret]; exact hpol')
      have hqueue : (run step m.start ls).return_.queue = q := by
        rw [hret, hq, hres]
        rfl
      refine ⟨.start :: ls ++ .return :: ls', ?_, ?_⟩
      · rw [run_append]
        exact hidle
      · rw [run_append, hbatch, hres]
        rw [hqueue] at hq'
        exact hq'
    | error e q =>
      have hraise := raise_of_calling hcalling
      refine ⟨.start :: ls ++ [.raise], ?_, ?_⟩
      · rw [run_append]
        show (run step m.start ls).raise.control = .idle
        rw [hraise]
      · rw [run_append, hbatch, hres]
        show (run step m.start ls).raise.queue = _
        rw [hraise, hq, hres]
        rfl

/-- **A call of `poll` is a run of the machine** whose callbacks act by the queue's operations. -/
theorem poll_run {call : N → QueueState.M N Unit} (hcall : ActsBy call) {m : Machine N}
    (hidle : m.control = .idle) (hpol : m.queue.polling = false) :
    ∃ ls, (run step m ls).control = .idle ∧
      (run step m ls).queue = finalState (QueueState.poll call m.queue) := by
  by_cases hpend : m.queue.hasPending = true
  · have henter : m.enter =
        { m with
          queue := { m.queue with polling := true, pending := [] }
          control := .ready m.queue.pending } := by
      simp [enter, hpol, hpend]
    obtain ⟨ls, hc, hq⟩ := runBatch_run hcall m.queue.pending m.enter (by rw [henter])
      (by rw [henter])
    have hcond : ¬ (m.queue.polling || !m.queue.hasPending) = true := by simp [hpol, hpend]
    have hpoll : QueueState.poll call m.queue =
        (do
          let _ ← tryFinally (QueueState.pollBatch call)
            (modify fun queue => { queue with polling := false })
          pure true : QueueState.M N Bool) { m.queue with polling := true } := by
      simp only [QueueState.poll, bind_run, get_run,
        if_neg hcond]
      rfl
    have hend : finalState (QueueState.poll call m.queue) =
        { finalState (QueueState.runBatch call m.queue.pending m.enter.queue) with
          polling := false } := by
      rw [hpoll, finalState_bind_pure, finalState_tryFinally, henter]
      rfl
    exact ⟨.poll :: ls, hc, by rw [hend]; exact hq⟩
  · have hcond : (m.queue.polling || !m.queue.hasPending) = true := by simp [hpol, hpend]
    refine ⟨[], hidle, ?_⟩
    simp only [QueueState.poll, bind_run, get_run,
      if_pos hcond, run_nil]
    rfl

end Machine

end TsonicNode.Internal
