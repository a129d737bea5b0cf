import TsonicNode.Lib.Run
import TsonicNode.Stream.NativeReadLedger

/-!
# The budget of reads in the background

The counters are the totals of what the jobs have, and what was taken within a
limit stays within it (`Kept`); so every run keeps the budget (`run_budget`).
-/

namespace TsonicNode.Stream.NativeRead

open TsonicNode.Lib

/-! ## What a job may have at once -/

namespace Expect.Met

variable {expect : Expect} {within beyond gave : Nat} (h : expect.Met within beyond gave)

include h

theorem once : gave ≤ within + beyond ∧ within + beyond ≤ 1 := by
  cases expect <;> simp only [Met] at h <;> omega

theorem held_le_seated (hexpect : expect ≠ .taken) : within + beyond - gave ≤ within - gave := by
  cases expect <;> simp only [Met] at h
  case taken => exact absurd rfl hexpect
  all_goals omega

theorem settled (hgave : 0 < gave) : expect = .settled := by
  cases expect <;> simp only [Met] at h
  case settled => rfl
  all_goals omega

theorem held_eq_zero (hexpect : expect = .untouched ∨ expect = .settled) : within + beyond - gave = 0 := by
  rcases hexpect with rfl | rfl <;> simp only [Met] at h <;> omega

end Expect.Met

theorem Job.seated_le_held (job : Job) (counter : Counter) : job.seated counter ≤ job.held counter := by
  simp only [Job.seated, Job.held]
  omega

section Seat

variable {completing owning : Release}

/-- The bytes go before the seat. -/
theorem gave_bytes (h : (completing.gave (.counted .liveReads) || owning.gave (.counted .liveReads)) = true) :
    (completing.gave (.counted .liveBytes) || owning.gave (.counted .liveBytes)) = true := by
  have hgave (release : Release) (h : release.gave (.counted .liveReads) = true) :
      release.gave (.counted .liveBytes) = true := by
    rcases release with _ | _ | _ | _ | _ | _ | _ <;> first | rfl | cases h
  simp only [Bool.or_eq_true] at h ⊢
  exact h.imp (hgave completing) (hgave owning)

/-- A side that has not let go keeps the seat. -/
theorem keeps_seat {references : Nat} (h : Parted .references owning references) :
    (Release.gave .references (.counted .liveReads) || owning.gave (.counted .liveReads)) = false := by
  cases h
  case lastCompleting hlast => exact absurd rfl hlast.1
  all_goals rfl

end Seat

theorem Job.bytes_seat (job : Job) : job.expect (.counted .liveReads) = .held ∨
    job.expect (.counted .liveBytes) = .untouched ∨ job.expect (.counted .liveBytes) = .settled := by
  rw [expect, expect]
  cases job.phase
  case failing | shared =>
    simp only [Phase.expect, live]
    split
    case isTrue hreads => exact .inr (.inr (if_pos (gave_bytes hreads)))
    case isFalse => exact .inl rfl
  all_goals first | exact .inl rfl | exact .inr (.inl rfl) | exact .inr (.inr rfl)

namespace Sound

variable {job : Job} (h : Sound job)

include h

theorem held_le_one (counter : Counter) : job.held counter ≤ 1 := by
  have := (h.expect (.counted counter)).once
  simp only [Job.held]
  omega

/-- Only a start that will give up has more than its seat. -/
theorem reads_le : job.held .liveReads ≤ job.seated .liveReads + job.calls := by
  by_cases hexpect : job.expect (.counted .liveReads) = .taken
  · have hcalls : job.calls = 1 := by
      revert hexpect
      rw [Job.expect, Job.calls]
      cases job.phase
      case giveReads => exact fun _ => rfl
      case failing | shared =>
        simp only [Phase.expect, live]
        split <;> intro hexpect <;> cases hexpect
      all_goals intro hexpect; cases hexpect
    have := h.held_le_one .liveReads
    omega
  · have := (h.expect _).held_le_seated hexpect
    simp only [Job.held, Job.seated]
    omega

theorem worker_seat : job.expect (.counted .liveReads) = .held ∨
    job.expect (.counted .waitingWorkers) = .untouched ∨ job.expect (.counted .waitingWorkers) = .settled := by
  have hparted := h.parted
  revert hparted
  rw [Job.expect, Job.expect]
  cases job.phase
  case shared completer owner =>
    intro hparted
    cases completer
    case queued => exact .inr (.inl rfl)
    case closing | readying | counting | releasing => exact .inr (.inr rfl)
    all_goals exact .inl (if_neg (Bool.eq_false_iff.mp (keeps_seat hparted)))
  all_goals
    intro _
    first | exact .inl rfl | exact .inr (.inl rfl) | exact .inr (.inr rfl)

/-- Who has bytes, or a worker, has a seat. -/
theorem held_le_seat {counter : Counter} (hcounter : counter ≠ .liveReads) :
    job.held counter ≤ job.seated .liveReads := by
  have hcases : job.expect (.counted .liveReads) = .held ∨ job.expect (.counted counter) = .untouched ∨
      job.expect (.counted counter) = .settled := by
    cases counter
    case liveReads => exact absurd rfl hcounter
    case liveBytes => exact job.bytes_seat
    case waitingWorkers => exact h.worker_seat
  rcases hcases with hheld | hnone
  · have hreads := h.expect (.counted .liveReads)
    rw [hheld] at hreads
    obtain ⟨hwithin, -, hgave⟩ := hreads
    have := h.held_le_one counter
    rw [Job.seated, hwithin, hgave]
    exact this
  · rw [Job.held, (h.expect _).held_eq_zero hnone]
    exact Nat.zero_le _

end Sound

/-! ## Runs -/

/-- The counters are what the jobs have, and what they have within a limit fits. -/
structure Kept (state : State) : Prop where
  sound : ∀ job ∈ state.jobs, Sound job
  counters : ∀ counter, state.shared.counters counter =
    total (fun job => job.worth counter * job.held counter) state.jobs % counter.width
  seats : ∀ counter, total (fun job => job.worth counter * job.seated counter) state.jobs ≤ counter.limit
  calls : total Job.calls state.jobs ≤ threads

/-- No counter wraps. -/
theorem Kept.total_lt {state : State} (h : Kept state) (counter : Counter) :
    total (fun job => job.worth counter * job.held counter) state.jobs < counter.width := by
  have hseats : total (fun job => job.seated .liveReads) state.jobs ≤ streamReadLimit := by
    simpa only [Job.worth, Nat.one_mul, Counter.limit] using h.seats .liveReads
  cases counter
  case liveReads =>
    have hle : total (fun job => job.worth .liveReads * job.held .liveReads) state.jobs ≤
        total (fun job => job.seated .liveReads + job.calls) state.jobs :=
      total_le fun job hjob => by simpa only [Job.worth, Nat.one_mul] using (h.sound job hjob).reads_le
    have hcalls := h.calls
    rw [total_add] at hle
    simp only [Counter.width, streamReadLimit, threads] at *
    omega
  case liveBytes =>
    have hle : total (fun job => job.worth .liveBytes * job.held .liveBytes) state.jobs ≤
        total (fun job => streamReadChunk * job.seated .liveReads) state.jobs :=
      total_le fun job hjob => Nat.mul_le_mul job.size_le ((h.sound job hjob).held_le_seat (by simp))
    rw [total_mul] at hle
    simp only [Counter.width, streamReadLimit, streamReadChunk] at *
    omega
  case waitingWorkers =>
    have hle : total (fun job => job.worth .waitingWorkers * job.held .waitingWorkers) state.jobs ≤
        total (fun job => job.seated .liveReads) state.jobs :=
      total_le fun job hjob => by
        have := (h.sound job hjob).held_le_seat (show Counter.waitingWorkers ≠ .liveReads by simp)
        simpa only [Job.worth, Nat.one_mul] using this
    simp only [Counter.width, streamReadLimit] at *
    omega

theorem Job.worth_le_width (job : Job) (counter : Counter) : job.worth counter ≤ counter.width := by
  have := job.size_le
  cases counter <;> simp only [worth, Counter.width, streamReadChunk] at * <;> omega

/-- A step of a party of one job. -/
theorem Kept.advance {state : State} (h : Kept state) (index : Nat) {work : View → View}
    (hwork : ∀ view : View, Sound view.job → Moves view (work view))
    (hcalls : ∀ view : View, (work view).job.calls ≤ view.job.calls) : Kept (state.advance index work) := by
  unfold State.advance
  split
  case h_2 => exact h
  case h_1 job hjob =>
    have hmem : job ∈ state.jobs := List.mem_of_getElem? hjob
    have hmoves := hwork { shared := state.shared, job } (h.sound job hmem)
    have hcalls := hcalls { shared := state.shared, job }
    generalize work { shared := state.shared, job } = other at hmoves hcalls
    have hworth (counter : Counter) : other.job.worth counter = job.worth counter := by
      cases counter
      case liveBytes => exact congrArg Arguments.size hmoves.arguments
      all_goals rfl
    have hcount (counter : Counter) : state.shared.counters counter =
        total (fun job => job.worth counter * job.held counter) state.jobs := by
      rw [h.counters, Nat.mod_eq_of_lt (h.total_lt counter)]
    refine ⟨fun found hfound => ?_, fun counter => ?_, fun counter => ?_, ?_⟩
    · rcases List.mem_or_eq_of_mem_set hfound with hfound | rfl
      · exact h.sound found hfound
      · exact hmoves.sound
    · have hset := total_set (f := fun job => job.worth counter * job.held counter) hjob other.job
      have hwidth := job.worth_le_width counter
      have hcount := hcount counter
      simp only [hworth] at hset
      rcases hmoves.shift counter with ⟨hcounter, hheld, -⟩ | ⟨hcounter, hheld, -⟩ | ⟨hcounter, hheld, -⟩ <;>
        simp only at hcounter hheld ⊢
      · rw [hheld] at hset
        rw [hcounter, h.counters, Nat.add_right_cancel hset]
      · rw [hheld, Nat.mul_succ] at hset
        rw [hcounter, hcount]
        congr 1
        omega
      · rw [hheld, Nat.mul_succ] at hset
        rw [hcounter, hcount, ← Nat.add_mod_right (total _ _)]
        congr 1
        omega
    · have hset := total_set (f := fun job => job.worth counter * job.seated counter) hjob other.job
      have hcount := hcount counter
      have hseats := h.seats counter
      have hle : total (fun job => job.worth counter * job.seated counter) state.jobs ≤
          total (fun job => job.worth counter * job.held counter) state.jobs :=
        total_le fun job _ => Nat.mul_le_mul_left _ (job.seated_le_held counter)
      simp only [hworth] at hset
      rcases hmoves.shift counter with ⟨-, -, hseated⟩ | ⟨-, -, hseated | ⟨hseated, hlimit⟩⟩ | ⟨-, -, hseated⟩ <;>
        simp only at hseated ⊢
      · rw [hseated] at hset
        omega
      · rw [hseated] at hset
        omega
      · rw [hseated, Nat.mul_succ] at hset
        simp only at hlimit
        omega
      · have := Nat.mul_le_mul_left (job.worth counter) hseated
        omega
    · have := total_set (f := Job.calls) hjob other.job
      have := h.calls
      simp only at *
      omega

/-! ### Threads in a start -/

theorem Job.calls_le {job other : Job} (h : job.phase.underway = false → other.phase.underway = false) :
    other.calls ≤ job.calls := by
  rw [calls, calls]
  by_cases hjob : job.phase.underway = true
  · rw [if_pos hjob]
    split
    · exact Nat.le_refl 1
    · exact Nat.zero_le 1
  · rw [h (Bool.eq_false_iff.mpr hjob)]
    exact Nat.zero_le _

theorem startStep_calls (index : Nat) (answer : Answer) (view : View) :
    (startStep index answer view).job.calls ≤ view.job.calls := by
  refine Job.calls_le fun hdone => ?_
  cases hphase : view.job.phase <;> rw [hphase] at hdone <;> simp only [startStep, hphase]
  case failing first second =>
    cases second
    case gone last => cases first <;> rfl
    all_goals cases hdone
  case shared completer owner =>
    cases owner
    case starting => cases hdone
    all_goals rw [hphase]; exact hdone
  case refused => exact hdone
  all_goals cases hdone

/-- A step of another party leaves the start where it is. -/
theorem calls_of_shared {view other : View} {completer completer' : Completer} {owner owner' : Owner}
    (hphase : view.job.phase = .shared completer owner) (hphase' : other.job.phase = .shared completer' owner')
    (howner : (Phase.shared completer owner).underway = false → (Phase.shared completer' owner').underway = false) :
    other.job.calls ≤ view.job.calls :=
  Job.calls_le (by rw [hphase, hphase']; exact howner)

theorem completeStep_calls (index : Nat) (answer : Answer) (view : View) :
    (completeStep index answer view).job.calls ≤ view.job.calls := by
  cases hphase : view.job.phase <;> simp only [completeStep, hphase]
  case shared completer owner =>
    have hcalls {other : View} {completer' : Completer} (h : other.job.phase = .shared completer' owner) :
        other.job.calls ≤ view.job.calls := calls_of_shared hphase h id
    repeat' split
    all_goals first | exact Nat.le_refl _ | exact hcalls rfl
  all_goals exact Nat.le_refl _

theorem dropStep_calls (index : Nat) (view : View) : (dropStep index view).job.calls ≤ view.job.calls := by
  cases hphase : view.job.phase <;> simp only [dropStep, hphase]
  case shared completer owner =>
    cases owner
    case starting => exact Nat.le_refl _
    case locking =>
      simp only
      split
      · exact calls_of_shared hphase rfl id
      · exact Nat.le_refl _
    all_goals exact calls_of_shared hphase rfl id
  all_goals exact Nat.le_refl _

/-! ### The invariant -/

theorem sound_new (arguments : Arguments) (accepted : arguments.accepted = true) : Sound { arguments, accepted } :=
  ⟨fun _ => ⟨rfl, rfl, rfl⟩, .both, fun side => by cases side <;> rfl⟩

theorem Kept.step {state : State} (h : Kept state) (move : Move) : Kept (state.step move) := by
  cases move
  case call arguments =>
    simp only [State.step]
    split
    case isFalse => exact h
    case isTrue accepted =>
      split
      case isFalse => exact h
      case isTrue hthreads =>
        refine ⟨fun job hjob => ?_, fun counter => ?_, fun counter => ?_, ?_⟩
        · rcases List.mem_append.mp hjob with hjob | hjob
          · exact h.sound job hjob
          · rw [List.mem_singleton.mp hjob]
            exact sound_new arguments accepted
        · simp only [total_append, total_cons, total_nil]
          exact h.counters counter
        · simp only [total_append, total_cons, total_nil]
          exact h.seats counter
        · simp only [total_append, total_cons, total_nil]
          exact hthreads.2
  case start index answer =>
    exact h.advance index (fun _ => startStep_moves index answer) (startStep_calls index answer)
  case complete index answer =>
    exact h.advance index (fun _ => completeStep_moves index answer) (completeStep_calls index answer)
  case drop index => exact h.advance index (fun _ => dropStep_moves index) (dropStep_calls index)
  case lockLoop =>
    simp only [State.step]
    split
    · exact ⟨h.sound, h.counters, h.seats, h.calls⟩
    · exact h
  case unlockLoop =>
    simp only [State.step]
    split
    · exact ⟨h.sound, h.counters, h.seats, h.calls⟩
    · exact h

theorem run_kept (status : Int) (moves : List Move) : Kept (run State.step { status } moves) :=
  run_preserves (P := Kept) (fun _ move h => h.step move)
    ⟨fun _ hjob => absurd hjob List.not_mem_nil, fun _ => (Nat.zero_mod _).symm, fun _ => Nat.zero_le _,
      Nat.zero_le _⟩ moves

/-! ## The budget -/

/-- How many times the job took the thing. -/
def Job.took (job : Job) (thing : Thing) : Nat := job.within thing + job.beyond thing

/-- What the job has of a counter, admitted and not yet given back. -/
def Job.admitted (counter : Counter) (job : Job) : Nat :=
  if .took (.counted counter) true ∈ job.log ∧ .gave (.counted counter) ∉ job.log then job.worth counter else 0

/-- The start gave up, or both sides are through. -/
def Phase.finished : Phase → Bool
  | .refused => true
  | .failing first second => first.through && second.through
  | .shared completer owner => completer.release.through && owner.release.through
  | _ => false

/-- Each thing is given back at most once, all of them in the end, and the memory after both sides let go. -/
structure Accounted (job : Job) : Prop where
  once : ∀ thing, job.gave thing ≤ job.took thing ∧ job.took thing ≤ 1
  finished : job.phase.finished = true → ∀ thing, job.gave thing = job.took thing
  freed : .gave .buffer ∈ job.log ∨ .gave .request ∈ job.log → ∀ side, .letGo side ∈ job.log

/-- Two sides that are through gave everything back. -/
theorem live_finished {completing owning : Release} {references : Nat} (h : Parted completing owning references)
    (hcompleting : completing.through = true) (howning : owning.through = true) (bytes : Bool) (thing : Thing) :
    live .settled .settled bytes completing owning thing = .untouched ∨
      live .settled .settled bytes completing owning thing = .settled := by
  have hlast {release : Release} (hthrough : release.through = true)
      (hlast : release ≠ .references ∧ release ≠ .gone false) : release = .gone true := by
    rcases release with _ | _ | _ | _ | _ | _ | _
    case gone.false => exact absurd rfl hlast.2
    case gone.true => rfl
    all_goals cases hthrough
  cases h
  case both | owning => cases howning
  case completing => cases hcompleting
  case lastCompleting h =>
    obtain rfl := hlast hcompleting h
    rcases thing with (_ | _ | _) | _ | _ | _ <;> cases bytes <;> first | exact .inl rfl | exact .inr rfl
  case lastOwning h =>
    obtain rfl := hlast howning h
    rcases thing with (_ | _ | _) | _ | _ | _ <;> cases bytes <;> first | exact .inl rfl | exact .inr rfl

/-- The memory is only given back by a side that let go last. -/
theorem live_freed {worker descriptor : Expect} {bytes : Bool} {completing owning : Release} {references : Nat}
    (h : Parted completing owning references) {thing : Thing} (hthing : thing = .buffer ∨ thing = .request)
    (hlive : live worker descriptor bytes completing owning thing = .settled) :
    completing ≠ .references ∧ owning ≠ .references := by
  have hgave : (completing.gave thing || owning.gave thing) = true := by
    rcases hthing with rfl | rfl <;> simp only [live] at hlive <;> grind
  cases h
  case both | owning | completing => rcases hthing with rfl | rfl <;> cases hgave
  case lastCompleting h => exact ⟨h.1, by simp⟩
  case lastOwning h => exact ⟨by simp, h.1⟩

theorem Sound.accounted {job : Job} (h : Sound job) : Accounted job := by
  refine ⟨fun thing => (h.expect thing).once, fun hfinished thing => ?_, fun hfreed side => ?_⟩
  · have hexpect : job.expect thing = .untouched ∨ job.expect thing = .settled := by
      have hparted := h.parted
      revert hparted hfinished
      rw [Job.expect]
      cases job.phase
      case refused =>
        intro _ _
        rcases thing with (_ | _ | _) | _ | _ | _ <;> first | exact .inl rfl | exact .inr rfl
      case failing first second =>
        intro hfinished hparted
        obtain ⟨hfirst, hsecond⟩ := Bool.and_eq_true_iff.mp hfinished
        exact live_finished hparted hfirst hsecond job.bytes thing
      case shared completer owner =>
        intro hfinished hparted
        obtain ⟨hcompleting, howning⟩ := Bool.and_eq_true_iff.mp hfinished
        cases completer
        case releasing release => exact live_finished hparted hcompleting howning job.bytes thing
        all_goals cases hcompleting
      all_goals intro hfinished; cases hfinished
    have hmet := h.expect thing
    rcases hexpect with hexpect | hexpect <;> rw [hexpect] at hmet <;> simp only [Expect.Met] at hmet <;>
      simp only [Job.took] <;> omega
  · have hthing : ∃ thing, (thing = .buffer ∨ thing = .request) ∧ .gave thing ∈ job.log := by
      rcases hfreed with hfreed | hfreed
      · exact ⟨.buffer, .inl rfl, hfreed⟩
      · exact ⟨.request, .inr rfl, hfreed⟩
    obtain ⟨thing, hthing, hgave⟩ := hthing
    have hexpect : job.expect thing = .settled := (h.expect thing).settled (List.count_pos_iff.mpr hgave)
    have hrelease : job.phase.release side ≠ .references := by
      have hparted := h.parted
      revert hparted hexpect
      rw [Job.expect]
      cases job.phase
      case failing first second =>
        intro hexpect hparted
        have hfreed := live_freed hparted hthing hexpect
        cases side
        · exact hfreed.1
        · exact hfreed.2
      case shared completer owner =>
        intro hexpect hparted
        have hfreed := live_freed hparted hthing hexpect
        cases side
        · exact hfreed.1
        · exact hfreed.2
      case takeReads | takeBytes | giveBytes | giveReads | allocate | refused =>
        rcases hthing with rfl | rfl <;> intro hexpect <;> cases hexpect
      all_goals exact fun hexpect _ => absurd rfl (live_freed .both hthing hexpect).1
    rw [← List.count_pos_iff, h.letGo side, if_neg hrelease]
    exact Nat.one_pos

theorem Job.admitted_le (job : Job) (counter : Counter) :
    job.admitted counter ≤ job.worth counter * job.seated counter := by
  simp only [admitted]
  split
  case isTrue htook =>
    have hwithin : 0 < job.within (.counted counter) := List.count_pos_iff.mpr htook.1
    have hgave : job.gave (.counted counter) = 0 := List.count_eq_zero.mpr htook.2
    exact Nat.le_mul_of_pos_right _ (by simp only [seated]; omega)
  case isFalse => exact Nat.zero_le _

/-! ## A party gets through -/

/-- The steps of `release_read` that are left, at most. -/
def Release.steps : Release → Nat
  | .references => 5
  | .liveBytes => 4
  | .liveReads => 3
  | .bytes => 2
  | .request => 1
  | .gone _ => 0

/-- Who makes a step. -/
inductive Party
  | start
  | completer
  | owner
  deriving DecidableEq

def Completer.left : Completer → Option Nat
  | .releasing release => some release.steps
  | _ => none

def Owner.left : Owner → Option Nat
  | .releasing release => some release.steps
  | _ => none

/-- The steps that a party in `release_read` has left, at most. -/
def Phase.left : Phase → Party → Option Nat
  | .failing first second, .start => some (first.steps + second.steps)
  | .shared completer _, .completer => completer.left
  | .shared _ owner, .owner => owner.left
  | _, _ => none

/-- Whose step a move is, and of which job. -/
def Move.party : Move → Option (Party × Nat)
  | .start index _ => some (.start, index)
  | .complete index _ => some (.completer, index)
  | .drop index => some (.owner, index)
  | _ => none

theorem steps_release (view : View) (side : Side) (release : Release) :
    (view.releaseRead side release).2.steps ≤ release.steps - 1 := by
  rw [releaseRead_next]
  cases release with
  | references =>
    unfold Release.next
    split_ifs
    · exact Nat.le_refl 4
    · exact Nat.zero_le 4
  | _ => exact Nat.le_refl _

/-! ### One step -/

section Left

variable {view : View} {party : Party} {left : Nat}

theorem startStep_failing (index : Nat) (answer : Answer) {first second : Release}
    (hphase : view.job.phase = .failing first second) :
    ∃ first' second', (startStep index answer view).job.phase = .failing first' second' ∧
      first'.steps + second'.steps ≤ first.steps + second.steps - 1 := by
  have hmore : ∀ release : Release, release.steps ≠ 0 →
      (view.releaseRead .completing release).2.steps + second.steps ≤ release.steps + second.steps - 1 := by
    intro release hne
    have hsteps := steps_release view .completing release
    omega
  unfold startStep
  rw [hphase]
  cases first with
  | gone last =>
    refine ⟨.gone last, (view.releaseRead .owning second).2, rfl, ?_⟩
    rw [show (Release.gone last).steps = 0 from rfl, Nat.zero_add, Nat.zero_add]
    exact steps_release view .owning second
  | references => exact ⟨(view.releaseRead .completing .references).2, second, rfl, hmore _ (by decide)⟩
  | liveBytes => exact ⟨(view.releaseRead .completing .liveBytes).2, second, rfl, hmore _ (by decide)⟩
  | liveReads => exact ⟨(view.releaseRead .completing .liveReads).2, second, rfl, hmore _ (by decide)⟩
  | bytes => exact ⟨(view.releaseRead .completing .bytes).2, second, rfl, hmore _ (by decide)⟩
  | request => exact ⟨(view.releaseRead .completing .request).2, second, rfl, hmore _ (by decide)⟩

/-- A point with no step of its own left. -/
theorem not_left {P : Prop} (h : (none : Option Nat) = some left) : P := by cases h

theorem startStep_shared (index : Nat) (answer : Answer) {completer : Completer} {owner : Owner}
    (hphase : view.job.phase = .shared completer owner) :
    ∃ owner', (startStep index answer view).job.phase = .shared completer owner' ∧
      (owner.left = some left → owner'.left = some left) := by
  unfold startStep
  rw [hphase]
  cases owner with
  | starting => exact ⟨.holding, rfl, not_left⟩
  | holding | locking | cancelling | unlocking | releasing => exact ⟨_, hphase, id⟩

theorem completeStep_shared (index : Nat) (answer : Answer) {completer : Completer} {owner : Owner}
    (hphase : view.job.phase = .shared completer owner) :
    ∃ completer', (completeStep index answer view).job.phase = .shared completer' owner ∧
      (completer.left = some left → ∃ left', completer'.left = some left' ∧ left' ≤ left - 1) := by
  simp only [completeStep, hphase]
  cases completer with
  | releasing release =>
    refine ⟨.releasing (view.releaseRead .completing release).2, rfl, ?_⟩
    rintro ⟨⟩
    exact ⟨_, rfl, steps_release view .completing release⟩
  | _ =>
    repeat' split
    all_goals first | exact ⟨_, rfl, not_left⟩ | exact ⟨_, hphase, not_left⟩

theorem dropStep_shared (index : Nat) {completer : Completer} {owner : Owner}
    (hphase : view.job.phase = .shared completer owner) :
    ∃ owner', (dropStep index view).job.phase = .shared completer owner' ∧
      (owner.left = some left → ∃ left', owner'.left = some left' ∧ left' ≤ left - 1) := by
  simp only [dropStep, hphase]
  cases owner with
  | releasing release =>
    refine ⟨.releasing (view.releaseRead .owning release).2, rfl, ?_⟩
    rintro ⟨⟩
    exact ⟨_, rfl, steps_release view .owning release⟩
  | _ =>
    repeat' split
    all_goals first | exact ⟨_, rfl, not_left⟩ | exact ⟨_, hphase, not_left⟩

theorem startStep_left (index : Nat) (answer : Answer) (h : view.job.phase.left party = some left) :
    ∃ left', (startStep index answer view).job.phase.left party = some left' ∧
      left' ≤ if party = .start then left - 1 else left := by
  cases hphase : view.job.phase with
  | failing first second =>
    obtain ⟨first', second', hnext, hsteps⟩ := startStep_failing index answer hphase
    rw [hphase] at h
    rw [hnext]
    cases party with
    | start =>
      cases h
      exact ⟨_, rfl, hsteps⟩
    | completer => cases h
    | owner => cases h
  | shared completer owner =>
    obtain ⟨owner', hnext, howner⟩ := @startStep_shared _ left index answer _ _ hphase
    rw [hphase] at h
    rw [hnext]
    cases party with
    | start => cases h
    | completer => exact ⟨left, h, Nat.le_refl _⟩
    | owner => exact ⟨left, howner h, Nat.le_refl _⟩
  | _ =>
    rw [hphase] at h
    cases h

theorem completeStep_left (index : Nat) (answer : Answer) (h : view.job.phase.left party = some left) :
    ∃ left', (completeStep index answer view).job.phase.left party = some left' ∧
      left' ≤ if party = .completer then left - 1 else left := by
  cases hphase : view.job.phase with
  | shared completer owner =>
    obtain ⟨completer', hnext, hcompleter⟩ := @completeStep_shared _ left index answer _ _ hphase
    rw [hphase] at h
    rw [hnext]
    cases party with
    | start => cases h
    | completer => exact hcompleter h
    | owner => exact ⟨left, h, Nat.le_refl _⟩
  | failing first second =>
    have hsame : completeStep index answer view = view := by
      unfold completeStep
      rw [hphase]
    rw [hsame]
    refine ⟨left, h, ?_⟩
    rw [hphase] at h
    cases party with
    | start => exact Nat.le_refl _
    | completer => cases h
    | owner => cases h
  | _ =>
    rw [hphase] at h
    cases h

theorem dropStep_left (index : Nat) (h : view.job.phase.left party = some left) :
    ∃ left', (dropStep index view).job.phase.left party = some left' ∧
      left' ≤ if party = .owner then left - 1 else left := by
  cases hphase : view.job.phase with
  | shared completer owner =>
    obtain ⟨owner', hnext, howner⟩ := @dropStep_shared _ left index _ _ hphase
    rw [hphase] at h
    rw [hnext]
    cases party with
    | start => cases h
    | completer => exact ⟨left, h, Nat.le_refl _⟩
    | owner => exact howner h
  | failing first second =>
    have hsame : dropStep index view = view := by
      unfold dropStep
      rw [hphase]
    rw [hsame]
    refine ⟨left, h, ?_⟩
    rw [hphase] at h
    cases party with
    | start => exact Nat.le_refl _
    | completer => cases h
    | owner => cases h
  | _ =>
    rw [hphase] at h
    cases h

end Left

/-! ### Runs -/

section

variable {state : State} {index : Nat} {job : Job} {party : Party} {left : Nat}

/-- A job is where its own parties bring it. -/
theorem advance_left (hjob : state.jobs[index]? = some job) (hleft : job.phase.left party = some left)
    (moved : Nat) {work : View → View} (own : Party) (hwork : ∀ {view : View}, view.job.phase.left party = some left →
      ∃ left', (work view).job.phase.left party = some left' ∧ left' ≤ if party = own then left - 1 else left) :
    ∃ job' left', (state.advance moved work).jobs[index]? = some job' ∧ job'.phase.left party = some left' ∧
      left' ≤ if (some (own, moved) == some (party, index)) = true then left - 1 else left := by
  unfold State.advance
  by_cases hmoved : moved = index
  · subst hmoved
    rw [hjob]
    dsimp only
    have hview : (View.mk state.shared job).job.phase.left party = some left := hleft
    obtain ⟨left', hnext, hle⟩ := hwork hview
    refine ⟨_, left', List.getElem?_set_self (List.getElem?_eq_some_iff.mp hjob).1, hnext, ?_⟩
    have hown : (some (own, moved) == some (party, moved)) = true ↔ party = own := by
      rw [beq_iff_eq, Option.some.injEq, Prod.mk.injEq, and_iff_left rfl]
      exact eq_comm
    rw [if_congr hown rfl rfl]
    exact hle
  · have hkept : ∀ {job' : Job}, (state.jobs.set moved job')[index]? = some job :=
      (List.getElem?_set_ne hmoved).trans hjob
    have hnot : ¬ (some (own, moved) == some (party, index)) = true := by simp [hmoved]
    rw [if_neg hnot]
    cases state.jobs[moved]? with
    | none => exact ⟨job, left, hjob, hleft, Nat.le_refl _⟩
    | some other => exact ⟨job, left, hkept, hleft, Nat.le_refl _⟩

theorem State.step_left (hjob : state.jobs[index]? = some job) (hleft : job.phase.left party = some left) (move : Move) :
    ∃ job' left', (state.step move).jobs[index]? = some job' ∧ job'.phase.left party = some left' ∧
      left' ≤ if (move.party == some (party, index)) = true then left - 1 else left := by
  cases move with
  | call arguments =>
    refine ⟨job, left, ?_, hleft, Nat.le_refl _⟩
    unfold State.step
    dsimp only
    split_ifs
    · exact (List.getElem?_append_left (List.getElem?_eq_some_iff.mp hjob).1).trans hjob
    · exact hjob
    · exact hjob
  | start moved answer => exact advance_left hjob hleft moved .start fun h => startStep_left moved answer h
  | complete moved answer => exact advance_left hjob hleft moved .completer fun h => completeStep_left moved answer h
  | drop moved => exact advance_left hjob hleft moved .owner fun h => dropStep_left moved h
  | lockLoop =>
    refine ⟨job, left, ?_, hleft, Nat.le_refl _⟩
    unfold State.step
    dsimp only
    split_ifs <;> exact hjob
  | unlockLoop =>
    refine ⟨job, left, ?_, hleft, Nat.le_refl _⟩
    unfold State.step
    dsimp only
    split_ifs <;> exact hjob

/-- Whatever the others do, a party needs only its own steps. -/
theorem run_left (hjob : state.jobs[index]? = some job) (hleft : job.phase.left party = some left) (moves : List Move) :
    ∃ job' left', (run State.step state moves).jobs[index]? = some job' ∧ job'.phase.left party = some left' ∧
      left' ≤ left - moves.countP fun move => move.party == some (party, index) := by
  induction moves generalizing state job left with
  | nil => exact ⟨job, left, hjob, hleft, Nat.le_refl _⟩
  | cons move moves ih =>
    obtain ⟨job', left', hjob', hleft', hle⟩ := State.step_left hjob hleft move
    obtain ⟨last, left'', hlast, hend, hle'⟩ := ih hjob' hleft'
    refine ⟨last, left'', hlast, hend, Nat.le_trans hle' ?_⟩
    rw [List.countP_cons]
    split_ifs at hle ⊢ <;> omega

end

/--
The jobs never have more than the limits admit, each gives back what it took, and when all are
through the counters are where they began. A party that releases gets through by its own steps.
-/
theorem run_budget (status : Int) (moves : List Move) :
    let state := run State.step { status } moves
    (∀ counter, total (Job.admitted counter) state.jobs ≤ counter.limit) ∧ (∀ job ∈ state.jobs, Accounted job) ∧
      ((∀ job ∈ state.jobs, job.phase.finished = true) → ∀ counter, state.shared.counters counter = 0) ∧
      ∀ index job party left, state.jobs[index]? = some job → job.phase.left party = some left →
        ∀ more : List Move, left ≤ more.countP (fun move => move.party == some (party, index)) →
          ∃ job', (run State.step state more).jobs[index]? = some job' ∧ job'.phase.left party = some 0 := by
  have h := run_kept status moves
  refine ⟨fun counter => ?_, fun job hjob => (h.sound job hjob).accounted, fun hfinished counter => ?_,
    fun index job party left hjob hleft more hmore => ?_⟩
  · exact Nat.le_trans (total_le fun job _ => job.admitted_le counter) (h.seats counter)
  · rw [h.counters, total_eq_zero fun job hjob => ?_, Nat.zero_mod]
    have hgave := (h.sound job hjob).accounted.finished (hfinished job hjob) (.counted counter)
    rw [Job.held, ← Job.took, hgave, Nat.sub_self, Nat.mul_zero]
  · obtain ⟨job', left', hjob', hleft', hle⟩ := run_left hjob hleft more
    obtain rfl : left' = 0 := by omega
    exact ⟨job', hjob', hleft'⟩

end TsonicNode.Stream.NativeRead
