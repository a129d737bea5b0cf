import TsonicNode.Stream.NativeRead

/-!
# What a background read has taken

Where a job is says what it has taken and given back by then (`Job.expect`,
`Sound`). A step of a party moves a job by at most one such event, and a counter
by the same amount (`Moves`).
-/

namespace TsonicNode.Stream.NativeRead

/-! ## What a job has -/

namespace Job

def within (job : Job) (thing : Thing) : Nat := job.log.count (.took thing true)

def beyond (job : Job) (thing : Thing) : Nat := job.log.count (.took thing false)

def gave (job : Job) (thing : Thing) : Nat := job.log.count (.gave thing)

/-- Whether a share of the counter was taken and not yet given back. -/
def held (job : Job) (counter : Counter) : Nat :=
  job.within (.counted counter) + job.beyond (.counted counter) - job.gave (.counted counter)

/-- The same of a share within the limit. -/
def seated (job : Job) (counter : Counter) : Nat := job.within (.counted counter) - job.gave (.counted counter)

end Job

/-- What is to be found in the log about a thing. -/
inductive Expect
  | untouched
  /-- Taken, within the limit or beyond it. -/
  | taken
  | held
  /-- All that was taken was given back. -/
  | settled
  deriving DecidableEq

def Expect.Met : Expect → Nat → Nat → Nat → Prop
  | .untouched, within, beyond, gave => within = 0 ∧ beyond = 0 ∧ gave = 0
  | .taken, within, beyond, gave => within + beyond = 1 ∧ gave = 0
  | .held, within, beyond, gave => within = 1 ∧ beyond = 0 ∧ gave = 0
  | .settled, within, beyond, gave => within + beyond = gave ∧ gave ≤ 1

/-- A side with this release gave the thing back. -/
def Release.gave : Release → Thing → Bool
  | .liveReads, .counted .liveBytes => true
  | .bytes, .counted .liveBytes | .bytes, .counted .liveReads => true
  | .request, .request => false
  | .request, _ | .gone true, _ => true
  | _, _ => false

/-- A request with two sides, by their releases. -/
def live (worker descriptor : Expect) (bytes : Bool) (completing owning : Release) (thing : Thing) : Expect :=
  match thing with
  | .counted .waitingWorkers => worker
  | .descriptor => descriptor
  | .buffer =>
    if bytes then (if completing.gave .buffer || owning.gave .buffer then .settled else .held) else .untouched
  | thing => if completing.gave thing || owning.gave thing then .settled else .held

namespace Completer

def worker : Completer → Expect
  | .queued => .untouched
  | .flags | .checking _ | .polling | .rechecking _ | .reading _ | .leaving _ => .held
  | _ => .settled

def descriptor : Completer → Expect
  | .readying | .counting | .releasing _ => .settled
  | _ => .held

def release : Completer → Release
  | .releasing release => release
  | _ => .references

end Completer

def Owner.release : Owner → Release
  | .releasing release => release
  | _ => .references

namespace Phase

def release : Phase → Side → Release
  | .failing first _, .completing => first
  | .failing _ second, .owning => second
  | .shared completer _, .completing => completer.release
  | .shared _ owner, .owning => owner.release
  | _, _ => .references

/-- `descriptor` and `bytes` are the fields of the request. -/
def expect (descriptor bytes : Bool) : Phase → Thing → Expect
  | .takeReads, _ => .untouched
  | .takeBytes, .counted .liveReads => .held
  | .giveBytes, .counted .liveReads => .held
  | .giveBytes, .counted .liveBytes => .taken
  | .giveReads, .counted .liveReads => .taken
  | .giveReads, .counted .liveBytes => .settled
  | .allocate, .counted .liveReads | .allocate, .counted .liveBytes => .held
  | .refused, .counted .liveReads | .refused, .counted .liveBytes => .settled
  | .takeBytes, _ | .giveBytes, _ | .giveReads, _ | .allocate, _ | .refused, _ => .untouched
  | .duplicate, thing => live .untouched .untouched false .references .references thing
  | .allocateBytes, thing =>
    live .untouched (if descriptor then .held else .untouched) false .references .references thing
  | .inspect, thing | .lock, thing | .submit, thing | .takeWorker, thing =>
    live .untouched .held bytes .references .references thing
  | .giveWorker, thing => live .taken .held bytes .references .references thing
  | .create, thing => live .held .held bytes .references .references thing
  | .unlock, thing | .close, thing => live .settled .held bytes .references .references thing
  | .failing first second, thing => live .settled .settled bytes first second thing
  | .shared completer owner, thing =>
    live completer.worker completer.descriptor bytes completer.release owner.release thing

end Phase

def Job.expect (job : Job) (thing : Thing) : Expect := job.phase.expect job.descriptor job.bytes thing

/-! ## One event -/

/-- What an event is for one thing. -/
inductive Effect
  | nothing
  | within
  | beyond
  | gave
  deriving DecidableEq

def Event.effect (thing : Thing) : Option Event → Effect
  | some (.took other true) => if other = thing then .within else .nothing
  | some (.took other false) => if other = thing then .beyond else .nothing
  | some (.gave other) => if other = thing then .gave else .nothing
  | _ => .nothing

theorem Event.of_within {thing : Thing} {event : Option Event} (h : Event.effect thing event = .within) :
    event = some (.took thing true) := by
  rcases event with _ | ⟨other, _ | _⟩ | other | side <;> simp only [Event.effect] at h
  case some.took.true =>
    split at h
    case isTrue hother => rw [hother]
    case isFalse => cases h
  all_goals first | cases h | (split at h <;> cases h)

/-- What is found satisfies also a weaker expectation. -/
def Expect.implies : Expect → Expect → Bool
  | .untouched, .settled | .held, .taken => true
  | expect, other => expect == other

def Expect.leads (before : Expect) (effect : Effect) (after : Expect) : Bool :=
  match effect with
  | .nothing => before.implies after
  | .within => before == .untouched && Expect.held.implies after
  | .beyond => before == .untouched && Expect.taken.implies after
  | .gave => (before == .held || before == .taken) && after == .settled

theorem Expect.Met.leads {before after : Expect} {effect : Effect} {within beyond gave : Nat}
    (h : before.Met within beyond gave) (hleads : before.leads effect after = true) :
    after.Met (within + if effect = .within then 1 else 0) (beyond + if effect = .beyond then 1 else 0)
      (gave + if effect = .gave then 1 else 0) := by
  cases effect <;> cases before <;> cases after <;> simp_all [Expect.Met, Expect.leads, Expect.implies]

namespace Job

variable {job other : Job} {event : Option Event}

theorem within_append (h : other.log = job.log ++ event.toList) (thing : Thing) :
    other.within thing = job.within thing + if Event.effect thing event = Effect.within then 1 else 0 := by
  rcases event with _ | ⟨taken, _ | _⟩ | given | side <;> simp [within, h, Event.effect, List.count_cons]
  all_goals split <;> simp

theorem beyond_append (h : other.log = job.log ++ event.toList) (thing : Thing) :
    other.beyond thing = job.beyond thing + if Event.effect thing event = Effect.beyond then 1 else 0 := by
  rcases event with _ | ⟨taken, _ | _⟩ | given | side <;> simp [beyond, h, Event.effect, List.count_cons]
  all_goals split <;> simp

theorem gave_append (h : other.log = job.log ++ event.toList) (thing : Thing) :
    other.gave thing = job.gave thing + if Event.effect thing event = Effect.gave then 1 else 0 := by
  rcases event with _ | ⟨taken, _ | _⟩ | given | side <;> simp [gave, h, Event.effect, List.count_cons]
  all_goals split <;> simp

end Job

/-! ## Steps of a party -/

/-- Which releases the references of a request allow. -/
inductive Parted : Release → Release → Nat → Prop
  | both : Parted .references .references 2
  | owning : Parted (.gone false) .references 1
  | completing : Parted .references (.gone false) 1
  | lastCompleting (release : Release) (h : release ≠ .references ∧ release ≠ .gone false) :
    Parted release (.gone false) 0
  | lastOwning (release : Release) (h : release ≠ .references ∧ release ≠ .gone false) :
    Parted (.gone false) release 0

structure Sound (job : Job) : Prop where
  expect : ∀ thing, (job.expect thing).Met (job.within thing) (job.beyond thing) (job.gave thing)
  parted : Parted (job.phase.release .completing) (job.phase.release .owning) job.references
  letGo : ∀ side, job.log.count (.letGo side) = if job.phase.release side = .references then 0 else 1

/-- How a step changes one counter and what the job has of it. -/
inductive Shift (view other : View) (counter : Counter) : Prop
  | none (hcounter : other.shared.counters counter = view.shared.counters counter)
    (hheld : other.job.held counter = view.job.held counter)
    (hseated : other.job.seated counter = view.job.seated counter)
  | add (hcounter : other.shared.counters counter =
      (view.shared.counters counter + view.job.worth counter) % counter.width)
    (hheld : other.job.held counter = view.job.held counter + 1)
    (hseated : other.job.seated counter = view.job.seated counter ∨
      other.job.seated counter = view.job.seated counter + 1 ∧
        view.shared.counters counter + view.job.worth counter ≤ counter.limit)
  | sub (hcounter : other.shared.counters counter =
      (view.shared.counters counter + counter.width - view.job.worth counter) % counter.width)
    (hheld : view.job.held counter = other.job.held counter + 1)
    (hseated : other.job.seated counter ≤ view.job.seated counter)

structure Moves (view other : View) : Prop where
  sound : Sound other.job
  arguments : other.job.arguments = view.job.arguments
  shift : ∀ counter, Shift view other counter

/-- What a step of one event makes of a counter. -/
def Event.charge (event : Option Event) (counter : Counter) (count worth : Nat) : Nat :=
  match Event.effect (.counted counter) event with
  | .nothing => count
  | .within | .beyond => (count + worth) % counter.width
  | .gave => (count + counter.width - worth) % counter.width

theorem Moves.intro {view other : View} (event : Option Event) (h : Sound view.job)
    (hlog : other.job.log = view.job.log ++ event.toList) (harguments : other.job.arguments = view.job.arguments)
    (hcounters : ∀ counter, other.shared.counters counter =
      Event.charge event counter (view.shared.counters counter) (view.job.worth counter))
    (hlimit : ∀ counter, event = some (.took (.counted counter) true) →
      view.shared.counters counter + view.job.worth counter ≤ counter.limit)
    (hexpect : ∀ thing, (view.job.expect thing).leads (Event.effect thing event) (other.job.expect thing) = true)
    (hparted : Parted (other.job.phase.release .completing) (other.job.phase.release .owning) other.job.references)
    (hletGo : ∀ side, other.job.log.count (.letGo side) =
      if other.job.phase.release side = .references then 0 else 1) : Moves view other := by
  refine ⟨⟨fun thing => ?_, hparted, hletGo⟩, harguments, fun counter => ?_⟩
  · rw [Job.within_append hlog, Job.beyond_append hlog, Job.gave_append hlog]
    exact (h.expect thing).leads (hexpect thing)
  · have hbefore := h.expect (.counted counter)
    have hleads := hexpect (.counted counter)
    have hcounter := hcounters counter
    have hwithin := Job.within_append hlog (.counted counter)
    have hbeyond := Job.beyond_append hlog (.counted counter)
    have hgave := Job.gave_append hlog (.counted counter)
    cases heffect : Event.effect (.counted counter) event <;>
      simp only [heffect, Event.charge, Expect.leads, Bool.and_eq_true, Bool.or_eq_true, beq_iff_eq,
        reduceCtorEq, if_true, if_false, Nat.add_zero] at hcounter hwithin hbeyond hgave hleads
    case nothing =>
      exact .none hcounter (by rw [Job.held, hwithin, hbeyond, hgave, Job.held])
        (by rw [Job.seated, hwithin, hgave, Job.seated])
    case within =>
      rw [hleads.1] at hbefore
      obtain ⟨hw, ho, hg⟩ := hbefore
      exact .add hcounter (by simp only [Job.held]; omega)
        (.inr ⟨by simp only [Job.seated]; omega, hlimit counter (Event.of_within heffect)⟩)
    case beyond =>
      rw [hleads.1] at hbefore
      obtain ⟨hw, ho, hg⟩ := hbefore
      exact .add hcounter (by simp only [Job.held]; omega) (.inl (by simp only [Job.seated]; omega))
    case gave =>
      have htaken : view.job.within (.counted counter) + view.job.beyond (.counted counter) = 1 ∧
          view.job.gave (.counted counter) = 0 := by
        rcases hleads.1 with hheld | htaken
        · rw [hheld] at hbefore
          obtain ⟨hw, ho, hg⟩ := hbefore
          omega
        · rw [htaken] at hbefore
          exact hbefore
      exact .sub hcounter (by simp only [Job.held]; omega) (by simp only [Job.seated]; omega)

theorem View.fetchSub_counters (view : View) (counter found : Counter) :
    (view.shared.fetchSub counter (view.job.worth counter)).counters found =
      Event.charge (some (.gave (.counted counter))) found (view.shared.counters found) (view.job.worth found) := by
  rw [Event.charge, Shared.fetchSub]
  by_cases hfound : found = counter
  · subst hfound
    simp [Event.effect]
  · have hother : ¬counter = found := fun h => hfound h.symm
    simp [Event.effect, hfound, hother]

section Along

variable {view other : View} {phase : Phase} (h : Sound view.job) (hphase : view.job.phase = phase)

include h hphase

/-- A step that leaves both references alone. -/
theorem Moves.along (event : Option Event)
    (hexpect : ∀ thing, (phase.expect view.job.descriptor view.job.bytes thing).leads (Event.effect thing event)
      (other.job.expect thing) = true)
    (hlog : other.job.log = view.job.log ++ event.toList)
    (hcounters : ∀ counter, other.shared.counters counter =
      Event.charge event counter (view.shared.counters counter) (view.job.worth counter))
    (hlimit : ∀ counter, event = some (.took (.counted counter) true) →
      view.shared.counters counter + view.job.worth counter ≤ counter.limit)
    (hevent : ∀ side, event ≠ some (.letGo side))
    (hrelease : ∀ side, other.job.phase.release side = phase.release side)
    (harguments : other.job.arguments = view.job.arguments)
    (hreferences : other.job.references = view.job.references) : Moves view other := by
  refine .intro event h hlog harguments hcounters hlimit ?_ ?_ fun side => ?_
  · simpa only [Job.expect, hphase] using hexpect
  · rw [hreferences, hrelease, hrelease, ← hphase]
    exact h.parted
  · have hnot : Event.letGo side ∉ event.toList := by simpa using hevent side
    rw [hlog, List.count_append, List.count_eq_zero.mpr hnot, hrelease, ← hphase]
    exact h.letGo side

/-- A step that takes and gives nothing. -/
theorem Moves.quiet
    (hexpect : ∀ thing, (phase.expect view.job.descriptor view.job.bytes thing).leads .nothing
      (other.job.expect thing) = true)
    (hrelease : ∀ side, other.job.phase.release side = phase.release side := by intro side; cases side <;> rfl)
    (hlog : other.job.log = view.job.log := by rfl)
    (hcounters : other.shared.counters = view.shared.counters := by rfl)
    (harguments : other.job.arguments = view.job.arguments := by rfl)
    (hreferences : other.job.references = view.job.references := by rfl) : Moves view other :=
  .along h hphase none hexpect (by rw [hlog]; simp) (fun _ => congrFun hcounters _) (by simp) (by simp) hrelease harguments
    hreferences

/-- A step that takes or gives a thing that is not counted. -/
theorem Moves.noted (event : Event) (hevent : ∀ counter, Event.effect (.counted counter) (some event) = .nothing)
    (hside : ∀ side, event ≠ .letGo side)
    (hexpect : ∀ thing, (phase.expect view.job.descriptor view.job.bytes thing).leads (Event.effect thing (some event))
      (other.job.expect thing) = true)
    (hrelease : ∀ side, other.job.phase.release side = phase.release side := by intro side; cases side <;> rfl)
    (hlog : other.job.log = view.job.log ++ [event] := by rfl)
    (hcounters : other.shared.counters = view.shared.counters := by rfl)
    (harguments : other.job.arguments = view.job.arguments := by rfl)
    (hreferences : other.job.references = view.job.references := by rfl) : Moves view other := by
  refine .along h hphase (some event) hexpect hlog (fun counter => ?_) (fun counter htook => ?_) (fun side hletGo => ?_)
    hrelease harguments hreferences
  · rw [Event.charge, hevent, hcounters]
  · have := hevent counter
    simp [Option.some.inj htook, Event.effect] at this
  · exact hside side (Option.some.inj hletGo)

theorem Moves.fetchAdd (counter : Counter) (within : Bool)
    (hlimit : within = true → view.shared.counters counter + view.job.worth counter ≤ counter.limit)
    (hexpect : ∀ thing, (phase.expect view.job.descriptor view.job.bytes thing).leads
      (Event.effect thing (some (.took (.counted counter) within))) (other.job.expect thing) = true)
    (hrelease : ∀ side, other.job.phase.release side = phase.release side := by intro side; cases side <;> rfl)
    (hlog : other.job.log = view.job.log ++ [.took (.counted counter) within] := by rfl)
    (hcounters : other.shared.counters = (view.shared.fetchAdd counter (view.job.worth counter)).counters := by rfl)
    (harguments : other.job.arguments = view.job.arguments := by rfl)
    (hreferences : other.job.references = view.job.references := by rfl) : Moves view other := by
  refine .along h hphase (some (.took (.counted counter) within)) hexpect hlog (fun found => ?_) ?_ (by simp) hrelease
    harguments hreferences
  · rw [hcounters, Event.charge, Shared.fetchAdd]
    by_cases hfound : found = counter
    · subst hfound
      cases within <;> simp [Event.effect]
    · have hother : ¬counter = found := fun h => hfound h.symm
      cases within <;> simp [Event.effect, hfound, hother]
  · rintro _ ⟨⟩
    exact hlimit rfl

theorem Moves.fetchSub (counter : Counter)
    (hexpect : ∀ thing, (phase.expect view.job.descriptor view.job.bytes thing).leads
      (Event.effect thing (some (.gave (.counted counter)))) (other.job.expect thing) = true)
    (hrelease : ∀ side, other.job.phase.release side = phase.release side := by intro side; cases side <;> rfl)
    (hlog : other.job.log = view.job.log ++ [.gave (.counted counter)] := by rfl)
    (hcounters : other.shared.counters = (view.shared.fetchSub counter (view.job.worth counter)).counters := by rfl)
    (harguments : other.job.arguments = view.job.arguments := by rfl)
    (hreferences : other.job.references = view.job.references := by rfl) : Moves view other := by
  refine .along h hphase (some (.gave (.counted counter))) hexpect hlog (fun found => ?_) (by simp) (by simp) hrelease
    harguments hreferences
  rw [hcounters]
  exact View.fetchSub_counters view counter found

end Along

theorem Moves.rest {view : View} (h : Sound view.job) : Moves view view :=
  ⟨h, rfl, fun _ => .none rfl rfl rfl⟩

theorem Job.size_le (job : Job) : job.arguments.size ≤ streamReadChunk := by
  have := job.accepted
  simp only [Arguments.accepted, Bool.and_eq_true, decide_eq_true_eq] at this
  exact this.1.2

theorem Expect.leads_nothing (expect : Expect) : expect.leads .nothing expect = true := by
  cases expect <;> rfl

/-- A step that leaves a request its memory and its shares of the budget. -/
theorem live_leads {worker worker' descriptor descriptor' : Expect} {bytes : Bool} {completing owning : Release}
    {event : Option Event} (hworker : worker.leads (Event.effect (.counted .waitingWorkers) event) worker' = true)
    (hdescriptor : descriptor.leads (Event.effect .descriptor event) descriptor' = true)
    (hevent : ∀ thing, thing ≠ .counted .waitingWorkers → thing ≠ .descriptor →
      Event.effect thing event = .nothing := by
        rintro ((_ | _ | _) | _ | _ | _) <;> intros <;> first | rfl | contradiction) (thing : Thing) :
    (live worker descriptor bytes completing owning thing).leads (Event.effect thing event)
      (live worker' descriptor' bytes completing owning thing) = true := by
  by_cases hthing : thing = .counted .waitingWorkers
  · rw [hthing]
    exact hworker
  by_cases hthing' : thing = .descriptor
  · rw [hthing']
    exact hdescriptor
  rw [hevent thing hthing hthing']
  rcases thing with (_ | _ | _) | _ | _ | _ <;> first | contradiction | exact Expect.leads_nothing _

/-- The same without an event. -/
theorem live_quiet {worker worker' descriptor descriptor' : Expect} {bytes : Bool} {completing owning : Release}
    (hworker : worker.leads .nothing worker' = true) (hdescriptor : descriptor.leads .nothing descriptor' = true)
    (thing : Thing) :
    (live worker descriptor bytes completing owning thing).leads .nothing
      (live worker' descriptor' bytes completing owning thing) = true :=
  show Expect.leads _ (Event.effect thing none) _ = true from
    live_leads hworker hdescriptor (fun _ _ _ => rfl) thing

/-! ## The release of a side -/

def Side.other : Side → Side
  | .completing => .owning
  | .owning => .completing

theorem Parted.symm {mine theirs : Release} {references : Nat} (h : Parted mine theirs references) :
    Parted theirs mine references := by
  cases h
  case both => exact .both
  case owning => exact .completing
  case completing => exact .owning
  case lastCompleting hmine => exact .lastOwning _ hmine
  case lastOwning htheirs => exact .lastCompleting _ htheirs

theorem Parted.of_side {phase : Phase} {references : Nat} (side : Side)
    (h : Parted (phase.release side) (phase.release side.other) references) :
    Parted (phase.release .completing) (phase.release .owning) references := by
  cases side
  · exact h
  · exact h.symm

theorem Parted.to_side {phase : Phase} {references : Nat}
    (h : Parted (phase.release .completing) (phase.release .owning) references) (side : Side) :
    Parted (phase.release side) (phase.release side.other) references := by
  cases side
  · exact h
  · exact h.symm

namespace Release

/-- What a step of `release_read` takes note of. -/
def event (side : Side) (bytes : Bool) : Release → Option Event
  | .references => some (.letGo side)
  | .liveBytes => some (.gave (.counted .liveBytes))
  | .liveReads => some (.gave (.counted .liveReads))
  | .bytes => if bytes then some (.gave .buffer) else none
  | .request => some (.gave .request)
  | .gone _ => none

def next (references : Nat) : Release → Release
  | .references => if references = 1 then .liveBytes else .gone false
  | .liveBytes => .liveReads
  | .liveReads => .bytes
  | .bytes => .request
  | .request => .gone true
  | .gone last => .gone last

/-- The references after the step. -/
def left (references : Nat) : Release → Nat
  | .references => references - 1
  | _ => references

theorem event_takes_nothing (side : Side) (bytes : Bool) (release : Release) (thing : Thing) (within : Bool) :
    release.event side bytes ≠ some (.took thing within) := by
  cases release
  case bytes => cases bytes <;> simp [event]
  all_goals simp [event]

theorem event_letGo (side found : Side) (bytes : Bool) (release : Release) :
    (release.event side bytes).toList.count (.letGo found) =
      if release = .references ∧ found = side then 1 else 0 := by
  cases release
  case references => cases side <;> cases found <;> rfl
  case bytes => cases bytes <;> rfl
  all_goals rfl

theorem next_ne (references : Nat) (release : Release) : release.next references ≠ .references := by
  cases release
  case references =>
    simp only [next]
    split <;> simp
  all_goals simp [next]

end Release

theorem Parted.next {mine theirs : Release} {references : Nat} (h : Parted mine theirs references) :
    Parted (mine.next references) theirs (mine.left references) := by
  cases h
  case both => exact .owning
  case owning => exact .owning
  case completing => exact .lastCompleting .liveBytes ⟨by simp, by simp⟩
  case lastOwning hlast => exact .lastOwning _ hlast
  case lastCompleting hlast =>
    rcases mine with _ | _ | _ | _ | _ | _ | _
    case references => exact absurd rfl hlast.1
    case gone.false => exact absurd rfl hlast.2
    all_goals exact .lastCompleting _ ⟨by simp [Release.next], by simp [Release.next]⟩

theorem live_release {worker descriptor : Expect} {bytes : Bool} {mine theirs : Release} {references : Nat}
    (h : Parted mine theirs references) (side : Side) (thing : Thing) :
    (live worker descriptor bytes mine theirs thing).leads (Event.effect thing (mine.event side bytes))
      (live worker descriptor bytes (mine.next references) theirs thing) = true := by
  cases h
  case lastCompleting hlast =>
    rcases mine with _ | _ | _ | _ | _ | _ | _
    case references => exact absurd rfl hlast.1
    case gone.false => exact absurd rfl hlast.2
    all_goals
      cases bytes <;> rcases thing with (_ | _ | _) | _ | _ | _ <;>
        first | rfl | exact Expect.leads_nothing worker | exact Expect.leads_nothing descriptor
  all_goals
    rcases thing with (_ | _ | _) | _ | _ | _ <;> exact Expect.leads_nothing _

section Release

variable (view : View) (side : Side) (release : Release)

theorem releaseRead_log :
    (view.releaseRead side release).1.job.log = view.job.log ++ (release.event side view.job.bytes).toList := by
  cases release
  case gone => exact (List.append_nil _).symm
  case bytes =>
    simp only [View.releaseRead, Release.event]
    cases view.job.bytes
    · exact (List.append_nil _).symm
    · rfl
  all_goals rfl

theorem releaseRead_next : (view.releaseRead side release).2 = release.next view.job.references := by
  cases release <;> rfl

theorem releaseRead_references :
    (view.releaseRead side release).1.job.references = release.left view.job.references := by
  cases release
  case bytes =>
    simp only [View.releaseRead]
    split <;> rfl
  all_goals rfl

theorem releaseRead_arguments : (view.releaseRead side release).1.job.arguments = view.job.arguments := by
  cases release
  case bytes =>
    simp only [View.releaseRead]
    split <;> rfl
  all_goals rfl

theorem releaseRead_bytes : (view.releaseRead side release).1.job.bytes = view.job.bytes := by
  cases release
  case bytes =>
    simp only [View.releaseRead]
    split <;> rfl
  all_goals rfl

theorem releaseRead_counters (counter : Counter) :
    (view.releaseRead side release).1.shared.counters counter =
      Event.charge (release.event side view.job.bytes) counter (view.shared.counters counter)
        (view.job.worth counter) := by
  cases release
  case bytes =>
    simp only [View.releaseRead, Release.event, Event.charge]
    split <;> rfl
  case liveBytes => exact View.fetchSub_counters view .liveBytes counter
  case liveReads => exact View.fetchSub_counters view .liveReads counter
  all_goals rfl

end Release

theorem live_comm (worker descriptor : Expect) (bytes : Bool) (completing owning : Release) (thing : Thing) :
    live worker descriptor bytes completing owning thing = live worker descriptor bytes owning completing thing := by
  rcases thing with (_ | _ | _) | _ | _ | _ <;> simp only [live, Bool.or_comm]

theorem Moves.release {view other : View} {phase : Phase} (side : Side) {mine theirs : Release}
    {worker descriptor : Expect} (h : Sound view.job) (hmine : view.job.phase.release side = mine)
    (htheirs : view.job.phase.release side.other = theirs)
    (hexpect : ∀ thing, view.job.expect thing = live worker descriptor view.job.bytes mine theirs thing)
    (hother : other.job = { (view.releaseRead side mine).1.job with phase })
    (hcounters : other.shared.counters = (view.releaseRead side mine).1.shared.counters)
    (hmine' : phase.release side = (view.releaseRead side mine).2) (htheirs' : phase.release side.other = theirs)
    (hexpect' : ∀ thing, other.job.expect thing =
      live worker descriptor other.job.bytes (phase.release side) theirs thing) : Moves view other := by
  have hphase : other.job.phase = phase := by rw [hother]
  have hbytes : other.job.bytes = view.job.bytes := by
    rw [hother]
    exact releaseRead_bytes ..
  have hreferences : other.job.references = mine.left view.job.references := by
    rw [hother]
    exact releaseRead_references ..
  have hlog : other.job.log = view.job.log ++ (mine.event side view.job.bytes).toList := by
    rw [hother]
    exact releaseRead_log ..
  have hparted := h.parted.to_side side
  rw [hmine, htheirs] at hparted
  rw [releaseRead_next] at hmine'
  refine .intro _ h hlog ?_ (fun counter => ?_) ?_ (fun thing => ?_) (.of_side side ?_) fun found => ?_
  · rw [hother]
    exact releaseRead_arguments ..
  · rw [hcounters]
    exact releaseRead_counters ..
  · exact fun counter htook => absurd htook (Release.event_takes_nothing _ _ _ _ _)
  · rw [hexpect, hexpect', hbytes, hmine']
    exact live_release hparted side thing
  · rw [hphase, hmine', htheirs', hreferences]
    exact hparted.next
  · rw [hlog, List.count_append, h.letGo found, Release.event_letGo, hphase]
    by_cases hfound : found = side
    · subst hfound
      rw [hmine, hmine', if_neg (Release.next_ne _ _)]
      by_cases hbegun : mine = .references <;> simp [hbegun]
    · have hfound' : found = side.other := by
        revert hfound
        cases found <;> cases side <;> simp [Side.other]
      have hnot : ¬(mine = .references ∧ side.other = side) := fun h => hfound (hfound'.trans h.2)
      rw [hfound', htheirs, htheirs', if_neg hnot, Nat.add_zero]

theorem View.setBytes_descriptor (view : View) (bytes : Bool) :
    (view.setBytes bytes).job.descriptor = view.job.descriptor := rfl

theorem View.setBytes_bytes (view : View) (bytes : Bool) : (view.setBytes bytes).job.bytes = bytes := rfl

theorem View.note_descriptor (view : View) (event : Event) :
    (view.note event).job.descriptor = view.job.descriptor := rfl

theorem startStep_moves (index : Nat) (answer : Answer) {view : View} (h : Sound view.job) :
    Moves view (startStep index answer view) := by
  cases hphase : view.job.phase <;> simp only [startStep, hphase]
  case takeReads =>
    split
    case isTrue hcount =>
      refine .fetchAdd h hphase .liveReads true (fun _ => hcount) ?_
      rintro ((_ | _ | _) | _ | _ | _) <;> rfl
    case isFalse =>
      refine .fetchAdd h hphase .liveReads false (by simp) ?_
      rintro ((_ | _ | _) | _ | _ | _) <;> rfl
  case takeBytes =>
    split
    case isTrue hcount =>
      refine .fetchAdd h hphase .liveBytes true (fun _ => ?_) ?_
      · have := view.job.size_le
        simp only [Job.worth, Counter.limit, streamReadBytes, streamReadChunk] at *
        omega
      · rintro ((_ | _ | _) | _ | _ | _) <;> rfl
    case isFalse =>
      refine .fetchAdd h hphase .liveBytes false (by simp) ?_
      rintro ((_ | _ | _) | _ | _ | _) <;> rfl
  case giveBytes =>
    refine .fetchSub h hphase .liveBytes ?_
    rintro ((_ | _ | _) | _ | _ | _) <;> rfl
  case giveReads =>
    refine .fetchSub h hphase .liveReads ?_
    rintro ((_ | _ | _) | _ | _ | _) <;> rfl
  case allocate =>
    split
    · refine .noted h hphase (.took .request true) (fun _ => rfl) (by simp) ?_
      rintro ((_ | _ | _) | _ | _ | _) <;> rfl
    · refine .quiet h hphase ?_
      rintro ((_ | _ | _) | _ | _ | _) <;> rfl
  case duplicate =>
    split
    · exact .noted h hphase (.took .descriptor true) (fun _ => rfl) (by simp) (live_leads rfl rfl)
    · exact .quiet h hphase (live_quiet rfl rfl)
  case allocateBytes =>
    -- The second test sees what was just allocated.
    cases hdescriptor : view.job.descriptor <;> cases hallocated : answer.allocated <;>
      simp only [View.setBytes_descriptor, View.setBytes_bytes, View.note_descriptor, hdescriptor, if_true, if_false,
        Bool.false_eq_true]
    case false.false | true.false =>
      refine .quiet h hphase ?_
      rw [hdescriptor]
      exact live_quiet rfl rfl
    case false.true | true.true =>
      refine .noted h hphase (.took .buffer true) (fun _ => rfl) (by simp) ?_
      rw [hdescriptor]
      rintro ((_ | _ | _) | _ | _ | _) <;> rfl
  case inspect =>
    split
    · exact .quiet h hphase (live_quiet rfl rfl)
    · exact .quiet h hphase (live_quiet rfl rfl)
    · exact .quiet h hphase (live_quiet rfl rfl)
  case lock =>
    split
    · exact .quiet h hphase (live_quiet rfl rfl)
    · exact .rest h
  case submit =>
    split
    · exact .quiet h hphase (live_quiet rfl rfl)
    · exact .quiet h hphase (live_quiet rfl rfl)
  case unlock => exact .quiet h hphase (live_quiet rfl rfl)
  case takeWorker =>
    split
    case isTrue hcount => exact .fetchAdd h hphase .waitingWorkers true (fun _ => hcount) (live_leads rfl rfl)
    case isFalse => exact .fetchAdd h hphase .waitingWorkers false (by simp) (live_leads rfl rfl)
  case create =>
    split
    · exact .quiet h hphase (live_quiet rfl rfl)
    · exact .quiet h hphase (live_quiet rfl rfl)
  case giveWorker => exact .fetchSub h hphase .waitingWorkers (live_leads rfl rfl)
  case close => exact .noted h hphase (.gave .descriptor) (fun _ => rfl) (by simp) (live_leads rfl rfl)
  case refused => exact .rest h
  case failing first second =>
    have hexpect : ∀ thing, view.job.expect thing = live .settled .settled view.job.bytes first second thing := by
      simp only [Job.expect, hphase]
      exact fun _ => rfl
    have hfirst : view.job.phase.release .completing = first := by rw [hphase]; rfl
    have hsecond : view.job.phase.release .owning = second := by rw [hphase]; rfl
    cases first
    case gone last =>
      refine .release .owning h hsecond hfirst (fun thing => ?_) rfl rfl rfl rfl (fun thing => live_comm ..)
      rw [hexpect, live_comm]
    all_goals exact .release .completing h hfirst hsecond hexpect rfl rfl rfl rfl fun _ => rfl
  case shared completer owner =>
    cases owner
    case starting => exact .quiet h hphase (live_quiet (Expect.leads_nothing _) (Expect.leads_nothing _))
    all_goals exact .rest h

theorem completeStep_moves (index : Nat) (answer : Answer) {view : View} (h : Sound view.job) :
    Moves view (completeStep index answer view) := by
  cases hphase : view.job.phase <;> simp only [completeStep, hphase]
  case shared completer owner =>
    cases completer
    case queued =>
      simp only
      split
      · exact .quiet h hphase (live_quiet rfl rfl)
      · exact .rest h
    case flags =>
      simp only
      split <;> exact .quiet h hphase (live_quiet rfl rfl)
    case checking =>
      simp only
      split
      · exact .quiet h hphase (live_quiet rfl rfl)
      · split <;> exact .quiet h hphase (live_quiet rfl rfl)
    case polling =>
      simp only
      split
      case h_2 => split <;> exact .quiet h hphase (live_quiet rfl rfl)
      all_goals exact .quiet h hphase (live_quiet rfl rfl)
    case rechecking =>
      simp only
      split <;> exact .quiet h hphase (live_quiet rfl rfl)
    case reading =>
      simp only
      split
      case h_1 =>
        split
        · exact .quiet h hphase (live_quiet rfl rfl)
        · split <;> exact .quiet h hphase (live_quiet rfl rfl)
      case h_2 => exact .quiet h hphase (live_quiet rfl rfl)
    case leaving => exact .fetchSub h hphase .waitingWorkers (live_leads rfl rfl)
    case closing => exact .noted h hphase (.gave .descriptor) (fun _ => rfl) (by simp) (live_leads rfl rfl)
    case readying => exact .quiet h hphase (live_quiet rfl rfl)
    case counting => exact .quiet h hphase (live_quiet rfl rfl)
    case releasing release =>
      have hexpect : ∀ thing, view.job.expect thing =
          live .settled .settled view.job.bytes release owner.release thing := by
        simp only [Job.expect, hphase]
        exact fun _ => rfl
      have hmine : view.job.phase.release .completing = release := by rw [hphase]; rfl
      have htheirs : view.job.phase.release .owning = owner.release := by rw [hphase]; rfl
      simp only
      split <;> exact .release .completing h hmine htheirs hexpect rfl rfl rfl rfl fun _ => rfl
  all_goals exact .rest h

theorem dropStep_moves (index : Nat) {view : View} (h : Sound view.job) : Moves view (dropStep index view) := by
  cases hphase : view.job.phase <;> simp only [dropStep, hphase]
  case shared completer owner =>
    have hquiet (thing : Thing) (owner' : Owner) (hrelease : owner'.release = owner.release) :
        ((Phase.shared completer owner).expect view.job.descriptor view.job.bytes thing).leads .nothing
          ((Phase.shared completer owner').expect view.job.descriptor view.job.bytes thing) = true := by
      simp only [Phase.expect, hrelease]
      exact Expect.leads_nothing _
    cases owner
    case starting => exact .rest h
    case locking =>
      simp only
      split
      · exact .quiet h hphase fun thing => hquiet thing _ rfl
      · exact .rest h
    case releasing release =>
      have hexpect : ∀ thing, view.job.expect thing =
          live completer.worker completer.descriptor view.job.bytes release completer.release thing := by
        intro thing
        simp only [Job.expect, hphase, Phase.expect, Owner.release]
        exact live_comm ..
      have hmine : view.job.phase.release .owning = release := by rw [hphase]; rfl
      have htheirs : view.job.phase.release .completing = completer.release := by rw [hphase]; rfl
      exact .release .owning h hmine htheirs hexpect rfl rfl rfl rfl fun _ => live_comm ..
    all_goals exact .quiet h hphase fun thing => hquiet thing _ rfl
  all_goals exact .rest h

end TsonicNode.Stream.NativeRead
