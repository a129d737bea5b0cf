import TsonicNode.Stream.WritableAccount
import TsonicNode.Stream.WritableOrder

/-!
# A `drain` for every write that was pushed back

While a stream is open, `Tally` ties the flags of a corked stream and of the
queued `drain` to the record of the queue, and `Owing n` says that a `drain`
beyond the first `n` was emitted, is queued, or will be queued by the next
flush. Both are kept by every step that leaves the stream open
(`Outcome.advances`); a write that returns `false` makes the stream owe a
`drain`, and an uncorked stream has nothing left to flush.
-/

namespace TsonicNode.Stream

open TsonicNode.Lib TsonicNode.Internal

namespace View

theorem Later.over {v v' : View} (h : Later v v') (hover : v.Over) : v'.Over :=
  hover.imp h.finishScheduled (.imp h.error h.cancelled)

theorem Onward.over {v v' : View} (h : Onward v v') (hover : v.Over) : v'.Over :=
  hover.imp h.finishScheduled (.imp h.error h.cancelled)

/-- The record of what was committed only grows. -/
theorem deliver_commits (entry : Entry) (v : View) : v.commits <+: (v.deliver entry).commits := by
  cases entry with
  | completion callback error => exact List.prefix_refl _
  | foreign => exact List.prefix_refl _
  | event event =>
    cases event with
    | complete =>
      unfold deliver invoke
      dsimp only
      split
      · exact List.prefix_refl _
      · refine List.IsPrefix.trans ?_ (queueClose_later _).commits
        rw [finishing_commits, List.append_assoc]
        exact List.prefix_append _ _
    | error => exact List.prefix_refl _
    | finish =>
      unfold deliver invoke
      dsimp only
      split <;> exact List.prefix_refl _
    | drain =>
      unfold deliver invoke
      dsimp only
      split <;> exact List.prefix_refl _
    | close => exact List.prefix_refl _

/-- A stream at rest takes chunks until it is over. -/
theorem Rest.writable_iff {v : View} (h : v.Rest) : v.state.writable = true ↔ ¬ v.Over := by
  constructor
  · intro hwritable hover
    rcases h.phase.over_iff.mp hover with hs | hs | hs <;>
      simp [WritableState.writable, hs] at hwritable
  · intro hopen
    by_contra hwritable
    exact hopen (h.phase.over_iff.mpr (.of_unwritable h hwritable))

/-! ## Flushing an open stream -/

/-- A flush that the stream survives. -/
structure Empties (v v' : View) : Prop where
  chunks : v'.state.chunks = []
  needDrain : v'.state.needDrain = false
  corked : v'.state.corked = v.state.corked
  scheduled : v'.state.events.drainScheduled =
    (v.state.events.drainScheduled || v.state.needDrain)
  commits : times .drain v'.commits + v.state.events.drainScheduled.toNat =
    times .drain v.commits + v'.state.events.drainScheduled.toNat
  starts : v'.starts = v.starts
  emitted : v'.state.events.emitted = v.state.events.emitted

/-- An open stream queues a `drain` unless there is one in the queue. -/
theorem drain_open {v : View} (hopen : ¬ v.Over) :
    v.drain = if v.state.events.drainScheduled then v
      else (v.setEvents fun events => { events with drainScheduled := true }).commit
        [.event .drain] := by
  unfold Over at hopen
  simp only [not_or, Bool.not_eq_true, Option.isSome_eq_false_iff] at hopen
  unfold View.drain
  cases hscheduled : v.state.events.drainScheduled <;> simp [hopen]

theorem flush_empties {v : View} (answers : Answers) (hr : v.Rest)
    (hopen : ¬ (v.flush_ answers).Over) : Empties v (v.flush_ answers) := by
  obtain ⟨hmoves, hphase, -⟩ := flush_moves answers hr.events hr.phase
  have hstart : ¬ v.Over := fun hover => hopen ((Later.moves hmoves).over hover)
  obtain ⟨hskip, -⟩ | ⟨-, -, v', ⟨hwrote, heq⟩ | ⟨done, -, -, error, -, hwrote, heq⟩⟩ :=
    v.flush_cases answers
  · refine absurd ?_ hstart
    rcases hskip with hd | hf
    · exact .inr (.inl (hr.phase.failed (hr.phase.descriptor hd)))
    · exact .inr (.inl (hr.phase.failed hf))
  · have hcommits : times .drain v'.commits = times .drain v.commits := by
      rw [hwrote.commits, times_append, times_completing, Nat.add_zero]
    have hevents : v'.state.events = v.state.events := by rw [hwrote.state]
    have hneed : v'.state.needDrain = v.state.needDrain := by rw [hwrote.state]
    have hcorked : v'.state.corked = v.state.corked := by rw [hwrote.state]
    have hover : ∀ drain, ¬ (v'.setState fun state =>
        { state with chunks := [], needDrain := drain }).Over := by
      intro drain
      unfold Over
      rw [setState_state, hevents]
      exact hstart
    rw [heq]
    cases hdrain : v.state.needDrain with
    | false =>
      rw [hdrain] at hneed
      rw [hneed, if_neg Bool.false_ne_true]
      exact
        { chunks := rfl
          needDrain := hneed
          corked := hcorked
          scheduled := by rw [setState_state, hevents, hdrain, Bool.or_false]
          commits := by
            show times .drain v'.commits + _ = _ + v'.state.events.drainScheduled.toNat
            rw [hcommits, hevents]
          starts := hwrote.starts
          emitted := by rw [setState_state, hevents] }
    | true =>
      rw [hdrain] at hneed
      rw [hneed, if_pos rfl, drain_open (hover false), setState_state, hevents]
      cases hscheduled : v.state.events.drainScheduled with
      | true =>
        rw [if_pos rfl]
        exact
          { chunks := rfl
            needDrain := rfl
            corked := hcorked
            scheduled := by rw [setState_state, hevents, hscheduled, hdrain, Bool.or_true]
            commits := by
              show times .drain v'.commits + _ = _ + v'.state.events.drainScheduled.toNat
              rw [hcommits, hevents]
            starts := hwrote.starts
            emitted := by rw [setState_state, hevents] }
      | false =>
        rw [if_neg Bool.false_ne_true]
        exact
          { chunks := rfl
            needDrain := rfl
            corked := hcorked
            scheduled := by rw [hdrain, Bool.or_true]; rfl
            commits := by
              show times .drain (v'.commits ++ [.event .drain]) + _ = _ + true.toNat
              rw [times_append, times_event, if_pos rfl, hcommits, hscheduled]
              rfl
            starts := hwrote.starts
            emitted := by
              show v'.state.events.emitted = _
              rw [hevents] }
  · refine absurd ?_ hopen
    rw [heq] at hphase ⊢
    exact .inr (.inl (hphase.failed (v'.fail_state error done.length).2.2))

/-! ## What an open stream owes -/

/-- The `drain` events of an open stream. -/
structure Tally (v : View) : Prop where
  corked : 0 ≤ v.state.corked
  uncorked : v.state.corked = 0 → v.state.chunks = [] ∧ v.state.needDrain = false
  queued : times .drain v.commits =
    times .drain v.starts + v.state.events.drainScheduled.toNat
  told : v.state.events.emitted.count .drain = times .drain v.starts

/-- Behind the first `n` of them there is another `drain`, or will be at the next flush. -/
structure Owing (n : Nat) (v : View) : Prop where
  reached : n ≤ v.state.events.emitted.count .drain
  owed : v.state.needDrain = true ∨ v.state.events.drainScheduled = true ∨
    n < v.state.events.emitted.count .drain

/-- The stream goes on, and owes what it owed. -/
structure Advances (v v' : View) : Prop where
  tally : v'.Tally
  owing : ∀ n, v.Owing n → v'.Owing n

section
variable {v v' : View}

theorem Empties.advances (h : Empties v v') (hcorked : 0 ≤ v.state.corked)
    (hqueued : times .drain v.commits =
      times .drain v.starts + v.state.events.drainScheduled.toNat)
    (htold : v.state.events.emitted.count .drain = times .drain v.starts) : Advances v v' where
  tally :=
    { corked := by rw [h.corked]; exact hcorked
      uncorked := fun _ => ⟨h.chunks, h.needDrain⟩
      queued := by
        have := h.commits
        rw [h.starts]
        omega
      told := by rw [h.emitted, h.starts, htold] }
  owing n howing := by
    refine ⟨by rw [h.emitted]; exact howing.reached, ?_⟩
    rw [h.scheduled, h.emitted, Bool.or_eq_true]
    rcases howing.owed with hn | hs | he
    · exact .inr (.inl (.inr hn))
    · exact .inr (.inl (.inl hs))
    · exact .inr (.inr he)

/-- A flush of an open stream, which may have been uncorked or given a chunk just before. -/
theorem flush_advances (answers : Answers) (hr : v.Rest) (hcorked : 0 ≤ v.state.corked)
    (hqueued : times .drain v.commits =
      times .drain v.starts + v.state.events.drainScheduled.toNat)
    (htold : v.state.events.emitted.count .drain = times .drain v.starts)
    (hopen : ¬ (v.flush_ answers).Over) : Advances v (v.flush_ answers) :=
  (flush_empties answers hr hopen).advances hcorked hqueued htold

theorem write_advances {start : Option Int} {accepted : List (List UInt8)} (value : List UInt8)
    (completion : Option StreamCompletion) (answers : Answers) (hr : v.Rest)
    (ha : v.Account start accepted) (ht : v.Tally)
    (hopen : ¬ (v.write value completion answers).Over) :
    Advances v (v.write value completion answers) := by
  have hwritable : v.state.writable = true := by
    refine hr.writable_iff.mpr fun hover => hopen ?_
    exact (write_goes value completion answers hr).later.over hover
  have haccept : (v.accept value completion).Rest := by
    refine ⟨{ hr.events with }, hr.phase.change rfl rfl fun hs => ?_⟩
    exact absurd (hr.phase.over_iff.mpr hs) (hr.writable_iff.mp hwritable)
  have hflushed := (ha.accept value completion).flush answers
    fun hc => absurd (.inr (.inr hc)) (hr.writable_iff.mp hwritable)
  unfold View.write at hopen ⊢
  rw [if_neg (not_not.mpr hwritable)] at hopen ⊢
  dsimp only at hopen ⊢
  by_cases hcorked : (v.accept value completion).state.corked = 0
  · rw [if_pos hcorked] at hopen ⊢
    have hflush := flush_advances answers haccept ht.corked ht.queued ht.told hopen
    have hbuffered := hflushed.buffered
    obtain ⟨hchunks, hneed⟩ := hflush.tally.uncorked (by
      rw [(flush_empties answers haccept hopen).corked]
      exact hcorked)
    rw [hchunks] at hbuffered
    generalize (v.accept value completion).flush_ answers = v' at *
    have hready : (v'.state.needDrain || !decide (v'.state.bufferedBytes < v'.state.highWaterMark ∨
        v'.state.bufferedBytes = 0)) = v'.state.needDrain := by
      rw [decide_eq_true (.inr hbuffered), Bool.not_true, Bool.or_false]
    refine ⟨⟨hflush.tally.corked, fun _ => ⟨hchunks, ?_⟩, hflush.tally.queued, hflush.tally.told⟩,
      fun n howing => ?_⟩
    · rw [setState_state, hready, hneed]
    · have hkept := hflush.owing n ⟨howing.reached, howing.owed⟩
      refine ⟨hkept.reached, ?_⟩
      rw [setState_state, hready]
      exact hkept.owed
  · rw [if_neg hcorked]
    refine ⟨⟨ht.corked, fun h => absurd h hcorked, ht.queued, ht.told⟩, fun n howing => ?_⟩
    refine ⟨howing.reached, ?_⟩
    rw [setState_state, Bool.or_eq_true]
    rcases howing.owed with hn | hs | he
    · exact .inl (.inl hn)
    · exact .inr (.inl hs)
    · exact .inr (.inr he)

theorem uncork_advances (answers : Answers) (hr : v.Rest) (ht : v.Tally)
    (hopen : ¬ (v.uncork answers).Over) : Advances v (v.uncork answers) := by
  have hquiet : (v.setState fun state => { state with corked := state.corked - 1 }).Rest :=
    ⟨{ hr.events with }, hr.phase.change rfl rfl hr.phase.empty⟩
  unfold View.uncork at hopen ⊢
  by_cases hcorked : v.state.corked > 0
  · rw [if_pos hcorked] at hopen ⊢
    dsimp only at hopen ⊢
    by_cases hlast : (v.setState fun state => { state with corked := state.corked - 1 }).state.corked
        = 0
    · rw [if_pos hlast] at hopen ⊢
      have hflush := flush_advances answers hquiet (by rw [hlast]) ht.queued ht.told hopen
      exact ⟨hflush.tally, fun n h => hflush.owing n ⟨h.reached, h.owed⟩⟩
    · rw [if_neg hlast]
      refine ⟨⟨?_, fun h => absurd h hlast, ht.queued, ht.told⟩, fun _ h => ⟨h.reached, h.owed⟩⟩
      rw [setState_state] at hlast ⊢
      dsimp only at hlast ⊢
      omega
  · rw [if_neg hcorked]
    exact ⟨ht, fun _ h => ⟨h.reached, h.owed⟩⟩

theorem cork_advances (ht : v.Tally) : Advances v v.cork := by
  have hcorked := ht.corked
  refine ⟨⟨?_, fun h => ?_, ht.queued, ht.told⟩, fun _ h => ⟨h.reached, h.owed⟩⟩
  · show 0 ≤ v.state.corked + 1
    omega
  · have h : v.state.corked + 1 = 0 := h
    omega

/-- An open stream keeps the callback of an `end`. -/
theorem retainEnds_open (completion : Option StreamCompletion) (hr : v.Rest) (hopen : ¬ v.Over) :
    v.retainEnds completion = v.setEvents fun events =>
      { events with endCompletions := events.endCompletions ++ completion.toList } := by
  cases completion with
  | none =>
    show v = _
    simp [setEvents, setState]
  | some completion =>
    have hclosed : ¬ v.state.events.closed = true := fun hc =>
      hopen (hr.events.isOver (hr.events.queued (hr.events.closed hc)))
    have hfinished : ¬ v.state.events.finished = true := fun hf =>
      hopen (.inl (hr.events.finished hf))
    unfold Over at hopen
    simp only [not_or, Bool.not_eq_true, Option.isSome_eq_false_iff, Option.isNone_iff_eq_none]
      at hopen hclosed hfinished
    show v.retainEnd completion = _
    unfold retainEnd
    simp [hopen, hclosed, hfinished]

theorem retainEnds_advances (completion : Option StreamCompletion) (hr : v.Rest)
    (hopen : ¬ v.Over) (ht : v.Tally) : Advances v (v.retainEnds completion) := by
  rw [retainEnds_open completion hr hopen]
  exact ⟨⟨ht.corked, ht.uncorked, ht.queued, ht.told⟩, fun _ h => ⟨h.reached, h.owed⟩⟩

/-- The only event that an open stream may have in the queue is `drain`. -/
theorem event_next {event : Event} {rest : List Entry} (hr : v.Rest) (hd : v.Delivered)
    (hopen : ¬ v.Over) (hnext : v.commits = v.starts ++ Entry.event event :: rest) :
    event = .drain := by
  cases event with
  | drain => rfl
  | complete => exact absurd (.inl (complete_next hr.events hd hnext).1) hopen
  | finish => exact absurd (.inl (hr.events.finished (finish_next hr.events hnext))) hopen
  | close => exact absurd (hr.events.isOver (hr.events.queued (close_next hr.events hnext).1)) hopen
  | error =>
    refine absurd (.inr (.inl ?_)) hopen
    have hmem : Entry.event .error ∈ v.commits := by rw [hnext]; simp
    have hcount := times_pos.mp hmem
    rw [hr.events.errors, hr.events.recorded] at hcount
    by_contra herror
    rw [(Bool.not_eq_true _).mp herror] at hcount
    exact Nat.lt_irrefl 0 hcount

/-- A started entry of an open stream: a `drain` is emitted, and nothing else matters here. -/
theorem deliver_advances {entry : Entry} {rest : List Entry} (hr : v.Rest) (hd : v.Delivered)
    (hopen : ¬ v.Over) (ht : v.Tally) (hnext : v.commits = v.starts ++ entry :: rest) :
    Advances v (v.deliver entry) := by
  have hsilent : entry ≠ .event .drain → Advances v (v.started entry) := by
    intro hentry
    have hstarts : times .drain (v.starts ++ [entry]) = times .drain v.starts := by
      rw [times_append, times, times, List.count_singleton, if_neg (by simpa using hentry),
        Nat.add_zero]
    refine ⟨⟨ht.corked, ht.uncorked, ?_, ht.told.trans hstarts.symm⟩, fun _ h => ⟨h.reached, h.owed⟩⟩
    exact ht.queued.trans (by rw [← hstarts]; rfl)
  cases entry with
  | completion callback error => exact hsilent (by simp)
  | foreign => exact hsilent (by simp)
  | event event =>
    obtain rfl := event_next hr hd hopen hnext
    have hstarts : times .drain (v.starts ++ [.event .drain]) = times .drain v.starts + 1 := by
      rw [times_append, times_event, if_pos rfl]
    have hemitted : (v.state.events.emitted ++ [Event.drain]).count .drain =
        v.state.events.emitted.count .drain + 1 := by
      rw [List.count_append, List.count_singleton_self]
    have hscheduled : v.state.events.drainScheduled = true := by
      have hqueued := ht.queued
      rw [hnext, ← List.singleton_append, ← List.append_assoc, times_append, hstarts] at hqueued
      by_contra h
      rw [(Bool.not_eq_true _).mp h, Bool.toNat_false] at hqueued
      omega
    have hdeliver : v.deliver (.event .drain) = ((v.started (.event .drain)).setEvents
        fun events => { events with drainScheduled := false }).emit .drain := by
      refine if_neg fun hover => hopen ?_
      rcases hover with he | hf | hc
      · exact .inr (.inl he)
      · exact .inl hf
      · exact .inr (.inr hc)
    rw [hdeliver]
    refine ⟨⟨ht.corked, ht.uncorked, ?_, ?_⟩, fun n howing => ?_⟩
    · show times .drain v.commits = times .drain (v.starts ++ [.event .drain]) + 0
      rw [hstarts, ht.queued, hscheduled]
      rfl
    · exact hemitted.trans ((congrArg (· + 1) ht.told).trans hstarts.symm)
    · have hreached := howing.reached
      have hone : n < (v.state.events.emitted ++ [Event.drain]).count .drain := by
        rw [hemitted]
        omega
      exact ⟨hone.le, .inr (.inr hone)⟩

end

end View

/-! ## Runs -/

section
variable {start : Option Int} {s : System} {label : Label} {v' : View} {h' : History}

/-- A step that leaves the stream open. -/
theorem Outcome.advances (houtcome : Outcome s label v' h') (h : s.Sound)
    (ha : s.world.view.Account start (s.history.accepted.map Prod.fst))
    (ht : s.world.view.Tally) (hopen : ¬ v'.Over) : View.Advances s.world.view v' := by
  have hr := h.rest
  have hstart : ¬ s.world.view.Over := fun hover =>
    hopen ((houtcome.sound h.rest h.delivered).2.2.over hover)
  have hsame : View.Advances s.world.view s.world.view := ⟨ht, fun _ h => h⟩
  cases houtcome with
  | write completion hcallback hadmits =>
    exact View.write_advances _ completion _ hr ha ht hopen
  | «end» completion hcallback =>
    exact absurd (View.finish_goes _ (View.retainEnds_goes completion hr).rest).2 hopen
  | @endChunk value given answers completion hcallback hadmits =>
    have hretained := View.retainEnds_goes completion hr
    exact absurd
      (View.finish_goes _ (View.write_goes value none answers hretained.rest).rest).2 hopen
  | endChunkRaised completion hcallback =>
    exact View.retainEnds_advances completion hr hstart ht
  | cork => exact View.cork_advances ht
  | uncork => exact View.uncork_advances _ hr ht hopen
  | @close answers =>
    obtain ⟨hfinish, hover⟩ := View.finish_goes answers hr
    exact absurd ((View.closeFinally_goes answers hfinish.rest hover).later.over hover) hopen
  | closeRaised => exact hsame
  | @destroy error answers =>
    have hdestroyed := View.destroy_destroyed error answers _ hr
    have hrest := (View.destroy_goes error answers hr).rest
    refine absurd ?_ hopen
    simp only [WritableState.destroyed, Bool.or_eq_true] at hdestroyed
    rcases hdestroyed with hc | hc
    · exact hrest.events.isOver (hrest.events.queued (hrest.events.closed hc))
    · exact .inr (.inr hc)
  | raised => exact hsame
  | deliver hnext => exact View.deliver_advances hr h.delivered hstart ht hnext
  | other =>
    refine ⟨⟨ht.corked, ht.uncorked, ?_, ht.told⟩, fun _ h => ⟨h.reached, h.owed⟩⟩
    show View.times .drain (s.world.view.commits ++ [.foreign]) = _
    rw [View.times_append, View.times_foreign, Nat.add_zero]
    exact ht.queued
  | idle => exact hsame

end

namespace System

/-- What holds between two steps. -/
structure Accounts (start : Option Int) (s : System) : Prop where
  sound : s.Sound
  account : s.world.view.Account start (s.history.accepted.map Prod.fst)
  tally : ¬ s.world.view.Over → s.world.view.Tally

theorem step_accounts {start : Option Int} {s : System} (h : s.Accounts start) (label : Label) :
    (s.step label).Accounts start := by
  obtain ⟨houtcome, -⟩ := step_outcome h.sound label
  refine ⟨step_sound h.sound label, houtcome.account h.sound.rest h.account, fun hopen => ?_⟩
  have hstart : ¬ s.world.view.Over := fun hover =>
    hopen ((step_later h.sound label).over hover)
  exact (houtcome.advances h.sound h.account (h.tally hstart) hopen).tally

theorem new_accounts (owned autoClose flush : Bool) (start : Option Int) (highWaterMark : Int)
    (limit : Nat) : (new owned autoClose flush start highWaterMark limit).Accounts start where
  sound := new_sound owned autoClose flush start highWaterMark limit
  account :=
    { buffered := rfl
      placed :=
        { position := by
            show start = start.map (· + 0)
            cases start <;> simp
          laid := fun before transfer after heq => by
            have hlength := congrArg List.length heq
            simp [new, WritableState.new, World.view] at hlength }
      handed := List.prefix_refl _
      even := fun _ => rfl
      kept := fun _ _ => rfl }
  tally := fun _ =>
    { corked := Int.le_refl 0
      uncorked := fun _ => ⟨rfl, rfl⟩
      queued := rfl
      told := rfl }

theorem run_accounts (owned autoClose flush : Bool) (start : Option Int) (highWaterMark : Int)
    (limit : Nat) (labels : List Label) :
    (run step (new owned autoClose flush start highWaterMark limit) labels).Accounts start :=
  run_preserves (P := Accounts start) (fun _ label h => step_accounts h label)
    (new_accounts owned autoClose flush start highWaterMark limit) labels

/-- A stream that stays open owes what it owed. -/
theorem run_owing {start : Option Int} {n : Nat} {s : System} (h : s.Accounts start)
    (howing : s.world.view.Owing n) (labels : List Label)
    (hopen : ¬ (run step s labels).world.view.Over) :
    (run step s labels).world.view.Owing n := by
  induction labels generalizing s with
  | nil => exact howing
  | cons label labels ih =>
    have hnext := step_accounts h label
    have hstep : ¬ (s.step label).world.view.Over := fun hover =>
      hopen ((run_onward hnext.sound labels).over hover)
    obtain ⟨houtcome, -⟩ := step_outcome h.sound label
    have hstart : ¬ s.world.view.Over := fun hover =>
      hstep ((step_later h.sound label).over hover)
    exact ih hnext
      ((houtcome.advances h.sound h.account (h.tally hstart) hstep).owing n howing) hopen

/-! ## A write that is pushed back -/

/-- This write returns `false` although the stream goes on taking chunks. -/
def PushesBack (value : List UInt8) (given : Bool) (answers : Answers) (s : System) : Prop :=
  ∃ w, Writable.write value (s.history.callback .write given) answers s.world = .ok false w ∧
    w.state.writable = true

end System

/-- A chunk that is taken and leaves the stream too full. -/
theorem written_false (value : List UInt8) (completion : Option StreamCompletion)
    (answers : Answers) {w : World} (hwritable : w.state.writable = true) :
    wp (Writable.written value completion answers)
      (fun ready w' => ready = false → w'.state.failed = false → w'.state.needDrain = true)
      (fun _ _ => True) w := by
  unfold Writable.written
  refine wp_read ?_
  rw [if_neg (not_not.mpr hwritable)]
  simp only [setState, wp_bind, wp_modify, wp_get, wp_ite, wp_pure]
  -- with or without a flush, `need_drain` is set from what the answer is computed from
  have hset : ∀ ready failed needDrain : Bool, (ready && !failed) = false → failed = false →
      (needDrain || !ready) = true := by
    rintro ready _ needDrain hready rfl
    rw [Bool.not_false, Bool.and_true] at hready
    rw [hready, Bool.not_false, Bool.or_true]
  split_ifs with hcorked
  · exact wp_of_forall (fun _ _ => hset _ _ _) (fun _ _ => trivial)
  · exact hset _ _ _

theorem write_false {v : View} (value : List UInt8) (callback : Option WriteCallback)
    (answers : Answers) {w : World} (h : Rests v w) (hl : v.Lawful)
    (hwritable : v.state.writable = true) :
    wp (Writable.write value callback answers)
      (fun ready w' => ready = false → w'.state.failed = false → w'.state.needDrain = true)
      (fun _ _ => True) w := by
  unfold Writable.write
  rw [wp_bind]
  refine wp_mono (h.prepare hl) (fun _ w₁ h₁ => wp_read ?_) (fun _ _ _ => trivial)
  rw [wp_ite]
  split_ifs with hsize
  · trivial
  · rw [wp_bind]
    refine wp_mono (newCompletion_spec callback h₁) ?_ (fun _ _ _ => trivial)
    rintro completion w₂ ⟨-, h₂⟩
    refine written_false value completion answers ?_
    rw [h₂.state]
    exact hwritable

namespace System

/-- After a write that was pushed back the stream owes a `drain`. -/
theorem PushesBack.owing {value : List UInt8} {given : Bool} {answers : Answers} {s : System}
    (hback : s.PushesBack value given answers) (h : s.Sound) :
    (s.step (.write value given answers)).world.view.Owing
      ((s.step (.write value given answers)).world.state.events.emitted.count .drain) := by
  obtain ⟨w, hwrite, hopen⟩ := hback
  have hsound := step_sound h (.write value given answers)
  have hworld : (s.step (.write value given answers)).world = w := by
    rw [step, perform, hwrite]
  have hstart : s.world.view.state.writable = true := by
    refine h.rest.writable_iff.mpr fun hover => ?_
    refine hsound.rest.writable_iff.mp ?_ ((step_later h (.write value given answers)).over hover)
    rw [hworld]
    exact hopen
  have hfailed : w.state.failed = false := by
    rw [WritableState.writable, Bool.and_eq_true, Bool.and_eq_true] at hopen
    simpa using hopen.1.2
  have hneed := wp_ok (write_false value _ answers h.rests h.rest.lawful hstart) hwrite rfl hfailed
  refine ⟨Nat.le_refl _, .inl ?_⟩
  rw [hworld]
  exact hneed

/-- What the bytes of an accepted chunk come to: what is buffered, what the descriptor has taken,
and where it was put. -/
structure BytesAccounted (start : Option Int) (s : System) : Prop where
  buffered : s.world.state.bufferedBytes = View.size s.world.state.chunks
  /-- Each byte that was handed over is one of the accepted bytes, in their order. -/
  handed : s.world.state.file.handed <+: (s.history.accepted.map Prod.fst).flatten
  /-- And it was put right behind the one before it. -/
  laid : s.world.state.file.Laid start
  /-- While the stream is open, what was not handed over waits. -/
  waiting : s.world.state.writable = true →
    s.world.state.file.handed ++ (s.world.state.chunks.map WriteRequest.chunk).flatten =
      (s.history.accepted.map Prod.fst).flatten
  position : s.world.state.position =
    start.map (· + (s.world.state.file.whole.flatten.length : Int))

/-- Once the stream `t`, which is still open, is uncorked, the listeners of `drain` are notified
after `s`: they were, or will be when what stands in the queue has been delivered, unless the
stream stops before that. -/
def Drains (s t : System) : Prop :=
  t.world.state.writable = true → t.world.state.corked = 0 → t.world.state.chunks = [] ∧
    ∀ labels, (run step t labels).world.state.writable = true →
      t.world.completions.commits.length ≤ (run step t labels).world.completions.starts.length →
      Event.drain ∈ (run step t labels).world.state.events.emitted.drop
        s.world.state.events.emitted.length

theorem Accounts.bytesAccounted {start : Option Int} {s : System} (h : s.Accounts start) :
    s.BytesAccounted start where
  buffered := h.account.buffered
  handed := h.account.handed
  laid := h.account.placed.laid
  waiting := fun hwritable => by
    have hopen := h.sound.rest.writable_iff.mp hwritable
    have hfailed : s.world.view.state.failed = false := by
      by_contra hf
      exact hopen (.inr (.inl (h.sound.rest.phase.failed (by simpa using hf))))
    have hcancelled : s.world.view.state.events.cancelled = false := by
      by_contra hc
      exact hopen (.inr (.inr (by simpa using hc)))
    have heven : s.world.state.file.handed = s.world.state.file.whole.flatten :=
      h.account.even hfailed
    rw [heven, ← List.flatten_append]
    exact congrArg List.flatten (h.account.kept hfailed hcancelled)
  position := h.account.placed.position

theorem run_commits {s : System} (h : s.Sound) (labels : List Label) :
    s.world.completions.commits <+: (run step s labels).world.completions.commits := by
  induction labels generalizing s with
  | nil => exact List.prefix_refl _
  | cons label labels ih =>
    obtain ⟨houtcome, -⟩ := step_outcome h label
    have hstep : s.world.view.commits <+: (s.step label).world.view.commits := by
      rcases houtcome.goes h.rest with hgoes | ⟨entry, rest, -, heq⟩
      · exact hgoes.later.commits
      · rw [heq]
        exact View.deliver_commits entry _
    exact hstep.trans (ih (step_sound h label))

/-- Where nothing is owed any more, the `drain` was emitted or stands in the queue. -/
theorem drains_of_owing {start : Option Int} {s : System} (h : s.Accounts start)
    (labels : List Label)
    (howing : s.world.view.Owing (s.world.state.events.emitted.count .drain)) :
    Drains s (run step s labels) := by
  intro hwritable hcorked
  have hkeeps : ∀ s labels, Accounts start s → (run step s labels).Accounts start :=
    fun _ labels h =>
      run_preserves (P := Accounts start) (fun _ label h => step_accounts h label) h labels
  have h' := hkeeps s labels h
  have hopen := h'.sound.rest.writable_iff.mp hwritable
  have htally := h'.tally hopen
  obtain ⟨hchunks, hneed⟩ := htally.uncorked hcorked
  refine ⟨hchunks, fun labels' hwritable' hdelivered => ?_⟩
  have h'' := hkeeps _ labels' h'
  have htally' := h''.tally (h''.sound.rest.writable_iff.mp hwritable')
  obtain ⟨hreached, howed⟩ := run_owing h howing labels hopen
  -- what was queued at `t` has been started since
  have hstarted := List.prefix_of_prefix_length_le (run_commits h'.sound labels')
    h''.sound.delivered.started hdelivered
  have htimes : View.times .drain (run step s labels).world.view.commits ≤
      View.times .drain (run step (run step s labels) labels').world.view.starts :=
    hstarted.sublist.count_le _
  have hsince := (run_onward h'.sound labels').emitted
  have hmore : s.world.state.events.emitted.count .drain <
      (run step (run step s labels) labels').world.state.events.emitted.count .drain := by
    have htold : _ = View.times .drain _ := htally'.told
    have hcount : List.count Event.drain _ ≤ _ := hsince.sublist.count_le Event.drain
    rcases howed with hn | hs | he
    · rw [hneed] at hn
      cases hn
    · have hqueued := htally.queued
      have htold' := htally.told
      rw [hs, Bool.toNat_true] at hqueued
      change _ = View.times .drain _ at htold'
      calc s.world.state.events.emitted.count .drain
          < View.times .drain (run step s labels).world.view.commits := by omega
        _ ≤ _ := htimes
        _ = _ := htold.symm
    · exact lt_of_lt_of_le he hcount
  obtain ⟨later, hlater⟩ := (run_onward h.sound labels).emitted.trans hsince
  have hsplit : (run step (run step s labels) labels').world.state.events.emitted =
      s.world.state.events.emitted ++ later := hlater.symm
  rw [hsplit, List.count_append] at hmore
  rw [hsplit, List.drop_left]
  exact List.count_pos_iff.mp (by omega)

/-- The bytes of the accepted chunks are accounted for after every step, and a write that was pushed
back is followed by a `drain` when the stream is uncorked while it is open. -/
theorem bytes_accounted (owned autoClose flush : Bool) (start : Option Int) (highWaterMark : Int)
    (limit : Nat) (labels : List Label) :
    (run step (new owned autoClose flush start highWaterMark limit) labels).BytesAccounted start ∧
      ∀ value given answers,
        (run step (new owned autoClose flush start highWaterMark limit) labels).PushesBack
          value given answers → ∀ labels',
          Drains
            ((run step (new owned autoClose flush start highWaterMark limit) labels).step
              (.write value given answers))
            (run step ((run step (new owned autoClose flush start highWaterMark limit) labels).step
              (.write value given answers)) labels') := by
  have h := run_accounts owned autoClose flush start highWaterMark limit labels
  refine ⟨h.bytesAccounted, fun value given answers hback labels' => ?_⟩
  exact drains_of_owing (step_accounts h _) labels' (hback.owing h.sound)

/-- A corked stream with a high water mark of one byte pushes a write back, and drains. -/
theorem bytes_accounted_corked :
    (run step (new true true false none 1 64) [.cork]).PushesBack [7] false ready ∧
      Drains ((run step (new true true false none 1 64) [.cork]).step (.write [7] false ready))
        (run step ((run step (new true true false none 1 64) [.cork]).step (.write [7] false ready))
          [.uncork ready]) := by
  have hback : (run step (new true true false none 1 64) [.cork]).PushesBack [7] false ready :=
    ⟨_, rfl, rfl⟩
  exact ⟨hback, (bytes_accounted true true false none 1 64 [.cork]).2 [7] false ready hback _⟩

end System

end TsonicNode.Stream
