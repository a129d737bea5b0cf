import TsonicNode.Stream.WritableRule

/-!
# The callbacks of a writable stream

Every callback handed in is reported once: a write's when its chunk has been
written or the stream fails or is destroyed, an `end`'s when the stream
finishes, fails or is destroyed, and at once when the call is refused.

`calls` lists the callbacks reported so far and behind them those that wait;
a report moves one from the second part to the first and leaves the list as it
is. `Ledger` says what is known of that list, of the chunks that were taken and
written, and of what the reports said. What keeps it is shown here for the
parts that operations are made of: changes that tell no one anything
(`Carries`), chunks that are written, failures, finishing, and calls.
-/

namespace TsonicNode.Stream

open TsonicNode.Lib TsonicNode.Internal

/-- What an entry reports to a callback. -/
def Entry.report : Entry → Option (WriteCallback × Option TsError)
  | .completion callback error => some (callback, error)
  | _ => none

/-- Callbacks of one kind, in the order of the calls that handed them in. -/
def WriteCallback.Before (earlier later : WriteCallback) : Prop :=
  earlier.handing = later.handing → earlier.number < later.number

namespace View

/-- The reports among some entries, in order. -/
def reports (entries : List Entry) : List (WriteCallback × Option TsError) :=
  entries.filterMap Entry.report

@[simp] theorem reports_append (entries entries' : List Entry) :
    reports (entries ++ entries') = reports entries ++ reports entries' :=
  List.filterMap_append

@[simp] theorem reports_completing (error : Option TsError) (completions : List StreamCompletion) :
    reports (completing error completions) =
      completions.map fun completion => (completion.callback, error) := by
  unfold reports completing
  rw [List.filterMap_map]
  exact congrFun (List.filterMap_eq_map
    (f := fun completion : StreamCompletion => (completion.callback, error))) completions

@[simp] theorem reports_event (event : Event) : reports [.event event] = [] := rfl

@[simp] theorem reports_foreign : reports [.foreign] = [] := rfl

/-- What waits with the chunks from the `n`-th on. -/
def waiting (n : Nat) (v : View) : List WriteCallback :=
  (Writable.completions (v.state.chunks.drop n)).map StreamCompletion.callback

/-- What waits for the stream to finish. -/
def waitingEnds (v : View) : List WriteCallback :=
  v.state.events.endCompletions.map StreamCompletion.callback

/-- The callbacks that were reported, and behind them those that wait. -/
def calls (n : Nat) (v : View) : List WriteCallback :=
  (reports v.commits).map Prod.fst ++ v.waiting n ++ v.waitingEnds

/-- A chunk and its callback. -/
def request (request : WriteRequest) : List UInt8 × Option WriteCallback :=
  (request.chunk, request.completion.map StreamCompletion.callback)

/-- The callbacks of some chunks. -/
def callbacks (chunks : List (List UInt8 × Option WriteCallback)) : List WriteCallback :=
  chunks.filterMap Prod.snd

/-- The writes that were reported to have succeeded. -/
def successes (entries : List Entry) : List WriteCallback :=
  ((reports entries).filter fun report => report.1.handing = .write ∧ report.2 = none).map Prod.fst

/-- The stream failed: who was told, and of what, before the `error` was queued. -/
def Failure (h : History) (v : View) : Prop :=
  ∃ error before after, v.state.events.error = some error ∧
    v.commits = before ++ Entry.event .error :: after ∧
    (∀ callback ∈ callbacks (h.accepted.take v.state.file.whole.length),
      (callback, none) ∈ reports before) ∧
    (∀ callback ∈ callbacks (h.accepted.drop v.state.file.whole.length),
      (callback, some error) ∈ reports before) ∧
    ∀ callback ∈ h.ending,
      (callback, if v.state.events.finished then none else some error) ∈ reports before

/-- No `end` succeeds behind `finish`. -/
def EndsFirst (earlier later : Entry) : Prop :=
  earlier = .event .finish → ∀ number, later ≠ .completion ⟨.end, number⟩ none

structure Ledger (h : History) (n : Nat) (v : View) : Prop where
  writes : ∀ callback ∈ v.waiting n, callback.handing = .write
  ends : ∀ callback ∈ v.waitingEnds, callback.handing = .end
  listed : (v.calls n).Pairwise WriteCallback.Before
  numbered : ∀ callback ∈ v.calls n, callback.number < h.next
  handed : ∀ callback ∈ h.handed, callback ∈ v.calls n
  whole : v.state.file.whole <+: h.accepted.map Prod.fst
  successes : successes v.commits = callbacks (h.accepted.take v.state.file.whole.length)
  queued : v.state.failed = false → v.state.events.cancelled = false →
    (v.state.chunks.drop n).map request = h.accepted.drop v.state.file.whole.length
  pending : ¬ v.Settled → ∀ callback ∈ h.ending, callback ∈ v.waitingEnds
  finished : v.state.events.finished = true → ∀ callback ∈ h.ending,
    (callback, none) ∈ reports v.commits
  order : v.commits.Pairwise EndsFirst
  failure : v.state.failed = true → v.Failure h

/-! ## Reports -/

theorem waiting_eq (n : Nat) (v : View) :
    v.waiting n = callbacks ((v.state.chunks.drop n).map request) := by
  unfold waiting callbacks Writable.completions
  rw [List.filterMap_map, List.map_filterMap]
  rfl

@[simp] theorem callbacks_append (chunks chunks' : List (List UInt8 × Option WriteCallback)) :
    callbacks (chunks ++ chunks') = callbacks chunks ++ callbacks chunks' :=
  List.filterMap_append

@[simp] theorem successes_append (entries entries' : List Entry) :
    successes (entries ++ entries') = successes entries ++ successes entries' := by
  unfold successes
  rw [reports_append, List.filter_append, List.map_append]

/-- Whoever is told of a failure did not succeed. -/
theorem successes_failed (error : TsError) (completions : List StreamCompletion) :
    successes (completing (some error) completions) = [] := by
  unfold successes
  rw [reports_completing, List.filter_eq_nil_iff.mpr]
  · rfl
  · intro report hreport
    obtain ⟨completion, -, rfl⟩ := List.mem_map.mp hreport
    simp

theorem mem_successes {entries : List Entry} {callback : WriteCallback} :
    callback ∈ successes entries ↔
      callback.handing = .write ∧ (callback, none) ∈ reports entries := by
  unfold successes
  constructor
  · intro hmem
    obtain ⟨⟨c, error⟩, hreport, rfl⟩ := List.mem_map.mp hmem
    obtain ⟨hreport, hkind⟩ := List.mem_filter.mp hreport
    obtain ⟨hhanding, rfl⟩ := of_decide_eq_true hkind
    exact ⟨hhanding, hreport⟩
  · rintro ⟨hhanding, hreport⟩
    exact List.mem_map.mpr ⟨_, List.mem_filter.mpr ⟨hreport, decide_eq_true ⟨hhanding, rfl⟩⟩, rfl⟩

/-- Entries that report nothing. -/
theorem successes_silent {entries : List Entry} (h : reports entries = []) :
    successes entries = [] := by
  unfold successes
  rw [h]
  rfl

theorem Failure.commit {h : History} {v : View} (hf : v.Failure h) (entries : List Entry) :
    (v.commit entries).Failure h := by
  obtain ⟨error, before, after, herror, hcommits, hrest⟩ := hf
  refine ⟨error, before, after ++ entries, herror, ?_, hrest⟩
  show v.commits ++ entries = before ++ Entry.event .error :: (after ++ entries)
  rw [hcommits, List.append_assoc]
  rfl

/-! ## What keeps the ledger -/

/-- Entries that report no success of an `end` may come at any time. -/
theorem order_append {entries entries' : List Entry} (h : entries.Pairwise EndsFirst)
    (hentries : ∀ entry ∈ entries', ∀ number, entry ≠ .completion ⟨.end, number⟩ none) :
    (entries ++ entries').Pairwise EndsFirst :=
  List.pairwise_append.mpr ⟨h,
    List.pairwise_of_forall_mem_list fun _ _ b hb _ => hentries b hb,
    fun _ _ b hb _ => hentries b hb⟩

theorem ends_first_silent {entries : List Entry} (hentries : reports entries = []) :
    ∀ entry ∈ entries, ∀ number, entry ≠ .completion ⟨.end, number⟩ none := by
  rintro entry hentry number rfl
  have hmem : (⟨.end, number⟩, none) ∈ reports entries := List.mem_filterMap.mpr ⟨_, hentry, rfl⟩
  rw [hentries] at hmem
  cases hmem

/-- A change that leaves alone what waits, what was written and how it stands with the stream. -/
structure Carries (n m : Nat) (v v' : View) : Prop where
  commits : ∃ entries, v'.commits = v.commits ++ entries ∧ reports entries = []
  chunks : v'.state.chunks.drop m = v.state.chunks.drop n
  whole : v'.state.file.whole = v.state.file.whole
  ends : v'.state.events.endCompletions = v.state.events.endCompletions
  failed : v'.state.failed = v.state.failed
  error : v.state.failed = true → v'.state.events.error = v.state.events.error
  finished : v'.state.events.finished = v.state.events.finished
  settled : v.Settled → v'.Settled
  cancelled : v'.state.events.cancelled = false → v.state.events.cancelled = false

theorem Carries.refl (n : Nat) (v : View) : Carries n n v v :=
  ⟨⟨[], (List.append_nil _).symm, rfl⟩, rfl, rfl, rfl, rfl, fun _ => rfl, rfl, id, id⟩

theorem Carries.trans {n m k : Nat} {v v' v'' : View} (h : Carries n m v v')
    (h' : Carries m k v' v'') : Carries n k v v'' where
  commits := by
    obtain ⟨entries, hcommits, hsilent⟩ := h.commits
    obtain ⟨entries', hcommits', hsilent'⟩ := h'.commits
    exact ⟨entries ++ entries', by rw [hcommits', hcommits, List.append_assoc],
      by rw [reports_append, hsilent, hsilent', List.append_nil]⟩
  chunks := h'.chunks.trans h.chunks
  whole := h'.whole.trans h.whole
  ends := h'.ends.trans h.ends
  failed := h'.failed.trans h.failed
  error := fun hf => (h'.error (h.failed.trans hf)).trans (h.error hf)
  finished := h'.finished.trans h.finished
  settled := h'.settled ∘ h.settled
  cancelled := h.cancelled ∘ h'.cancelled

theorem Failure.carry {h : History} {n m : Nat} {v v' : View} (hf : v.Failure h)
    (hfailed : v.state.failed = true) (hc : Carries n m v v') : v'.Failure h := by
  obtain ⟨entries, hcommits, -⟩ := hc.commits
  obtain ⟨error, before, after, herror, hbefore, hrest⟩ := hf.commit entries
  refine ⟨error, before, after, (hc.error hfailed).trans herror, hcommits.trans hbefore, ?_⟩
  rw [hc.whole, hc.finished]
  exact hrest

theorem Ledger.carry {h : History} {n m : Nat} {v v' : View} (hl : Ledger h n v)
    (hc : Carries n m v v') : Ledger h m v' := by
  obtain ⟨entries, hcommits, hsilent⟩ := hc.commits
  have hwaiting : v'.waiting m = v.waiting n := by rw [waiting, waiting, hc.chunks]
  have hends : v'.waitingEnds = v.waitingEnds := by rw [waitingEnds, waitingEnds, hc.ends]
  have hreports : reports v'.commits = reports v.commits := by
    rw [hcommits, reports_append, hsilent, List.append_nil]
  have hcalls : v'.calls m = v.calls n := by rw [calls, calls, hreports, hwaiting, hends]
  exact
    { writes := by rw [hwaiting]; exact hl.writes
      ends := by rw [hends]; exact hl.ends
      listed := by rw [hcalls]; exact hl.listed
      numbered := by rw [hcalls]; exact hl.numbered
      handed := by rw [hcalls]; exact hl.handed
      whole := by rw [hc.whole]; exact hl.whole
      successes := by
        rw [hcommits, successes_append, successes_silent hsilent, List.append_nil, hc.whole]
        exact hl.successes
      queued := fun hf hcancelled => by
        rw [hc.chunks, hc.whole]
        exact hl.queued (hc.failed.symm.trans hf) (hc.cancelled hcancelled)
      pending := fun hs => by rw [hends]; exact hl.pending (hs ∘ hc.settled)
      finished := fun hf => by rw [hreports]; exact hl.finished (hc.finished.symm.trans hf)
      order := by
        rw [hcommits]
        exact order_append hl.order (ends_first_silent hsilent)
      failure := fun hf => by
        have hf := hc.failed.symm.trans hf
        exact (hl.failure hf).carry hf hc }

/-! ### Events -/

theorem finishEvents_carries (n : Nat) (v : View) : Carries n n v v.finishEvents := by
  unfold finishEvents
  split
  · exact .refl n v
  · exact ⟨⟨[.event .complete], rfl, rfl⟩, rfl, rfl, rfl, rfl, fun _ => rfl, rfl, id, id⟩

theorem queueClose_carries (n : Nat) (v : View) : Carries n n v v.queueClose := by
  unfold queueClose
  split
  · exact .refl n v
  · exact ⟨⟨[.event .close], rfl, rfl⟩, rfl, rfl, rfl, rfl, fun _ => rfl, rfl, id, id⟩

theorem closeEvents_carries (n : Nat) (v : View) : Carries n n v v.closeEvents := by
  have hscheduled : Carries n n v (v.setEvents fun events => { events with closeScheduled := true }) :=
    { Carries.refl n v with }
  unfold closeEvents
  dsimp only
  split
  · exact hscheduled.trans (queueClose_carries n _)
  · exact hscheduled

theorem drain_carries (n : Nat) (v : View) : Carries n n v v.drain := by
  unfold drain
  split
  · exact .refl n v
  · exact ⟨⟨[.event .drain], rfl, rfl⟩, rfl, rfl, rfl, rfl, fun _ => rfl, rfl, id, id⟩

theorem failEvents_carries (error : TsError) (n : Nat) {v : View}
    (herror : v.state.failed = true → v.state.events.errorScheduled = true) :
    Carries n n v (v.failEvents error) := by
  unfold failEvents
  split
  · exact .refl n v
  · rename_i hunscheduled
    exact
      { Carries.refl n v with
        commits := ⟨[.event .error], rfl, rfl⟩
        error := fun hf => absurd (.inl (herror hf)) hunscheduled
        settled := fun _ => .inr (.inl rfl) }

theorem closeDescriptor_carries (answers : Answers) (n : Nat) (v : View) :
    Carries n n v (v.closeDescriptor answers).2 := by
  rw [closeDescriptor_view]
  refine { Carries.refl n v with whole := ?_ }
  simp only [setState_state]
  split
  · exact DescriptorState.close_whole answers _
  · rfl

/-! ### Chunks -/

/-- A write's callback is told of its success. -/
theorem successes_written {completions : List StreamCompletion}
    (h : ∀ completion ∈ completions, completion.callback.handing = .write) :
    successes (completing none completions) = completions.map StreamCompletion.callback := by
  unfold successes
  rw [reports_completing, List.filter_eq_self.mpr, List.map_map]
  · rfl
  · intro report hreport
    obtain ⟨completion, hmem, rfl⟩ := List.mem_map.mp hreport
    simpa using h completion hmem

theorem completing_write {completions : List StreamCompletion} (error : Option TsError)
    (h : ∀ completion ∈ completions, completion.callback.handing = .write) :
    ∀ entry ∈ completing error completions, ∀ number, entry ≠ .completion ⟨.end, number⟩ none := by
  rintro entry hentry number rfl
  obtain ⟨completion, hmem, heq⟩ := List.mem_map.mp hentry
  have hhanding := h completion hmem
  simp only [Entry.completion.injEq] at heq
  rw [heq.1] at hhanding
  cases hhanding

theorem completing_failed (error : TsError) (completions : List StreamCompletion) :
    ∀ entry ∈ completing (some error) completions,
      ∀ number, entry ≠ .completion ⟨.end, number⟩ none := by
  rintro entry hentry number rfl
  obtain ⟨completion, -, heq⟩ := List.mem_map.mp hentry
  simp at heq

/-- Some of the chunks that waited have been written. -/
theorem Ledger.wrote {h : History} {n : Nat} {v v' : View} {done left : List WriteRequest}
    (hl : Ledger h n v) (hw : Wrote done v v') (hchunks : v.state.chunks.drop n = done ++ left)
    (hfailed : v.state.failed = false) (hcancelled : v.state.events.cancelled = false) :
    Ledger h (n + done.length) v' := by
  have hstate := hw.state
  have hchunks' : v'.state.chunks.drop (n + done.length) = left := by
    rw [hstate]
    show v.state.chunks.drop (n + done.length) = left
    rw [← List.drop_drop, hchunks, List.drop_left]
  have hends : v'.waitingEnds = v.waitingEnds := by rw [waitingEnds, hstate]; rfl
  have hdone : v.waiting n = (Writable.completions done).map StreamCompletion.callback ++
      v'.waiting (n + done.length) := by
    rw [waiting, waiting, hchunks, hchunks', Writable.completions, Writable.completions,
      Writable.completions, List.filterMap_append, List.map_append]
  have hwrites : ∀ completion ∈ Writable.completions done,
      completion.callback.handing = .write := fun completion hmem =>
    hl.writes _ (hdone ▸ List.mem_append_left _ (List.mem_map_of_mem hmem))
  have hreports : reports v'.commits = reports v.commits ++
      (Writable.completions done).map fun completion => (completion.callback, none) := by
    rw [hw.commits, reports_append, reports_completing]
  have hcalls : v'.calls (n + done.length) = v.calls n := by
    rw [calls, calls, hreports, hends, hdone, List.map_append, List.map_map]
    simp only [List.append_assoc]
    rfl
  have hqueued := hl.queued hfailed hcancelled
  rw [hchunks, List.map_append] at hqueued
  have hlength : v'.state.file.whole.length = v.state.file.whole.length + done.length := by
    rw [hw.whole, List.length_append, List.length_map]
  have htake : (h.accepted.drop v.state.file.whole.length).take done.length = done.map request := by
    rw [← hqueued, List.take_left' (List.length_map _)]
  have hsettled : v'.Settled ↔ v.Settled := by rw [Settled, hstate]; rfl
  exact
    { writes := fun c hc => hl.writes c (hdone ▸ List.mem_append_right _ hc)
      ends := by rw [hends]; exact hl.ends
      listed := by rw [hcalls]; exact hl.listed
      numbered := by rw [hcalls]; exact hl.numbered
      handed := by rw [hcalls]; exact hl.handed
      whole := by
        obtain ⟨rest, hrest⟩ := hl.whole
        refine ⟨left.map WriteRequest.chunk, ?_⟩
        have hdrop : (h.accepted.map Prod.fst).drop v.state.file.whole.length =
            done.map WriteRequest.chunk ++ left.map WriteRequest.chunk := by
          rw [← List.map_drop, ← hqueued, List.map_append, List.map_map, List.map_map]
          rfl
        rw [← hrest, List.drop_left] at hdrop
        rw [hw.whole, List.append_assoc, ← hdrop, hrest]
      successes := by
        rw [hw.commits, successes_append, hl.successes, successes_written hwrites, hlength,
          List.take_add, callbacks_append, htake]
        congr 1
        rw [callbacks, List.filterMap_map, Writable.completions, List.map_filterMap]
        rfl
      queued := fun _ _ => by
        rw [hchunks', hlength, ← List.drop_drop, ← hqueued, List.drop_left' (List.length_map _)]
      pending := fun hs => by rw [hends]; exact hl.pending (hs ∘ hsettled.mpr)
      finished := fun hf c hc => by
        rw [hstate] at hf
        rw [hreports]
        exact List.mem_append_left _ (hl.finished hf c hc)
      order := by
        rw [hw.commits]
        exact order_append hl.order (completing_write none hwrites)
      failure := fun hf => by
        rw [hstate] at hf
        exact absurd (hfailed.symm.trans hf) (by decide) }

/-! ### Failing -/

/-- A stream that may fail: it is neither destroyed nor closed, and has failed if it has an error. -/
structure Failable (v : View) : Prop where
  cancelled : v.state.events.cancelled = false
  closed : v.state.events.closed = false
  scheduled : v.state.events.errorScheduled = v.state.events.error.isSome
  recorded : v.state.events.error.isSome = v.state.failed
  chunks : v.state.failed = true → v.state.chunks = []
  ends : v.state.failed = true → v.state.events.endCompletions = []

/-- What a failure reports. -/
theorem refuse_commits (error : TsError) (n : Nat) (v : View) :
    (v.refuse error n).commits = v.commits ++
      completing (some error) (Writable.completions (v.state.chunks.drop n)) ++
      completing (some error) v.state.events.endCompletions := rfl

/-- Failing once more changes nothing. -/
theorem fail_again {v : View} (error : TsError) (n : Nat) (hf : v.Failable)
    (hfailed : v.state.failed = true) :
    Carries n 0 v ((v.refuse error n).failEvents error) := by
  have hscheduled : v.state.events.errorScheduled = true :=
    (hf.scheduled.trans hf.recorded).trans hfailed
  have hsame : (v.refuse error n).failEvents error = v.refuse error n := if_pos (.inl hscheduled)
  have hchunks : v.state.chunks.drop n = [] := by rw [hf.chunks hfailed, List.drop_nil]
  rw [hsame]
  exact
    { commits := ⟨[], by rw [refuse_commits, hchunks, hf.ends hfailed]; simp [completing, Writable.completions], rfl⟩
      chunks := by rw [hchunks]; rfl
      whole := rfl
      ends := (hf.ends hfailed).symm
      failed := hfailed.symm
      error := fun _ => rfl
      finished := rfl
      settled := id
      cancelled := id }

/-- The first failure tells every callback that waits, and then queues its `error`. -/
theorem Ledger.fail_first {h : History} {n : Nat} {v : View} (hl : Ledger h n v) (error : TsError)
    (hf : v.Failable) (hfailed : v.state.failed = false) :
    Ledger h 0 ((v.refuse error n).failEvents error) := by
  have hnone : v.state.events.error.isSome = false := hf.recorded.trans hfailed
  have hopen : ¬ ((v.refuse error n).state.events.errorScheduled = true ∨
      (v.refuse error n).state.events.closed = true) := by
    rw [refuse_state]
    rintro (hs | hc)
    · exact absurd ((hf.scheduled.trans hnone).symm.trans hs) (by decide)
    · exact absurd (hf.closed.symm.trans hc) (by decide)
  have hview : (v.refuse error n).failEvents error = ((v.refuse error n).setEvents fun events =>
      { events with error := some error, errorScheduled := true }).commit [.event .error] :=
    if_neg hopen
  have hcommits : ((v.refuse error n).failEvents error).commits = v.commits ++
      completing (some error) (Writable.completions (v.state.chunks.drop n)) ++
      completing (some error) v.state.events.endCompletions ++ [.event .error] := by
    rw [hview]
    rfl
  have hreports : reports ((v.refuse error n).failEvents error).commits = reports v.commits ++
      (Writable.completions (v.state.chunks.drop n)).map (fun c => (c.callback, some error)) ++
      v.state.events.endCompletions.map fun c => (c.callback, some error) := by
    rw [hcommits]
    simp
  have hcalls : ((v.refuse error n).failEvents error).calls 0 = v.calls n := by
    rw [calls, calls, hreports, hview]
    simp [waiting, waitingEnds, Writable.completions, Function.comp_def]
  have hsuccesses : View.successes ((v.refuse error n).failEvents error).commits =
      View.successes v.commits := by
    rw [hcommits]
    simp only [successes_append, successes_failed, List.append_nil]
    exact List.append_nil _
  refine
    { writes := ?_
      ends := ?_
      listed := by rw [hcalls]; exact hl.listed
      numbered := by rw [hcalls]; exact hl.numbered
      handed := by rw [hcalls]; exact hl.handed
      whole := by rw [hview]; exact hl.whole
      successes := by rw [hsuccesses, hview]; exact hl.successes
      queued := ?_
      pending := ?_
      finished := ?_
      order := ?_
      failure := fun _ => ?_ }
  · rw [hview]
    exact fun _ hc => by cases hc
  · rw [hview]
    exact fun _ hc => by cases hc
  · rw [hview]
    exact fun hc => by cases hc
  · rw [hview]
    exact fun hs => absurd (.inr (.inl rfl)) hs
  · intro hfinished c hc
    rw [hview] at hfinished
    rw [hreports]
    exact List.mem_append_left _ (List.mem_append_left _ (hl.finished hfinished c hc))
  · rw [hcommits]
    refine order_append (order_append (order_append hl.order ?_) ?_) (ends_first_silent rfl)
    · exact completing_failed error _
    · exact completing_failed error _
  · refine ⟨error, v.commits ++
      completing (some error) (Writable.completions (v.state.chunks.drop n)) ++
      completing (some error) v.state.events.endCompletions, [], ?_, hcommits, ?_⟩
    · rw [hview]
      rfl
    · rw [hview]
      refine ⟨fun c hc => ?_, fun c hc => ?_, fun c hc => ?_⟩
      · have hc : c ∈ View.successes v.commits := hl.successes ▸ hc
        rw [reports_append, reports_append]
        exact List.mem_append_left _ (List.mem_append_left _ (mem_successes.mp hc).2)
      · have hc : c ∈ v.waiting n := by
          rw [waiting_eq, hl.queued hfailed hf.cancelled]
          exact hc
        rw [reports_append, reports_append, reports_completing]
        obtain ⟨completion, hmem, rfl⟩ := List.mem_map.mp hc
        exact List.mem_append_left _ (List.mem_append_right _ (List.mem_map.mpr ⟨_, hmem, rfl⟩))
      · show (c, if v.state.events.finished = true then none else some error) ∈ _
        rw [reports_append, reports_append, reports_completing, reports_completing]
        by_cases hfinished : v.state.events.finished = true
        · rw [if_pos hfinished]
          exact List.mem_append_left _ (List.mem_append_left _ (hl.finished hfinished c hc))
        · rw [if_neg hfinished]
          have hunsettled : ¬ v.Settled := by
            rintro (hs | hs | hs)
            · exact hfinished hs
            · exact absurd (hnone.symm.trans hs) (by decide)
            · exact absurd (hf.cancelled.symm.trans hs) (by decide)
          obtain ⟨completion, hmem, rfl⟩ := List.mem_map.mp (hl.pending hunsettled c hc)
          exact List.mem_append_right _ (List.mem_map.mpr ⟨_, hmem, rfl⟩)

theorem Ledger.fail {h : History} {n : Nat} {v : View} (hl : Ledger h n v) (error : TsError)
    (hf : v.Failable) : Ledger h 0 (v.fail error n) := by
  have hfailed : Ledger h 0 ((v.refuse error n).failEvents error) := by
    by_cases hfailed : v.state.failed = true
    · exact hl.carry (fail_again error n hf hfailed)
    · exact hl.fail_first error hf (by simpa using hfailed)
  unfold View.fail
  dsimp only
  split
  · refine Ledger.carry (v := View.setState _ _) ?_ (closeEvents_carries 0 _)
    exact hfailed.carry { Carries.refl 0 _ with }
  · exact hfailed

/-! ### Finishing and destroying -/

/-- The stream finishes: the callbacks that wait succeed, and then `finish` is queued. -/
theorem Ledger.finishing {h : History} {v : View} (hl : Ledger h 0 v) (hchunks : v.state.chunks = [])
    (hsettled : ¬ v.Settled) (hfailed : v.state.failed = false)
    (hfinish : times .finish v.commits = 0) : Ledger h 0 v.finishing := by
  have hcommits : v.finishing.commits =
      v.commits ++ completing none v.state.events.endCompletions ++ [.event .finish] := rfl
  have hreports : reports v.finishing.commits = reports v.commits ++
      v.state.events.endCompletions.map fun c => (c.callback, none) := by
    rw [hcommits]
    simp
  have hcalls : v.finishing.calls 0 = v.calls 0 := by
    rw [calls, calls, hreports]
    simp [View.finishing, waiting, waitingEnds, Writable.completions, hchunks, Function.comp_def]
  have hends : ∀ completion ∈ v.state.events.endCompletions,
      ¬ completion.callback.handing = .write := fun completion hmem heq => by
    rw [hl.ends _ (List.mem_map_of_mem hmem)] at heq
    cases heq
  have hnone : View.successes (completing none v.state.events.endCompletions) = [] := by
    rw [List.eq_nil_iff_forall_not_mem]
    intro c hc
    obtain ⟨hwrite, hreport⟩ := mem_successes.mp hc
    rw [reports_completing] at hreport
    obtain ⟨completion, hmem, heq⟩ := List.mem_map.mp hreport
    obtain ⟨rfl, -⟩ := Prod.mk.inj heq
    exact hends completion hmem hwrite
  exact
    { writes := hl.writes
      ends := fun _ hc => by cases hc
      listed := by rw [hcalls]; exact hl.listed
      numbered := by rw [hcalls]; exact hl.numbered
      handed := by rw [hcalls]; exact hl.handed
      whole := hl.whole
      successes := by
        have hfinished : View.successes [.event .finish] = [] := rfl
        rw [hcommits, successes_append, successes_append, hnone, hfinished, List.append_nil,
          List.append_nil]
        exact hl.successes
      queued := hl.queued
      pending := fun hs => absurd (.inl rfl) hs
      finished := fun _ c hc => by
        rw [hreports]
        obtain ⟨completion, hmem, rfl⟩ := List.mem_map.mp (hl.pending hsettled c hc)
        exact List.mem_append_right _ (List.mem_map.mpr ⟨_, hmem, rfl⟩)
      order := by
        rw [hcommits]
        refine order_append (List.pairwise_append.mpr ⟨hl.order, ?_, ?_⟩) (ends_first_silent rfl)
        · refine List.pairwise_of_forall_mem_list fun a ha _ _ hfirst => ?_
          obtain ⟨completion, -, heq⟩ := List.mem_map.mp ha
          rw [hfirst] at heq
          cases heq
        · exact fun a ha _ _ hfirst => absurd (hfirst ▸ ha) (event_notMem hfinish)
      failure := fun hf => absurd (hfailed.symm.trans hf) (by decide) }

/-- `destroy` tells every callback that waits. -/
theorem Ledger.abandon {h : History} {v : View} (hl : Ledger h 0 v) (error : TsError) :
    Ledger h 0 (v.cancel.abandon error) := by
  have hcommits : (v.cancel.abandon error).commits = v.commits ++
      completing (some error) (Writable.completions v.state.chunks) ++
      completing (some error) v.state.events.endCompletions := rfl
  have hreports : reports (v.cancel.abandon error).commits = reports v.commits ++
      (Writable.completions v.state.chunks).map (fun c => (c.callback, some error)) ++
      v.state.events.endCompletions.map fun c => (c.callback, some error) := by
    rw [hcommits]
    simp
  have hcalls : (v.cancel.abandon error).calls 0 = v.calls 0 := by
    rw [calls, calls, hreports]
    simp [View.abandon, waiting, waitingEnds, Writable.completions, Function.comp_def]
  exact
    { writes := fun _ hc => by cases hc
      ends := fun _ hc => by cases hc
      listed := by rw [hcalls]; exact hl.listed
      numbered := by rw [hcalls]; exact hl.numbered
      handed := by rw [hcalls]; exact hl.handed
      whole := hl.whole
      successes := by
        rw [hcommits, successes_append, successes_append, successes_failed, successes_failed,
          List.append_nil, List.append_nil]
        exact hl.successes
      queued := fun _ hc => by cases hc
      pending := fun hs => absurd (.inr (.inr rfl)) hs
      finished := fun hf c hc => by
        rw [hreports]
        exact List.mem_append_left _ (List.mem_append_left _ (hl.finished hf c hc))
      order := by
        rw [hcommits]
        refine order_append (order_append hl.order ?_) ?_
        · exact completing_failed error _
        · exact completing_failed error _
      failure := fun hf => ((hl.failure hf).commit _).commit _ }

/-! ### Calls -/

/-- What a call adds to the history: at most one callback, with a new number. -/
structure Hands (handing : Handing) (callback : Option WriteCallback) (h h' : History) : Prop where
  later : h.next ≤ h'.next
  number : ∀ c ∈ callback, c = ⟨handing, h.next⟩ ∧ h.next < h'.next
  handed : ∀ c ∈ h'.handed, c ∈ h.handed ∨ c ∈ callback

/-- A history that knows less of the callbacks. -/
theorem Ledger.weaken {h h' : History} {n : Nat} {v : View} (hl : Ledger h n v)
    (hnext : h.next ≤ h'.next) (haccepted : h'.accepted = h.accepted)
    (hhanded : ∀ c ∈ h'.handed, c ∈ h.handed) (hending : ∀ c ∈ h'.ending, c ∈ h.ending) :
    Ledger h' n v :=
  { hl with
    numbered := fun c hc => Nat.lt_of_lt_of_le (hl.numbered c hc) hnext
    handed := fun c hc => hl.handed c (hhanded c hc)
    whole := by rw [haccepted]; exact hl.whole
    successes := by rw [haccepted]; exact hl.successes
    queued := by rw [haccepted]; exact hl.queued
    pending := fun hs c hc => hl.pending hs c (hending c hc)
    finished := fun hf c hc => hl.finished hf c (hending c hc)
    failure := fun hf => by
      obtain ⟨error, before, after, herror, hcommits, hdone, hleft, hends⟩ := hl.failure hf
      exact ⟨error, before, after, herror, hcommits, haccepted ▸ hdone, haccepted ▸ hleft,
        fun c hc => hends c (hending c hc)⟩ }

/-- A callback joins those that wait, or those that were told: behind every other of its kind. -/
theorem Hands.listed {handing : Handing} {callback : Option WriteCallback} {h h' : History}
    {told others : List WriteCallback} (hh : Hands handing callback h h')
    (hlisted : (told ++ others).Pairwise WriteCallback.Before)
    (hnumbered : ∀ c ∈ told ++ others, c.number < h.next)
    (hothers : ∀ c ∈ others, c.handing ≠ handing) :
    (told ++ callback.toList ++ others).Pairwise WriteCallback.Before := by
  obtain ⟨htold, hothers', hacross⟩ := List.pairwise_append.mp hlisted
  cases callback with
  | none => rw [Option.toList_none, List.append_nil]; exact hlisted
  | some c =>
    obtain ⟨rfl, -⟩ := hh.number c rfl
    refine List.pairwise_append.mpr ⟨List.pairwise_append.mpr ⟨htold, List.pairwise_singleton _ _,
      fun a ha b hb _ => ?_⟩, hothers', fun a ha b hb heq => ?_⟩
    · rw [List.mem_singleton.mp hb]
      exact hnumbered a (List.mem_append_left _ ha)
    · rcases List.mem_append.mp ha with ha | ha
      · exact hacross a ha b hb heq
      · rw [List.mem_singleton.mp ha] at heq
        exact absurd heq.symm (hothers b hb)

theorem Hands.numbered {handing : Handing} {callback : Option WriteCallback} {h h' : History}
    {told others : List WriteCallback} (hh : Hands handing callback h h')
    (hnumbered : ∀ c ∈ told ++ others, c.number < h.next) :
    ∀ c ∈ told ++ callback.toList ++ others, c.number < h'.next := by
  intro c hc
  simp only [List.mem_append, Option.mem_toList] at hc
  rcases hc with (hc | hc) | hc
  · exact Nat.lt_of_lt_of_le (hnumbered c (List.mem_append_left _ hc)) hh.later
  · obtain ⟨rfl, hlt⟩ := hh.number c hc
    exact hlt
  · exact Nat.lt_of_lt_of_le (hnumbered c (List.mem_append_right _ hc)) hh.later

theorem Hands.found {handing : Handing} {callback : Option WriteCallback} {h h' : History}
    {told others : List WriteCallback} (hh : Hands handing callback h h')
    (hhanded : ∀ c ∈ h.handed, c ∈ told ++ others) :
    ∀ c ∈ h'.handed, c ∈ told ++ callback.toList ++ others := by
  intro c hc
  simp only [List.mem_append, Option.mem_toList]
  rcases hh.handed c hc with hc | hc
  · rcases List.mem_append.mp (hhanded c hc) with hc | hc
    · exact .inl (.inl hc)
    · exact .inr hc
  · exact .inl (.inr hc)

/-- A call that is refused: its callback, if any, is told at once. -/
theorem Ledger.refuse {handing : Handing} {completion : Option StreamCompletion} {h h' : History}
    {v : View} (hl : Ledger h 0 v) (error : TsError)
    (hh : Hands handing (completion.map StreamCompletion.callback) h h')
    (haccepted : h'.accepted = h.accepted) (hending : ∀ c ∈ h'.ending, c ∈ h.ending)
    (hnone : ∀ c ∈ v.waiting 0 ++ v.waitingEnds, c.handing ≠ handing) :
    Ledger h' 0 (v.completeAll (some error) completion.toList) := by
  have hcommits : (v.completeAll (some error) completion.toList).commits =
      v.commits ++ completing (some error) completion.toList := rfl
  have hcalls : (v.completeAll (some error) completion.toList).calls 0 =
      (reports v.commits).map Prod.fst ++ (completion.map StreamCompletion.callback).toList ++
        (v.waiting 0 ++ v.waitingEnds) := by
    rw [calls, hcommits, reports_append, reports_completing]
    cases completion <;> simp [waiting, waitingEnds]
  have hcalls' : v.calls 0 = (reports v.commits).map Prod.fst ++ (v.waiting 0 ++ v.waitingEnds) :=
    List.append_assoc _ _ _
  have hlisted := hl.listed
  have hnumbered := hl.numbered
  have hhanded := hl.handed
  rw [hcalls'] at hlisted hnumbered hhanded
  exact
    { writes := hl.writes
      ends := hl.ends
      listed := by rw [hcalls]; exact hh.listed hlisted hnumbered hnone
      numbered := by rw [hcalls]; exact hh.numbered hnumbered
      handed := by rw [hcalls]; exact hh.found hhanded
      whole := by rw [haccepted]; exact hl.whole
      successes := by
        rw [hcommits, successes_append, successes_failed, List.append_nil, haccepted]
        exact hl.successes
      queued := by rw [haccepted]; exact hl.queued
      pending := fun hs c hc => hl.pending hs c (hending c hc)
      finished := fun hf c hc => by
        rw [hcommits, reports_append]
        exact List.mem_append_left _ (hl.finished hf c (hending c hc))
      order := by
        rw [hcommits]
        exact order_append hl.order (completing_failed error _)
      failure := fun hf => by
        obtain ⟨error', before, after, herror, hbefore, hdone, hleft, hends⟩ :=
          (hl.failure hf).commit (completing (some error) completion.toList)
        exact ⟨error', before, after, herror, hbefore, haccepted ▸ hdone, haccepted ▸ hleft,
          fun c hc => hends c (hending c hc)⟩ }

/-- A chunk that is taken. -/
theorem Ledger.accept {value : List UInt8} {completion : Option StreamCompletion} {h h' : History}
    {v : View} (hl : Ledger h 0 v)
    (hh : Hands .write (completion.map StreamCompletion.callback) h h')
    (haccepted : h'.accepted =
      h.accepted ++ [(value, completion.map StreamCompletion.callback)])
    (hending : ∀ c ∈ h'.ending, c ∈ h.ending) (hfailed : v.state.failed = false)
    (hcancelled : v.state.events.cancelled = false) : Ledger h' 0 (v.accept value completion) := by
  have hchunks : (v.accept value completion).state.chunks = v.state.chunks ++ [⟨value, completion⟩] :=
    rfl
  have hwaiting : (v.accept value completion).waiting 0 =
      v.waiting 0 ++ (completion.map StreamCompletion.callback).toList := by
    rw [waiting, waiting, hchunks]
    cases completion <;> simp [Writable.completions]
  have hcalls : (v.accept value completion).calls 0 =
      ((reports v.commits).map Prod.fst ++ v.waiting 0) ++
        (completion.map StreamCompletion.callback).toList ++ v.waitingEnds := by
    rw [calls, hwaiting, ← List.append_assoc]
    rfl
  have hwhole : (v.accept value completion).state.file.whole = v.state.file.whole := rfl
  have hends : ∀ c ∈ v.waitingEnds, c.handing ≠ .write := fun c hc heq => by
    rw [hl.ends c hc] at heq
    cases heq
  have hqueued := hl.queued hfailed hcancelled
  have hk : v.state.file.whole.length ≤ h.accepted.length := by
    simpa using hl.whole.length_le
  exact
    { writes := fun c hc => by
        rw [hwaiting] at hc
        rcases List.mem_append.mp hc with hc | hc
        · exact hl.writes c hc
        · obtain ⟨rfl, -⟩ := hh.number c (Option.mem_toList.mp hc)
          rfl
      ends := hl.ends
      listed := by rw [hcalls]; exact hh.listed hl.listed hl.numbered hends
      numbered := by rw [hcalls]; exact hh.numbered hl.numbered
      handed := by rw [hcalls]; exact hh.found hl.handed
      whole := by
        rw [haccepted, List.map_append]
        exact hl.whole.trans (List.prefix_append _ _)
      successes := by
        rw [haccepted, hwhole, List.take_append_of_le_length hk]
        exact hl.successes
      queued := fun _ _ => by
        rw [haccepted, hwhole, List.drop_append_of_le_length hk, ← hqueued, hchunks, List.drop_zero,
          List.drop_zero, List.map_append]
        rfl
      pending := fun hs c hc => hl.pending hs c (hending c hc)
      finished := fun hf c hc => hl.finished hf c (hending c hc)
      order := hl.order
      failure := fun hf => absurd (hfailed.symm.trans hf) (by decide) }

/-- A callback that waits for the stream to finish. -/
theorem Ledger.retain {completion : StreamCompletion} {h h' : History} {v : View}
    (hl : Ledger h 0 v) (hh : Hands .end (some completion.callback) h h')
    (haccepted : h'.accepted = h.accepted)
    (hending : ∀ c ∈ h'.ending, c ∈ h.ending ∨ c = completion.callback) (hsettled : ¬ v.Settled)
    (hfailed : v.state.failed = false) :
    Ledger h' 0 (v.setEvents fun events =>
      { events with endCompletions := events.endCompletions ++ [completion] }) := by
  let v' := v.setEvents fun events =>
    { events with endCompletions := events.endCompletions ++ [completion] }
  have hends : v'.waitingEnds = v.waitingEnds ++ [completion.callback] := List.map_append
  have hcalls : v'.calls 0 = v.calls 0 ++ (some completion.callback).toList ++ [] := by
    rw [calls, hends, ← List.append_assoc, List.append_nil]
    rfl
  have hall : v.calls 0 = v.calls 0 ++ [] := (List.append_nil _).symm
  have hlisted := hl.listed
  have hnumbered := hl.numbered
  have hhanded := hl.handed
  rw [hall] at hlisted hnumbered hhanded
  exact
    { writes := hl.writes
      ends := fun c hc => by
        rcases List.mem_append.mp (hends ▸ hc) with hc | hc
        · exact hl.ends c hc
        · obtain ⟨hnumber, -⟩ := hh.number _ rfl
          rw [List.mem_singleton.mp hc, hnumber]
      listed := by
        rw [hcalls]
        exact hh.listed hlisted hnumbered fun _ hc => by cases hc
      numbered := by rw [hcalls]; exact hh.numbered hnumbered
      handed := by rw [hcalls]; exact hh.found hhanded
      whole := by rw [haccepted]; exact hl.whole
      successes := by rw [haccepted]; exact hl.successes
      queued := by rw [haccepted]; exact hl.queued
      pending := fun _ c hc => by
        rw [hends, List.mem_append, List.mem_singleton]
        exact (hending c hc).imp_left (hl.pending hsettled c)
      finished := fun hf => absurd (.inl hf) hsettled
      order := hl.order
      failure := fun hf => absurd (hfailed.symm.trans hf) (by decide) }

theorem callback_number {handing : Handing} {given : Bool} {h : History} {c : WriteCallback}
    (hc : c ∈ h.callback handing given) : c = ⟨handing, h.next⟩ := by
  unfold History.callback at hc
  split at hc
  · exact (Option.some.inj hc).symm
  · cases hc

/-- The call of `end` and its callback. -/
theorem Ledger.retainEnds {completion : Option StreamCompletion} {given : Bool} {h : History}
    {v : View} (hl : Ledger h 0 v) (hr : v.Rest)
    (hcallback : completion.map StreamCompletion.callback = h.callback .end given) :
    Ledger (h.ended given v.state.events) 0 (v.retainEnds completion) := by
  have hh : Hands .end (completion.map StreamCompletion.callback) h
      (h.ended given v.state.events) := by
    rw [hcallback]
    exact
      { later := Nat.le_succ _
        number := fun c hc => ⟨callback_number hc, Nat.lt_succ_self _⟩
        handed := fun c hc => (List.mem_append.mp hc).imp_right Option.mem_toList.mp }
  cases completion with
  | none =>
    have hnone : h.callback .end given = none := hcallback.symm
    refine hl.weaken (Nat.le_succ _) rfl ?_ ?_
    · simp [History.ended, hnone]
    · simp [History.ended, hnone]
  | some completion =>
    have hsome : h.callback .end given = some completion.callback := hcallback.symm
    -- a call that is refused finds nothing waiting
    have hrefused : ∀ error, v.Settled ∨ v.state.events.closed = true →
        Ledger (h.ended given v.state.events) 0 (v.completeAll (some error) [completion]) := by
      intro error hover
      have hsettled : v.Settled := hover.elim id fun hc =>
        hr.events.settled (hr.events.closed hc)
      show Ledger (h.ended given v.state.events) 0
        (v.completeAll (some error) (some completion).toList)
      refine hl.refuse error hh rfl ?_ ?_
      · have hover' : v.state.events.error.isSome = true ∨ v.state.events.cancelled = true ∨
            v.state.events.closed = true ∨ v.state.events.finished = true := by
          rcases hover with (hf | he | hc) | hc
          · exact .inr (.inr (.inr hf))
          · exact .inl he
          · exact .inr (.inl hc)
          · exact .inr (.inr (.inl hc))
        simp only [History.ended, if_pos hover']
        exact fun _ hc => hc
      · intro c hc heq
        rw [waitingEnds, hr.phase.ends hsettled, List.map_nil, List.append_nil] at hc
        rw [hl.writes c hc] at heq
        cases heq
    unfold View.retainEnds retainEnd
    dsimp only
    split
    · rename_i error herror
      exact hrefused error (.inl (.inr (.inl (by rw [herror]; rfl))))
    · rename_i herror
      split
      · rename_i hover
        exact hrefused _ (hover.elim (fun hc => .inl (.inr (.inr hc))) .inr)
      · rename_i hopen
        split
        · rename_i hfinished
          exact hrefused _ (.inl (.inl hfinished))
        · rename_i hfinished
          have hunsettled : ¬ v.Settled := by
            rintro (hf | he | hc)
            · exact hfinished hf
            · rw [herror] at he
              cases he
            · exact hopen (.inl hc)
          refine hl.retain hh rfl ?_ hunsettled ?_
          · intro c hc
            have hopen' : ¬ (v.state.events.error.isSome = true ∨
                v.state.events.cancelled = true ∨ v.state.events.closed = true ∨
                v.state.events.finished = true) := by
              rintro (he | hc | hc | hf)
              · rw [herror] at he
                cases he
              · exact hopen (.inl hc)
              · exact hopen (.inr hc)
              · exact hfinished hf
            simp only [History.ended, if_neg hopen', hsome] at hc
            simpa using hc
          · by_contra hf
            exact hunsettled (.inr (.inl (hr.phase.failed (by simpa using hf))))

end View

end TsonicNode.Stream
