import TsonicNode.Stream.ReadFile

/-!
# The end of a range

The input ends where a read gives nothing, and where the place has passed the
end of the range. The first is announced: `readablePending` makes the next poll
call the `readable` listeners. The second is not, unless the flag was set before
or the read that meets it ends the stream at once; `Safe` says when a step does
not meet it otherwise, and in runs of such steps the end is announced
(`range_announced`).
-/

namespace TsonicNode.Stream

open TsonicNode.Lib TsonicNode.Buffer

namespace Readable

variable {World : Type}

/-- The place is behind the range, and the next request meets that. -/
def PastEnd (s : Readable World) : Prop :=
  s.descriptor = true ∧ s.eof = false ∧ s.nativeRead = none ∧ ∃ last, s.last = some last ∧ last < s.place

def Over (s : Readable World) : Prop := s.ended = true ∨ s.closed = true ∨ s.failed = true

/-- What `_read_sized` would give. -/
def desired (s : Readable World) (selected : Option Int) : Nat :=
  match selected with
  | none => s.chunkSize
  | some size => size.toNat

section
variable (unpaired : List UInt16 → Error)

/-- A poll meets the end with the flag set. -/
def SafePoll (s : Readable World) : Prop := s.PastEnd → s.chunks.length = 0 → s.readablePending = true

/-- A read that meets the end has nothing to give. -/
def SafeRead (s : Readable World) (selected : Option Int) : Prop :=
  s.PastEnd → s.chunks.length < s.desired selected ∨ s.chunks.length = 0 →
    ∃ chunks, ReadBuffer.finish unpaired s.chunks = .ok () chunks ∧ chunks.length = 0

/-- With a `readable` listener, the step does not meet the end of the range unannounced. -/
def Safe (s : Readable World) (action : Action) : Prop :=
  s.readableListener = true → s.Open → s.ended = false →
    match action with
    | .read selected _ => SafeRead unpaired s selected
    | .pollInput => s.SafePoll
    | .poll blocked _ => blocked = false → s.phase = .idle → s.resumePending = false → s.SafePoll
    | .goOn _ => s.phase = .resuming false → s.SafePoll
    | _ => True

end

/-- What holds between the functions of the input; `bound` is what a read would have. -/
structure Telling (raw listener : Bool) (bound : Nat) (s : Readable World) : Prop where
  listens : s.readableListener = listener
  eof : s.owed = true → s.eof = true
  due : listener = true → s.owed = true → s.readablePending = true ∨ s.Over
  few : raw = true → s.owed = true → s.chunks.length < bound

/-- What a function of the input raises in. -/
def Raising (raw listener : Bool) (bound : Nat) (s : Readable World) : Prop :=
  Telling raw listener bound s ∧ (raw = true → s.owed = true → s.failed = true)

/-- What holds between two actions. -/
structure Announcing (raw : Bool) (s : Readable World) : Prop where
  eof : s.owed = true → s.eof = true
  due : s.readableListener = true → s.owed = true → s.readablePending = true ∨ s.Over
  empty : raw = true → s.owed = true → s.failed = false → s.chunks.length = 0

/-- The next request does not meet the end unannounced. -/
def Next (listener : Bool) (s : Readable World) : Prop :=
  listener = true → s.readablePending = true ∨ s.Over ∨ ¬ s.PastEnd

/-! ## Events -/

/-- Only the events and the queue change. -/
def Aside (s t : Readable World) : Prop :=
  ∃ events pending free record, t = { s with events, pending, free, record }

section
variable {unpaired : List UInt16 → Error} {device : Device World} {raw listener : Bool} {bound : Nat}
  {s t : Readable World}

theorem Aside.refl (s : Readable World) : Aside s s := ⟨_, _, _, _, rfl⟩

theorem Aside.trans {u : Readable World} (h : Aside s t) (h' : Aside t u) : Aside s u := by
  obtain ⟨_, _, _, _, rfl⟩ := h
  obtain ⟨_, _, _, _, rfl⟩ := h'
  exact ⟨_, _, _, _, rfl⟩

theorem prepare_aside (s : Readable World) : wp prepare (fun _ t => Aside s t) (fun _ t => Aside s t) s := by
  simp only [prepare, wp_bind, wp_get, wp_ite, wp_pure, wp_throw, wp_set]
  split
  · exact .refl s
  · split
    · exact .refl s
    · exact ⟨_, _, _, _, rfl⟩

theorem endEvents_aside (s : Readable World) : wp endEvents (fun _ t => Aside s t) (fun _ t => Aside s t) s := by
  simp only [endEvents, queue, wp_bind, wp_get, wp_ite, wp_pure, wp_throw, wp_set, wp_modify]
  split
  · exact .refl s
  · split
    · exact .refl s
    · exact ⟨_, _, _, _, rfl⟩

theorem closeEvents_aside (s : Readable World) :
    wp closeEvents (fun _ t => Aside s t) (fun _ t => Aside s t) s := by
  simp only [closeEvents, queue, wp_bind, wp_get, wp_ite, wp_pure, wp_throw, wp_set, wp_modify]
  split
  · exact .refl s
  · split
    · exact .refl s
    · exact ⟨_, _, _, _, rfl⟩

theorem fail_aside (s : Readable World) (error : TsError) :
    wp (fail error) (fun _ t => Aside s t) (fun _ t => Aside s t) s := by
  simp only [fail, queue, wp_bind, wp_get, wp_ite, wp_pure, wp_throw, wp_set, wp_modify]
  split
  · exact .refl s
  · split
    · exact ⟨_, _, _, _, rfl⟩
    · exact ⟨_, _, _, _, rfl⟩

/-- A failure clears what is held; one that cannot be queued changes nothing. -/
theorem abort_clears (message : String) :
    wp (abort message)
      (fun _ t => Aside { s with
        failed := true, nativeRead := none, chunks := clearChunks s.chunks,
        descriptor := s.descriptor && !s.autoClose } t)
      (fun _ t => Aside s t ∨ Aside { s with
        failed := true, nativeRead := none, chunks := clearChunks s.chunks,
        descriptor := s.descriptor && !s.autoClose } t) s := by
  unfold abort
  rw [wp_bind]
  refine wp_mono (prepare_aside s) ?_ fun _ _ ht => .inl ht
  rintro - t ⟨events, pending, free, record, rfl⟩
  simp only [wp_bind, wp_modify]
  have hclears : Aside { s with
      failed := true, nativeRead := none, chunks := clearChunks s.chunks,
      descriptor := s.descriptor && !s.autoClose } { s with
      events, pending, free, record, failed := true, nativeRead := none, chunks := clearChunks s.chunks,
      descriptor := s.descriptor && !s.autoClose } := ⟨_, _, _, _, rfl⟩
  refine wp_mono (fail_aside _ _) ?_ fun _ _ hu => .inr (hclears.trans hu)
  intro _ u hu
  refine wp_mono (closeEvents_aside u) ?_ fun _ _ hv => .inr (hclears.trans (hu.trans hv))
  exact fun _ _ hv => hclears.trans (hu.trans hv)

/-! ## Input -/

theorem Telling.aside (h : Telling raw listener bound s) (haside : Aside s t) : Telling raw listener bound t := by
  obtain ⟨events, pending, free, record, rfl⟩ := haside
  exact ⟨h.listens, h.eof, h.due, h.few⟩

/-- What has failed is over. -/
theorem Telling.failed (h : Telling raw listener bound s) (hbound : 0 < bound)
    (haside : Aside { s with
      failed := true, nativeRead := none, chunks := clearChunks s.chunks,
      descriptor := s.descriptor && !s.autoClose } t) : Telling raw listener bound t ∧ Next listener t := by
  obtain ⟨events, pending, free, record, rfl⟩ := haside
  refine ⟨⟨h.listens, h.eof, fun _ _ => .inr (.inr (.inr rfl)), fun _ _ => hbound⟩, fun _ => .inr (.inl ?_)⟩
  exact .inr (.inr rfl)

/-- With nothing owed, only the flags of the end matter. -/
theorem Telling.fresh (hlistens : s.readableListener = listener) (howed : s.owed = false) :
    Telling raw listener bound s := by
  refine ⟨hlistens, fun h => ?_, fun _ h => ?_, fun _ h => ?_⟩
  all_goals
    rw [howed] at h
    cases h

theorem Raising.fresh (hlistens : s.readableListener = listener) (howed : s.owed = false) :
    Raising raw listener bound s := by
  refine ⟨.fresh hlistens howed, fun _ h => ?_⟩
  rw [howed] at h
  cases h

theorem Telling.unowed (h : Telling raw listener bound s) (heof : s.eof = false) : s.owed = false := by
  by_contra howed
  have hend := h.eof (by simpa using howed)
  rw [heof] at hend
  cases hend

theorem requestSize_tells (hs : Sound raw s) (h : Telling raw listener bound s) (hnext : Next listener s)
    (hnone : s.nativeRead = none) (hless : s.chunks.length < bound) (minimum : Nat) :
    wp (requestSize unpaired minimum)
      (fun size t => Telling raw listener bound t ∧ Next listener t ∧
        (size ≠ 0 → t = s ∧ s.eof = false))
      (fun _ t => Raising raw listener bound t) s := by
  simp only [requestSize, wp_bind, wp_get, wp_ite, wp_pure]
  split
  · exact ⟨h, hnext, fun hne => absurd rfl hne⟩
  rename_i hasks
  have hasks : s.eof = false ∧ s.descriptor = true := by simpa using hasks
  cases hlast : s.last with
  | none => exact ⟨h, hnext, fun _ => ⟨rfl, hasks.1⟩⟩
  | some last =>
    simp only [wp_ite, wp_bind, wp_modify, wp_pure, onChunks, wp_zoom]
    split
    · rename_i hpast
      have hdue : listener = true → s.readablePending = true ∨ s.Over := fun hl =>
        (hnext hl).imp_right fun hover => hover.resolve_right fun hnot =>
          hnot ⟨hasks.2, hasks.1, hnone, last, hlast, hpast⟩
      have hfew : ∀ chunks, finalState (ReadBuffer.finish unpaired s.chunks) = chunks → raw = true →
          chunks.length < bound := by
        rintro _ rfl hraw
        rw [finish_final (hs.raw hraw)]
        exact hless
      apply wp_mono wp_run
      · intro _ chunks hrun
        rw [hrun] at hfew
        refine ⟨⟨h.listens, fun _ => rfl, fun hl _ => hdue hl, fun hraw _ => hfew chunks rfl hraw⟩,
          fun _ => .inr (.inr ?_), fun hne => absurd ?_ hne⟩
        · rintro ⟨-, heof, -⟩
          cases heof
        · omega
      · intro _ chunks hrun
        rw [hrun] at hfew
        exact ⟨⟨h.listens, fun _ => rfl, fun hl _ => hdue hl, fun hraw _ => hfew chunks rfl hraw⟩,
          raises_nothing hs hrun⟩
    · exact ⟨h, hnext, fun _ => ⟨trivial, hasks.1⟩⟩

theorem acceptRead_tells (hlistens : s.readableListener = listener) (howed : s.owed = false)
    (outcome : ReadOutcome) :
    wp (acceptRead unpaired outcome)
      (fun _ t => Telling raw listener bound t ∧ Next listener t)
      (fun _ t => Raising raw listener bound t) s := by
  cases outcome with
  | failed error => exact .fresh hlistens howed
  | nothing =>
    simp only [acceptRead, wp_bind, wp_modify, onChunks, wp_zoom]
    refine wp_of_forall (fun _ chunks => ⟨.fresh hlistens howed, fun _ => .inl rfl⟩) fun _ chunks => ?_
    exact .fresh hlistens howed
  | bytes value =>
    simp only [acceptRead, wp_bind, wp_modify, onChunks, wp_zoom]
    refine wp_of_forall (fun _ chunks => ⟨.fresh hlistens howed, fun _ => .inl rfl⟩) fun _ chunks => ?_
    exact .fresh hlistens howed

theorem readDescriptor_tells (hs : Sound raw s) (h : Telling raw listener bound s) (hnext : Next listener s)
    (hsync : s.asynchronous = false) (hless : s.chunks.length < bound) (minimum : Nat) :
    wp (readDescriptor unpaired device minimum)
      (fun _ t => Telling raw listener bound t ∧ Next listener t)
      (fun _ t => Raising raw listener bound t) s := by
  have hnone : s.nativeRead = none := hs.sync hsync
  unfold readDescriptor
  rw [wp_bind]
  refine wp_mono (requestSize_tells hs h hnext hnone hless minimum) ?_ fun _ _ ht => ht
  rintro size t ⟨ht, htnext, hsize⟩
  simp only [wp_ite, wp_pure, wp_bind, wp_get, wp_set]
  split
  · exact ⟨ht, htnext⟩
  · rename_i hne
    obtain ⟨rfl, heof⟩ := hsize hne
    refine acceptRead_tells ?_ ?_ _
    · exact h.listens
    · exact h.unowed heof

theorem pollDescriptor_tells (hs : Sound raw s) (h : Telling raw listener bound s) (hnext : Next listener s)
    (hless : s.chunks.length < bound ∨ s.nativeRead.isSome = true) (minimum : Nat) :
    wp (pollDescriptor unpaired device minimum)
      (fun _ t => Telling raw listener bound t ∧ Next listener t)
      (fun _ t => Raising raw listener bound t) s := by
  unfold pollDescriptor
  rw [wp_bind, wp_get]
  split
  · rename_i request hnative
    have howed := h.unowed (hs.native request hnative).2.1
    have hbusy : ¬ s.PastEnd := by
      rintro ⟨-, -, hnone, -⟩
      rw [hnone] at hnative
      cases hnative
    rw [wp_ite]
    split
    · split
      split
      · rw [wp_bind, wp_set, wp_throw]
        exact .fresh h.listens howed
      · rw [wp_bind, wp_set]
        refine acceptRead_tells ?_ ?_ _
        · exact h.listens
        · exact howed
    · exact ⟨.fresh h.listens howed, fun _ => .inr (.inr hbusy)⟩
  · rename_i hnative
    have hless : s.chunks.length < bound := hless.resolve_right (by rw [hnative]; decide)
    rw [wp_bind]
    refine wp_mono (requestSize_tells hs h hnext hnative hless minimum) ?_ fun _ _ ht => ht
    rintro size t ⟨ht, htnext, hsize⟩
    simp only [wp_ite, wp_pure, wp_bind, wp_get]
    split
    · exact ⟨ht, htnext⟩
    · rename_i hne
      obtain ⟨rfl, heof⟩ := hsize (by omega)
      have howed := h.unowed heof
      split
      · exact .fresh h.listens howed
      · refine ⟨.fresh h.listens howed, fun _ => .inr (.inr ?_)⟩
        rintro ⟨-, -, hnone, -⟩
        cases hnone

theorem fill_tells (hs : Sound raw s) (h : Telling raw listener bound s) (hnext : Next listener s)
    (hless : s.chunks.length < bound ∨ s.nativeRead.isSome = true) (hbound : 0 < bound) (minimum : Nat) :
    wp (fill unpaired device minimum)
      (fun _ t => Telling raw listener bound t ∧ Next listener t)
      (fun _ t => Raising raw listener bound t) s := by
  unfold fill
  rw [wp_bind, wp_get, wp_tryCatch]
  have hfills : wp (if s.asynchronous then pollDescriptor unpaired device minimum
      else readDescriptor unpaired device minimum)
      (fun _ t => Telling raw listener bound t ∧ Next listener t)
      (fun _ t => Raising raw listener bound t) s := by
    split
    · exact pollDescriptor_tells hs h hnext hless minimum
    · rename_i hsync
      have hsync : s.asynchronous = false := by simpa using hsync
      refine readDescriptor_tells hs h hnext hsync (hless.resolve_right ?_) minimum
      rw [hs.sync hsync]
      decide
  refine wp_mono hfills (fun _ _ ht => ht) fun error t ht => ?_
  refine wp_mono (abort_clears error.message) (fun _ u hu => ht.1.failed hbound hu) fun _ u hu => ?_
  rcases hu with hu | hu
  · refine ⟨ht.1.aside hu, ?_⟩
    obtain ⟨events, pending, free, record, rfl⟩ := hu
    exact ht.2
  · refine ⟨(ht.1.failed hbound hu).1, fun _ _ => ?_⟩
    obtain ⟨events, pending, free, record, rfl⟩ := hu
    rfl

theorem fillLoop_tells (turns : Nat) {minimum : Nat} (hs : Sound raw s) (hopen : s.closed = false)
    (h : Telling raw listener bound s) (hnext : Next listener s) (hmin : minimum ≤ bound) (hbound : 0 < bound) :
    wp (fillLoop unpaired device minimum turns)
      (fun _ t => Telling raw listener bound t ∧ Next listener t)
      (fun _ t => Raising raw listener bound t) s := by
  induction turns generalizing s with
  | zero => exact ⟨h, hnext⟩
  | succ turns ih =>
    unfold fillLoop
    rw [wp_bind, wp_get, wp_ite]
    split
    · rename_i hmore
      simp only [Bool.and_eq_true, decide_eq_true_eq] at hmore
      have hless : s.chunks.length < bound := by omega
      rw [wp_bind]
      have hfill : Does unpaired device raw _ _ _ s := fill_does hs hopen 1
      refine wp_mono (wp_and hfill (fill_tells hs h hnext (.inl hless) hbound 1)) ?_ fun _ _ ht => ht.2
      rintro - t ⟨⟨hleads, hclosed⟩, ht, htnext⟩
      rw [wp_bind, wp_get, wp_ite]
      split
      · exact ⟨ht, htnext⟩
      · exact ih (hs.leads hleads) hclosed ht htnext
    · exact ⟨h, hnext⟩

/-- A read that meets the end first. -/
theorem fill_past (hopen : s.PastEnd) {chunks : ReadBuffer}
    (hfinish : ReadBuffer.finish unpaired s.chunks = .ok () chunks) (minimum : Nat) :
    fill unpaired device minimum s = .ok () { s with eof := true, owed := true, chunks } := by
  obtain ⟨hdescriptor, heof, hnone, last, hlast, hpast⟩ := hopen
  have hsize : ∃ size, size = 0 ∧ requestSize unpaired minimum s =
      .ok size { s with eof := true, owed := true, chunks } := by
    refine ⟨min (max minimum s.chunkSize) (max 0 (last - s.place + 1)).toNat, by omega, ?_⟩
    simp only [requestSize, bind_run, get_run, heof, hdescriptor, Bool.not_true, Bool.or_self, Bool.false_eq_true,
      if_false, hlast, if_pos hpast, modify_run, onChunks, zoom, hfinish]
    rfl
  obtain ⟨size, rfl, hrun⟩ := hsize
  have hfill : (if s.asynchronous then pollDescriptor unpaired device minimum
      else readDescriptor unpaired device minimum) s = .ok () { s with eof := true, owed := true, chunks } := by
    by_cases hasync : s.asynchronous = true
    · simp only [if_pos hasync, pollDescriptor, bind_run, get_run, hnone, hrun]
      rfl
    · simp only [if_neg hasync, readDescriptor, bind_run, hrun]
      rfl
  simp only [fill, bind_run, get_run, tryCatch_run, hfill]

/-- The input of a read: what holds behind it, or it has met the end and given nothing. -/
theorem fillFor_tells (hs : Sound raw s) (hopen : s.closed = false) {selected : Option Int} {count : Nat}
    (h : Telling raw listener (max count 1) s) (turns : Nat)
    (hcase : Next listener s ∨ (s.chunks.length < count ∨ s.chunks.length = 0 →
      s.PastEnd ∧ ∃ chunks, ReadBuffer.finish unpaired s.chunks = .ok () chunks ∧ chunks.length = 0)) :
    wp (fillFor unpaired device turns selected count)
      (fun _ t => Telling raw listener (max count 1) t ∨
        t.readableListener = listener ∧ t.failed = s.failed ∧ t.eof = true ∧ t.chunks.length = 0)
      (fun _ t => Raising raw listener (max count 1) t) s := by
  unfold fillFor
  rw [wp_bind, wp_get, wp_ite]
  split
  · rename_i hmore
    rcases hcase with hnext | hpast
    · rw [wp_bind]
      have hfill : Does unpaired device raw _ _ _ s :=
        fill_does hs hopen (if (if selected.isSome then count else 1) > 0 then 1 else 0)
      refine wp_mono (wp_and hfill (fill_tells hs h hnext (.inl (by omega)) (by omega) _)) ?_ fun _ _ ht => ht.2
      rintro - t ⟨⟨hleads, hclosed⟩, ht, htnext⟩
      refine wp_mono (fillLoop_tells turns (hs.leads hleads) hclosed ht htnext ?_ (by omega)) ?_ fun _ _ hu => hu
      · split
        · omega
        · omega
      · exact fun _ _ hu => .inl hu.1
    · obtain ⟨hpast, chunks, hfinish, hempty⟩ := hpast hmore
      rw [wp_bind, wp_of_ok (fill_past hpast hfinish _)]
      have hstop : ∀ turns, fillLoop unpaired device (if selected.isSome then count else 1) turns
          { s with eof := true, owed := true, chunks } = .ok () { s with eof := true, owed := true, chunks } := by
        intro turns
        cases turns with
        | zero => rfl
        | succ turns =>
          simp only [fillLoop, bind_run, get_run, Bool.not_true, Bool.and_false, Bool.false_and,
            Bool.false_eq_true, if_false]
          rfl
      rw [wp_of_ok (hstop turns)]
      exact .inr ⟨h.listens, rfl, rfl, hempty⟩
  · exact .inl h

/-- All that is held may be taken at once. -/
theorem take_length {chunks : ReadBuffer} (hdecoder : chunks.decoder = none) (hsound : chunks.bytes.Sound) :
    wp (ReadBuffer.take chunks.length) (fun _ chunks' => chunks'.length = 0) (fun _ _ => False) chunks := by
  obtain ⟨bytes, text, decoder, finished⟩ := chunks
  obtain rfl : decoder = none := hdecoder
  have hlength : ReadBuffer.length ⟨bytes, text, none, finished⟩ = bytes.length := rfl
  simp only [ReadBuffer.take, wp_bind, wp_get, wp_ite, wp_pure, Option.isSome_none, Bool.false_eq_true, if_false,
    ReadBuffer.onBytes, wp_zoom, hlength]
  split
  · omega
  apply wp_mono (ByteQueue.take_spec hsound bytes.length)
  · rintro value queue ⟨hqueue, hcontent, hcount, -⟩
    have hcontent : value.getD [] ++ queue.chunks.flatten = bytes.chunks.flatten := hcontent
    have htotal := congrArg List.length hcontent
    have hheld : bytes.length = bytes.chunks.flatten.length := hsound.length
    rw [List.length_append, ← hqueue.length] at htotal
    show queue.length = 0
    omega
  · rintro - queue ⟨-, hrange⟩
    exact hrange ⟨by omega, Int.le_refl _⟩

theorem takeFor_announces (hs : Sound raw s) {selected : Option Int} {count : Nat}
    (hselected : ∀ size, selected = some size → count = size.toNat)
    (h : Telling raw listener (max count 1) s) :
    wp (takeFor selected count : Run World (Option StreamChunk)) (fun _ t => Announcing raw t)
      (fun _ t => Announcing raw t) s := by
  have hkeep : ∀ chunks : ReadBuffer, (raw = true → s.owed = true → chunks.length = 0) →
      Announcing raw { s with chunks } := fun chunks hempty =>
    ⟨h.eof, fun hl howed => h.due (h.listens.symm.trans hl) howed, fun hraw howed _ => hempty hraw howed⟩
  have htake : ∀ size : Int, (raw = true → s.owed = true → size = s.chunks.length) →
      wp (onChunks (ReadBuffer.take size) : Run World (Option StreamChunk)) (fun _ t => Announcing raw t)
        (fun _ t => Announcing raw t) s := by
    intro size hsize
    rw [onChunks, wp_zoom]
    by_cases hcase : raw = true ∧ s.owed = true
    · rw [hsize hcase.1 hcase.2]
      refine wp_mono (take_length (hs.raw hcase.1).decoder (hs.raw hcase.1).bytes) ?_ fun _ _ hfalse => hfalse.elim
      exact fun _ chunks hempty => hkeep chunks fun _ _ => hempty
    · exact wp_of_forall (fun _ chunks => hkeep chunks fun hraw howed => absurd ⟨hraw, howed⟩ hcase)
        fun _ chunks => hkeep chunks fun hraw howed => absurd ⟨hraw, howed⟩ hcase
  unfold takeFor
  rw [wp_bind, wp_get]
  cases selected with
  | none => exact htake _ fun _ _ => rfl
  | some size =>
    have hcount := hselected size rfl
    dsimp only
    rw [wp_ite, wp_ite]
    split
    · refine hkeep s.chunks fun hraw howed => ?_
      have hfew := h.few hraw howed
      omega
    · split
      · rename_i hopen
        refine hkeep s.chunks fun hraw howed => ?_
        have heof := h.eof howed
        simp [heof] at hopen
      · refine htake _ fun hraw howed => ?_
        have hfew := h.few hraw howed
        omega

/-! ## Operations -/

theorem Announcing.aside (h : Announcing raw s) (haside : Aside s t) : Announcing raw t := by
  obtain ⟨events, pending, free, record, rfl⟩ := haside
  exact ⟨h.eof, h.due, h.empty⟩

/-- With nothing owed. -/
theorem Announcing.fresh (howed : s.owed = false) : Announcing raw s := by
  refine ⟨fun h => ?_, fun _ h => ?_, fun _ h => ?_⟩
  all_goals
    rw [howed] at h
    cases h

theorem Telling.announcing (h : Telling raw listener bound s)
    (hempty : raw = true → s.owed = true → s.failed = false → s.chunks.length = 0) : Announcing raw s :=
  ⟨h.eof, fun hl howed => h.due (h.listens.symm.trans hl) howed, hempty⟩

/-- What the end is about stays, or is set. -/
theorem Announcing.same (h : Announcing raw s) (howed : t.owed = s.owed) (heof : t.eof = s.eof)
    (hlistens : t.readableListener = s.readableListener)
    (hpending : s.readablePending = true → t.readablePending = true) (hover : s.Over → t.Over)
    (hchunks : t.chunks = s.chunks) (hfailed : t.failed = s.failed) : Announcing raw t := by
  refine ⟨?_, ?_, ?_⟩
  · rw [howed, heof]
    exact h.eof
  · rw [hlistens, howed]
    exact fun hl ho => (h.due hl ho).imp hpending hover
  · rw [howed, hfailed, hchunks]
    exact h.empty

theorem close_announces (h : Announcing raw s) :
    wp (close device) (fun _ t => Announcing raw t) (fun _ t => Announcing raw t) s := by
  unfold close
  rw [wp_bind, wp_get, wp_ite]
  split
  · exact h
  rw [wp_bind]
  refine wp_mono (prepare_aside s) ?_ fun _ _ ht => h.aside ht
  intro _ t ht
  have hshut : ∀ world : World, Announcing raw { t with
      world, closed := true, nativeRead := none, chunks := clearChunks t.chunks } := fun world =>
    ⟨(h.aside ht).eof, fun _ _ => .inr (.inr (.inl rfl)), fun _ _ _ => rfl⟩
  simp only [wp_bind, wp_modify, wp_tryFinally, wp_tryCatch]
  have hend : ∀ u : Readable World, Announcing raw u →
      wp closeEvents (fun _ v => Announcing raw v) (fun _ v => Announcing raw v) u := fun u hu =>
    wp_mono (closeEvents_aside u) (fun _ _ hv => hu.aside hv) fun _ _ hv => hu.aside hv
  unfold closeDescriptor
  rw [wp_bind, wp_get, wp_ite]
  split
  · split
    · exact hend _ (hshut _)
    · rw [wp_bind, wp_set, wp_throw]
      refine wp_mono (fail_aside _ _) ?_ ?_
      · exact fun _ u hu => hend u ((hshut _).aside hu)
      · exact fun _ u hu => hend u ((hshut _).aside hu)
  · exact hend _ (hshut _)

theorem readSized_announces (hs : Sound raw s) (h : Announcing raw s) (turns : Nat) {selected : Option Int}
    (hsafe : s.readableListener = true → s.Open → s.ended = false → SafeRead unpaired s selected) :
    wp (readSized unpaired device turns selected) (fun _ t => Announcing raw t) (fun _ t => Announcing raw t) s := by
  unfold readSized
  rw [wp_bind]
  have hgrow : Does unpaired device raw _ _ _ s := grow_does selected
  refine wp_mono hgrow ?_ fun _ t ht => by rw [ht.2]; exact h
  rintro - t ⟨ht, chunkSize, rfl, hchunk⟩
  have hgrown : Announcing raw { s with chunkSize } := ⟨h.eof, h.due, h.empty⟩
  rw [wp_bind, wp_get, wp_ite]
  split
  · exact hgrown
  rename_i hopen
  simp only [Bool.or_eq_true, not_or, Bool.not_eq_true] at hopen
  rw [wp_bind]
  have hprepare : Does unpaired device raw _ _ _ { s with chunkSize } := prepare_does
  refine wp_mono (hprepare.from ht) ?_ fun _ _ hu => by rw [hu.2]; exact hgrown
  rintro - u ⟨hu, free, reservations, rfl⟩
  simp only [wp_bind, wp_modify, wp_get, wp_ite]
  have hbegins : Leads unpaired device raw s { s with
      chunkSize, free, events.reservations := reservations, readablePending := false, owed := false } :=
    hu.trans (leads_control id id rfl)
  have hcount : ∀ count, count = s.desired selected → ∀ turns,
      wp (fillFor unpaired device turns selected count)
        (fun _ t => Telling raw s.readableListener (max count 1) t ∨
          t.readableListener = s.readableListener ∧ t.failed = s.failed ∧ t.eof = true ∧ t.chunks.length = 0)
        (fun _ t => Raising raw s.readableListener (max count 1) t) { s with
      chunkSize, free, events.reservations := reservations, readablePending := false, owed := false } := by
    intro count hcount turns
    refine fillFor_tells (hs.leads hbegins) hopen.1 (.fresh rfl rfl) turns ?_
    by_cases hcase : s.readableListener = true ∧ s.ended = false ∧ s.PastEnd
    · refine .inr fun hmore => ⟨hcase.2.2, ?_⟩
      rw [hcount] at hmore
      exact hsafe hcase.1 hopen hcase.2.1 hcase.2.2 hmore
    · refine .inl fun hl => .inr ?_
      by_cases hended : s.ended = true
      · exact .inl (.inl hended)
      · exact .inr fun hpast => hcase ⟨hl, by simpa using hended, hpast⟩
  refine wp_mono (wp_and ((fillFor_does (hs.leads hbegins) hopen.1 turns selected _).from hbegins)
    (hcount _ ?_ turns)) ?_ ?_
  · cases selected with
    | none => exact hchunk rfl
    | some size => rfl
  · rintro - v ⟨⟨hv, hclosed⟩, htells⟩
    have hsound := hs.leads hv
    split
    · rename_i hfailed
      rcases htells with htells | ⟨-, hsame, -⟩
      · exact htells.announcing fun _ _ hok => by rw [hfailed] at hok; cases hok
      · rw [hsame, hopen.2] at hfailed
        cases hfailed
    · split
      · rename_i hend
        have hended : Announcing raw { v with ended := true } :=
          ⟨fun _ => hend.2, fun _ _ => .inr (.inl rfl), fun _ _ _ => hend.1⟩
        refine wp_mono (endEvents_aside _) ?_ fun _ _ hw => hended.aside hw
        intro _ w hw
        split
        · exact wp_mono (close_announces (hended.aside hw)) (fun _ _ hx => hx) fun _ _ hx => hx
        · exact hended.aside hw
      · rename_i hmore
        rcases htells with htells | ⟨-, -, heof, hempty⟩
        · refine takeFor_announces hsound ?_ htells
          rintro size rfl
          rfl
        · exact absurd ⟨hempty, heof⟩ hmore
  · rintro - v ⟨-, htells⟩
    refine htells.1.announcing fun hraw howed hok => ?_
    rw [htells.2 hraw howed] at hok
    cases hok

theorem read_announces (hs : Sound raw s) (h : Announcing raw s) (turns : Nat) {selected : Option Int}
    (hsafe : s.readableListener = true → s.Open → s.ended = false → SafeRead unpaired s selected) :
    wp (read unpaired device turns selected) (fun _ t => Announcing raw t) (fun _ t => Announcing raw t) s := by
  unfold read
  rw [wp_bind]
  refine wp_mono (readSized_announces hs h turns hsafe) ?_ fun _ _ ht => ht
  intro chunk t ht
  cases chunk with
  | none => exact ht
  | some chunk => exact ht.same rfl rfl rfl id id rfl rfl

theorem abort_announces (h : Announcing raw s) (message : String) :
    wp (abort message) (fun _ t => Announcing raw t) (fun _ t => Announcing raw t) s := by
  have hfailed : Announcing raw { s with
      failed := true, nativeRead := none, chunks := clearChunks s.chunks,
      descriptor := s.descriptor && !s.autoClose } :=
    ⟨h.eof, fun _ _ => .inr (.inr (.inr rfl)), fun _ _ _ => rfl⟩
  refine wp_mono (abort_clears message) (fun _ _ ht => hfailed.aside ht) fun _ _ ht => ?_
  exact ht.elim h.aside hfailed.aside

/-- User code that changes what is held. -/
theorem edit_announces (h : Announcing raw s) (hraw : raw = false) (chunks : ReadBuffer) :
    Announcing raw { s with chunks } :=
  ⟨h.eof, h.due, fun htrue => by rw [hraw] at htrue; cases htrue⟩

theorem append_announces (h : Announcing raw s) (hraw : raw = false) (value : List Byte) :
    wp (append unpaired value) (fun _ t => Announcing raw t) (fun _ t => Announcing raw t) s := by
  unfold append
  rw [wp_bind, wp_get, wp_ite]
  split
  · exact h
  rw [wp_bind]
  refine wp_mono (prepare_aside s) ?_ fun _ _ ht => h.aside ht
  intro _ t ht
  simp only [wp_tryCatch, wp_bind, wp_modify, onChunks, wp_zoom]
  refine wp_of_forall (fun _ chunks => ?_) fun error chunks => ?_
  · exact (edit_announces (h.aside ht) hraw chunks).same rfl rfl rfl (fun _ => rfl) id rfl rfl
  · exact abort_announces (edit_announces (h.aside ht) hraw chunks) error.message

theorem setEncoding_announces (h : Announcing raw s) (hraw : raw = false) (name : Text) :
    wp (setEncoding unpaired name) (fun _ t => Announcing raw t) (fun _ t => Announcing raw t) s := by
  unfold setEncoding
  split
  · exact h
  rw [wp_bind]
  refine wp_mono (prepare_aside s) ?_ fun _ _ ht => h.aside ht
  intro _ t ht
  rw [wp_tryCatch, onChunks, wp_zoom]
  refine wp_of_forall (fun _ chunks => ?_) fun error chunks => ?_
  · exact edit_announces (h.aside ht) hraw chunks
  · exact abort_announces (edit_announces (h.aside ht) hraw chunks) error.message

theorem activate_announces (h : Announcing raw s) (full : Bool) :
    wp (activate full : Run World Unit) (fun _ t => Announcing raw t) (fun _ t => Announcing raw t) s := by
  unfold activate
  rw [wp_bind]
  refine wp_mono (prepare_aside s) ?_ fun _ _ ht => h.aside ht
  intro _ t ht
  rw [wp_ite]
  split
  · exact h.aside ht
  · exact (h.aside ht).same rfl rfl rfl id id rfl rfl

theorem resume_announces (h : Announcing raw s) (full : Bool) :
    wp (resume full : Run World Unit) (fun _ t => Announcing raw t) (fun _ t => Announcing raw t) s := by
  unfold resume
  rw [wp_bind]
  refine wp_mono (activate_announces h full) ?_ fun _ _ ht => ht
  exact fun _ _ ht => ht.same rfl rfl rfl id id rfl rfl

theorem addData_announces (h : Announcing raw s) (full : Bool) :
    wp (addData full : Run World Unit) (fun _ t => Announcing raw t) (fun _ t => Announcing raw t) s := by
  unfold addData
  rw [wp_bind]
  refine wp_mono (activate_announces h full) ?_ fun _ _ ht => ht
  intro _ t ht
  simp only [wp_bind, wp_modify, wp_get, wp_ite, wp_pure]
  have hadd : Announcing raw { t with dataListener := true } := ht.same rfl rfl rfl id id rfl rfl
  split
  · exact hadd
  · exact resume_announces hadd full

/-- A new listener is told of the end. -/
theorem addReadable_announces (h : Announcing raw s) (full : Bool) :
    wp (addReadable full : Run World Unit) (fun _ t => Announcing raw t) (fun _ t => Announcing raw t) s := by
  unfold addReadable
  rw [wp_bind]
  refine wp_mono (activate_announces h full) ?_ fun _ _ ht => ht
  intro _ t ht
  rw [wp_modify]
  refine ⟨ht.eof, fun _ howed => .inl ?_, ht.empty⟩
  show (decide (t.chunks.length ≠ 0) || t.eof) = true
  rw [ht.eof howed, Bool.or_true]

theorem unlisten_announces (h : Announcing raw s) : Announcing raw { s with readableListener := false } :=
  ⟨h.eof, (fun hl => by cases hl), h.empty⟩

theorem removeReadable_announces (h : Announcing raw s) (full : Bool) :
    wp (removeReadable full : Run World Unit) (fun _ t => Announcing raw t) (fun _ t => Announcing raw t) s := by
  unfold removeReadable
  simp only [wp_bind, wp_modify, wp_get, wp_ite, wp_pure]
  split
  · exact resume_announces (unlisten_announces h) full
  · exact unlisten_announces h

theorem pollInput_announces (hs : Sound raw s) (h : Announcing raw s)
    (hsafe : s.readableListener = true → s.Open → s.ended = false → s.SafePoll) :
    wp (pollInput unpaired device)
      (fun _ t => Announcing raw t ∧ t.readableListener = s.readableListener) (fun _ t => Announcing raw t) s := by
  unfold pollInput
  simp only [wp_bind, wp_modify, wp_get, wp_ite, wp_pure]
  have hasync : Announcing raw { s with asynchronous := true } := h.same rfl rfl rfl id id rfl rfl
  split
  · exact ⟨hasync, trivial⟩
  rename_i hopen
  simp only [Bool.or_eq_true, not_or, Bool.not_eq_true] at hopen
  split
  · rename_i hfill
    have hleads : Leads unpaired device raw s { s with asynchronous := true } := leads_control id (fun _ => rfl) rfl
    have htelling : Telling raw s.readableListener 1 { s with asynchronous := true } := by
      refine ⟨rfl, h.eof, h.due, fun hraw howed => ?_⟩
      have hempty := h.empty hraw howed hopen.2
      show s.chunks.length < 1
      omega
    have hnext : Next s.readableListener { s with asynchronous := true } := by
      intro hl
      by_cases hended : s.ended = true
      · exact .inr (.inl (.inl hended))
      by_cases hpast : s.PastEnd
      · refine .inl (hsafe hl hopen (by simpa using hended) hpast (hfill.resolve_right ?_))
        rw [hpast.2.2.1]
        decide
      · exact .inr (.inr hpast)
    have hless : ({ s with asynchronous := true } : Readable World).chunks.length < 1 ∨ s.nativeRead.isSome = true :=
      hfill.imp_left fun hzero => by
        show s.chunks.length < 1
        omega
    refine wp_mono (fill_tells (hs.leads hleads) htelling hnext hless Nat.one_pos 1) ?_ ?_
    · rintro - t ⟨ht, -⟩
      exact ⟨ht.announcing fun hraw howed _ => Nat.lt_one_iff.mp (ht.few hraw howed), ht.listens⟩
    · rintro - t ht
      exact ht.1.announcing fun hraw howed _ => Nat.lt_one_iff.mp (ht.1.few hraw howed)
  · exact ⟨hasync, trivial⟩

theorem pollReady_announces (hs : Sound raw s) (h : Announcing raw s) (turns : Nat) {blocked : Bool}
    (hsafe : blocked = false → s.readableListener = true → s.Open → s.ended = false → s.SafePoll) :
    wp (pollReady unpaired device turns blocked) (fun _ t => Announcing raw t) (fun _ t => Announcing raw t) s := by
  unfold pollReady
  simp only [wp_bind, wp_get, wp_ite, wp_pure]
  split
  · exact h
  rename_i hready
  simp only [Bool.or_eq_true, not_or, Bool.not_eq_true] at hready
  obtain ⟨⟨⟨hblocked, hended⟩, hclosed⟩, hfailed⟩ := hready
  split
  · split
    · rename_i hquiet hnative
      have hl : s.readableListener = false := by
        simp only [Bool.and_eq_true, Bool.not_eq_true'] at hquiet
        exact hquiet.2
      have htelling : Telling raw s.readableListener 1 s := by
        refine ⟨rfl, h.eof, h.due, fun hraw howed => ?_⟩
        have hempty := h.empty hraw howed hfailed
        omega
      have hnext : Next s.readableListener s := fun htrue => by
        rw [hl] at htrue
        cases htrue
      refine wp_mono (fill_tells hs htelling hnext (.inr hnative) Nat.one_pos 0) ?_ ?_
      · exact fun _ t ht => ht.1.announcing fun hraw howed _ => Nat.lt_one_iff.mp (ht.1.few hraw howed)
      · exact fun _ t ht => ht.1.announcing fun hraw howed _ => Nat.lt_one_iff.mp (ht.1.few hraw howed)
    · exact h
  · have hinput : wp (pollInput unpaired device) _ _ s := pollInput_leads hs
    refine wp_mono (wp_and hinput (pollInput_announces hs h (hsafe hblocked))) ?_ fun _ _ ht => ht.2
    rintro - t ⟨hleads, ht, hlistens⟩
    split
    · split
      · exact .fresh rfl
      · exact ht
    · rename_i hl
      split
      · refine wp_mono (read_announces (hs.leads hleads) ht turns fun htrue => ?_) ?_ fun _ _ hu => hu
        · rw [hlistens] at htrue
          exact absurd htrue hl
        · exact fun _ _ hu => hu.same rfl rfl rfl id id rfl rfl
      · exact ht

/-! ## Runs -/

theorem perform_announces (hs : Sound raw s) (h : Announcing raw s) {action : Action}
    (hraw : raw = true → Raw action) (hsafe : Safe unpaired s action) :
    wp (perform unpaired device action) (fun _ t => Announcing raw t) (fun _ t => Announcing raw t) s := by
  cases action with
  | read selected turns => exact read_announces hs h turns hsafe
  | append value => exact append_announces h (by simpa [Raw] using hraw) value
  | setEncoding name => exact setEncoding_announces h (by simpa [Raw] using hraw) name
  | close => exact close_announces h
  | pause => exact h.same rfl rfl rfl id id rfl rfl
  | resume full => exact resume_announces h full
  | addData full => exact addData_announces h full
  | removeData => exact h.same rfl rfl rfl id id rfl rfl
  | addReadable full => exact addReadable_announces h full
  | removeReadable full => exact removeReadable_announces h full
  | spendReadable => exact unlisten_announces h
  | pollInput => exact wp_mono (pollInput_announces hs h hsafe) (fun _ _ ht => ht.1) fun _ _ ht => ht
  | poll blocked turns =>
    simp only [perform, poll, wp_bind, wp_get, wp_ite, wp_pure, wp_set]
    split
    · exact h
    rename_i hidle
    split
    · exact h
    split
    · exact h.same rfl rfl rfl id id rfl rfl
    · rename_i hresume
      refine pollReady_announces hs h turns fun hblocked hl hopen hended => ?_
      exact hsafe hl hopen hended hblocked (not_not.mp hidle) (by simpa using hresume)
  | goOn turns =>
    have hidle : Announcing raw { s with phase := .idle } := h.same rfl rfl rfl id id rfl rfl
    have hleads : Leads unpaired device raw s { s with phase := .idle } := leads_control id id rfl
    simp only [perform, goOn, wp_bind, wp_get, wp_set]
    split
    · rename_i blocked hphase
      refine pollReady_announces (hs.leads hleads) hidle turns fun hblocked hl hopen hended => ?_
      exact hsafe hl hopen hended (hblocked ▸ hphase)
    · exact hidle
  | stop => exact h.same rfl rfl rfl id id rfl rfl
  | prune => exact h.same rfl rfl rfl id id rfl rfl
  | deliver =>
    obtain ⟨events, pending, free, record, heq⟩ := deliver_input s
    have haside : Announcing raw (finalState (deliver s)) := h.aside ⟨events, pending, free, record, heq⟩
    apply wp_mono wp_run
    · intro _ t hrun
      change deliver s = _ at hrun
      rw [hrun] at haside
      exact haside
    · intro _ t hrun
      change deliver s = _ at hrun
      rw [hrun] at haside
      exact haside
  | places free => exact h.same rfl rfl rfl id id rfl rfl

theorem announcing_run {actions : List Action} (hs : Sound raw s) (h : Announcing raw s)
    (hsafe : Meets (step unpaired device) (Safe unpaired) s actions)
    (hraw : raw = true → ∀ action ∈ actions, Raw action) :
    Sound raw (run (step unpaired device) s actions) ∧ Announcing raw (run (step unpaired device) s actions) := by
  induction actions generalizing s with
  | nil => exact ⟨hs, h⟩
  | cons action actions ih =>
    have hfirst : raw = true → Raw action := fun htrue => hraw htrue action List.mem_cons_self
    refine ih (hs.leads (step_leads hs hfirst)) (wp_final (perform_announces hs h hfirst hsafe.1)) hsafe.2 ?_
    exact fun htrue other hmem => hraw htrue other (List.mem_cons_of_mem _ hmem)

/-! ## What the listener gets -/

/-- Behind the end, nothing more comes. -/
theorem fill_ended (heof : s.eof = true) (hnone : s.nativeRead = none) (minimum : Nat) :
    fill unpaired device minimum s = .ok () s := by
  have hsize : requestSize unpaired minimum s = .ok 0 s := by
    simp only [requestSize, bind_run, get_run, heof, Bool.true_or, if_true]
    rfl
  have hfill : (if s.asynchronous then pollDescriptor unpaired device minimum
      else readDescriptor unpaired device minimum) s = .ok () s := by
    by_cases hasync : s.asynchronous = true
    · simp only [if_pos hasync, pollDescriptor, bind_run, get_run, hnone, hsize]
      rfl
    · simp only [if_neg hasync, readDescriptor, bind_run, hsize]
      rfl
  simp only [fill, bind_run, get_run, tryCatch_run, hfill]

theorem Move.keep (hmove : Move unpaired device raw s t) :
    (s.ended = true → t.ended = true) ∧ (s.events.endQueued = true → t.events.endQueued = true) := by
  cases hmove with
  | control _ _ _ _ _ _ _ _ _ _ _ _ _ _ hended _ => exact ⟨hended, id⟩
  | takes size _ =>
    split
    · exact ⟨id, id⟩
    · exact ⟨id, id⟩
  | queues event _ _ _ => cases event <;> exact ⟨id, fun h => by first | rfl | exact h⟩
  | delivers =>
    unfold deliver
    cases hpending : s.pending with
    | nil =>
      simp only [bind_run, get_run, hpending]
      exact ⟨id, id⟩
    | cons event pending =>
      simp only [bind_run, get_run, hpending]
      cases event with
      | error => exact ⟨id, id⟩
      | close => exact ⟨id, id⟩
      | end_ =>
        dsimp only
        split
        · exact ⟨id, id⟩
        · exact ⟨id, id⟩
  | _ => exact ⟨id, id⟩

theorem leads_keep (hleads : Leads unpaired device raw s t) :
    (s.ended = true → t.ended = true) ∧ (s.events.endQueued = true → t.events.endQueued = true) := by
  induction hleads with
  | refl => exact ⟨id, id⟩
  | tail _ hmove ih => exact ⟨fun h => hmove.keep.1 (ih.1 h), fun h => hmove.keep.2 (ih.2 h)⟩

/-- A poll calls the listeners. -/
theorem poll_tells (hopen : s.Open) (hended : s.ended = false) (heof : s.eof = true) (hnone : s.nativeRead = none)
    (hlistens : s.readableListener = true) (hpending : s.readablePending = true) (hidle : s.phase = .idle)
    (hresume : s.resumePending = false) (turns : Nat) :
    step unpaired device s (.poll false turns) = { s with
      asynchronous := true, readablePending := false, owed := false, notices := s.notices + 1,
      phase := .leaving } := by
  have hfill : pollInput unpaired device s = .ok () { s with asynchronous := true } := by
    have hready : ¬ (s.closed || s.failed) = true := by simp [hopen.1, hopen.2]
    simp only [pollInput, bind_run, modify_run, get_run]
    rw [if_neg hready]
    split
    · exact @fill_ended World unpaired device { s with asynchronous := true } heof hnone 1
    · rfl
  simp only [step, perform, poll, pollReady, bind_run, get_run, hidle, hopen.1, hopen.2, hended, hresume, hlistens,
    ne_eq, not_true_eq_false, if_false, Bool.false_and, Bool.or_self, Bool.false_eq_true, Bool.not_true,
    Bool.and_false, hfill, if_true, hpending]
  rfl

theorem Sound.quiet (hs : Sound raw s) (hopen : s.Open) :
    s.events.closeQueued = false ∧ s.events.error.isSome = false ∧ s.events.closed = false := by
  have hclose : s.events.closeQueued = false := by
    by_contra hne
    rcases hs.closing (by simpa using hne) with hover | hover
    · rw [hopen.1] at hover
      cases hover
    · rw [hopen.2] at hover
      cases hover
  refine ⟨hclose, ?_, ?_⟩
  · by_contra hne
    rcases hs.erring ((Bool.not_eq_false _).mp hne) with hover | hover
    · rw [hopen.1] at hover
      cases hover
    · rw [hopen.2] at hover
      cases hover
  · by_contra hne
    rw [hs.closed (by simpa using hne)] at hclose
    cases hclose

/-- Every event that is not committed has its place then. -/
theorem prepare_reserves (hdelivered : s.events.closed = false) (hplaces : s.events.missing.length ≤ s.free) :
    wp prepare (fun _ t => t.events.endQueued = false → ReadEvent.end_ ∈ t.events.reservations)
      (fun _ _ => False) s := by
  simp only [prepare, wp_bind, wp_get, wp_ite, wp_pure, wp_throw, wp_set, hdelivered]
  rw [if_neg Bool.false_ne_true, if_neg (by omega)]
  intro hend
  by_cases hheld : ReadEvent.end_ ∈ s.events.reservations
  · exact List.mem_append_left _ hheld
  · refine List.mem_append_right _ (List.mem_filter.mpr ⟨List.mem_cons_self, ?_⟩)
    have hend : s.events.endQueued = false := hend
    simp [ReadEvents.committed, hend, hheld]

theorem endEvents_queues (hquiet : s.events.closeQueued = false ∧ s.events.error.isSome = false)
    (hreserved : s.events.endQueued = false → ReadEvent.end_ ∈ s.events.reservations) :
    wp endEvents (fun _ t => t.events.endQueued = true ∧ t.ended = s.ended) (fun _ _ => False) s := by
  simp only [endEvents, queue, wp_bind, wp_get, wp_ite, wp_pure, wp_throw, wp_set, wp_modify, hquiet.1, hquiet.2,
    Bool.or_false]
  split
  · rename_i hend
    exact ⟨hend, trivial⟩
  · rename_i hend
    rw [if_neg (not_not.mpr (hreserved (by simpa using hend)))]
    exact ⟨trivial, trivial⟩

theorem fillFor_ended (heof : s.eof = true) (hnone : s.nativeRead = none) (hempty : s.chunks.length = 0)
    (turns : Nat) (selected : Option Int) (count : Nat) :
    fillFor unpaired device turns selected count s = .ok () s := by
  have hstop : ∀ minimum, fillLoop unpaired device minimum turns s = .ok () s := by
    intro minimum
    cases turns with
    | zero => rfl
    | succ turns =>
      simp only [fillLoop, bind_run, get_run, heof, Bool.not_true, Bool.and_false, Bool.false_and,
        Bool.false_eq_true, if_false]
      rfl
  simp only [fillFor, bind_run, get_run, if_pos (Or.inr hempty), fill_ended heof hnone, hstop]

/-- A read behind the end, with nothing held, ends the stream. -/
theorem read_ends (hs : Sound raw s) (hopen : s.Open) (heof : s.eof = true) (hempty : s.chunks.length = 0)
    (hplaces : s.events.missing.length ≤ s.free) (turns : Nat) :
    (step unpaired device s (.read none turns)).ended = true ∧
      (step unpaired device s (.read none turns)).events.endQueued = true := by
  obtain ⟨hclose, herror, hdelivered⟩ := hs.quiet hopen
  have hnone : s.nativeRead = none := by
    by_contra hsome
    obtain ⟨request, hrequest⟩ := Option.ne_none_iff_exists'.mp hsome
    have hmore := (hs.native request hrequest).2.1
    rw [heof] at hmore
    cases hmore
  refine wp_final (P := fun t : Readable World => t.ended = true ∧ t.events.endQueued = true) ?_
  simp only [perform, read, readSized, grow, wp_bind, wp_pure, wp_get, wp_ite]
  rw [if_neg (by simp [hopen.1, hopen.2])]
  have hprepare : Does unpaired device raw _ _ _ s := prepare_does
  refine wp_mono (wp_and hprepare (prepare_reserves hdelivered hplaces)) ?_ fun _ _ hu => hu.2.elim
  rintro - u ⟨⟨hu, free, reservations, rfl⟩, hreserved⟩
  have hbegins : Leads unpaired device raw s { s with
      free, events.reservations := reservations, readablePending := false, owed := false, ended := true } :=
    hu.trans (leads_control (fun _ => rfl) id rfl)
  simp only [wp_modify]
  have hfill : ∀ count, fillFor unpaired device turns none count { s with
      free, events.reservations := reservations, readablePending := false, owed := false } = .ok () { s with
      free, events.reservations := reservations, readablePending := false, owed := false } := fun count => by
    refine fillFor_ended ?_ ?_ ?_ turns none count
    · exact heof
    · exact hnone
    · exact hempty
  rw [wp_of_ok (hfill _), if_neg (by simp [hopen.2]), if_pos ⟨hempty, heof⟩]
  have hend : Does unpaired device raw endEvents _ _ { s with
      free, events.reservations := reservations, readablePending := false, owed := false, ended := true } :=
    endEvents_does hopen heof hempty
  refine wp_mono (wp_and (hend.from hbegins) (endEvents_queues ⟨hclose, herror⟩ hreserved)) ?_
    fun _ _ hv => hv.2.elim
  rintro - v ⟨⟨hv, hchunks⟩, hqueued, hended⟩
  split
  · have hempty : raw = true → v.chunks.length = 0 := fun _ => by rw [hchunks]; exact hempty
    have hclose : Does unpaired device raw (close device) _ _ v := close_does (hs.leads hv) hempty
    refine wp_mono hclose ?_ ?_
    · exact fun _ _ hw => ⟨(leads_keep hw.1).1 hended, (leads_keep hw.1).2 hqueued⟩
    · exact fun _ _ hw => ⟨(leads_keep hw.1).1 hended, (leads_keep hw.1).2 hqueued⟩
  · exact ⟨hended, hqueued⟩

end

instance (s : Readable World) : Decidable s.Over := inferInstanceAs (Decidable (_ ∨ _ ∨ _))

section
variable (unpaired : List UInt16 → Error) (device : Device World)

/-- **The end of the range is announced**: the `readable` listeners are told with the next poll, and if they
read then, with nothing held, the stream has ended. Nothing is held if only the device was read. -/
structure Announces (raw : Bool) (s : Readable World) : Prop where
  due : s.readableListener = true → s.owed = true → s.readablePending = true ∨ s.Over
  told : s.readableListener = true → s.owed = true → ¬ s.Over → s.phase = .idle → s.resumePending = false →
    ∀ turns, (step unpaired device s (.poll false turns)).notices = s.notices + 1
  ends : s.readableListener = true → s.owed = true → ¬ s.Over → s.phase = .idle → s.resumePending = false →
    s.chunks.length = 0 → s.events.missing.length ≤ s.free → ∀ turns turns',
      (step unpaired device (step unpaired device s (.poll false turns)) (.read none turns')).ended = true ∧
      (step unpaired device (step unpaired device s (.poll false turns)) (.read none turns')).events.endQueued = true
  empty : raw = true → s.owed = true → s.failed = false → s.chunks.length = 0

variable {unpaired device}

theorem Announcing.announces {raw : Bool} {s : Readable World} (h : Announcing raw s) (hs : Sound raw s) :
    Announces unpaired device raw s := by
  have hpoll : s.readableListener = true → s.owed = true → ¬ s.Over → s.phase = .idle → s.resumePending = false →
      ∀ turns, s.Open ∧ step unpaired device s (.poll false turns) = { s with
        asynchronous := true, readablePending := false, owed := false, notices := s.notices + 1,
        phase := .leaving } := by
    intro hlistens howed hover hidle hresume turns
    simp only [Over, not_or, Bool.not_eq_true] at hover
    have hpending := (h.due hlistens howed).resolve_right (by simp [Over, hover])
    have hnone : s.nativeRead = none := by
      by_contra hsome
      obtain ⟨request, hrequest⟩ := Option.ne_none_iff_exists'.mp hsome
      have hmore := (hs.native request hrequest).2.1
      rw [h.eof howed] at hmore
      cases hmore
    exact ⟨hover.2, poll_tells hover.2 hover.1 (h.eof howed) hnone hlistens hpending hidle hresume turns⟩
  refine ⟨h.due, ?_, ?_, h.empty⟩
  · intro hlistens howed hover hidle hresume turns
    rw [(hpoll hlistens howed hover hidle hresume turns).2]
  · intro hlistens howed hover hidle hresume hempty hplaces turns turns'
    obtain ⟨hopen, hstep⟩ := hpoll hlistens howed hover hidle hresume turns
    have hleads : Leads unpaired device raw s (step unpaired device s (.poll false turns)) :=
      step_leads hs fun _ => trivial
    have hsound := hs.leads hleads
    rw [hstep] at hsound ⊢
    exact read_ends hsound hopen (h.eof howed) hempty hplaces turns'

end

/-- Runs that meet the end of the range only where it is noticed announce it. -/
theorem range_announced (unpaired : List UInt16 → Error) (device : Device World) (raw : Bool) (world : World)
    (descriptor : Bool) (chunkSize : Nat) (start last : Option Int) (autoClose : Bool) (free : Nat)
    (actions : List Action) (hraw : raw = true → ∀ action ∈ actions, Raw action)
    (hsafe : Meets (step unpaired device) (Safe unpaired)
      (opened world descriptor chunkSize start last autoClose free) actions) :
    Announces unpaired device raw
      (run (step unpaired device) (opened world descriptor chunkSize start last autoClose free) actions) := by
  obtain ⟨hs, h⟩ := announcing_run (sound_opened raw world descriptor chunkSize start last autoClose free)
    (.fresh rfl) hsafe hraw
  exact h.announces hs

/-- The read that meets the end has nothing to give. -/
theorem range_announced_empty : Announces (fun _ => ⟨"unpaired"⟩) (pieces [1, 2, 3, 4]) true
    (run (step (fun _ => ⟨"unpaired"⟩) (pieces [1, 2, 3, 4])) (opened 0 true 2 none (some 1) true 8)
      [.read none 2, .addReadable false, .read none 2]) :=
  range_announced _ _ true 0 true 2 none (some 1) true 8 _ (fun _ => by simp [Raw])
    ⟨(fun h => by cases h), (fun _ _ _ => trivial), (fun _ _ _ _ _ => ⟨_, rfl, rfl⟩), trivial⟩

/-- Two bytes are the range and what is read at once; the listener reads them, and is not told of the end. -/
theorem range_unannounced : ¬ ∀ actions : List Action, Announces (fun _ => ⟨"unpaired"⟩) (pieces [1, 2, 3, 4]) false
    (run (step (fun _ => ⟨"unpaired"⟩) (pieces [1, 2, 3, 4])) (opened 0 true 2 none (some 1) true 8) actions) := by
  intro hall
  have h := (hall [.addReadable false, .poll false 2, .poll false 2, .read none 2, .goOn 2, .poll false 2]).due
    (by decide +kernel) (by decide +kernel)
  revert h
  decide +kernel

end Readable

end TsonicNode.Stream
