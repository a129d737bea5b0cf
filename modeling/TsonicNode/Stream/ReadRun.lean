import TsonicNode.Lib.Run
import TsonicNode.Stream.ReadMoves

/-!
# Runs of a readable stream

Each function of a readable stream leads through moves from a sound state, so
every action does (`step_leads`), and every run keeps what moves keep. The order
of the lifecycle events is the first result (`lifecycle_ordered`).
-/

namespace TsonicNode.Stream

open TsonicNode.Lib TsonicNode.Buffer

namespace Readable

variable {World : Type} {unpaired : List UInt16 → Error} {device : Device World} {raw : Bool} {s t : Readable World}

section

/-! ## Functions -/

theorem leads_control (hended : s.ended = true → t.ended = true)
    (hasync : s.asynchronous = true → t.asynchronous = true)
    (h : t = { s with
      paused := t.paused, ended := t.ended, asynchronous := t.asynchronous, flowing := t.flowing,
      resumePending := t.resumePending, readablePending := t.readablePending,
      readableListener := t.readableListener, dataListener := t.dataListener, owed := t.owed,
      chunkSize := t.chunkSize, free := t.free, notices := t.notices, phase := t.phase,
      events.reservations := t.events.reservations }) :
    Leads unpaired device raw s t := by
  rw [h]
  exact .single (.control _ _ _ _ _ _ _ _ _ _ _ _ _ _ _ hended hasync)

variable (unpaired device raw) in
/-- A call leads to a state with `P`, or raises in one with `E`. -/
def Does {α : Type} (m : Run World α) (P : α → Readable World → Prop) (E : Readable World → Prop)
    (s : Readable World) : Prop :=
  wp m (fun a t => Leads unpaired device raw s t ∧ P a t) (fun _ t => Leads unpaired device raw s t ∧ E t) s

section
variable {α β : Type} {P : α → Readable World → Prop} {Q : β → Readable World → Prop}
  {E E' : Readable World → Prop} {m : Run World α} {f : α → Run World β}

theorem Does.mono {Q : α → Readable World → Prop} (h : Does unpaired device raw m P E s)
    (hP : ∀ a t, P a t → Q a t) (hE : ∀ t, E t → E' t) : Does unpaired device raw m Q E' s :=
  wp_mono h (fun a t ht => ⟨ht.1, hP a t ht.2⟩) (fun _ t ht => ⟨ht.1, hE t ht.2⟩)

/-- From a state that `s` leads to. -/
theorem Does.from (hleads : Leads unpaired device raw s t) (h : Does unpaired device raw m P E t) :
    wp m (fun a u => Leads unpaired device raw s u ∧ P a u) (fun _ u => Leads unpaired device raw s u ∧ E u) t :=
  wp_mono h (fun _ _ hu => ⟨hleads.trans hu.1, hu.2⟩) (fun _ _ hu => ⟨hleads.trans hu.1, hu.2⟩)

theorem Does.bind (hs : Sound raw s) (hm : Does unpaired device raw m P E s)
    (hf : ∀ a t, Sound raw t → P a t → Does unpaired device raw (f a) Q E' t) (hE : ∀ t, E t → E' t) :
    Does unpaired device raw (m >>= f) Q E' s := by
  unfold Does
  rw [wp_bind]
  exact wp_mono hm (fun a t ht => (hf a t (hs.leads ht.1) ht.2).from ht.1) fun _ t ht => ⟨ht.1, hE t ht.2⟩

theorem Does.catch {handler : Error → Run World α} {P' : α → Readable World → Prop} (hs : Sound raw s)
    (hm : Does unpaired device raw m P E s)
    (hf : ∀ error t, Sound raw t → E t → Does unpaired device raw (handler error) P' E' t)
    (hP : ∀ a t, P a t → P' a t) : Does unpaired device raw (tryCatch m handler) P' E' s := by
  unfold Does
  rw [wp_tryCatch]
  exact wp_mono hm (fun a t ht => ⟨ht.1, hP a t ht.2⟩) fun error t ht =>
    (hf error t (hs.leads ht.1) ht.2).from ht.1

end

/-- Only the queue's places change. -/
theorem prepare_does : Does unpaired device raw prepare
    (fun _ t => ∃ free reservations, t = { s with free, events.reservations := reservations }) (· = s) s := by
  simp only [Does, prepare, wp_bind, wp_get, wp_ite, wp_pure, wp_throw, wp_set]
  split
  · exact ⟨.refl, s.free, s.events.reservations, rfl⟩
  · split
    · exact ⟨.refl, trivial⟩
    · exact ⟨leads_control id id rfl, _, _, rfl⟩

theorem endEvents_does (hopen : s.Open) (heof : s.eof = true) (hheld : s.chunks.length = 0) :
    Does unpaired device raw endEvents (fun _ t => t.chunks = s.chunks) (fun _ => True) s := by
  simp only [Does, endEvents, queue, wp_bind, wp_get, wp_ite, wp_pure, wp_throw, wp_set, wp_modify]
  split
  · exact ⟨.refl, trivial⟩
  · rename_i hdone
    simp only [Bool.or_eq_true, not_or, Bool.not_eq_true] at hdone
    split
    · exact ⟨.refl, trivial⟩
    · exact ⟨.single (.queues s .end_ _ hdone.1.2 ⟨hopen, heof, hheld, hdone.1.1⟩), trivial⟩

theorem closeEvents_does (hover : s.closed = true ∨ s.failed = true) :
    Does unpaired device raw closeEvents (fun _ t => t.closed = s.closed) (fun _ => True) s := by
  simp only [Does, closeEvents, queue, wp_bind, wp_get, wp_ite, wp_pure, wp_throw, wp_set, wp_modify]
  split
  · exact ⟨.refl, trivial⟩
  · rename_i hdone
    rw [Bool.not_eq_true] at hdone
    split
    · exact ⟨.refl, trivial⟩
    · exact ⟨.single (.queues s .close _ hdone hover), trivial⟩

/-- A first error is recorded and queued. -/
theorem fail_leads (hs : Sound raw s) (error : TsError) (hclosed : s.closed = true) (hnone : s.events.error = none)
    (hclose : s.events.closeQueued = false) (reservations : List ReadEvent) :
    Leads unpaired device raw s { s with
      pending := s.pending ++ [.error],
      record := s.record ++ [.queued .error s.eof s.chunks.length (s.closed || s.failed)],
      events.error := some error, events.reservations := reservations } := by
  have hfresh : ReadEvent.error ∉ s.history := by
    intro hmem
    have hsome := hs.ordered.errored hmem
    rw [hnone] at hsome
    cases hsome
  exact .tail (.single (.records s error hclosed hnone hclose)) (.queues _ .error reservations hclose ⟨rfl, hfresh⟩)

theorem fail_does (hs : Sound raw s) (error : TsError) (hclosed : s.closed = true)
    (hclose : s.events.error = none → s.events.closeQueued = false) :
    Does unpaired device raw (fail error) (fun _ t => t.closed = s.closed) (fun t => t.closed = s.closed) s := by
  simp only [Does, fail, queue, wp_bind, wp_get, wp_ite, wp_pure, wp_throw, wp_set, wp_modify]
  split
  · exact ⟨.refl, trivial⟩
  · rename_i hdone
    simp only [Bool.or_eq_true, not_or, Bool.not_eq_true, Option.isSome_eq_false_iff,
      Option.isNone_iff_eq_none] at hdone
    split
    · exact ⟨.single (.records s error hclosed hdone.1 (hclose hdone.1)), trivial⟩
    · exact ⟨fail_leads hs error hclosed hdone.1 (hclose hdone.1) _, trivial⟩

/-- What a function of the input raises in. -/
def Fails (raw : Bool) (device : Device World) (t : Readable World) : Prop :=
  t.closed = false ∧ (raw = true → Blamed device t)

/-- A stream that is not closed fails, or has failed before. -/
theorem abort_does (hs : Sound raw s) (hfails : Fails raw device s) (message : String) :
    Does unpaired device raw (abort message) (fun _ t => t.closed = false) (fun _ => True) s := by
  refine prepare_does.bind hs ?_ fun _ _ => trivial
  rintro - t ht ⟨free, reservations, rfl⟩
  have hfails' : Fails raw device { s with free, events.reservations := reservations } := hfails
  generalize ({ s with free, events.reservations := reservations } : Readable World) = t at ht hfails'
  obtain ⟨hopen', hblamed⟩ := hfails'
  have hclose : t.events.error = none → t.events.closeQueued = false := by
    intro hnone
    by_contra hqueued
    have hfailed := (ht.closing (by simpa using hqueued)).resolve_left (by rw [hopen']; decide)
    have herror := ht.failing hfailed
    rw [hnone] at herror
    cases herror
  have hfail : wp (fail (errorNew message))
      (fun _ u => Leads unpaired device raw t u ∧ u.closed = false ∧ u.failed = true)
      (fun _ u => Leads unpaired device raw t u ∧ True)
      { t with
        failed := true, nativeRead := none, chunks := clearChunks t.chunks,
        descriptor := t.descriptor && !t.autoClose } := by
    simp only [fail, queue, wp_bind, wp_get, wp_ite, wp_pure, wp_throw, wp_set, wp_modify]
    cases herror : t.events.error with
    | some error =>
      have haborts : Leads unpaired device raw t _ :=
        .single (.aborts t (t.descriptor && !t.autoClose) error hblamed (.inl herror))
      rw [if_pos (by simp)]
      rw [← herror] at haborts
      exact ⟨haborts, hopen', trivial⟩
    | none =>
      have hclosed : t.events.closed = false := by
        by_contra hne
        have hqueued := ht.closed (by simpa using hne)
        rw [hclose herror] at hqueued
        cases hqueued
      have haborts : Leads unpaired device raw t _ :=
        .single (.aborts t (t.descriptor && !t.autoClose) (errorNew message) hblamed (.inr ⟨herror, hclose herror⟩))
      have hfresh : ReadEvent.error ∉ t.history := by
        intro hmem
        have hsome := ht.ordered.errored hmem
        rw [herror] at hsome
        cases hsome
      rw [if_neg (by simp [hclosed])]
      split
      · exact ⟨haborts, trivial⟩
      · exact ⟨haborts.tail (.queues _ .error _ (hclose herror) ⟨rfl, hfresh⟩), hopen', trivial⟩
  unfold Does
  simp only [wp_bind, wp_modify]
  refine wp_mono hfail ?_ fun _ _ hu => hu
  rintro - u ⟨hleads, hclosed, hfailed⟩
  refine wp_mono ((closeEvents_does (.inr hfailed)).from hleads) ?_ fun _ _ hv => hv
  rintro - v ⟨hv, hsame⟩
  exact ⟨hv, hsame.trans hclosed⟩

/-! ## Input -/

theorem raises_nothing {raw : Bool} {p : Prop} (hs : Sound raw s) {error : Error} {chunks : ReadBuffer}
    (hrun : ReadBuffer.finish unpaired s.chunks = .error error chunks) (hraw : raw = true) : p := by
  have hfinish := @finish_raw unpaired s.chunks (hs.raw hraw).decoder
  rw [wp_of_error hrun] at hfinish
  exact hfinish.elim

/-- Where something is asked for, nothing has changed and it is in the range. -/
theorem requestSize_does (hs : Sound raw s) (hopen : s.closed = false) (hnone : s.nativeRead = none)
    (minimum : Nat) :
    Does unpaired device raw (requestSize unpaired minimum)
      (fun size t => t.closed = false ∧ (size ≠ 0 → t = s ∧ s.eof = false ∧ s.InRange size))
      (Fails raw device) s := by
  simp only [Does, requestSize, wp_bind, wp_get, wp_ite, wp_pure]
  split
  · exact ⟨.refl, hopen, fun hne => absurd rfl hne⟩
  rename_i hasks
  have heof : s.eof = false := by
    simp only [Bool.or_eq_true, not_or, Bool.not_eq_true] at hasks
    exact hasks.1
  cases hlast : s.last with
  | none =>
    refine ⟨.refl, hopen, fun _ => ⟨rfl, heof, fun last hsome => ?_⟩⟩
    rw [hlast] at hsome
    cases hsome
  | some last =>
    simp only [wp_ite, wp_bind, wp_modify, wp_pure, onChunks, wp_zoom]
    split
    · rename_i hpast
      have hpasses : Leads unpaired device raw s _ := .single (.passes s last true hopen hnone hlast hpast)
      apply wp_mono wp_run
      · intro _ chunks hrun
        rw [hrun] at hpasses
        refine ⟨hpasses, hopen, fun hne => absurd ?_ hne⟩
        omega
      · intro _ chunks hrun
        rw [hrun] at hpasses
        exact ⟨hpasses, hopen, raises_nothing hs hrun⟩
    · refine ⟨.refl, hopen, fun _ => ⟨trivial, heof, fun last' hsome => ?_⟩⟩
      rw [hlast] at hsome
      obtain rfl := Option.some.inj hsome
      omega

/-- What a read gives is taken in; a read in flight that fails is not forgotten. -/
theorem acceptRead_leads (hs : Sound raw s) (hopen : s.closed = false) (heof : s.eof = false)
    {request : Request} {outcome : ReadOutcome} {world : World}
    (hanswer : Answers device request s.world outcome world) (hplace : request.offset = s.position)
    (hrange : s.InRange request.size) (hfailed : ∀ error, outcome = .failed error → s.nativeRead = none) :
    wp (acceptRead unpaired outcome)
      (fun _ t => Leads unpaired device raw s t ∧ t.closed = false)
      (fun _ t => Leads unpaired device raw s t ∧ Fails raw device t) { s with world, nativeRead := none } := by
  cases outcome with
  | failed error =>
    have hsame : ({ s with world, nativeRead := none } : Readable World) = { s with world } := by
      rw [← hfailed error rfl]
    rw [acceptRead, wp_throw, hsame]
    exact ⟨.single (.calls s world (.failed request error world hanswer)), hopen,
      fun _ => .inl ⟨request, s.world, error, world, .inl hanswer⟩⟩
  | nothing =>
    simp only [acceptRead, wp_bind, wp_modify, onChunks, wp_zoom]
    have hends : Leads unpaired device raw s _ := .single (.ends s request world hopen hplace hanswer)
    apply wp_mono wp_run
    · intro _ chunks hrun
      rw [hrun] at hends
      exact ⟨hends.trans (leads_control id id rfl), hopen⟩
    · intro _ chunks hrun
      rw [hrun] at hends
      exact ⟨hends, hopen, raises_nothing hs hrun⟩
  | bytes value =>
    simp only [acceptRead, wp_bind, wp_modify, onChunks, wp_zoom]
    have hgives : Leads unpaired device raw s _ :=
      .single (.gives s request value world hopen heof hplace hrange hanswer)
    apply wp_mono wp_run
    · intro _ chunks hrun
      rw [hrun] at hgives
      exact ⟨hgives.trans (leads_control id id rfl), hopen⟩
    · intro _ chunks hrun
      rw [hrun] at hgives
      refine ⟨hgives, hopen, fun hraw => .inr ?_⟩
      have hcounted := hs.raw hraw
      have happend := @append_raw unpaired s.chunks hcounted.decoder hcounted.bytes value
      rw [wp_of_error hrun] at happend
      rcases happend.2 with hfinished | hlong
      · have hend := hcounted.finished hfinished
        rw [heof] at hend
        cases hend
      · have hheld := hcounted.held
        show (exactRange : Int) < s.bytesRead + value.length
        omega

/-- Only the background reads in flight. -/
theorem Sound.sync (hs : Sound raw s) (hsync : s.asynchronous = false) : s.nativeRead = none := by
  by_contra hsome
  obtain ⟨request, hrequest⟩ := Option.ne_none_iff_exists'.mp hsome
  have hasync := (hs.native request hrequest).1
  rw [hsync] at hasync
  cases hasync

theorem readDescriptor_does (hs : Sound raw s) (hopen : s.closed = false) (hsync : s.asynchronous = false)
    (minimum : Nat) :
    Does unpaired device raw (readDescriptor unpaired device minimum) (fun _ t => t.closed = false)
      (Fails raw device) s := by
  have hnone := hs.sync hsync
  refine (requestSize_does hs hopen hnone minimum).bind hs ?_ fun _ h => h
  rintro size t ht ⟨hclosed, hsize⟩
  simp only [Does, wp_ite, wp_pure, wp_bind, wp_get, wp_set]
  split
  · exact ⟨.refl, hclosed⟩
  · rename_i hne
    obtain ⟨rfl, heof, hrange⟩ := hsize hne
    have hasks : Leads unpaired device raw t _ := .single (.asks t size hrange)
    have hanswer : Answers device ⟨size, t.position⟩ t.world _ _ := .read
    have hread := @acceptRead_leads World unpaired device raw
      { t with requests := t.requests ++ [(t.place, size)] } (hs.leads hasks) hopen heof _ _ _ hanswer
      rfl hrange fun _ _ => hnone
    rw [← hnone] at hread
    exact wp_mono hread (fun _ _ hu => ⟨hasks.trans hu.1, hu.2⟩) fun _ _ hu => ⟨hasks.trans hu.1, hu.2⟩

theorem pollDescriptor_does (hs : Sound raw s) (hopen : s.closed = false) (hasync : s.asynchronous = true)
    (minimum : Nat) :
    Does unpaired device raw (pollDescriptor unpaired device minimum) (fun _ t => t.closed = false)
      (Fails raw device) s := by
  unfold Does pollDescriptor
  rw [wp_bind, wp_get]
  split
  · rename_i request hnative
    obtain ⟨-, heof, hplace, hrange⟩ := hs.native request hnative
    have hready : Leads unpaired device raw s { s with world := (device.ready s.world).2 } :=
      .single (.calls s _ .ready)
    have hanswer : Answers device request (device.ready s.world).2 _ _ := .result
    rw [wp_ite]
    split
    · split
      rename_i outcome world hresult
      rw [hresult] at hanswer
      split
      · rename_i error
        rw [wp_bind, wp_set, wp_throw]
        exact ⟨hready.tail (.calls _ _ (.failed request error world hanswer)), hopen,
          fun _ => .inl ⟨request, _, error, world, .inl hanswer⟩⟩
      · rename_i hnot
        rw [wp_bind, wp_set]
        have haccept := @acceptRead_leads World unpaired device raw { s with world := (device.ready s.world).2 }
          (hs.leads hready) hopen heof _ _ _ hanswer hplace hrange fun error herror => absurd herror (hnot error)
        exact wp_mono haccept (fun _ _ hu => ⟨hready.trans hu.1, hu.2⟩)
          fun _ _ hu => ⟨hready.trans hu.1, hu.2⟩
    · exact ⟨hready, hopen⟩
  · rename_i hnative
    refine (requestSize_does hs hopen hnative minimum).bind hs ?_ fun _ h => h
    rintro size t - ⟨hclosed, hsize⟩
    simp only [Does, wp_ite, wp_pure, wp_bind, wp_get]
    split
    · exact ⟨.refl, hclosed⟩
    · rename_i hne
      obtain ⟨rfl, heof, hrange⟩ := hsize (by omega)
      have hless : t.InRange (min 1048576 size) := fun last hlast => by
        have hlast := hrange last hlast
        omega
      have hasks : Leads unpaired device raw t _ := .single (.asks t _ hless)
      have hcalls : Calls device t.world _ := .start ⟨min 1048576 size, t.position⟩
      split
      · rename_i error world hstart
        rw [hstart] at hcalls
        exact ⟨hasks.tail (.calls _ world hcalls), hclosed, fun _ => .inl ⟨_, _, error, world, .inr hstart⟩⟩
      · rename_i world hstart
        rw [hstart] at hcalls
        exact ⟨hasks.tail (.starts _ _ world hnative heof hasync rfl hless hcalls), hclosed⟩

theorem fill_does (hs : Sound raw s) (hopen : s.closed = false) (minimum : Nat) :
    Does unpaired device raw (fill unpaired device minimum) (fun _ t => t.closed = false) (fun _ => True) s := by
  unfold fill
  unfold Does
  rw [wp_bind, wp_get]
  apply Does.catch hs (P := fun _ t => t.closed = false) (E := Fails raw device)
  · split
    · rename_i hasync
      exact pollDescriptor_does hs hopen hasync minimum
    · rename_i hsync
      exact readDescriptor_does hs hopen (by simpa using hsync) minimum
  · exact fun error t ht hfails => abort_does ht hfails error.message
  · exact fun _ _ hclosed => hclosed

theorem fillLoop_does (minimum turns : Nat) (hs : Sound raw s) (hopen : s.closed = false) :
    Does unpaired device raw (fillLoop unpaired device minimum turns) (fun _ t => t.closed = false)
      (fun _ => True) s := by
  induction turns generalizing s with
  | zero => exact ⟨.refl, hopen⟩
  | succ turns ih =>
    unfold Does fillLoop
    rw [wp_bind, wp_get, wp_ite]
    split
    · refine (fill_does hs hopen 1).bind hs ?_ fun _ h => h
      rintro - t ht hclosed
      unfold Does
      rw [wp_bind, wp_get, wp_ite]
      split
      · exact ⟨.refl, hclosed⟩
      · exact ih ht hclosed
    · exact ⟨.refl, hopen⟩

/-! ## Operations -/

theorem closeDescriptor_does :
    Does unpaired device raw (closeDescriptor device) (fun _ t => ∃ world, t = { s with world })
      (fun t => ∃ world, t = { s with world }) s := by
  unfold Does closeDescriptor
  rw [wp_bind, wp_get, wp_ite]
  have hcalls : Calls device s.world _ := .close
  split
  · split
    · rename_i world hclose
      rw [hclose] at hcalls
      exact ⟨.single (.calls s world hcalls), world, rfl⟩
    · rename_i error world hclose
      rw [hclose] at hcalls
      exact ⟨.single (.calls s world hcalls), world, rfl⟩
  · exact ⟨.refl, s.world, rfl⟩

theorem close_does (hs : Sound raw s) (hraw : raw = true → s.chunks.length = 0) :
    Does unpaired device raw (close device) (fun _ _ => True) (fun _ => True) s := by
  unfold Does close
  rw [wp_bind, wp_get, wp_ite]
  split
  · exact ⟨.refl, trivial⟩
  rename_i hopen
  rw [Bool.not_eq_true] at hopen
  refine prepare_does.bind hs ?_ fun _ _ => trivial
  rintro - t ht ⟨free, reservations, rfl⟩
  have hclose : s.events.error = none → s.events.closeQueued = false := by
    intro hnone
    by_contra hqueued
    have hfailed := (hs.closing (by simpa using hqueued)).resolve_left (by rw [hopen]; decide)
    have herror := hs.failing hfailed
    rw [hnone] at herror
    cases herror
  unfold Does
  simp only [wp_bind, wp_modify, wp_tryFinally, wp_tryCatch]
  have hshuts : Leads unpaired device raw { s with free, events.reservations := reservations } _ :=
    .single (.shuts _ hraw hopen)
  have hend : ∀ u, Leads unpaired device raw { s with free, events.reservations := reservations } u →
      u.closed = true →
      wp closeEvents
        (fun _ v => Leads unpaired device raw { s with free, events.reservations := reservations } v ∧ True)
        (fun _ v => Leads unpaired device raw { s with free, events.reservations := reservations } v ∧ True) u :=
    fun u hu hclosed => ((closeEvents_does (.inl hclosed)).mono (fun _ _ _ => trivial) fun _ h => h).from hu
  refine wp_mono (closeDescriptor_does.from hshuts) ?_ ?_
  · rintro - u ⟨hu, world, rfl⟩
    exact hend _ hu rfl
  · rintro error u ⟨hu, world, rfl⟩
    refine wp_mono ((fail_does (ht.leads hu) (errorNew error.message) rfl hclose).from hu) ?_ ?_
    · rintro - v ⟨hv, hclosed⟩
      exact hend v hv hclosed
    · rintro - v ⟨hv, hclosed⟩
      exact hend v hv hclosed

theorem fillFor_does (hs : Sound raw s) (hopen : s.closed = false) (turns : Nat) (selected : Option Int)
    (desired : Nat) :
    Does unpaired device raw (fillFor unpaired device turns selected desired) (fun _ t => t.closed = false)
      (fun _ => True) s := by
  unfold Does fillFor
  rw [wp_bind, wp_get, wp_ite]
  split
  · refine (fill_does hs hopen _).bind hs ?_ fun _ h => h
    exact fun _ t ht hclosed => fillLoop_does _ turns ht hclosed
  · exact ⟨.refl, hopen⟩

/-- What is taken goes to the caller and the listeners. -/
theorem take_leads (hopen : s.Open) (size : Int) :
    wp (onChunks (ReadBuffer.take size) : Run World (Option StreamChunk))
      (fun chunk t => Leads unpaired device raw s { t with delivered := t.delivered ++ chunk.toList })
      (fun _ t => Leads unpaired device raw s t) s := by
  have htakes : Leads unpaired device raw s _ := .single (.takes s size hopen)
  rw [onChunks, wp_zoom]
  apply wp_mono wp_run
  · intro chunk chunks hrun
    rw [hrun] at htakes
    exact htakes
  · intro _ chunks hrun
    rw [hrun] at htakes
    exact htakes

theorem leads_none {chunk : Option StreamChunk} (h : Leads unpaired device raw s t) (hnone : chunk = none) :
    Leads unpaired device raw s { t with delivered := t.delivered ++ chunk.toList } := by
  rw [hnone, Option.toList_none, List.append_nil]
  exact h

theorem takeFor_leads (hopen : s.Open) (selected : Option Int) (desired : Nat) :
    wp (takeFor selected desired : Run World (Option StreamChunk))
      (fun chunk t => Leads unpaired device raw s { t with delivered := t.delivered ++ chunk.toList })
      (fun _ t => Leads unpaired device raw s t) s := by
  unfold takeFor
  rw [wp_bind, wp_get]
  cases selected with
  | none => exact take_leads hopen _
  | some selected =>
    dsimp only
    rw [wp_ite, wp_ite]
    split
    · exact leads_none .refl rfl
    · split
      · exact leads_none .refl rfl
      · exact take_leads hopen _

theorem grow_does (selected : Option Int) :
    Does unpaired device raw (grow selected)
      (fun _ t => ∃ chunkSize, t = { s with chunkSize } ∧ (selected = none → chunkSize = s.chunkSize))
      (fun t => t = s) s := by
  unfold Does grow
  cases selected with
  | none => exact ⟨.refl, s.chunkSize, rfl, fun _ => rfl⟩
  | some size =>
    dsimp only
    rw [wp_bind, wp_get]
    cases increasedReadThreshold size s.chunkSize with
    | error error => exact ⟨.refl, rfl⟩
    | ok chunkSize => exact ⟨leads_control id id rfl, chunkSize, rfl, fun hnone => by cases hnone⟩

theorem readSized_leads (hs : Sound raw s) (turns : Nat) (selected : Option Int) :
    wp (readSized unpaired device turns selected)
      (fun chunk t => Leads unpaired device raw s { t with delivered := t.delivered ++ chunk.toList })
      (fun _ t => Leads unpaired device raw s t) s := by
  unfold readSized
  rw [wp_bind]
  refine wp_mono (grow_does selected) ?_ fun _ _ ht => ht.1
  rintro - t ⟨ht, chunkSize, rfl, -⟩
  rw [wp_bind, wp_get, wp_ite]
  split
  · exact leads_none ht rfl
  rename_i hopen
  simp only [Bool.or_eq_true, not_or, Bool.not_eq_true] at hopen
  rw [wp_bind]
  refine wp_mono (prepare_does.from ht) ?_ fun _ _ hu => hu.1
  rintro - u ⟨hu, free, reservations, rfl⟩
  simp only [wp_bind, wp_modify, wp_get, wp_ite]
  have hbegins := hu.trans (leads_control (t := { s with
    chunkSize, free, events.reservations := reservations, readablePending := false, owed := false }) id id rfl)
  refine wp_mono ((fillFor_does (hs.leads hbegins) hopen.1 turns selected _).from hbegins) ?_ fun _ _ hv => hv.1
  rintro - v ⟨hv, hclosed⟩
  split
  · exact leads_none hv rfl
  rename_i hfailed
  rw [Bool.not_eq_true] at hfailed
  split
  · rename_i hend
    have hended := hv.trans (leads_control (t := { v with ended := true }) (fun _ => rfl) id rfl)
    refine wp_mono ((endEvents_does (s := { v with ended := true }) ⟨hclosed, hfailed⟩ hend.2 hend.1).from hended)
      ?_ fun _ _ hw => hw.1
    rintro - w ⟨hw, hchunks⟩
    split
    · refine wp_mono ((close_does (hs.leads hw) fun _ => by rw [hchunks]; exact hend.1).from hw) ?_ fun _ _ hx => hx.1
      exact fun _ _ hx => leads_none hx.1 rfl
    · exact leads_none hw rfl
  · refine wp_mono (takeFor_leads ⟨hclosed, hfailed⟩ selected _) ?_ fun _ _ hw => hv.trans hw
    exact fun _ _ hw => hv.trans hw

theorem read_leads (hs : Sound raw s) (turns : Nat) (selected : Option Int) :
    wp (read unpaired device turns selected) (fun _ t => Leads unpaired device raw s t)
      (fun _ t => Leads unpaired device raw s t) s := by
  unfold read
  rw [wp_bind]
  refine wp_mono (readSized_leads hs turns selected) ?_ fun _ _ ht => ht
  intro chunk t ht
  cases chunk with
  | none =>
    rw [Option.toList_none, List.append_nil] at ht
    exact ht
  | some chunk => exact ht

theorem append_leads (hs : Sound raw s) (hraw : raw = false) (value : List Byte) :
    wp (append unpaired value) (fun _ t => Leads unpaired device raw s t)
      (fun _ t => Leads unpaired device raw s t) s := by
  unfold append
  rw [wp_bind, wp_get, wp_ite]
  split
  · exact .refl
  rename_i hopen
  simp only [Bool.or_eq_true, not_or, Bool.not_eq_true] at hopen
  rw [wp_bind]
  refine wp_mono prepare_does ?_ fun _ _ ht => ht.1
  rintro - t ⟨ht, free, reservations, rfl⟩
  simp only [wp_tryCatch, wp_bind, wp_modify, onChunks, wp_zoom]
  refine wp_of_forall (fun _ chunks => ?_) fun error chunks => ?_
  · exact (ht.tail (.edits _ chunks hraw (.inl hopen.1.1))).trans (leads_control id id rfl)
  · have hedits := ht.tail (.edits _ chunks hraw (.inl hopen.1.1))
    have hfails : Fails raw device { s with free, events.reservations := reservations, chunks } :=
      ⟨hopen.1.1, fun htrue => by rw [hraw] at htrue; cases htrue⟩
    refine wp_mono ((abort_does (hs.leads hedits) hfails error.message).from hedits) ?_ ?_
    · exact fun _ _ hu => hu.1
    · exact fun _ _ hu => hu.1

/-- With nothing held, an encoding is set without a failure. -/
theorem setEncoding_blank {chunks : ReadBuffer} (h : Blank chunks) (encoding : Encoding) :
    wp (ReadBuffer.setEncoding unpaired encoding.name) (fun _ chunks' => Blank chunks') (fun _ _ => False)
      chunks := by
  have hnew : StreamDecoder.new encoding.name = .ok ⟨encoding, []⟩ := by
    rw [StreamDecoder.new, encodingName_name]
    rfl
  simp only [ReadBuffer.setEncoding, ReadBuffer.drain, hnew, ofExcept, wp_bind, wp_pure, wp_get, wp_ite,
    if_pos h.bytes]
  split
  · rw [ReadBuffer.wp_convert]
    refine wp_mono (ReadBuffer.end_all ⟨encoding, []⟩) ?_ ?_
    · rintro text decoder ⟨htext, rfl⟩
      rw [ReadBuffer.decoded_nil] at htext
      obtain rfl := Option.some.inj htext
      refine wp_mono (TextQueue.append_spec h.text []) ?_ ?_
      · rintro - queue ⟨hsound, hheld⟩
        rw [h.held] at hheld
        exact ⟨h.bytes, hsound, hheld⟩
      · rintro - queue ⟨-, hlong⟩
        exact absurd hlong (Nat.not_lt_zero _)
    · rintro - decoder ⟨-, hnone⟩
      rw [ReadBuffer.decoded_nil] at hnone
      cases hnone
  · exact ⟨h.bytes, h.text, h.held⟩

theorem setEncoding_leads (hs : Sound raw s) (hraw : raw = false) (name : Text) :
    wp (setEncoding unpaired name) (fun _ t => Leads unpaired device raw s t)
      (fun _ t => Leads unpaired device raw s t) s := by
  unfold setEncoding
  split
  · exact .refl
  rename_i encoding _
  rw [wp_bind]
  refine wp_mono prepare_does ?_ fun _ _ ht => ht.1
  rintro - t ⟨ht, free, reservations, rfl⟩
  rw [wp_tryCatch, onChunks, wp_zoom]
  by_cases hclosed : s.closed = true
  · refine wp_mono (setEncoding_blank (hs.blank hclosed) encoding) ?_ fun _ _ hfalse => hfalse.elim
    exact fun _ chunks hblank => ht.tail (.edits _ chunks hraw (.inr hblank))
  · rw [Bool.not_eq_true] at hclosed
    refine wp_of_forall (fun _ chunks => ht.tail (.edits _ chunks hraw (.inl hclosed))) fun error chunks => ?_
    have hedits := ht.tail (.edits _ chunks hraw (.inl hclosed))
    have hfails : Fails raw device { s with free, events.reservations := reservations, chunks } :=
      ⟨hclosed, fun htrue => by rw [hraw] at htrue; cases htrue⟩
    refine wp_mono ((abort_does (hs.leads hedits) hfails error.message).from hedits) ?_ ?_
    · exact fun _ _ hu => hu.1
    · exact fun _ _ hu => hu.1

/-! ## Control -/

theorem activate_leads (full : Bool) :
    wp (activate full : Run World Unit) (fun _ t => Leads unpaired device raw s t)
      (fun _ t => Leads unpaired device raw s t) s := by
  unfold activate
  rw [wp_bind]
  refine wp_mono prepare_does ?_ fun _ _ ht => ht.1
  rintro - t ⟨ht, free, reservations, rfl⟩
  rw [wp_ite]
  split
  · exact ht
  · exact ht.trans (leads_control id (fun _ => rfl) rfl)

theorem resume_leads (full : Bool) :
    wp (resume full : Run World Unit) (fun _ t => Leads unpaired device raw s t)
      (fun _ t => Leads unpaired device raw s t) s := by
  unfold resume
  rw [wp_bind]
  refine wp_mono (activate_leads full) ?_ fun _ _ ht => ht
  exact fun _ _ ht => ht.trans (leads_control id id rfl)

theorem addData_leads (full : Bool) :
    wp (addData full : Run World Unit) (fun _ t => Leads unpaired device raw s t)
      (fun _ t => Leads unpaired device raw s t) s := by
  unfold addData
  rw [wp_bind]
  refine wp_mono (activate_leads full) ?_ fun _ _ ht => ht
  intro _ t ht
  simp only [wp_bind, wp_modify, wp_get, wp_ite, wp_pure]
  have hadd := ht.trans (leads_control (t := { t with dataListener := true }) id id rfl)
  split
  · exact hadd
  · exact wp_mono (resume_leads full) (fun _ _ hu => hadd.trans hu) fun _ _ hu => hadd.trans hu

theorem addReadable_leads (full : Bool) :
    wp (addReadable full : Run World Unit) (fun _ t => Leads unpaired device raw s t)
      (fun _ t => Leads unpaired device raw s t) s := by
  unfold addReadable
  rw [wp_bind]
  refine wp_mono (activate_leads full) ?_ fun _ _ ht => ht
  exact fun _ _ ht => ht.trans (leads_control id id rfl)

theorem removeReadable_leads (full : Bool) :
    wp (removeReadable full : Run World Unit) (fun _ t => Leads unpaired device raw s t)
      (fun _ t => Leads unpaired device raw s t) s := by
  unfold removeReadable
  simp only [wp_bind, wp_modify, wp_get, wp_ite, wp_pure]
  have hremove : Leads unpaired device raw s { s with readableListener := false } := leads_control id id rfl
  split
  · exact wp_mono (resume_leads full) (fun _ _ hu => hremove.trans hu) fun _ _ hu => hremove.trans hu
  · exact hremove

theorem pollInput_leads (hs : Sound raw s) :
    wp (pollInput unpaired device) (fun _ t => Leads unpaired device raw s t)
      (fun _ t => Leads unpaired device raw s t) s := by
  unfold pollInput
  simp only [wp_bind, wp_modify, wp_get, wp_ite, wp_pure]
  have hasync : Leads unpaired device raw s { s with asynchronous := true } := leads_control id (fun _ => rfl) rfl
  split
  · exact hasync
  rename_i hopen
  simp only [Bool.or_eq_true, not_or, Bool.not_eq_true] at hopen
  split
  · refine wp_mono ((fill_does (hs.leads hasync) hopen.1 1).from hasync) ?_ ?_
    · exact fun _ _ ht => ht.1
    · exact fun _ _ ht => ht.1
  · exact hasync

theorem pollReady_leads (hs : Sound raw s) (turns : Nat) (blocked : Bool) :
    wp (pollReady unpaired device turns blocked) (fun _ t => Leads unpaired device raw s t)
      (fun _ t => Leads unpaired device raw s t) s := by
  unfold pollReady
  simp only [wp_bind, wp_get, wp_ite, wp_pure]
  split
  · exact .refl
  rename_i hopen
  simp only [Bool.or_eq_true, not_or, Bool.not_eq_true] at hopen
  split
  · split
    · have hfill : Does unpaired device raw _ _ _ s := fill_does hs hopen.1.2 0
      exact wp_mono hfill (fun _ _ ht => ht.1) fun _ _ ht => ht.1
    · exact .refl
  · refine wp_mono (pollInput_leads hs) ?_ fun _ _ ht => ht
    intro _ t ht
    split
    · split
      · exact ht.trans (leads_control id id rfl)
      · exact ht
    · split
      · refine wp_mono (read_leads (hs.leads ht) turns none) ?_ fun _ _ hu => ht.trans hu
        exact fun _ _ hu => (ht.trans hu).trans (leads_control id id rfl)
      · exact ht

theorem poll_leads (hs : Sound raw s) (turns : Nat) (blocked : Bool) :
    wp (poll unpaired device turns blocked) (fun _ t => Leads unpaired device raw s t)
      (fun _ t => Leads unpaired device raw s t) s := by
  unfold poll
  simp only [wp_bind, wp_get, wp_ite, wp_pure, wp_set]
  split
  · exact .refl
  · split
    · exact .refl
    · split
      · exact leads_control id id rfl
      · exact pollReady_leads hs turns blocked

theorem goOn_leads (hs : Sound raw s) (turns : Nat) :
    wp (goOn unpaired device turns) (fun _ t => Leads unpaired device raw s t)
      (fun _ t => Leads unpaired device raw s t) s := by
  unfold goOn
  simp only [wp_bind, wp_get, wp_set]
  have hidle : Leads unpaired device raw s { s with phase := .idle } := leads_control id id rfl
  split
  · rename_i blocked _
    exact wp_mono (pollReady_leads (hs.leads hidle) turns blocked) (fun _ _ ht => hidle.trans ht)
      fun _ _ ht => hidle.trans ht
  · exact hidle

/-! ## Runs -/

/-- The action reads what the device gives and nothing else, as bytes, and leaves the closing to the end. -/
def Raw : Action → Prop
  | .append _ => False
  | .setEncoding _ => False
  | .close => False
  | _ => True

theorem perform_leads (hs : Sound raw s) {action : Action} (hraw : raw = true → Raw action) :
    wp (perform unpaired device action) (fun _ t => Leads unpaired device raw s t)
      (fun _ t => Leads unpaired device raw s t) s := by
  cases action with
  | read selected turns => exact read_leads hs turns selected
  | append value => exact append_leads hs (by simpa [Raw] using hraw) value
  | setEncoding name => exact setEncoding_leads hs (by simpa [Raw] using hraw) name
  | close =>
    have hclose : Does unpaired device raw (close device) (fun _ _ => True) (fun _ => True) s :=
      close_does hs fun htrue => (hraw htrue).elim
    exact wp_mono hclose (fun _ _ ht => ht.1) fun _ _ ht => ht.1
  | pause => exact leads_control id id rfl
  | resume full => exact resume_leads full
  | addData full => exact addData_leads full
  | removeData => exact leads_control id id rfl
  | addReadable full => exact addReadable_leads full
  | removeReadable full => exact removeReadable_leads full
  | spendReadable => exact leads_control id id rfl
  | pollInput => exact pollInput_leads hs
  | poll blocked turns => exact poll_leads hs turns blocked
  | goOn turns => exact goOn_leads hs turns
  | stop => exact leads_control id id rfl
  | prune => exact leads_control id id rfl
  | deliver =>
    have hdelivers : Leads unpaired device raw s _ := .single (.delivers s)
    apply wp_mono wp_run
    · intro _ t hrun
      change deliver s = _ at hrun
      rw [hrun] at hdelivers
      exact hdelivers
    · intro _ t hrun
      change deliver s = _ at hrun
      rw [hrun] at hdelivers
      exact hdelivers
  | places free => exact leads_control id id rfl

theorem step_leads (hs : Sound raw s) {action : Action} (hraw : raw = true → Raw action) :
    Leads unpaired device raw s (step unpaired device s action) := wp_final (perform_leads hs hraw)

end

/-- A new stream. -/
def opened (world : World) (descriptor : Bool) (chunkSize : Nat) (start last : Option Int) (autoClose : Bool)
    (free : Nat) : Readable World :=
  { world, descriptor, chunkSize, position := start, last, autoClose, free }

theorem sound_opened (raw : Bool) (world : World) (descriptor : Bool) (chunkSize : Nat) (start last : Option Int)
    (autoClose : Bool) (free : Nat) : Sound raw (opened world descriptor chunkSize start last autoClose free) where
  raw _ := ⟨rfl, ByteQueue.sound_new, Int.le_refl 0, fun h => by cases h⟩
  blank h := by cases h
  closing h := by cases h
  failing h := by cases h
  erring h := by cases h
  closed h := by cases h
  native _ h := by cases h
  ordered := ⟨List.nodup_nil, List.Pairwise.nil, fun h => (List.not_mem_nil h).elim,
    fun h => (List.not_mem_nil h).elim, fun h => (List.not_mem_nil h).elim,
    fun _ _ _ h => (List.not_mem_nil h).elim, fun _ h => (List.not_mem_nil h).elim⟩

/-- **The order of the lifecycle events**: each is delivered once at most and nothing behind `close`; `end`
is queued when the input has ended and all of it was taken, and not delivered behind an error. -/
structure Lifecycle (record : List ReadEntry) : Prop where
  once : (told record).Nodup
  last : (told record).Pairwise fun earlier _ => earlier ≠ .close
  queued : ∀ eof held cleared, .queued .end_ eof held cleared ∈ record → eof = true ∧ held = 0 ∧ cleared = false
  suppressed : ∀ errored, .delivered .end_ errored ∈ record → errored = false

theorem sound_run (unpaired : List UInt16 → Error) (device : Device World) {s : Readable World}
    (hs : Sound false s) (actions : List Action) : Sound false (run (step unpaired device) s actions) :=
  run_preserves (fun t action ht => ht.leads (@step_leads _ unpaired device false t ht action fun h => by cases h))
    hs actions

theorem lifecycle_ordered (unpaired : List UInt16 → Error) (device : Device World) (world : World)
    (descriptor : Bool) (chunkSize : Nat) (start last : Option Int) (autoClose : Bool) (free : Nat)
    (actions : List Action) :
    Lifecycle (run (step unpaired device) (opened world descriptor chunkSize start last autoClose free)
      actions).record := by
  have h := (sound_run unpaired device (sound_opened false world descriptor chunkSize start last autoClose free)
    actions).ordered
  exact ⟨h.once.sublist (List.sublist_append_left _ _), h.last.sublist (List.sublist_append_left _ _), h.queued,
    h.suppressed⟩

end Readable

end TsonicNode.Stream
