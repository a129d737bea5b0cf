import Mathlib.Logic.Relation
import TsonicNode.Lib.Run
import TsonicNode.Stream.Readable

/-!
# What a readable stream does

Every action of a readable stream is a sequence of `Move`s, which say what may
happen to its input and its events and under which guard. `Sound` is what holds
between two moves; from it follows the order of the lifecycle events.
-/

namespace TsonicNode.Stream

open TsonicNode.Lib TsonicNode.Buffer

namespace Readable

variable {World : Type}

/-- Neither closed nor failed. -/
def Open (s : Readable World) : Prop := s.closed = false ∧ s.failed = false

/-- So many bytes from the place on are in the range. -/
def InRange (s : Readable World) (size : Nat) : Prop := ∀ last, s.last = some last → s.place + size ≤ last + 1

/-- The lifecycle events that were delivered. -/
def told (record : List ReadEntry) : List ReadEvent :=
  record.filterMap fun
    | .delivered event _ => some event
    | .queued _ _ _ _ => none

/-- The lifecycle events, delivered or waiting. -/
def history (s : Readable World) : List ReadEvent := told s.record ++ s.pending

/-- Nothing is held, and nothing waits to be converted. -/
structure Blank (chunks : ReadBuffer) : Prop where
  bytes : chunks.bytes.length = 0
  text : chunks.text.Sound
  held : chunks.text.held = []

end Readable

/-- The flags behind the queueing of an event. -/
def ReadEvents.commit (events : ReadEvents) : ReadEvent → ReadEvents
  | .end_ => { events with endQueued := true }
  | .error => events
  | .close => { events with closeQueued := true }

namespace Readable

variable {World : Type}

/-- What an event is queued behind. -/
def Due (s : Readable World) : ReadEvent → Prop
  | .end_ => s.Open ∧ s.eof = true ∧ s.chunks.length = 0 ∧ s.events.endQueued = false
  | .error => s.events.error.isSome = true ∧ ReadEvent.error ∉ s.history
  | .close => s.closed = true ∨ s.failed = true

section
variable (unpaired : List UInt16 → Error) (device : Device World) (raw : Bool)

/-- A read gives its outcome. -/
inductive Answers (request : Request) (world : World) : ReadOutcome → World → Prop
  | read : Answers request world (device.read request world).1 (device.read request world).2
  | result : Answers request world (device.result request world).1 (device.result request world).2

/-- A call that gives no bytes and does not find the end. -/
inductive Calls (world : World) : World → Prop
  | start (request : Request) : Calls world (device.start request world).2
  | ready : Calls world (device.ready world).2
  | close : Calls world (device.close world).2
  | failed (request : Request) (error : Error) (after : World)
    (h : Answers device request world (.failed error) after) : Calls world after

/-- The device may fail, or more was read than the stream can count. -/
def Blamed (s : Readable World) : Prop :=
  (∃ request world error after, Answers device request world (.failed error) after ∨
    device.start request world = (some error, after)) ∨ exactRange < s.bytesRead

/-- Without `raw`, bytes may come from elsewhere, the encoding may be set and user code may close. -/
inductive Move : Readable World → Readable World → Prop
  | control (s : Readable World)
    (paused ended asynchronous flowing resumePending readablePending readableListener dataListener owed : Bool)
    (chunkSize free notices : Nat) (phase : Phase) (reservations : List ReadEvent)
    (hended : s.ended = true → ended = true) (h : s.asynchronous = true → asynchronous = true) :
    Move s { s with
      paused, ended, asynchronous, flowing, resumePending, readablePending, readableListener, dataListener,
      owed, chunkSize, free, notices, phase, events.reservations := reservations }
  | calls (s : Readable World) (world : World) (h : Calls device s.world world) : Move s { s with world }
  | asks (s : Readable World) (size : Nat) (h : s.InRange size) :
    Move s { s with requests := s.requests ++ [(s.place, size)] }
  | starts (s : Readable World) (request : Request) (world : World) (hnone : s.nativeRead = none)
    (heof : s.eof = false) (hasync : s.asynchronous = true) (hplace : request.offset = s.position)
    (hrange : s.InRange request.size)
    (h : Calls device s.world world) : Move s { s with world, nativeRead := some request }
  | gives (s : Readable World) (request : Request) (value : List Byte) (world : World) (hopen : s.closed = false)
    (heof : s.eof = false) (hplace : request.offset = s.position) (hrange : s.InRange request.size)
    (h : Answers device request s.world (.bytes value) world) :
    Move s { s with
      world, nativeRead := none, bytesRead := s.bytesRead + value.length,
      position := s.position.map (· + value.length),
      chunks := finalState (ReadBuffer.append unpaired value s.chunks) }
  | ends (s : Readable World) (request : Request) (world : World) (hopen : s.closed = false)
    (hplace : request.offset = s.position) (h : Answers device request s.world .nothing world) :
    Move s { s with
      world, nativeRead := none, eof := true, chunks := finalState (ReadBuffer.finish unpaired s.chunks) }
  | passes (s : Readable World) (last : Int) (owed : Bool) (hopen : s.closed = false)
    (hnone : s.nativeRead = none) (hlast : s.last = some last) (h : last < s.place) :
    Move s { s with eof := true, owed, chunks := finalState (ReadBuffer.finish unpaired s.chunks) }
  | edits (s : Readable World) (chunks : ReadBuffer) (hraw : raw = false) (h : s.closed = false ∨ Blank chunks) :
    Move s { s with chunks }
  | takes (s : Readable World) (size : Int) (hopen : s.Open) :
    Move s (match ReadBuffer.take size s.chunks with
      | .ok chunk chunks => { s with chunks, delivered := s.delivered ++ chunk.toList }
      | .error _ chunks => { s with chunks })
  | shuts (s : Readable World) (hraw : raw = true → s.chunks.length = 0) (h : s.closed = false) :
    Move s { s with closed := true, nativeRead := none, chunks := clearChunks s.chunks }
  | aborts (s : Readable World) (descriptor : Bool) (error : TsError) (hraw : raw = true → Blamed device s)
    (h : s.events.error = some error ∨ s.events.error = none ∧ s.events.closeQueued = false) :
    Move s { s with
      failed := true, nativeRead := none, chunks := clearChunks s.chunks, descriptor, events.error := some error }
  | records (s : Readable World) (error : TsError) (hclosed : s.closed = true) (hnone : s.events.error = none)
    (h : s.events.closeQueued = false) : Move s { s with events.error := some error }
  | queues (s : Readable World) (event : ReadEvent) (reservations : List ReadEvent)
    (hclose : s.events.closeQueued = false) (h : s.Due event) :
    Move s { s with
      pending := s.pending ++ [event],
      record := s.record ++ [.queued event s.eof s.chunks.length (s.closed || s.failed)],
      events := { s.events.commit event with reservations } }
  | delivers (s : Readable World) : Move s (finalState (deliver s))

abbrev Leads : Readable World → Readable World → Prop := Relation.ReflTransGen (Move unpaired device raw)

end

/-- The lifecycle events and their flags. -/
structure Ordered (record : List ReadEntry) (pending : List ReadEvent) (ended errored closed : Bool) : Prop where
  once : (told record ++ pending).Nodup
  last : (told record ++ pending).Pairwise fun earlier _ => earlier ≠ .close
  ended : .end_ ∈ told record ++ pending → ended = true
  errored : .error ∈ told record ++ pending → errored = true
  closed : .close ∈ told record ++ pending → closed = true
  queued : ∀ eof held cleared, .queued .end_ eof held cleared ∈ record → eof = true ∧ held = 0 ∧ cleared = false
  suppressed : ∀ errored, .delivered .end_ errored ∈ record → errored = false

/-- Bytes only, no more than were read, and no end that the stream does not know of. -/
structure Counted (s : Readable World) : Prop where
  decoder : s.chunks.decoder = none
  bytes : s.chunks.bytes.Sound
  held : s.chunks.bytes.length ≤ s.bytesRead
  finished : s.chunks.finished = true → s.eof = true

/-- What holds between two moves. -/
structure Sound (raw : Bool) (s : Readable World) : Prop where
  raw : raw = true → Counted s
  /-- What is closed stays empty, so that no encoding can fail. -/
  blank : s.closed = true → Blank s.chunks
  closing : s.events.closeQueued = true → s.closed = true ∨ s.failed = true
  failing : s.failed = true → s.events.error.isSome = true
  erring : s.events.error.isSome = true → s.closed = true ∨ s.failed = true
  closed : s.events.closed = true → s.events.closeQueued = true
  native : ∀ request, s.nativeRead = some request →
    s.asynchronous = true ∧ s.eof = false ∧ request.offset = s.position ∧ s.InRange request.size
  ordered : Ordered s.record s.pending s.events.endQueued s.events.error.isSome s.events.closeQueued

/-! ## Bytes -/

section
variable {unpaired : List UInt16 → Error} {chunks : ReadBuffer}

theorem append_raw (hdecoder : chunks.decoder = none) (hsound : chunks.bytes.Sound) (value : List Byte) :
    wp (ReadBuffer.append unpaired value)
      (fun _ chunks' => chunks'.decoder = none ∧ chunks'.bytes.Sound ∧ chunks'.finished = chunks.finished ∧
        chunks'.bytes.chunks.flatten = chunks.bytes.chunks.flatten ++ value)
      (fun _ chunks' => chunks' = chunks ∧
        (chunks.finished = true ∨ exactRange < chunks.bytes.length + value.length)) chunks := by
  obtain ⟨bytes, text, decoder, finished⟩ := chunks
  obtain rfl : decoder = none := hdecoder
  simp only [ReadBuffer.append, wp_bind, wp_get, wp_ite, wp_throw, ReadBuffer.onBytes, wp_zoom]
  split
  · rename_i hfinished
    exact ⟨trivial, .inl hfinished⟩
  have hlong : wp (ByteQueue.append value) (fun _ _ => True)
      (fun _ _ => exactRange < bytes.length + value.length) bytes := by
    simp only [ByteQueue.append, wp_bind, wp_get, wp_ite, wp_pure, wp_throw, wp_modify]
    split
    · trivial
    · split
      · omega
      · trivial
  apply wp_mono (wp_and (ByteQueue.append_spec hsound value) hlong)
  · rintro - queue ⟨⟨hqueue, hcontent⟩, -⟩
    exact ⟨trivial, hqueue, trivial, hcontent⟩
  · rintro - queue ⟨rfl, hrange⟩
    exact ⟨rfl, .inr hrange⟩

theorem finish_raw (hdecoder : chunks.decoder = none) :
    wp (ReadBuffer.finish unpaired) (fun _ chunks' => chunks' = { chunks with finished := true })
      (fun _ _ => False) chunks := by
  obtain ⟨bytes, text, decoder, finished⟩ := chunks
  obtain rfl : decoder = none := hdecoder
  simp only [ReadBuffer.finish, wp_bind, wp_get, wp_ite, wp_pure, wp_modify]
  split
  · rename_i hfinished
    rw [show finished = true from hfinished]
  · trivial

theorem take_raw (hdecoder : chunks.decoder = none) (hsound : chunks.bytes.Sound) (size : Int) :
    wp (ReadBuffer.take size)
      (fun chunk chunks' => chunks'.decoder = none ∧ chunks'.bytes.Sound ∧ chunks'.finished = chunks.finished ∧
        ∃ value : Option (List Byte), chunk = value.map .buffer ∧
          value.getD [] ++ chunks'.bytes.chunks.flatten = chunks.bytes.chunks.flatten)
      (fun _ chunks' => chunks' = chunks) chunks := by
  obtain ⟨bytes, text, decoder, finished⟩ := chunks
  obtain rfl : decoder = none := hdecoder
  simp only [ReadBuffer.take, wp_bind, wp_get, wp_ite, wp_pure, Option.isSome_none, Bool.false_eq_true, if_false,
    ReadBuffer.onBytes, wp_zoom]
  split
  · exact ⟨trivial, hsound, trivial, none, rfl, rfl⟩
  apply wp_mono (ByteQueue.take_spec hsound size)
  · rintro value queue ⟨hqueue, hcontent, -, -⟩
    exact ⟨trivial, hqueue, trivial, value, rfl, hcontent⟩
  · rintro - queue ⟨rfl, -⟩
    rfl

end

/-! ## Moves -/

theorem told_append (record record' : List ReadEntry) : told (record ++ record') = told record ++ told record' :=
  List.filterMap_append

section
variable {record : List ReadEntry} {pending : List ReadEvent} {ended errored closed : Bool}

theorem Ordered.queues (h : Ordered record pending ended errored false) {event : ReadEvent}
    (hfresh : event ∉ told record ++ pending) {ended' closed' : Bool}
    (hended : ended = true ∨ event = .end_ → ended' = true) (herrored : event = .error → errored = true)
    (hclosed : event = .close → closed' = true) {eof : Bool} {held : Nat} {cleared : Bool}
    (hend : event = .end_ → eof = true ∧ held = 0 ∧ cleared = false) :
    Ordered (record ++ [.queued event eof held cleared]) (pending ++ [event]) ended' errored closed' := by
  have hnew : told (record ++ [.queued event eof held cleared]) ++ (pending ++ [event]) =
      told record ++ pending ++ [event] := by
    rw [told_append, show told [.queued event eof held cleared] = [] from rfl, List.append_nil, List.append_assoc]
  have hopen : .close ∉ told record ++ pending := fun hclose => by cases h.closed hclose
  constructor
  · rw [hnew]
    refine List.nodup_append.mpr ⟨h.once, List.nodup_cons.mpr ⟨List.not_mem_nil, List.nodup_nil⟩, ?_⟩
    intro earlier hearlier later hlater
    rw [List.mem_singleton.mp hlater]
    exact fun heq => hfresh (heq ▸ hearlier)
  · rw [hnew]
    refine List.pairwise_append.mpr ⟨h.last, List.pairwise_singleton _ _, ?_⟩
    intro earlier hearlier _ _ heq
    exact hopen (heq ▸ hearlier)
  · rw [hnew, List.mem_append, List.mem_singleton]
    rintro (hold | heq)
    · exact hended (.inl (h.ended hold))
    · exact hended (.inr heq.symm)
  · rw [hnew, List.mem_append, List.mem_singleton]
    rintro (hold | heq)
    · exact h.errored hold
    · exact herrored heq.symm
  · rw [hnew, List.mem_append, List.mem_singleton]
    rintro (hold | heq)
    · exact absurd hold hopen
    · exact hclosed heq.symm
  · intro eof' held' cleared' hmem
    rcases List.mem_append.mp hmem with hold | hsame
    · exact h.queued _ _ _ hold
    · rw [List.mem_singleton, ReadEntry.queued.injEq] at hsame
      obtain ⟨hevent, rfl, rfl, rfl⟩ := hsame
      exact hend hevent.symm
  · intro errored' hmem
    rcases List.mem_append.mp hmem with hold | hsame
    · exact h.suppressed _ hold
    · rw [List.mem_singleton] at hsame
      cases hsame

/-- The next event is delivered. -/
theorem Ordered.delivers {event : ReadEvent} (h : Ordered record (event :: pending) ended errored closed)
    {failed : Bool} (hfailed : event = .end_ → failed = false) :
    Ordered (record ++ [.delivered event failed]) pending ended errored closed := by
  have hsame : told (record ++ [.delivered event failed]) ++ pending = told record ++ event :: pending := by
    rw [told_append, show told [.delivered event failed] = [event] from rfl, List.append_assoc,
      List.singleton_append]
  refine ⟨?_, ?_, ?_, ?_, ?_, ?_, ?_⟩
  · rw [hsame]
    exact h.once
  · rw [hsame]
    exact h.last
  · rw [hsame]
    exact h.ended
  · rw [hsame]
    exact h.errored
  · rw [hsame]
    exact h.closed
  · intro eof held cleared hmem
    rcases List.mem_append.mp hmem with hold | hnew
    · exact h.queued _ _ _ hold
    · rw [List.mem_singleton] at hnew
      cases hnew
  · intro failed' hmem
    rcases List.mem_append.mp hmem with hold | hnew
    · exact h.suppressed _ hold
    · rw [List.mem_singleton, ReadEntry.delivered.injEq] at hnew
      rw [hnew.2]
      exact hfailed hnew.1.symm

/-- The next event is dropped. -/
theorem Ordered.drops {event : ReadEvent} (h : Ordered record (event :: pending) ended errored closed) :
    Ordered record pending ended errored closed := by
  have hsub : List.Sublist (told record ++ pending) (told record ++ event :: pending) :=
    List.Sublist.append (List.Sublist.refl _) (List.sublist_cons_self _ _)
  exact ⟨h.once.sublist hsub, h.last.sublist hsub, fun hmem => h.ended (hsub.subset hmem),
    fun hmem => h.errored (hsub.subset hmem), fun hmem => h.closed (hsub.subset hmem), h.queued, h.suppressed⟩

end

theorem blank_clear (chunks : ReadBuffer) : Blank (clearChunks chunks) := ⟨rfl, TextQueue.sound_new, rfl⟩

theorem Sound.records {raw : Bool} {s : Readable World} (h : Sound raw s) (hclosed : s.closed = true)
    (error : TsError) : Sound raw { s with events.error := some error } :=
  ⟨fun hraw => ⟨(h.raw hraw).decoder, (h.raw hraw).bytes, (h.raw hraw).held, (h.raw hraw).finished⟩,
    h.blank, h.closing, fun _ => rfl, fun _ => .inl hclosed, h.closed, h.native,
    ⟨h.ordered.once, h.ordered.last, h.ordered.ended, fun _ => rfl, h.ordered.closed, h.ordered.queued,
      h.ordered.suppressed⟩⟩

/-- What the input is about stays. -/
theorem Sound.input {raw : Bool} {s t : Readable World} (h : Sound raw s)
    (hchunks : t.chunks = s.chunks) (hread : t.bytesRead = s.bytesRead) (heof : t.eof = s.eof) :
    raw = true → Counted t := by
  intro hraw
  have hc := h.raw hraw
  refine ⟨?_, ?_, ?_, ?_⟩
  · rw [hchunks]
    exact hc.decoder
  · rw [hchunks]
    exact hc.bytes
  · rw [hchunks, hread]
    exact hc.held
  · rw [hchunks, heof]
    exact hc.finished

theorem Sound.queues {raw : Bool} {s : Readable World} (h : Sound raw s) {event : ReadEvent}
    (hclose : s.events.closeQueued = false) (hdue : s.Due event) (reservations : List ReadEvent) :
    Sound raw { s with
      pending := s.pending ++ [event],
      record := s.record ++ [.queued event s.eof s.chunks.length (s.closed || s.failed)],
      events := { s.events.commit event with reservations } } := by
  have hordered := h.ordered
  rw [hclose] at hordered
  have hinput := @Sound.input World raw s { s with
      pending := s.pending ++ [event],
      record := s.record ++ [.queued event s.eof s.chunks.length (s.closed || s.failed)],
      events := { s.events.commit event with reservations } } h rfl rfl rfl
  have hclosed : s.events.closed = false := by
    by_contra hne
    rw [h.closed (by simpa using hne)] at hclose
    cases hclose
  cases event with
  | end_ =>
    obtain ⟨⟨hc, hf⟩, heof, hheld, hend⟩ := hdue
    refine ⟨hinput, h.blank, h.closing, h.failing, h.erring, h.closed, h.native, ?_⟩
    show Ordered _ _ true _ s.events.closeQueued
    rw [hclose]
    refine hordered.queues ?_ (fun _ => rfl) (fun heq => by cases heq) (fun heq => by cases heq) fun _ => ?_
    · intro hmem
      rw [hordered.ended hmem] at hend
      cases hend
    · rw [hc, hf]
      exact ⟨heof, hheld, rfl⟩
  | error =>
    obtain ⟨herror, hfresh⟩ := hdue
    refine ⟨hinput, h.blank, h.closing, h.failing, h.erring, h.closed, h.native, ?_⟩
    show Ordered _ _ _ _ s.events.closeQueued
    rw [hclose]
    exact hordered.queues hfresh (fun hold => hold.elim id fun heq => by cases heq) (fun _ => herror)
      (fun heq => by cases heq) fun heq => by cases heq
  | close =>
    refine ⟨hinput, h.blank, fun _ => hdue, h.failing, h.erring, fun _ => rfl, h.native, ?_⟩
    refine hordered.queues ?_ (fun hold => hold.elim id fun heq => by cases heq) (fun heq => by cases heq)
      (fun _ => rfl) fun heq => by cases heq
    intro hmem
    cases hordered.closed hmem

theorem Sound.delivers {raw : Bool} {s : Readable World} (h : Sound raw s) :
    Sound raw (finalState (deliver s)) := by
  unfold deliver
  cases hpending : s.pending with
  | nil =>
    simp only [bind_run, get_run, hpending]
    exact h
  | cons event pending =>
    have hordered := h.ordered
    rw [hpending] at hordered
    simp only [bind_run, get_run, hpending]
    cases event with
    | error =>
      exact ⟨h.input rfl rfl rfl, h.blank, h.closing, h.failing, h.erring, h.closed, h.native,
        hordered.delivers fun heq => by cases heq⟩
    | end_ =>
      by_cases herror : s.events.error.isSome = true
      · simp only [herror, if_true]
        exact ⟨h.input rfl rfl rfl, h.blank, h.closing, h.failing, h.erring, h.closed, h.native, hordered.drops⟩
      · simp only [herror, Bool.false_eq_true, if_false]
        exact ⟨h.input rfl rfl rfl, h.blank, h.closing, h.failing, h.erring, h.closed, h.native,
          hordered.delivers fun _ => rfl⟩
    | close =>
      refine ⟨h.input rfl rfl rfl, h.blank, h.closing, h.failing, h.erring, fun _ => ?_, h.native,
        hordered.delivers fun heq => by cases heq⟩
      exact hordered.closed (List.mem_append_right _ List.mem_cons_self)

section
variable {unpaired : List UInt16 → Error} {device : Device World} {raw : Bool} {s t : Readable World}

theorem elim_closed {p : Prop} (hopen : s.closed = false) (hc : s.closed = true) : p := by
  rw [hopen] at hc
  cases hc

/-- Bytes that come are held, or were too many. -/
theorem Counted.gives (h : Counted s) (value : List Byte) (world : World) :
    Counted { s with
      world, nativeRead := none, bytesRead := s.bytesRead + value.length,
      position := s.position.map (· + value.length),
      chunks := finalState (ReadBuffer.append unpaired value s.chunks) } := by
  have hheld := h.held
  have happend : wp (ReadBuffer.append unpaired value) (fun _ chunks' => chunks'.decoder = none ∧
      chunks'.bytes.Sound ∧ chunks'.bytes.length ≤ s.bytesRead + value.length ∧
      chunks'.finished = s.chunks.finished)
      (fun _ chunks' => chunks'.decoder = none ∧ chunks'.bytes.Sound ∧
        chunks'.bytes.length ≤ s.bytesRead + value.length ∧ chunks'.finished = s.chunks.finished) s.chunks := by
    apply wp_mono (append_raw h.decoder h.bytes value)
    · rintro - chunks' ⟨hdecoder, hbytes, hfinished, hcontent⟩
      have hlength := congrArg List.length hcontent
      rw [List.length_append, ← hbytes.length, ← h.bytes.length] at hlength
      exact ⟨hdecoder, hbytes, by omega, hfinished⟩
    · rintro - chunks' ⟨rfl, -⟩
      exact ⟨h.decoder, h.bytes, by omega, rfl⟩
  obtain ⟨hdecoder, hbytes, hlength, hfinished⟩ := wp_final happend
  exact ⟨hdecoder, hbytes, hlength, fun hend => h.finished (hfinished.symm.trans hend)⟩

theorem finish_final (h : Counted s) :
    finalState (ReadBuffer.finish unpaired s.chunks) = { s.chunks with finished := true } := by
  have hfinish := @finish_raw unpaired s.chunks h.decoder
  cases hrun : ReadBuffer.finish unpaired s.chunks with
  | ok _ chunks =>
    rw [wp_of_ok hrun] at hfinish
    exact hfinish
  | error _ chunks =>
    rw [wp_of_error hrun] at hfinish
    exact hfinish.elim

theorem Counted.takes (h : Counted s) (size : Int) :
    Counted (match ReadBuffer.take size s.chunks with
      | .ok chunk chunks => { s with chunks, delivered := s.delivered ++ chunk.toList }
      | .error _ chunks => { s with chunks }) := by
  have htake := take_raw h.decoder h.bytes size
  split
  · rename_i chunk chunks hrun
    rw [wp_of_ok hrun] at htake
    obtain ⟨hdecoder, hbytes, hfinished, value, -, hcontent⟩ := htake
    have hlength := congrArg List.length hcontent
    rw [List.length_append, ← hbytes.length, ← h.bytes.length] at hlength
    have hheld := h.held
    refine ⟨hdecoder, hbytes, ?_, fun hend => h.finished (hfinished.symm.trans hend)⟩
    show (chunks.bytes.length : Int) ≤ s.bytesRead
    omega
  · rename_i error chunks hrun
    rw [wp_of_error hrun] at htake
    rw [htake]
    exact ⟨h.decoder, h.bytes, h.held, h.finished⟩

theorem Counted.clears (h : Counted s) :
    (clearChunks s.chunks).decoder = none ∧ (clearChunks s.chunks).bytes.Sound ∧
      ((clearChunks s.chunks).bytes.length : Int) ≤ s.bytesRead := by
  have hheld := h.held
  refine ⟨rfl, ByteQueue.sound_new, ?_⟩
  show (0 : Int) ≤ s.bytesRead
  omega

theorem Sound.move (h : Sound raw s) (hmove : Move unpaired device raw s t) : Sound raw t := by
  cases hmove with
  | control _ _ _ _ _ _ _ _ _ _ _ _ _ _ _ hasync =>
    refine ⟨h.input rfl rfl rfl, h.blank, h.closing, h.failing, h.erring, h.closed, fun request hrequest => ?_,
      h.ordered⟩
    obtain ⟨hon, hplace⟩ := h.native request hrequest
    exact ⟨hasync hon, hplace⟩
  | calls _ _ =>
    exact ⟨h.input rfl rfl rfl, h.blank, h.closing, h.failing, h.erring, h.closed, h.native, h.ordered⟩
  | asks _ _ =>
    exact ⟨h.input rfl rfl rfl, h.blank, h.closing, h.failing, h.erring, h.closed, h.native, h.ordered⟩
  | starts request world hnone heof hasync hplace hrange _ =>
    refine ⟨fun hraw => ?_, h.blank, h.closing, h.failing, h.erring, h.closed, fun request' hrequest => ?_, h.ordered⟩
    · exact ⟨(h.raw hraw).decoder, (h.raw hraw).bytes, (h.raw hraw).held, (h.raw hraw).finished⟩
    · obtain rfl := Option.some.inj hrequest
      exact ⟨hasync, heof, hplace, hrange⟩
  | gives request value world hopen _ _ _ _ =>
    exact ⟨fun hraw => (h.raw hraw).gives value world, elim_closed hopen, h.closing, h.failing, h.erring, h.closed,
      (fun _ hrequest => by cases hrequest), h.ordered⟩
  | ends request world hopen _ _ =>
    refine ⟨fun hraw => ?_, elim_closed hopen, h.closing, h.failing, h.erring, h.closed,
      (fun _ hrequest => by cases hrequest), h.ordered⟩
    rw [finish_final (h.raw hraw)]
    exact ⟨(h.raw hraw).decoder, (h.raw hraw).bytes, (h.raw hraw).held, fun _ => rfl⟩
  | passes last owed hopen hnone _ _ =>
    refine ⟨fun hraw => ?_, elim_closed hopen, h.closing, h.failing, h.erring, h.closed, fun request hrequest => ?_,
      h.ordered⟩
    · rw [finish_final (h.raw hraw)]
      exact ⟨(h.raw hraw).decoder, (h.raw hraw).bytes, (h.raw hraw).held, fun _ => rfl⟩
    · rw [show s.nativeRead = none from hnone] at hrequest
      cases hrequest
  | edits chunks hraw hedit =>
    refine ⟨fun htrue => ?_, fun hc => hedit.elim (fun hopen => elim_closed hopen hc) id, h.closing, h.failing,
      h.erring, h.closed, h.native, h.ordered⟩
    rw [hraw] at htrue
    cases htrue
  | takes size hopen =>
    refine ⟨fun hraw => (h.raw hraw).takes size, ?_, ?_, ?_, ?_, ?_, ?_, ?_⟩
    all_goals split
    · exact elim_closed hopen.1
    · exact elim_closed hopen.1
    · exact h.closing
    · exact h.closing
    · exact h.failing
    · exact h.failing
    · exact h.erring
    · exact h.erring
    · exact h.closed
    · exact h.closed
    · exact h.native
    · exact h.native
    · exact h.ordered
    · exact h.ordered
  | shuts _ _ =>
    refine ⟨fun hraw => ?_, fun _ => blank_clear _, fun _ => .inl rfl, h.failing, fun _ => .inl rfl, h.closed,
      (fun _ hrequest => by cases hrequest), h.ordered⟩
    obtain ⟨hdecoder, hbytes, hheld⟩ := (h.raw hraw).clears
    exact ⟨hdecoder, hbytes, hheld, (h.raw hraw).finished⟩
  | aborts descriptor error _ _ =>
    refine ⟨fun hraw => ?_, fun _ => blank_clear _, fun _ => .inr rfl, fun _ => rfl, fun _ => .inr rfl, h.closed,
      (fun _ hrequest => by cases hrequest), ?_⟩
    · obtain ⟨hdecoder, hbytes, hheld⟩ := (h.raw hraw).clears
      exact ⟨hdecoder, hbytes, hheld, (h.raw hraw).finished⟩
    · exact ⟨h.ordered.once, h.ordered.last, h.ordered.ended, fun _ => rfl, h.ordered.closed, h.ordered.queued,
        h.ordered.suppressed⟩
  | records error hclosed _ _ => exact h.records hclosed error
  | queues event reservations hclose hdue => exact h.queues hclose hdue reservations
  | delivers => exact h.delivers

theorem Sound.leads (h : Sound raw s) (hleads : Leads unpaired device raw s t) : Sound raw t := by
  induction hleads with
  | refl => exact h
  | tail _ hmove ih => exact ih.move hmove

end

end Readable

end TsonicNode.Stream
