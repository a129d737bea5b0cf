import TsonicNode.Stream.ReadRun

/-!
# Reading a file

Behind a readable stream of a file stands a device that gives pieces of the file,
as short as it likes, each from its place on. What was delivered and what is held
are then the bytes of the file from the start on, in every run that only reads:
the moves keep it (`Tracks.move`), so every run does (`file_intact`).
-/

namespace TsonicNode.Stream

open TsonicNode.Lib TsonicNode.Buffer

namespace Readable

variable {World : Type}

/-- Where a request reads. -/
def placeOf (request : Request) (cursor : Nat) : Nat := request.offset.elim cursor Int.toNat

/-- Where the cursor is behind so many bytes. -/
def cursorBehind (request : Request) (cursor count : Nat) : Nat :=
  if request.offset.isSome then cursor else cursor + count

/-- The device reads the file: a read gives some of the bytes asked for, from its place on, and moves the
cursor behind them if that was the place. -/
structure ReadsFile (device : Device World) (content : List Byte) (cursor : World → Nat) : Prop where
  bytes : ∀ request world value after, Answers device request world (.bytes value) after →
    value ≠ [] ∧ value.length ≤ request.size ∧
    value = (content.drop (placeOf request (cursor world))).take value.length ∧
    cursor after = cursorBehind request (cursor world) value.length
  nothing : ∀ request world after, Answers device request world .nothing after → cursor after = cursor world
  calls : ∀ world after, Calls device world after → cursor after = cursor world

/-- The bytes of the buffers delivered. -/
def received (s : Readable World) : List Byte :=
  s.delivered.flatMap fun
    | .buffer value => value
    | .text _ => []

/-- The bytes held. -/
def held (s : Readable World) : List Byte := s.chunks.bytes.chunks.flatten

section
variable (device : Device World) (content : List Byte) (start : Nat)

/-- **What was delivered and what is held are the bytes of the file from the start on**, as many as were
read and none behind the range; a failure only cuts them off. -/
structure Intact (s : Readable World) : Prop where
  position : ∀ position, s.position = some position → position = start + s.bytesRead
  buffers : ∀ chunk ∈ s.delivered, ∃ value, chunk = .buffer value
  whole : s.bytesRead ≤ exactRange → s.failed = false →
    s.received ++ s.held = (content.drop start).take s.bytesRead.toNat
  front : s.bytesRead ≤ exactRange → s.received <+: (content.drop start).take s.bytesRead.toNat
  failed : s.failed = true → Blamed device s
  asked : ∀ place size, (place, size) ∈ s.requests → ∀ last, s.last = some last → place + size ≤ last + 1
  within : ∀ last, s.last = some last → 0 < s.bytesRead → start + s.bytesRead ≤ last + 1

/-- What holds between two moves. -/
structure Tracks (cursor : World → Nat) (s : Readable World) : Prop extends Intact device content start s where
  count : 0 ≤ s.bytesRead
  cursor : s.position = none → start = 0 ∧ (cursor s.world : Int) = s.bytesRead

end

/-! ## Moves -/

section
variable {unpaired : List UInt16 → Error} {device : Device World} {content : List Byte} {start : Nat}
  {cursor : World → Nat} {s t : Readable World}

theorem take_behind (content : List Byte) (start count more : Nat) :
    (content.drop start).take (count + more) =
      (content.drop start).take count ++ (content.drop (start + count)).take more := by
  rw [List.take_add, List.drop_drop]

/-- Where `place` is. -/
theorem Tracks.place (h : Tracks device content start cursor s) : s.place = start + s.bytesRead := by
  unfold Readable.place
  cases hposition : s.position with
  | none =>
    rw [(h.cursor hposition).1]
    exact (Int.zero_add _).symm
  | some position => exact h.position position hposition

/-- A read at the stream's place gives what is behind the bytes read. -/
theorem Tracks.reads (h : Tracks device content start cursor s) (hreads : ReadsFile device content cursor)
    {request : Request} {value : List Byte} {world : World} (hplace : request.offset = s.position)
    (hanswer : Answers device request s.world (.bytes value) world) :
    value = (content.drop (start + s.bytesRead.toNat)).take value.length ∧
      (s.position = none → (cursor world : Int) = s.bytesRead + value.length) := by
  have hcount := h.count
  obtain ⟨-, -, hvalue, hafter⟩ := hreads.bytes request s.world value world hanswer
  cases hposition : s.position with
  | none =>
    obtain ⟨hzero, hcursor⟩ := h.cursor hposition
    rw [hposition] at hplace
    rw [placeOf, hplace, Option.elim_none] at hvalue
    rw [cursorBehind, hplace, Option.isSome_none, if_neg Bool.false_ne_true] at hafter
    refine ⟨?_, fun _ => by omega⟩
    rw [show start + s.bytesRead.toNat = cursor s.world by omega]
    exact hvalue
  | some position =>
    have hequal := h.position position hposition
    rw [hposition] at hplace
    rw [placeOf, hplace, Option.elim_some] at hvalue
    refine ⟨?_, fun hnone => by cases hnone⟩
    rw [show start + s.bytesRead.toNat = position.toNat by omega]
    exact hvalue

/-- Nothing that is delivered, held or asked for changes. -/
theorem Tracks.same (h : Tracks device content start cursor s) (hposition : t.position = s.position)
    (hdelivered : t.delivered = s.delivered) (hheld : s.failed = false → t.held = s.held)
    (hread : t.bytesRead = s.bytesRead) (hfailed : t.failed = s.failed) (hrequests : t.requests = s.requests)
    (hlast : t.last = s.last) (hcursor : cursor t.world = cursor s.world) :
    Tracks device content start cursor t := by
  have hreceived : t.received = s.received := by rw [received, hdelivered, received]
  refine ⟨⟨?_, ?_, ?_, ?_, ?_, ?_, ?_⟩, ?_, ?_⟩
  · rw [hposition, hread]
    exact h.position
  · rw [hdelivered]
    exact h.buffers
  · rw [hread, hfailed, hreceived]
    intro hfits hok
    rw [hheld hok]
    exact h.whole hfits hok
  · rw [hread, hreceived]
    exact h.front
  · rw [hfailed, Blamed, hread]
    exact h.failed
  · rw [hrequests, hlast]
    exact h.asked
  · rw [hlast, hread]
    exact h.within
  · rw [hread]
    exact h.count
  · rw [hposition, hcursor, hread]
    exact h.cursor

/-- Bytes come, and are held unless they are too many. -/
theorem Tracks.gives (h : Tracks device content start cursor s) (hcounted : Counted s) (heof : s.eof = false)
    (hreads : ReadsFile device content cursor) {request : Request} {value : List Byte} {world : World}
    (hplace : request.offset = s.position) (hrange : s.InRange request.size)
    (hanswer : Answers device request s.world (.bytes value) world) :
    Tracks device content start cursor { s with
      world, nativeRead := none, bytesRead := s.bytesRead + value.length,
      position := s.position.map (· + value.length),
      chunks := finalState (ReadBuffer.append unpaired value s.chunks) } := by
  have hcount := h.count
  obtain ⟨hvalue, hcursor⟩ := h.reads hreads hplace hanswer
  obtain ⟨hne, hsize, -, -⟩ := hreads.bytes request s.world value world hanswer
  have hmore : (content.drop start).take (s.bytesRead + value.length).toNat =
      (content.drop start).take s.bytesRead.toNat ++ value := by
    rw [show (s.bytesRead + value.length).toNat = s.bytesRead.toNat + value.length by omega, take_behind, ← hvalue]
  refine ⟨⟨?_, h.buffers, ?_, ?_, fun hfailed => ?_, h.asked, ?_⟩, ?_, ?_⟩
  · intro position hposition
    obtain ⟨before, hbefore, rfl⟩ := Option.map_eq_some_iff.mp hposition
    have hequal := h.position before hbefore
    show before + (value.length : Int) = start + (s.bytesRead + value.length)
    omega
  · intro hfits hok
    have hwhole := h.whole (by dsimp only at hfits; omega) hok
    have happend := @append_raw unpaired s.chunks hcounted.decoder hcounted.bytes value
    show s.received ++ (finalState (ReadBuffer.append unpaired value s.chunks)).bytes.chunks.flatten = _
    rw [hmore, ← hwhole]
    cases hrun : ReadBuffer.append unpaired value s.chunks with
    | ok _ chunks =>
      rw [wp_of_ok hrun] at happend
      obtain ⟨-, -, -, hcontent⟩ := happend
      show s.received ++ chunks.bytes.chunks.flatten = _
      rw [hcontent, held, List.append_assoc]
    | error _ chunks =>
      rw [wp_of_error hrun] at happend
      rcases happend.2 with hfinished | hlong
      · have hend := hcounted.finished hfinished
        rw [heof] at hend
        cases hend
      · have hheld := hcounted.held
        dsimp only at hfits
        omega
  · intro hfits
    rw [hmore]
    exact (h.front (by dsimp only at hfits; omega)).trans (List.prefix_append _ _)
  · exact (h.failed hfailed).imp id fun hmany => by
      show (exactRange : Int) < s.bytesRead + value.length
      omega
  · intro last hlast _
    have hplace := h.place
    have hbound := hrange last hlast
    show (start : Int) + (s.bytesRead + value.length) ≤ last + 1
    omega
  · show 0 ≤ s.bytesRead + (value.length : Int)
    omega
  · intro hnone
    have hnone := Option.map_eq_none_iff.mp hnone
    exact ⟨(h.cursor hnone).1, hcursor hnone⟩

theorem Tracks.takes (h : Tracks device content start cursor s) (hcounted : Counted s) (hopen : s.Open)
    (size : Int) :
    Tracks device content start cursor (match ReadBuffer.take size s.chunks with
      | .ok chunk chunks => { s with chunks, delivered := s.delivered ++ chunk.toList }
      | .error _ chunks => { s with chunks }) := by
  have htake := take_raw hcounted.decoder hcounted.bytes size
  split
  · rename_i chunk chunks hrun
    rw [wp_of_ok hrun] at htake
    obtain ⟨-, -, -, value, rfl, hcontent⟩ := htake
    have hreceived : received { s with chunks, delivered := s.delivered ++ (value.map StreamChunk.buffer).toList } =
        s.received ++ value.getD [] := by
      rw [received, List.flatMap_append]
      cases value with
      | none => rfl
      | some value => rw [Option.map_some, Option.toList_some, List.flatMap_singleton]; rfl
    have hwhole : s.bytesRead ≤ exactRange → s.received ++ value.getD [] ++ chunks.bytes.chunks.flatten =
        (content.drop start).take s.bytesRead.toNat := by
      intro hfits
      rw [← h.whole hfits hopen.2, List.append_assoc, hcontent]
      rfl
    refine ⟨⟨h.position, ?_, ?_, ?_, h.failed, h.asked, h.within⟩, h.count, h.cursor⟩
    · intro chunk hchunk
      rcases List.mem_append.mp hchunk with hold | hnew
      · exact h.buffers chunk hold
      · rw [Option.mem_toList, Option.map_eq_some_iff] at hnew
        obtain ⟨value, -, rfl⟩ := hnew
        exact ⟨value, rfl⟩
    · intro hfits _
      rw [hreceived]
      exact hwhole hfits
    · intro hfits
      rw [hreceived]
      exact ⟨_, hwhole hfits⟩
  · rename_i error chunks hrun
    rw [wp_of_error hrun] at htake
    rw [htake]
    exact h

theorem deliver_input (s : Readable World) :
    ∃ events pending free record,
      finalState (deliver s) = { s with events, pending, free, record } := by
  unfold deliver
  cases hpending : s.pending with
  | nil =>
    simp only [bind_run, get_run, hpending]
    exact ⟨s.events, s.pending, s.free, s.record, rfl⟩
  | cons event pending =>
    simp only [bind_run, get_run, hpending]
    cases event with
    | error => exact ⟨_, _, _, _, rfl⟩
    | close => exact ⟨_, _, _, _, rfl⟩
    | end_ =>
      dsimp only
      split
      · exact ⟨_, _, _, _, rfl⟩
      · exact ⟨_, _, _, _, rfl⟩

theorem Tracks.move (h : Tracks device content start cursor s) (hs : Sound true s)
    (hreads : ReadsFile device content cursor) (hmove : Move unpaired device true s t) :
    Tracks device content start cursor t := by
  have hcounted := hs.raw rfl
  cases hmove with
  | control => exact h.same rfl rfl (fun _ => rfl) rfl rfl rfl rfl rfl
  | calls world hcalls => exact h.same rfl rfl (fun _ => rfl) rfl rfl rfl rfl (hreads.calls _ _ hcalls)
  | asks size hrange =>
    refine ⟨⟨h.position, h.buffers, h.whole, h.front, h.failed, ?_, h.within⟩, h.count, h.cursor⟩
    intro place count hmem last hlast
    rcases List.mem_append.mp hmem with hold | hnew
    · exact h.asked place count hold last hlast
    · rw [List.mem_singleton, Prod.mk.injEq] at hnew
      obtain ⟨rfl, rfl⟩ := hnew
      exact hrange last hlast
  | starts request world _ _ _ _ _ hcalls =>
    exact h.same rfl rfl (fun _ => rfl) rfl rfl rfl rfl (hreads.calls _ _ hcalls)
  | gives request value world _ heof hplace hrange hanswer =>
    exact h.gives hcounted heof hreads hplace hrange hanswer
  | ends request world _ _ hanswer =>
    rw [finish_final hcounted]
    exact h.same rfl rfl (fun _ => rfl) rfl rfl rfl rfl (hreads.nothing _ _ _ hanswer)
  | passes last owed _ _ _ _ =>
    rw [finish_final hcounted]
    exact h.same rfl rfl (fun _ => rfl) rfl rfl rfl rfl rfl
  | edits chunks hraw _ => cases hraw
  | takes size hopen => exact h.takes hcounted hopen size
  | shuts hempty _ =>
    refine h.same rfl rfl (fun _ => ?_) rfl rfl rfl rfl rfl
    have hlength := hempty rfl
    rw [ReadBuffer.length, hcounted.decoder, Option.isSome_none, if_neg Bool.false_ne_true,
      hcounted.bytes.length] at hlength
    exact (List.eq_nil_of_length_eq_zero hlength).symm
  | aborts descriptor error hblamed _ =>
    exact ⟨⟨h.position, h.buffers, (fun _ hok => by cases hok), h.front, fun _ => hblamed rfl, h.asked, h.within⟩,
      h.count, h.cursor⟩
  | records error _ _ _ => exact h.same rfl rfl (fun _ => rfl) rfl rfl rfl rfl rfl
  | queues event reservations _ _ => exact h.same rfl rfl (fun _ => rfl) rfl rfl rfl rfl rfl
  | delivers =>
    obtain ⟨events, pending, free, record, heq⟩ := deliver_input s
    rw [heq]
    exact h.same rfl rfl (fun _ => rfl) rfl rfl rfl rfl rfl

theorem Tracks.leads (h : Tracks device content start cursor s) (hs : Sound true s)
    (hreads : ReadsFile device content cursor) (hleads : Leads unpaired device true s t) :
    Sound true t ∧ Tracks device content start cursor t := by
  induction hleads with
  | refl => exact ⟨hs, h⟩
  | tail _ hmove ih => exact ⟨ih.1.move hmove, ih.2.move ih.1 hreads hmove⟩

end

/-! ## Runs -/

theorem tracks_opened (device : Device World) (content : List Byte) (cursor : World → Nat) (world : World)
    (chunkSize : Nat) (start : Option Nat) (last : Option Int) (autoClose : Bool) (free : Nat)
    (hcursor : start = none → cursor world = 0) :
    Tracks device content (start.getD 0) cursor
      (opened world true chunkSize (start.map Int.ofNat) last autoClose free) := by
  refine ⟨⟨?_, ?_, fun _ _ => rfl, fun _ => List.nil_prefix, (fun h => by cases h), ?_, ?_⟩, Int.le_refl 0, ?_⟩
  · intro position hposition
    obtain ⟨first, rfl, rfl⟩ := Option.map_eq_some_iff.mp hposition
    exact (Int.add_zero _).symm
  · exact fun _ hchunk => (List.not_mem_nil hchunk).elim
  · exact fun _ _ hrequest => (List.not_mem_nil hrequest).elim
  · exact fun _ _ hpos => absurd hpos (Int.lt_irrefl 0)
  · intro hnone
    obtain rfl := Option.map_eq_none_iff.mp hnone
    exact ⟨rfl, congrArg Int.ofNat (hcursor rfl)⟩

/-- Every run that only reads a file reads it as it is. -/
theorem file_intact (unpaired : List UInt16 → Error) (device : Device World) (content : List Byte)
    (cursor : World → Nat) (hreads : ReadsFile device content cursor) (world : World) (chunkSize : Nat)
    (start : Option Nat) (last : Option Int) (autoClose : Bool) (free : Nat)
    (hcursor : start = none → cursor world = 0) (actions : List Action) (hraw : ∀ action ∈ actions, Raw action) :
    Intact device content (start.getD 0) (run (step unpaired device)
      (opened world true chunkSize (start.map Int.ofNat) last autoClose free) actions) := by
  have hrun : ∀ s, Sound true s ∧ Tracks device content (start.getD 0) cursor s →
      ∀ actions : List Action, (∀ action ∈ actions, Raw action) →
      Tracks device content (start.getD 0) cursor (run (step unpaired device) s actions) := by
    intro s hs actions
    induction actions generalizing s with
    | nil => exact fun _ => hs.2
    | cons action actions ih =>
      intro hraw
      refine ih _ ?_ fun other hmem => hraw other (List.mem_cons_of_mem _ hmem)
      exact hs.2.leads hs.1 hreads (step_leads hs.1 fun _ => hraw action List.mem_cons_self)
  exact (hrun _ ⟨sound_opened true world true chunkSize _ last autoClose free,
    tracks_opened device content cursor world chunkSize start last autoClose free hcursor⟩ actions hraw).toIntact

/-- A device that gives two bytes at most. -/
def pieces (content : List Byte) : Device Nat :=
  let give (request : Request) (cursor : Nat) : ReadOutcome × Nat :=
    match (content.drop (placeOf request cursor)).take (min 2 request.size) with
    | [] => (.nothing, cursor)
    | first :: rest => (.bytes (first :: rest), cursorBehind request cursor (rest.length + 1))
  { read := give, result := give, start := fun _ cursor => (none, cursor), ready := fun cursor => (true, cursor),
    close := fun cursor => (none, cursor) }

theorem answers_pieces {content : List Byte} {request : Request} {cursor after : Nat} {outcome : ReadOutcome}
    (h : Answers (pieces content) request cursor outcome after) :
    (outcome, after) = (pieces content).read request cursor := by
  cases h with
  | read => rfl
  | result => rfl

theorem reads_pieces (content : List Byte) : ReadsFile (pieces content) content id where
  bytes request cursor value after hanswer := by
    have hread := answers_pieces hanswer
    simp only [pieces] at hread
    split at hread
    · cases hread
    · rename_i first rest hvalue
      obtain ⟨hsame, rfl⟩ := Prod.mk.inj hread
      obtain rfl := ReadOutcome.bytes.inj hsame
      have hlength := congrArg List.length hvalue
      rw [List.length_take, List.length_cons] at hlength
      refine ⟨List.cons_ne_nil _ _, ?_, ?_, rfl⟩
      · rw [List.length_cons]
        omega
      · rw [id, ← hvalue, List.length_take, List.take_eq_take_iff]
        omega
  nothing request cursor after hanswer := by
    have hread := answers_pieces hanswer
    simp only [pieces] at hread
    split at hread
    · exact (Prod.mk.inj hread).2
    · cases hread
  calls cursor after hcalls := by
    cases hcalls with
    | start => rfl
    | ready => rfl
    | close => rfl
    | failed request error _ hanswer =>
      have hread := answers_pieces hanswer
      simp only [pieces] at hread
      split at hread <;> cases hread

/-- Reads at once and in the background, up to the end of the range. -/
theorem file_intact_pieces : Intact (pieces [1, 2, 3, 4, 5, 6, 7]) [1, 2, 3, 4, 5, 6, 7] ((some 1).getD 0)
    (run (step (fun _ => ⟨"unpaired"⟩) (pieces [1, 2, 3, 4, 5, 6, 7]))
      (opened 0 true 3 ((some 1).map Int.ofNat) (some 5) true 8)
      [.read (some 3) 3, .addReadable false, .poll false 3, .poll false 3, .read none 3, .goOn 3]) :=
  file_intact _ _ _ id (reads_pieces _) 0 3 (some 1) (some 5) true 8 (fun h => by cases h) _ (by simp [Raw])

end Readable

end TsonicNode.Stream
