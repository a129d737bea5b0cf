import TsonicNode.Worker.Link
import TsonicNode.Worker.Ports

/-!
# The end of a worker's stream

One end of a channel whose peer sends any bytes and may close at any time, with
every answer of the system to its calls. The stream has ended when `recv` has
answered 0, which the call records (`Call.ended`) and nothing of the channel
reads. `Ending` relates what has been received to the frames that were taken and
to the frame under way; every turn of reading keeps it, writing does not touch
it, and `end_of_stream` is the run.
-/

namespace TsonicNode.Worker

open TsonicNode.Lib

/-! ## The run of one end -/

/-- `arrived` is what the peer has sent and `recv` can hand over during the call; a plan that
answers `closed` to `recv` ends the stream at what has been received. -/
inductive StreamLabel where
  | progress (arrived : List Byte) (plan : List Outcome)
  | send (frame : Frame) (memory : Bool) (arrived : List Byte) (plan : List Outcome)
  | take

namespace End

def calling (near : End) (arrived : List Byte) : Call :=
  { channel := near.channel, arrived, received := near.received, sent := near.sent, ended := near.ended }

def streamStep (near : End) : StreamLabel → End
  | .progress arrived plan => near.after ((near.calling arrived).progress plan).2
  | .send frame memory arrived plan => near.after ((near.calling arrived).send frame memory plan).2
  | .take => near.take

end End

/-- Whole frames, one behind the other. -/
def Whole (bytes : List Byte) : Prop :=
  ∃ frames : List Frame, (∀ f ∈ frames, f.Fits) ∧ bytes = frames.flatMap Frame.bytes

/-- What an end reports of its stream, and what it has delivered when it reports the end. -/
structure EndOfStream (near : End) : Prop where
  closed : near.channel.closed = near.ended
  orderly : (near.channel.closed = true ∧ near.channel.failure = none) ↔
    (near.ended = true ∧ Whole near.received)
  protocol : near.ended = true →
    (¬ Whole near.received ↔ near.channel.failure = some .EPROTO)
  /-- A call asks `recv` while no frame waits, however often it is interrupted. -/
  asks : near.channel.failure = none → near.channel.message = none → ∀ interrupted < 8, ∀ arrived plan,
    ((near.calling arrived).progress
      (List.replicate interrupted .interrupted ++ .closed :: plan)).2.ended = true
  /-- The call that meets the end returns with it, and so does every later one. -/
  reported : ∀ arrived plan, ((near.calling arrived).progress plan).2.ended = true →
    (Whole ((near.calling arrived).progress plan).2.received → ((near.calling arrived).progress plan).1 = none) ∧
    (¬ Whole ((near.calling arrived).progress plan).2.received →
      ((near.calling arrived).progress plan).1 = some .EPROTO)
  delivered : near.ended = true → near.channel.message = none ∧
    ∃ part, near.received = near.taken.flatMap Frame.bytes ++ part ∧
      ∀ (f : Frame) (rest : List Byte), f.Fits → part ≠ f.bytes ++ rest

/-! ## Reading -/

/-- The reading half of an end: the stream is `base` and the frame under way, and the end of the
stream has been judged by that frame. -/
structure Ending (base : List Byte) (c : Call) : Prop where
  isOpen : c.channel.isOpen = true
  stream : c.received = base ++ c.channel.underway
  header : c.channel.header.length ≤ 4
  frame : ∀ frame, c.channel.incoming = some frame →
    c.channel.header = [] ∧ 0 < frame.length ∧ frame.length ≤ frameLimit
  working : c.channel.failure = none → c.channel.header.length < 4
  ended : c.channel.eof = true →
    (c.channel.failure = none ∧ c.channel.underway = []) ∨
      (c.channel.failure = some .EPROTO ∧ c.channel.underway ≠ [] ∧ c.channel.header.length < 4 ∧
        c.channel.incoming.any Incoming.complete = false)
  recorded : c.channel.eof = c.ended

/-- Between the turns of a call that reads. -/
structure Receiving (base : List Byte) (c : Call) : Prop extends Ending base c where
  failure : c.channel.failure = none
  eof : c.channel.eof = false

/-- What a turn comes to: the next one, or the status to return with, which the channel keeps as
its failure. -/
structure Turned (base : List Byte) (result : Option Status × Call) : Prop where
  ending : Ending base result.2
  goes : result.1 = none → Receiving base result.2
  returns : ∀ status, result.1 = some status → result.2.channel.failure = status

theorem Receiving.turned {base : List Byte} {c : Call} (h : Receiving base c) : Turned base (none, c) :=
  ⟨h.toEnding, fun _ => h, nofun⟩

theorem Turned.stops {base : List Byte} {result : Option Status × Call} {status : Status}
    (hresult : result.1 = some status) (hending : Ending base result.2)
    (hstatus : result.2.channel.failure = status) : Turned base result where
  ending := hending
  goes hgo := by cases hresult.symm.trans hgo
  returns status' hstatus' := by
    obtain rfl := Option.some.inj (hresult.symm.trans hstatus')
    exact hstatus

theorem Receiving.store {base : List Byte} {c : Call} (h : Receiving base c) {data : List Byte}
    (hlen : data.length ≤ c.wanted) (memory : Bool) : Turned base (c.store data hlen memory) := by
  have hsize := hlen
  have hstream := h.stream
  have hheader := h.working h.failure
  unfold Call.wanted at hsize
  unfold Call.store
  split
  · rename_i frame hframe
    have hnext : Receiving base
        { c with
          arrived := c.arrived.drop data.length
          received := c.received ++ data
          channel := { c.channel with incoming := some (frame.receive data (by
            simp only [Call.wanted, hframe] at hlen
            omega)) } } := by
      refine ⟨⟨h.isOpen, ?_, h.header, fun frame' hframe' => ?_, h.working, fun heof => ?_, h.recorded⟩,
        h.failure, h.eof⟩
      · simp only [Channel.underway, hframe] at hstream
        simp only [Channel.underway, Incoming.receive, hstream, List.append_assoc]
      · obtain rfl := Option.some.inj hframe'
        exact h.frame frame hframe
      · exact absurd (h.eof.symm.trans heof) Bool.false_ne_true
    exact hnext.turned
  · rename_i hnone
    simp only [hnone] at hsize
    simp only [Channel.underway, hnone] at hstream
    have hlength : (c.channel.header ++ data).length ≤ 4 := by
      rw [List.length_append]
      omega
    have heof : ∀ {P : Prop}, c.channel.eof = true → P := fun heof =>
      absurd (h.eof.symm.trans heof) Bool.false_ne_true
    by_cases hfour : (c.channel.header ++ data).length = 4
    · by_cases hbad : headerLength (c.channel.header ++ data) = 0 ∨
          headerLength (c.channel.header ++ data) > frameLimit
      · simp only [if_pos hfour, if_pos hbad]
        refine .stops rfl ⟨h.isOpen, ?_, hlength, fun frame' hframe' => ?_, fun hfail => ?_, heof, h.recorded⟩ rfl
        · simp only [Call.fail, Channel.underway, hnone, hstream, List.append_assoc]
        · cases hnone.symm.trans hframe'
        · cases hfail
      · cases memory with
        | true =>
          have hnext : Receiving base
              { c with
                arrived := c.arrived.drop data.length
                received := c.received ++ data
                channel :=
                  { c.channel with
                    incoming := some ⟨headerLength (c.channel.header ++ data), [], Nat.zero_le _⟩
                    header := [] } } := by
            refine ⟨⟨h.isOpen, ?_, Nat.zero_le 4, fun frame' hframe' => ?_, fun _ => Nat.zero_lt_succ 3,
              heof, h.recorded⟩, h.failure, h.eof⟩
            · simp only [Channel.underway, headerBytes_headerLength hfour, hstream, List.append_nil,
                List.append_assoc]
            · obtain rfl := Option.some.inj hframe'
              refine ⟨rfl, ?_, ?_⟩ <;> simp only <;> omega
          simp only [if_pos hfour, if_neg hbad, if_true]
          exact hnext.turned
        | false =>
          simp only [if_pos hfour, if_neg hbad, Bool.false_eq_true, if_false]
          refine .stops rfl ⟨h.isOpen, ?_, hlength, fun frame' hframe' => ?_, fun hfail => ?_, heof, h.recorded⟩ rfl
          · simp only [Call.fail, Channel.underway, hnone, hstream, List.append_assoc]
          · cases hnone.symm.trans hframe'
          · cases hfail
    · have hnext : Receiving base
          { c with
            arrived := c.arrived.drop data.length
            received := c.received ++ data
            channel := { c.channel with header := c.channel.header ++ data } } := by
        refine ⟨⟨h.isOpen, ?_, hlength, fun frame' hframe' => ?_, fun _ => ?_, heof, h.recorded⟩, h.failure, h.eof⟩
        · simp only [Channel.underway, hnone, hstream, List.append_assoc]
        · cases hnone.symm.trans hframe'
        · show (c.channel.header ++ data).length < 4
          omega
      simp only [if_neg hfour]
      exact hnext.turned

theorem headerBytes_ne_nil (length : Nat) (rest : List Byte) : headerBytes length ++ rest ≠ [] := by
  intro hnil
  have := congrArg List.length hnil
  rw [List.length_append, headerBytes_length, List.length_nil] at this
  omega

/-- The end of the stream is judged by the frame under way. -/
theorem Receiving.turn {base : List Byte} {c : Call} (h : Receiving base c)
    (hcomplete : c.channel.incoming.any Incoming.complete = false) (outcome : Outcome) :
    Turned base ((c.answered outcome).readTurn outcome) := by
  cases outcome with
  | interrupted => exact h.turned
  | again => exact .stops rfl h.toEnding h.failure
  | failed errno =>
    refine .stops rfl ⟨h.isOpen, h.stream, h.header, h.frame, fun hfail => ?_, fun heof => ?_, h.recorded⟩ rfl
    · cases hfail
    · exact absurd (h.eof.symm.trans heof) Bool.false_ne_true
  | closed =>
    have hheader := h.working h.failure
    have hunderway : (c.channel.header ≠ [] ∨ c.channel.incoming.isSome = true) ↔
        c.channel.underway ≠ [] := by
      cases hincoming : c.channel.incoming with
      | none => simp [Channel.underway, hincoming]
      | some frame =>
        simp only [Channel.underway, hincoming, Option.isSome_some, or_true, true_iff]
        exact headerBytes_ne_nil _ _
    unfold Call.readTurn Call.answered
    dsimp only
    by_cases hpart : c.channel.header ≠ [] ∨ c.channel.incoming.isSome = true
    · rw [if_pos hpart]
      refine .stops rfl ⟨h.isOpen, h.stream, h.header, h.frame, fun hfail => ?_, fun _ =>
        Or.inr ⟨rfl, hunderway.mp hpart, hheader, hcomplete⟩, rfl⟩ rfl
      cases hfail
    · rw [if_neg hpart]
      refine .stops rfl ⟨h.isOpen, h.stream, h.header, h.frame, h.working,
        fun _ => Or.inl ⟨h.failure, ?_⟩, rfl⟩ h.failure
      by_contra hne
      exact hpart (hunderway.mpr hne)
  | moved count memory =>
    unfold Call.readTurn Call.answered
    dsimp only
    split
    · exact .stops rfl h.toEnding h.failure
    · exact h.store _ memory

/-- Behind the turns, the status is the failure of the channel. -/
theorem Receiving.turns {base : List Byte} (turns : Nat) (plan : List Outcome) {c : Call}
    (h : Receiving base c) : Ending base (Call.readTurns turns plan c).2.2 ∧
      (Call.readTurns turns plan c).1 = (Call.readTurns turns plan c).2.2.channel.failure := by
  induction turns generalizing plan c with
  | zero => exact ⟨h.toEnding, h.failure.symm⟩
  | succ turns ih =>
    by_cases hcomplete : c.channel.incoming.any Incoming.complete = true
    · simp only [Call.readTurns, if_pos hcomplete]
      exact ⟨h.toEnding, h.failure.symm⟩
    · obtain ⟨hending, hgo, hreturns⟩ := h.turn (by simpa using hcomplete) (plan.headD .again)
      simp only [Call.readTurns, if_neg hcomplete]
      split
      · rename_i status c' heq
        rw [heq] at hending hreturns
        exact ⟨hending, (hreturns status rfl).symm⟩
      · rename_i c' heq
        rw [heq] at hgo
        exact ih plan.tail (hgo rfl)

/-- The turns come to an end of the stream that stands behind interruptions only. -/
theorem readTurns_closed {turns interrupted : Nat} (hlt : interrupted < turns) (plan : List Outcome) {c : Call}
    (hcomplete : c.channel.incoming.any Incoming.complete = false) :
    (Call.readTurns turns (List.replicate interrupted .interrupted ++ .closed :: plan) c).2.2.ended = true := by
  induction turns generalizing interrupted with
  | zero => omega
  | succ turns ih =>
    have hwaits : ¬ c.channel.incoming.any Incoming.complete = true := by simpa using hcomplete
    cases interrupted with
    | zero =>
      simp only [List.replicate_zero, List.nil_append, Call.readTurns, if_neg hwaits, List.headD_cons]
      unfold Call.readTurn Call.answered
      dsimp only
      split_ifs <;> rfl
    | succ interrupted =>
      simp only [List.replicate_succ, List.cons_append, Call.readTurns, if_neg hwaits, List.headD_cons]
      exact ih (by omega)

/-! ## Writing -/

/-- Nothing of the reading half has changed. -/
structure SameReading (c c' : Call) : Prop where
  received : c'.received = c.received
  incoming : c'.channel.incoming = c.channel.incoming
  header : c'.channel.header = c.channel.header
  failure : c'.channel.failure = c.channel.failure
  eof : c'.channel.eof = c.channel.eof
  isOpen : c'.channel.isOpen = c.channel.isOpen
  ended : c'.ended = c.ended

theorem SameReading.refl (c : Call) : SameReading c c := ⟨rfl, rfl, rfl, rfl, rfl, rfl, rfl⟩

theorem SameReading.trans {a b c : Call} (h₁ : SameReading a b) (h₂ : SameReading b c) :
    SameReading a c :=
  ⟨h₂.received.trans h₁.received, h₂.incoming.trans h₁.incoming, h₂.header.trans h₁.header,
    h₂.failure.trans h₁.failure, h₂.eof.trans h₁.eof, h₂.isOpen.trans h₁.isOpen, h₂.ended.trans h₁.ended⟩

theorem Ending.same {base : List Byte} {c c' : Call} (h : Ending base c) (hsame : SameReading c c') :
    Ending base c' := by
  have hunderway : c'.channel.underway = c.channel.underway := by
    simp only [Channel.underway, hsame.incoming, hsame.header]
  constructor
  · rw [hsame.isOpen, h.isOpen]
  · rw [hsame.received, hunderway, h.stream]
  · rw [hsame.header]
    exact h.header
  · rw [hsame.incoming, hsame.header]
    exact h.frame
  · rw [hsame.failure, hsame.header]
    exact h.working
  · rw [hsame.eof, hsame.failure, hsame.header, hsame.incoming, hunderway]
    exact h.ended
  · rw [hsame.eof, hsame.ended, h.recorded]

theorem writeTurn_same (c : Call) (frame : Outgoing) (rest : List Outgoing) (budget : Nat)
    (outcome : Outcome) : SameReading c (c.writeTurn frame rest budget outcome).2 := by
  cases outcome <;> exact ⟨rfl, rfl, rfl, rfl, rfl, rfl, rfl⟩

theorem writeTurns_same (plan : List Outcome) (budget : Nat) (c : Call) :
    SameReading c (Call.writeTurns plan budget c) := by
  induction plan generalizing budget c with
  | nil => exact .refl c
  | cons outcome plan ih =>
    unfold Call.writeTurns
    split
    · exact .refl c
    · rename_i frame rest hout
      split
      · exact .refl c
      · have hturn := writeTurn_same c frame rest budget outcome
        split
        · rename_i c' heq
          rw [heq] at hturn
          exact hturn
        · rename_i budget' c' heq
          rw [heq] at hturn
          exact hturn.trans (ih budget' c')

/-! ## The calls -/

theorem discard_same (c : Call) :
    SameReading c (if c.channel.eof ∧ c.channel.out ≠ [] then c.failWrite .EPIPE else c) := by
  split <;> exact ⟨rfl, rfl, rfl, rfl, rfl, rfl, rfl⟩

theorem write_same (c : Call) (left : List Outcome) :
    SameReading c (if ¬ c.channel.eof ∧ c.channel.writeFailure = none then c.writePending left else c) := by
  split
  · exact writeTurns_same _ _ c
  · exact .refl c

/-- A call that makes progress keeps the reading half in order, and returns the failure of the channel. -/
theorem Ending.progress {base : List Byte} {c : Call} (h : Ending base c) (plan : List Outcome) :
    Ending base (c.progress plan).2 ∧ (c.progress plan).1 = (c.progress plan).2.channel.failure := by
  unfold Call.progress
  rw [if_neg (by rw [h.isOpen]; decide)]
  by_cases hfail : c.channel.failure = none
  · have hread : Ending base (c.readPending plan).2.2 ∧
        (c.readPending plan).1 = (c.readPending plan).2.2.channel.failure := by
      unfold Call.readPending
      split
      · exact ⟨h, hfail.symm⟩
      · rename_i heof
        exact Receiving.turns 8 plan ⟨h, hfail, by simpa using heof⟩
    rw [if_neg (by rw [hfail]; decide)]
    split
    · rename_i status left c' heq
      rw [heq] at hread
      exact hread
    · rename_i left c' heq
      rw [heq] at hread
      have hsame := (discard_same c').trans (write_same _ left)
      exact ⟨hread.1.same hsame, hread.2.trans hsame.failure.symm⟩
  · rw [if_pos hfail]
    exact ⟨h, rfl⟩

/-- A call comes to the end of the stream, where no frame waits. -/
theorem Ending.asks {base : List Byte} {c : Call} (h : Ending base c) (hfail : c.channel.failure = none)
    (hcomplete : c.channel.incoming.any Incoming.complete = false) {interrupted : Nat} (hlt : interrupted < 8)
    (plan : List Outcome) :
    (c.progress (List.replicate interrupted .interrupted ++ .closed :: plan)).2.ended = true := by
  have hread : (c.readPending (List.replicate interrupted .interrupted ++ .closed :: plan)).2.2.ended = true := by
    unfold Call.readPending
    split
    · rename_i heof
      exact h.recorded.symm.trans heof
    · exact readTurns_closed hlt plan hcomplete
  unfold Call.progress
  rw [if_neg (by rw [h.isOpen]; decide), if_neg (by rw [hfail]; decide)]
  split
  · rename_i status left c' heq
    rw [heq] at hread
    exact hread
  · rename_i left c' heq
    rw [heq] at hread
    exact ((discard_same c').trans (write_same _ left)).ended.trans hread

theorem Ending.send {base : List Byte} {c : Call} (h : Ending base c) (frame : Frame) (memory : Bool)
    (plan : List Outcome) : Ending base (c.send frame memory plan).2 := by
  unfold Call.send
  split
  · exact h
  · have hqueued : SameReading c { c with channel := c.channel.enqueue frame } :=
      ⟨rfl, rfl, rfl, rfl, rfl, rfl, rfl⟩
    have hprogress := ((h.same hqueued).progress plan).1
    split
    · rename_i status c' heq
      rw [heq] at hprogress
      exact hprogress
    · rename_i c' heq
      rw [heq] at hprogress
      exact hprogress

/-- A complete frame in front of the reader. -/
theorem Ending.message {base : List Byte} {c : Call} (h : Ending base c) {frame : Frame}
    (hmessage : c.channel.message = some frame) :
    frame.Fits ∧ c.channel.underway = frame.bytes ∧ c.channel.header = [] ∧
      c.channel.incoming.any Incoming.complete = true := by
  unfold Channel.message at hmessage
  split at hmessage
  · rename_i incoming hincoming
    split at hmessage
    · rename_i hcomplete
      obtain ⟨hheader, hpos, hlimit⟩ := h.frame incoming hincoming
      have hlength : incoming.bytes.length = incoming.length := by
        simpa [Incoming.complete] using hcomplete
      obtain rfl := Option.some.inj hmessage
      obtain ⟨kind, payload, hbytes⟩ := List.exists_cons_of_length_pos (hlength ▸ hpos)
      rw [hbytes, List.length_cons] at hlength
      have hfits : Frame.Fits ⟨kind, payload⟩ := by
        show payload.length < frameLimit
        omega
      refine ⟨by rwa [hbytes], ?_, hheader, by simp [hincoming, hcomplete]⟩
      simp only [Channel.underway, hincoming, hbytes, List.headD_cons, List.tail_cons]
      rw [Frame.bytes_eq hfits, hlength]
    · cases hmessage
  · cases hmessage

/-! ## The run -/

/-- One end between calls. -/
structure AtRest (near : End) : Prop where
  fits : ∀ f ∈ near.taken, f.Fits
  ending : Ending (near.taken.flatMap Frame.bytes) (near.calling [])

theorem ending_arrived {base : List Byte} {near : End} (h : Ending base (near.calling []))
    (arrived : List Byte) : Ending base (near.calling arrived) :=
  h.same ⟨rfl, rfl, rfl, rfl, rfl, rfl, rfl⟩

theorem AtRest.after {near : End} (h : AtRest near) {c : Call}
    (hc : Ending (near.taken.flatMap Frame.bytes) c) : AtRest (near.after c) :=
  ⟨h.fits, hc.same ⟨rfl, rfl, rfl, rfl, rfl, rfl, rfl⟩⟩

theorem AtRest.take {near : End} (h : AtRest near) : AtRest near.take := by
  unfold End.take
  split
  · exact h
  · rename_i frame hmessage
    obtain ⟨hfits, hunderway, hheader, hcomplete⟩ := h.ending.message hmessage
    have hstream := h.ending.stream
    refine ⟨fun f hf => ?_, h.ending.isOpen, ?_, h.ending.header, fun frame' hframe' => ?_,
      h.ending.working, fun heof => ?_, h.ending.recorded⟩
    · rcases List.mem_append.mp hf with hf | hf
      · exact h.fits f hf
      · rw [List.mem_singleton.mp hf]
        exact hfits
    · show near.received = (near.taken ++ [frame]).flatMap Frame.bytes ++ near.channel.header
      have hheader' : near.channel.header = [] := hheader
      have hreceived : near.received = near.taken.flatMap Frame.bytes ++ near.channel.underway := hstream
      have hframe : near.channel.underway = frame.bytes := hunderway
      rw [hreceived, hframe, hheader']
      simp
    · cases hframe'
    · -- a stream that has ended has no complete frame left
      rcases h.ending.ended heof with ⟨-, hnil⟩ | ⟨-, -, -, hpart⟩
      · rw [hnil] at hunderway
        exact absurd hunderway.symm (selfDelimiting_bytes.ne_nil frame)
      · rw [hpart] at hcomplete
        cases hcomplete

theorem AtRest.step {near : End} (h : AtRest near) (l : StreamLabel) : AtRest (near.streamStep l) := by
  cases l with
  | progress arrived plan => exact h.after ((ending_arrived h.ending arrived).progress plan).1
  | send frame memory arrived plan =>
    exact h.after ((ending_arrived h.ending arrived).send frame memory plan)
  | take => exact h.take

theorem atRest_new : AtRest .new :=
  ⟨fun f hf => absurd hf List.not_mem_nil, rfl, rfl, Nat.zero_le 4, fun frame hframe => (by cases hframe),
    fun _ => Nat.zero_lt_succ 3, fun heof => (by cases heof), rfl⟩

/-! ## The end of the stream -/

/-- A frame under way that is not complete holds no whole frame. -/
theorem underway_part {base : List Byte} {c : Call} (h : Ending base c)
    (hheader : c.channel.header.length < 4)
    (hcomplete : c.channel.incoming.any Incoming.complete = false) (f : Frame) (rest : List Byte)
    (hf : f.Fits) : c.channel.underway ≠ f.bytes ++ rest := by
  intro heq
  cases hincoming : c.channel.incoming with
  | none =>
    simp only [Channel.underway, hincoming] at heq
    have := f.bytes_length
    rw [heq, List.length_append] at hheader
    omega
  | some frame =>
    obtain ⟨-, -, hlimit⟩ := h.frame frame hincoming
    simp only [Channel.underway, hincoming, Frame.bytes_eq hf, List.append_assoc] at heq
    obtain ⟨hlength, hbytes⟩ := List.append_inj heq (by rw [headerBytes_length, headerBytes_length])
    have hvalue := congrArg headerLength hlength
    unfold Frame.Fits at hf
    unfold frameLimit at hf hlimit
    rw [headerLength_headerBytes (by omega), headerLength_headerBytes (by omega)] at hvalue
    have hcount := congrArg List.length hbytes
    simp only [List.cons_append, List.length_cons, List.length_append] at hcount
    have hbound := frame.bound
    simp only [hincoming, Option.any_some, Incoming.complete, beq_eq_false_iff_ne] at hcomplete
    omega

/-- The stream holds whole frames exactly when none is under way. -/
theorem AtRest.whole_iff {near : End} (h : AtRest near) (heof : near.channel.eof = true) :
    Whole near.received ↔ near.channel.underway = [] := by
  have hstream : near.received = near.taken.flatMap Frame.bytes ++ near.channel.underway := h.ending.stream
  constructor
  · rintro ⟨frames, hfits, hframes⟩
    rcases h.ending.ended heof with ⟨-, hnil⟩ | ⟨-, hne, hheader, hpart⟩
    · exact hnil
    · obtain ⟨later, hlater, hrest⟩ := frames_unique selfDelimiting_bytes h.fits hfits (hstream.symm.trans hframes)
      cases later with
      | nil => exact hrest
      | cons f later =>
        have hf : f.Fits := hfits f (by rw [hlater]; simp)
        exact absurd hrest (underway_part h.ending hheader hpart f _ hf)
  · intro hnil
    rw [hnil, List.append_nil] at hstream
    exact ⟨near.taken, h.fits, hstream⟩

theorem AtRest.message {near : End} (h : AtRest near) (heof : near.channel.eof = true) :
    near.channel.message = none := by
  cases hmessage : near.channel.message with
  | none => rfl
  | some frame =>
    obtain ⟨-, hunderway, -, hcomplete⟩ := h.ending.message hmessage
    rcases h.ending.ended heof with ⟨-, hnil⟩ | ⟨-, -, -, hpart⟩
    · rw [hnil] at hunderway
      exact absurd hunderway.symm (selfDelimiting_bytes.ne_nil frame)
    · rw [hpart] at hcomplete
      cases hcomplete

/-- What is left of the stream when it has ended. -/
theorem AtRest.part {near : End} (h : AtRest near) (heof : near.channel.eof = true) (f : Frame)
    (rest : List Byte) (hf : f.Fits) : near.channel.underway ≠ f.bytes ++ rest := by
  rcases h.ending.ended heof with ⟨-, hnil⟩ | ⟨-, -, hheader, hpart⟩
  · have hnil : near.channel.underway = [] := hnil
    rw [hnil]
    intro heq
    exact selfDelimiting_bytes.ne_nil f (List.append_eq_nil_iff.mp heq.symm).1
  · exact underway_part h.ending hheader hpart f rest hf

/-- No frame waits where `message` has none. -/
theorem waiting_none {channel : Channel} (h : channel.message = none) :
    channel.incoming.any Incoming.complete = false := by
  unfold Channel.message at h
  cases hincoming : channel.incoming with
  | none => rfl
  | some frame =>
    rw [hincoming] at h
    dsimp only at h
    split_ifs at h with hcomplete
    rw [Option.any_some]
    exact Bool.eq_false_iff.mpr hcomplete

theorem AtRest.protocol {near : End} (h : AtRest near) (heof : near.channel.eof = true) :
    ¬ Whole near.received ↔ near.channel.failure = some .EPROTO := by
  rw [h.whole_iff heof]
  rcases h.ending.ended heof with ⟨hfail, hnil⟩ | ⟨hfail, hne, -⟩
  · exact iff_of_false (fun hne => hne hnil) fun hproto => by cases hfail.symm.trans hproto
  · exact iff_of_true hne hfail

theorem AtRest.orderly {near : End} (h : AtRest near) (heof : near.channel.eof = true) :
    near.channel.failure = none ↔ Whole near.received := by
  rw [h.whole_iff heof]
  rcases h.ending.ended heof with ⟨hfail, hnil⟩ | ⟨hfail, hne, -⟩
  · exact iff_of_true hfail hnil
  · exact iff_of_false (fun hnone => by cases hfail.symm.trans hnone) hne

theorem AtRest.endOfStream {near : End} (h : AtRest near) : EndOfStream near := by
  have hopen : near.channel.isOpen = true := h.ending.isOpen
  have hrecorded : near.channel.eof = near.ended := h.ending.recorded
  have hclosed : near.channel.closed = near.ended := by
    rw [Channel.closed, hopen, hrecorded]
    rfl
  refine ⟨hclosed, ?_, fun hended => h.protocol (hrecorded.trans hended), fun hfail hmessage interrupted hlt
    arrived plan => ?_, fun arrived plan hended => ?_, fun hended => ?_⟩
  · rw [hclosed]
    exact and_congr_right fun hended => h.orderly (hrecorded.trans hended)
  · exact (ending_arrived h.ending arrived).asks hfail (waiting_none hmessage) hlt plan
  · -- the end behind the call is at rest, and returns its failure
    obtain ⟨hending, hstatus⟩ := (ending_arrived h.ending arrived).progress plan
    have hafter : AtRest (near.after ((near.calling arrived).progress plan).2) := h.after hending
    have heof : (near.after ((near.calling arrived).progress plan).2).channel.eof = true :=
      hafter.ending.recorded.trans hended
    rw [hstatus]
    exact ⟨(hafter.orderly heof).mpr, (hafter.protocol heof).mp⟩
  · have heof := hrecorded.trans hended
    exact ⟨h.message heof, _, h.ending.stream, h.part heof⟩

/-- In every state of every run, an end reports the end of its stream when `recv` has answered 0: an orderly
one exactly behind a whole frame, and a protocol error inside one; by then every whole frame has been
delivered. -/
theorem end_of_stream (ls : List StreamLabel) : EndOfStream (run End.streamStep .new ls) :=
  (run_preserves (P := AtRest) (fun _ l h => h.step l) atRest_new ls).endOfStream

end TsonicNode.Worker
