import TsonicNode.Worker.Channel
import TsonicNode.Lib.Run
import Mathlib.Logic.Function.Basic

/-!
# Two ends of a worker channel

A `Link` is two channels over a reliable byte stream, with the record of the
frames each end has accepted and taken. Every step runs one call of one end;
the `Transfer`s of the call say how many bytes each `recv` and `send` moves.

`Reads` and `Writes` say what the two halves of `progress` do, `Sound` is the
invariant of a run: what was read is the frames taken and a part of the next,
what was accepted is what was sent and what is queued. Frames can be read in
one way only, so the frames taken are the first ones accepted
(`taken_prefix_accepted`).
-/

namespace TsonicNode.Worker

open TsonicNode.Lib

/-! ## Headers -/

theorem headerBytes_eq (payload : Nat) : headerBytes payload = leBytes 4 payload := by
  simp only [headerBytes, List.range, List.range.loop, List.map, leBytes, Nat.shiftRight_eq_div_pow,
    Nat.div_div_eq_div_mul]
  simp

theorem headerLength_eq (header : List Byte) (h : header.length = 4) :
    headerLength header = leValue header := by
  match header with
  | [a, b, c, d] =>
    have ha := a.toNat_lt
    have hb := b.toNat_lt
    have hc := c.toNat_lt
    simp only [headerLength, List.range, List.range.loop, List.foldl, List.getD_cons_zero,
      List.getD_cons_succ, leValue]
    rw [Nat.zero_mul, Nat.shiftLeft_zero, Nat.zero_or, or_shiftLeft (i := 1 * 8) (by omega),
      or_shiftLeft (i := 2 * 8) (by omega), or_shiftLeft (i := 3 * 8) (by omega)]
    omega

theorem headerBytes_length (payload : Nat) : (headerBytes payload).length = 4 := by
  rw [headerBytes_eq, leBytes_length]

theorem headerLength_headerBytes {payload : Nat} (h : payload < 4294967296) :
    headerLength (headerBytes payload) = payload := by
  rw [headerLength_eq _ (headerBytes_length payload), headerBytes_eq, leValue_leBytes (by omega)]

theorem headerBytes_headerLength {header : List Byte} (h : header.length = 4) :
    headerBytes (headerLength header) = header := by
  rw [headerBytes_eq, headerLength_eq header h, ← h, leBytes_leValue]

/-! ## Frames -/

/-- A frame the sender does not find too long. -/
def Frame.Fits (frame : Frame) : Prop := frame.payload.length < frameLimit

theorem Frame.bytes_eq {frame : Frame} (h : frame.Fits) :
    frame.bytes = headerBytes (frame.payload.length + 1) ++ frame.kind :: frame.payload := by
  unfold Fits frameLimit at h
  rw [Frame.bytes, Nat.mod_eq_of_lt (by omega)]

theorem Frame.bytes_length (frame : Frame) : frame.bytes.length = frame.payload.length + 5 := by
  simp only [Frame.bytes, List.length_append, headerBytes_length, List.length_cons]
  omega

theorem Frame.headerLength_bytes {frame : Frame} (h : frame.Fits) :
    headerLength (frame.bytes.take 4) = frame.payload.length + 1 := by
  rw [Frame.bytes_eq h, List.take_left' (headerBytes_length _)]
  unfold Fits frameLimit at h
  exact headerLength_headerBytes (by omega)

/-- The length stands in front of a frame, so a stream of frames can be read in one way only. -/
theorem selfDelimiting_bytes : SelfDelimiting Frame.bytes Frame.Fits where
  eq := by
    intro f g x y hf hg heq
    have hlength : f.payload.length + 1 = g.payload.length + 1 := by
      rw [← Frame.headerLength_bytes hf, ← Frame.headerLength_bytes hg]
      have := congrArg (List.take 4) heq
      rw [List.take_append_of_le_length (by rw [Frame.bytes_length]; omega),
        List.take_append_of_le_length (by rw [Frame.bytes_length]; omega)] at this
      rw [this]
    rw [Frame.bytes_eq hf, Frame.bytes_eq hg, hlength, List.append_assoc, List.append_assoc] at heq
    have hrest := List.append_cancel_left heq
    simp only [List.cons_append, List.cons.injEq] at hrest
    obtain ⟨hkind, hpayload⟩ := hrest
    obtain ⟨hpayload, -⟩ := List.append_inj hpayload (by omega)
    cases f
    cases g
    simp only at hkind hpayload
    rw [hkind, hpayload]
  ne_nil := by
    intro f hnil
    have := f.bytes_length
    rw [hnil, List.length_nil] at this
    omega

/-! ## Reading -/

/-- The bytes received of a frame that has not been taken. -/
def Channel.underway (channel : Channel) : List Byte :=
  match channel.incoming with
  | none => channel.header
  | some frame => headerBytes frame.length ++ frame.bytes

/-- The reading half between two turns. -/
structure Reading (channel : Channel) : Prop where
  header : channel.header.length < 4
  frame : ∀ frame, channel.incoming = some frame →
    channel.header = [] ∧ 0 < frame.length ∧ frame.length ≤ frameLimit

/-- The reading half has met a length it does not accept. -/
structure Rejecting (channel : Channel) : Prop where
  header : channel.header.length = 4
  incoming : channel.incoming = none
  length : headerLength channel.header = 0 ∨ headerLength channel.header > frameLimit

/-- Bytes have moved from the stream to the frame under way, and nothing else has changed. -/
structure Reads (c c' : Call) : Prop where
  moved : ∃ data, c.arrived = data ++ c'.arrived ∧ c'.received = c.received ++ data ∧
    c'.channel.underway = c.channel.underway ++ data
  sent : c'.sent = c.sent
  out : c'.channel.out = c.channel.out
  outBytes : c'.channel.outBytes = c.channel.outBytes
  writeFailure : c'.channel.writeFailure = c.channel.writeFailure
  isOpen : c'.channel.isOpen = c.channel.isOpen
  eof : c'.channel.eof = c.channel.eof

theorem Reads.refl (c : Call) : Reads c c :=
  ⟨⟨[], by simp⟩, rfl, rfl, rfl, rfl, rfl, rfl⟩

theorem Reads.trans {a b c : Call} (h₁ : Reads a b) (h₂ : Reads b c) : Reads a c := by
  obtain ⟨data₁, harr₁, hrec₁, hund₁⟩ := h₁.moved
  obtain ⟨data₂, harr₂, hrec₂, hund₂⟩ := h₂.moved
  refine ⟨⟨data₁ ++ data₂, ?_, ?_, ?_⟩, h₂.sent.trans h₁.sent, h₂.out.trans h₁.out,
    h₂.outBytes.trans h₁.outBytes, h₂.writeFailure.trans h₁.writeFailure,
    h₂.isOpen.trans h₁.isOpen, h₂.eof.trans h₁.eof⟩
  · rw [harr₁, harr₂, List.append_assoc]
  · rw [hrec₂, hrec₁, List.append_assoc]
  · rw [hund₂, hund₁, List.append_assoc]

/-- Answers of a working socket in a process that has memory. -/
def Outcome.Reliable : Outcome → Prop
  | .moved _ memory => memory = true
  | .interrupted | .again => True
  | .closed | .failed _ => False

/-- What is stored continues the frame under way, or completes a header with a bad length. -/
theorem store_spec {c : Call} (hread : Reading c.channel) (hfail : c.channel.failure = none)
    {data back : List Byte} (harr : c.arrived = data ++ back) (h : data.length ≤ c.wanted) :
    Reads c (c.store data h true).2 ∧
      (((c.store data h true).1 = none ∧ (c.store data h true).2.channel.failure = none ∧
          Reading (c.store data h true).2.channel) ∨
        ((c.store data h true).1 = some (some .EMSGSIZE) ∧
          Rejecting (c.store data h true).2.channel)) := by
  have hsplit : c.arrived = data ++ c.arrived.drop data.length := by rw [harr, List.drop_left]
  have hsize := h
  unfold Call.wanted at hsize
  unfold Call.store
  split
  · rename_i frame hframe
    obtain ⟨hheader, hpos, hlimit⟩ := hread.frame frame hframe
    refine ⟨⟨⟨data, hsplit, rfl, ?_⟩, rfl, rfl, rfl, rfl, rfl, rfl⟩, .inl ⟨rfl, hfail, ?_⟩⟩
    · simp only [Channel.underway, hframe, Incoming.receive, List.append_assoc]
    · refine ⟨hread.header, fun frame' hframe' => ?_⟩
      obtain rfl := Option.some.inj hframe'
      exact ⟨hheader, hpos, hlimit⟩
  · rename_i hnone
    simp only [hnone] at hsize
    have hheader := hread.header
    have hund : c.channel.underway = c.channel.header := by simp only [Channel.underway, hnone]
    by_cases hfour : (c.channel.header ++ data).length = 4
    · by_cases hbad : headerLength (c.channel.header ++ data) = 0 ∨
          headerLength (c.channel.header ++ data) > frameLimit
      · simp only [if_pos hfour, if_pos hbad]
        refine ⟨⟨⟨data, hsplit, rfl, ?_⟩, rfl, rfl, rfl, rfl, rfl, rfl⟩,
          .inr ⟨trivial, hfour, hnone, hbad⟩⟩
        rw [hund]
        simp only [Channel.underway, Call.fail, hnone]
      · simp only [if_pos hfour, if_neg hbad]
        refine ⟨⟨⟨data, hsplit, rfl, ?_⟩, rfl, rfl, rfl, rfl, rfl, rfl⟩,
          .inl ⟨rfl, hfail, by simp, fun frame' hframe' => ?_⟩⟩
        · rw [hund]
          simp only [Channel.underway, if_true, headerBytes_headerLength hfour, List.append_nil]
        · obtain rfl := Option.some.inj hframe'
          refine ⟨rfl, ?_, ?_⟩ <;> simp only <;> omega
    · simp only [if_neg hfour]
      refine ⟨⟨⟨data, hsplit, rfl, ?_⟩, rfl, rfl, rfl, rfl, rfl, rfl⟩,
        .inl ⟨trivial, hfail, ?_, fun frame' hframe' => ?_⟩⟩
      · rw [hund]
        simp only [Channel.underway, hnone]
      · simp only [List.length_append] at hfour ⊢
        omega
      · rw [hnone] at hframe'
        cases hframe'

/-- A turn of reading goes on or returns 0, or it meets a bad length and returns that. -/
theorem readTurn_spec {c : Call} (hread : Reading c.channel) (hfail : c.channel.failure = none)
    {outcome : Outcome} (ho : outcome.Reliable) :
    Reads c (c.readTurn outcome).2 ∧
      ((((c.readTurn outcome).1 = none ∨ (c.readTurn outcome).1 = some none) ∧
          (c.readTurn outcome).2.channel.failure = none ∧
          Reading (c.readTurn outcome).2.channel) ∨
        ((c.readTurn outcome).1 = some (some .EMSGSIZE) ∧
          Rejecting (c.readTurn outcome).2.channel)) := by
  cases outcome with
  | interrupted => exact ⟨.refl c, .inl ⟨.inl rfl, hfail, hread⟩⟩
  | again => exact ⟨.refl c, .inl ⟨.inr rfl, hfail, hread⟩⟩
  | closed => exact ho.elim
  | failed errno => exact ho.elim
  | moved count memory =>
    obtain rfl : memory = true := ho
    by_cases hempty : c.arrived = []
    · simp only [Call.readTurn, if_pos hempty]
      exact ⟨.refl c, .inl ⟨.inr trivial, hfail, hread⟩⟩
    · simp only [Call.readTurn, if_neg hempty]
      obtain ⟨hreads, hstatus⟩ := store_spec hread hfail
        (List.take_append_drop (min (count + 1) c.wanted) c.arrived).symm
        (by rw [List.length_take]; omega)
      exact ⟨hreads, hstatus.imp_left fun h => ⟨.inl h.1, h.2⟩⟩

theorem answered_reliable (c : Call) {outcome : Outcome} (h : outcome.Reliable) : c.answered outcome = c := by
  cases outcome with
  | closed => exact h.elim
  | _ => rfl

/-- The turns of reading, by what each of them does. -/
theorem readTurns_spec (turns : Nat) {plan : List Outcome} (hplan : ∀ o ∈ plan, o.Reliable)
    {c : Call} (hread : Reading c.channel) (hfail : c.channel.failure = none) :
    Reads c (Call.readTurns turns plan c).2.2 ∧
      (((Call.readTurns turns plan c).1 = none ∧
          (Call.readTurns turns plan c).2.2.channel.failure = none ∧
          Reading (Call.readTurns turns plan c).2.2.channel) ∨
        ((Call.readTurns turns plan c).1 = some .EMSGSIZE ∧
          Rejecting (Call.readTurns turns plan c).2.2.channel)) ∧
      ∀ o ∈ (Call.readTurns turns plan c).2.1, o.Reliable := by
  induction turns generalizing plan c with
  | zero => exact ⟨.refl c, .inl ⟨rfl, hfail, hread⟩, hplan⟩
  | succ turns ih =>
    by_cases hcomplete : c.channel.incoming.any Incoming.complete = true
    · simp only [Call.readTurns, if_pos hcomplete]
      exact ⟨.refl c, .inl ⟨trivial, hfail, hread⟩, hplan⟩
    · have hhead : (plan.headD .again).Reliable := by
        cases plan with
        | nil => trivial
        | cons o plan => exact hplan o (by simp)
      have htail : ∀ o ∈ plan.tail, o.Reliable := fun o ho => hplan o (List.mem_of_mem_tail ho)
      obtain ⟨hreads, hstatus⟩ := readTurn_spec hread hfail hhead
      simp only [Call.readTurns, if_neg hcomplete, answered_reliable c hhead]
      split
      · rename_i status c' heq
        rw [heq] at hreads hstatus
        refine ⟨hreads, ?_, htail⟩
        rcases hstatus with ⟨h | h, hworks⟩ | ⟨h, hrej⟩
        · cases h
        · exact .inl ⟨Option.some.inj h, hworks⟩
        · exact .inr ⟨Option.some.inj h, hrej⟩
      · rename_i c' heq
        rw [heq] at hreads hstatus
        rcases hstatus with ⟨-, hfail', hread'⟩ | ⟨h, -⟩
        · obtain ⟨hreads', hrest⟩ := ih htail hread' hfail'
          exact ⟨hreads.trans hreads', hrest⟩
        · cases h

/-! ## Writing -/

/-- The bytes of the queued frames that are not written. -/
def Channel.unsent (channel : Channel) : List Byte := channel.out.flatMap Outgoing.unsent

def Channel.unsentBytes (channel : Channel) : Nat := (channel.out.map Outgoing.remaining).sum

/-- The counter of the queue agrees with it. -/
def Accounted (channel : Channel) : Prop :=
  channel.outBytes = channel.unsentBytes ∧ channel.outBytes ≤ queueLimit

/-- Bytes have moved from the queue to the stream, and nothing else has changed. -/
structure Writes (c c' : Call) : Prop where
  moved : ∃ data, c.channel.unsent = data ++ c'.channel.unsent ∧ c'.sent = c.sent ++ data
  accounted : Accounted c'.channel
  received : c'.received = c.received
  incoming : c'.channel.incoming = c.channel.incoming
  header : c'.channel.header = c.channel.header
  failure : c'.channel.failure = c.channel.failure
  writeFailure : c'.channel.writeFailure = c.channel.writeFailure
  isOpen : c'.channel.isOpen = c.channel.isOpen
  eof : c'.channel.eof = c.channel.eof

theorem Writes.refl {c : Call} (h : Accounted c.channel) : Writes c c :=
  ⟨⟨[], by simp⟩, h, rfl, rfl, rfl, rfl, rfl, rfl, rfl⟩

theorem Writes.trans {a b c : Call} (h₁ : Writes a b) (h₂ : Writes b c) : Writes a c := by
  obtain ⟨data₁, huns₁, hsent₁⟩ := h₁.moved
  obtain ⟨data₂, huns₂, hsent₂⟩ := h₂.moved
  refine ⟨⟨data₁ ++ data₂, ?_, ?_⟩, h₂.accounted, h₂.received.trans h₁.received,
    h₂.incoming.trans h₁.incoming, h₂.header.trans h₁.header, h₂.failure.trans h₁.failure,
    h₂.writeFailure.trans h₁.writeFailure, h₂.isOpen.trans h₁.isOpen, h₂.eof.trans h₁.eof⟩
  · rw [huns₁, huns₂, List.append_assoc]
  · rw [hsent₂, hsent₁, List.append_assoc]

theorem Outgoing.unsent_advance (frame : Outgoing) {written : Nat} (h : written ≤ frame.remaining) :
    frame.unsent = frame.unsent.take written ++ (frame.advance written h).unsent := by
  have : (frame.advance written h).unsent = frame.unsent.drop written := by
    simp only [unsent, advance, List.drop_drop]
  rw [this, List.take_append_drop]

theorem Outgoing.remaining_advance (frame : Outgoing) {written : Nat}
    (h : written ≤ frame.remaining) :
    (frame.advance written h).remaining = frame.remaining - written := by
  simp only [remaining, advance]
  omega

theorem writeTurn_spec {c : Call} (hacc : Accounted c.channel) {frame : Outgoing}
    {rest : List Outgoing} (hout : c.channel.out = frame :: rest) (budget : Nat)
    {outcome : Outcome} (ho : outcome.Reliable) :
    Writes c (c.writeTurn frame rest budget outcome).2 := by
  cases outcome with
  | interrupted => exact .refl hacc
  | again => exact .refl hacc
  | closed => exact ho.elim
  | failed errno => exact ho.elim
  | moved count memory =>
    have hwritten : min (count + 1) (min frame.remaining budget) ≤ frame.remaining := by omega
    have hunsent := frame.unsent_advance hwritten
    have hremaining := frame.remaining_advance hwritten
    obtain ⟨hbytes, hlimit⟩ := hacc
    have hsum : c.channel.unsentBytes = frame.remaining + (rest.map Outgoing.remaining).sum := by
      simp only [Channel.unsentBytes, hout, List.map_cons, List.sum_cons]
    have hsub : sizeSub c.channel.outBytes (min (count + 1) (min frame.remaining budget)) =
        c.channel.outBytes - min (count + 1) (min frame.remaining budget) := by
      unfold queueLimit at hlimit
      exact sizeSub_eq (by omega) (by unfold sizeModulus; omega)
    unfold Call.writeTurn
    by_cases hdone : (frame.advance _ hwritten).offset = (frame.advance _ hwritten).bytes.length
    · simp only [if_pos hdone]
      have hnil : (frame.advance _ hwritten).unsent = [] := by
        rw [Outgoing.unsent, hdone, List.drop_length]
      have hzero : (frame.advance _ hwritten).remaining = 0 := by
        rw [Outgoing.remaining, hdone, Nat.sub_self]
      refine ⟨⟨_, ?_, rfl⟩, ⟨?_, ?_⟩, rfl, rfl, rfl, rfl, rfl, rfl, rfl⟩
      · rw [hnil, List.append_nil] at hunsent
        simp only [Channel.unsent, hout, List.flatMap_cons]
        rw [← hunsent]
      · simp only [Channel.unsentBytes, hsub]
        omega
      · simp only [hsub]
        omega
    · simp only [if_neg hdone]
      refine ⟨⟨_, ?_, rfl⟩, ⟨?_, ?_⟩, rfl, rfl, rfl, rfl, rfl, rfl, rfl⟩
      · simp only [Channel.unsent, hout, List.flatMap_cons]
        rw [← List.append_assoc, ← hunsent]
      · simp only [Channel.unsentBytes, hsub, List.map_cons, List.sum_cons]
        omega
      · simp only [hsub]
        omega

theorem writeTurns_spec {plan : List Outcome} (hplan : ∀ o ∈ plan, o.Reliable) (budget : Nat)
    {c : Call} (hacc : Accounted c.channel) : Writes c (Call.writeTurns plan budget c) := by
  induction plan generalizing budget c with
  | nil => exact .refl hacc
  | cons outcome plan ih =>
    unfold Call.writeTurns
    split
    · exact .refl hacc
    · rename_i frame rest hout
      split
      · exact .refl hacc
      · have hturn := writeTurn_spec hacc hout budget (hplan outcome (by simp))
        split
        · rename_i c' heq
          rw [heq] at hturn
          exact hturn
        · rename_i budget' c' heq
          rw [heq] at hturn
          exact hturn.trans (ih (fun o ho => hplan o (by simp [ho])) budget' hturn.accounted)

theorem Writes.reading {c c' : Call} (h : Writes c c') (hread : Reading c.channel) :
    Reading c'.channel :=
  ⟨by rw [h.header]; exact hread.header, by rw [h.header, h.incoming]; exact hread.frame⟩

/-- A channel that works: open, and nothing has failed or ended. -/
structure Working (channel : Channel) : Prop where
  isOpen : channel.isOpen = true
  failure : channel.failure = none
  writeFailure : channel.writeFailure = none
  eof : channel.eof = false
  reading : Reading channel
  accounted : Accounted channel

/-- `progress` reads and then writes; it returns 0 unless it meets a bad length. -/
theorem progress_spec {plan : List Outcome} (hplan : ∀ o ∈ plan, o.Reliable) {c : Call}
    (h : Working c.channel) :
    ∃ mid, Reads c mid ∧ Writes mid (Call.progress plan c).2 ∧
      (((Call.progress plan c).1 = none ∧ Working (Call.progress plan c).2.channel) ∨
        Rejecting (Call.progress plan c).2.channel) := by
  have hpending : c.readPending plan = Call.readTurns 8 plan c := by
    simp only [Call.readPending, h.eof, if_neg Bool.false_ne_true]
  have hfail : ¬ c.channel.failure ≠ none := by simp [h.failure]
  have hopen : ¬ c.channel.isOpen = false := by simp [h.isOpen]
  obtain ⟨hreads, hstatus, hrest⟩ := readTurns_spec 8 hplan h.reading h.failure
  rcases hturns : Call.readTurns 8 plan c with ⟨status, left, mid⟩
  rw [hturns] at hreads hstatus hrest
  simp only at hreads hstatus hrest
  have hacc : Accounted mid.channel := by
    unfold Accounted Channel.unsentBytes
    rw [hreads.outBytes, hreads.out]
    exact h.accounted
  refine ⟨mid, hreads, ?_⟩
  simp only [Call.progress, if_neg hopen, if_neg hfail, hpending, hturns]
  rcases hstatus with ⟨rfl, hfail', hread'⟩ | ⟨rfl, hrej⟩
  · have heof : mid.channel.eof = false := hreads.eof.trans h.eof
    have hwf : mid.channel.writeFailure = none := hreads.writeFailure.trans h.writeFailure
    have hwrites := writeTurns_spec hrest (256 * 1024) hacc
    simp only [heof, hwf, Bool.false_eq_true, false_and, if_false, not_false_eq_true, and_self,
      if_true]
    exact ⟨hwrites, .inl ⟨trivial, hwrites.isOpen.trans (hreads.isOpen.trans h.isOpen),
      hwrites.failure.trans hfail', hwrites.writeFailure.trans hwf, hwrites.eof.trans heof,
      hwrites.reading hread', hwrites.accounted⟩⟩
  · exact ⟨.refl hacc, .inr hrej⟩

/-! ## The link -/

inductive Side where
  | first
  | second
  deriving DecidableEq, Repr

def Side.other : Side → Side
  | .first => .second
  | .second => .first

/-- One end, with the record of what it has accepted and taken. -/
structure End where
  channel : Channel
  received : List Byte
  sent : List Byte
  accepted : List Frame
  taken : List Frame
  /-- `recv` has answered 0. -/
  ended : Bool := false

namespace End

def new : End where
  channel := .new
  received := []
  sent := []
  accepted := []
  taken := []

/-- A call of one end: what the peer has sent and this end not received has arrived. -/
def call (near peer : End) : Call where
  channel := near.channel
  arrived := peer.sent.drop near.received.length
  received := near.received
  sent := near.sent
  ended := near.ended

def after (near : End) (c : Call) : End :=
  { near with channel := c.channel, received := c.received, sent := c.sent, ended := c.ended }

/-- A frame is accepted when `send` returns 0. -/
def send (frame : Frame) (memory : Bool) (plan : List Outcome) (near peer : End) : End :=
  let answer := (near.call peer).send frame memory plan
  if answer.1 = none then
    { near.after answer.2 with accepted := near.accepted ++ [frame] }
  else near.after answer.2

def progress (plan : List Outcome) (near peer : End) : End :=
  near.after ((near.call peer).progress plan).2

/-- `message`, and `consume` when there is one. -/
def take (near : End) : End :=
  match near.channel.message with
  | none => near
  | some frame =>
    { near with channel := near.channel.consume, taken := near.taken ++ [frame] }

end End

abbrev Link := Side → End

/-- What a working socket does in one system call. -/
inductive Transfer where
  | moved (count : Nat)
  | interrupted
  | again

def Transfer.outcome : Transfer → Outcome
  | .moved count => .moved count true
  | .interrupted => .interrupted
  | .again => .again

theorem Transfer.reliable (plan : List Transfer) : ∀ o ∈ plan.map Transfer.outcome, o.Reliable := by
  intro o ho
  obtain ⟨transfer, -, rfl⟩ := List.mem_map.mp ho
  cases transfer with
  | moved count => rfl
  | interrupted => trivial
  | again => trivial

inductive LinkLabel where
  | send (side : Side) (frame : Frame) (memory : Bool) (plan : List Transfer)
  | progress (side : Side) (plan : List Transfer)
  | take (side : Side)

namespace Link

def new : Link := fun _ => .new

def step (link : Link) : LinkLabel → Link
  | .send side frame memory plan =>
    Function.update link side
      (End.send frame memory (plan.map Transfer.outcome) (link side) (link side.other))
  | .progress side plan =>
    Function.update link side
      (End.progress (plan.map Transfer.outcome) (link side) (link side.other))
  | .take side => Function.update link side (link side).take

end Link

/-! ## The invariant -/

/-- One end, over the stream that `peer` writes. -/
structure Sound (near peer : End) : Prop where
  working : Working near.channel
  fits : ∀ frame ∈ near.accepted, frame.Fits
  written : near.accepted.flatMap Frame.bytes = near.sent ++ near.channel.unsent
  takenFits : ∀ frame ∈ near.taken, frame.Fits
  read : near.received = near.taken.flatMap Frame.bytes ++ near.channel.underway
  stream : near.received <+: peer.sent

/-- What one end receives stays what the other has sent when that sends more. -/
theorem Sound.grow {near peer peer' : End} (h : Sound near peer) (hgrow : peer.sent <+: peer'.sent) :
    Sound near peer' :=
  ⟨h.working, h.fits, h.written, h.takenFits, h.read, h.stream.trans hgrow⟩

/-- The frames taken and the bytes under way stand at the start of the frames accepted. -/
theorem Sound.later {near peer : End} (hpeer : Sound peer near) {taken : List Frame}
    {underway : List Byte} (htaken : ∀ frame ∈ taken, frame.Fits)
    (hstream : taken.flatMap Frame.bytes ++ underway <+: peer.sent) :
    ∃ later, peer.accepted = taken ++ later ∧ underway <+: later.flatMap Frame.bytes := by
  obtain ⟨rest, hrest⟩ := hstream
  have hall : taken.flatMap Frame.bytes ++ (underway ++ (rest ++ peer.channel.unsent)) =
      peer.accepted.flatMap Frame.bytes := by
    rw [hpeer.written, ← hrest]
    simp only [List.append_assoc]
  obtain ⟨later, hlater, heq⟩ := frames_unique selfDelimiting_bytes htaken hpeer.fits hall
  exact ⟨later, hlater, heq ▸ List.prefix_append _ _⟩

/-- A header that stands in front of an accepted frame has a good length. -/
theorem Sound.not_rejecting {near peer : End} (hpeer : Sound peer near) {taken : List Frame}
    {channel : Channel} (htaken : ∀ frame ∈ taken, frame.Fits)
    (hstream : taken.flatMap Frame.bytes ++ channel.underway <+: peer.sent) :
    ¬ Rejecting channel := by
  intro hrej
  obtain ⟨later, hlater, hstart⟩ := hpeer.later htaken hstream
  have hund : channel.underway = channel.header := by
    simp only [Channel.underway, hrej.incoming]
  rw [hund] at hstart
  cases later with
  | nil =>
    have := hrej.header
    simp only [List.flatMap_nil, List.prefix_nil] at hstart
    rw [hstart] at this
    cases this
  | cons frame later =>
    have hfits : frame.Fits := hpeer.fits frame (by rw [hlater]; simp)
    have hhead : channel.header = headerBytes (frame.payload.length + 1) := by
      rw [List.flatMap_cons, Frame.bytes_eq hfits, List.append_assoc] at hstart
      have := List.prefix_iff_eq_take.mp hstart
      rwa [hrej.header, List.take_left' (headerBytes_length _)] at this
    have hlength := hrej.length
    unfold Frame.Fits at hfits
    rw [hhead, headerLength_headerBytes (by unfold frameLimit at hfits; omega)] at hlength
    omega

theorem Sound.progress {near peer : End} (h : Sound near peer) (hpeer : Sound peer near)
    {plan : List Outcome} (hplan : ∀ o ∈ plan, o.Reliable) :
    ((near.call peer).progress plan).1 = none ∧ Sound (End.progress plan near peer) peer ∧
      near.sent <+: (End.progress plan near peer).sent := by
  obtain ⟨mid, hreads, hwrites, hstatus⟩ :=
    progress_spec (c := near.call peer) hplan h.working
  obtain ⟨data, harrived, hreceived, hunderway⟩ := hreads.moved
  obtain ⟨out, hunsent, hsent⟩ := hwrites.moved
  have hund : ((near.call peer).progress plan).2.channel.underway =
      near.channel.underway ++ data := by
    refine Eq.trans ?_ hunderway
    simp only [Channel.underway, hwrites.incoming, hwrites.header]
  have hrec : (End.progress plan near peer).received = near.received ++ data :=
    hwrites.received.trans hreceived
  have hstream : (End.progress plan near peer).received <+: peer.sent := by
    obtain ⟨rest, hrest⟩ := h.stream
    rw [hrec, ← hrest, List.prefix_append_right_inj]
    have : (near.call peer).arrived = rest := by
      show peer.sent.drop near.received.length = rest
      rw [← hrest, List.drop_left]
    rw [← this, harrived]
    exact List.prefix_append _ _
  have hread : (End.progress plan near peer).received =
      near.taken.flatMap Frame.bytes ++ ((near.call peer).progress plan).2.channel.underway := by
    rw [hrec, h.read, hund, List.append_assoc]
  have hsent' : (End.progress plan near peer).sent = near.sent ++ out := by
    refine hsent.trans ?_
    rw [hreads.sent]
    rfl
  have huns : near.channel.unsent =
      out ++ ((near.call peer).progress plan).2.channel.unsent := by
    rw [← hunsent, Channel.unsent, Channel.unsent, hreads.out]
    rfl
  have hgood := hpeer.not_rejecting h.takenFits (hread ▸ hstream)
  rcases hstatus with ⟨hnone, hworking⟩ | hrej
  · refine ⟨hnone, ⟨hworking, h.fits, ?_, h.takenFits, hread, hstream⟩, ?_⟩
    · rw [hsent', List.append_assoc]
      exact h.written.trans (congrArg _ huns)
    · rw [hsent']
      exact List.prefix_append _ _
  · exact absurd hrej hgood

theorem refusal_none {channel : Channel} {frame : Frame} {memory : Bool}
    (h : channel.refusal frame memory = none) :
    frame.Fits ∧
      sizeAdd frame.payload.length 5 ≤ sizeSub queueLimit channel.outBytes := by
  unfold Channel.refusal at h
  split_ifs at h with _ _ _ hlength hsize hmemory
  · contradiction
  · contradiction
  · exact ⟨Nat.lt_of_not_le hlength, Nat.le_of_not_lt hsize⟩

/-- The end with an accepted frame at the end of its queue. -/
def End.queued (near : End) (frame : Frame) : End :=
  { near with channel := near.channel.enqueue frame, accepted := near.accepted ++ [frame] }

theorem Sound.queued {near peer : End} (h : Sound near peer) {frame : Frame} {memory : Bool}
    (haccepted : near.channel.refusal frame memory = none) : Sound (near.queued frame) peer := by
  obtain ⟨hfits, hsize⟩ := refusal_none haccepted
  obtain ⟨hbytes, hlimit⟩ := h.working.accounted
  have hlength : frame.payload.length < frameLimit := hfits
  unfold frameLimit at hlength
  have hq := hlimit
  unfold queueLimit at hq
  rw [sizeAdd_eq (by unfold sizeModulus; omega),
    sizeSub_eq hlimit (by unfold sizeModulus queueLimit; omega)] at hsize
  have hcount : (near.channel.enqueue frame).outBytes =
      near.channel.outBytes + (frame.payload.length + 5) := by
    rw [Channel.enqueue, sizeAdd_eq (a := frame.payload.length) (by unfold sizeModulus; omega),
      sizeAdd_eq (by unfold sizeModulus; omega)]
  have hsum : (near.channel.enqueue frame).unsentBytes =
      near.channel.unsentBytes + (frame.payload.length + 5) := by
    simp only [Channel.unsentBytes, Channel.enqueue, List.map_append, List.sum_append, List.map_cons,
      List.map_nil, List.sum_cons, List.sum_nil, Outgoing.remaining, frame.bytes_length]
    omega
  have hunsent : (near.channel.enqueue frame).unsent = near.channel.unsent ++ frame.bytes := by
    simp [Channel.unsent, Channel.enqueue, Outgoing.unsent]
  refine ⟨⟨h.working.isOpen, h.working.failure, h.working.writeFailure, h.working.eof,
    ⟨h.working.reading.header, h.working.reading.frame⟩, ?_, ?_⟩, ?_, ?_, h.takenFits, h.read,
    h.stream⟩
  · show (near.channel.enqueue frame).outBytes = (near.channel.enqueue frame).unsentBytes
    omega
  · show (near.channel.enqueue frame).outBytes ≤ queueLimit
    omega
  · intro f hf
    rcases List.mem_append.mp hf with hf | hf
    · exact h.fits f hf
    · rw [List.mem_singleton.mp hf]
      exact hfits
  · show (near.accepted ++ [frame]).flatMap Frame.bytes =
      near.sent ++ (near.channel.enqueue frame).unsent
    rw [hunsent, List.flatMap_append, h.written, List.append_assoc]
    simp

theorem Sound.send {near peer : End} (h : Sound near peer) (hpeer : Sound peer near)
    (frame : Frame) (memory : Bool) {plan : List Outcome} (hplan : ∀ o ∈ plan, o.Reliable) :
    Sound (End.send frame memory plan near peer) peer ∧
      near.sent <+: (End.send frame memory plan near peer).sent := by
  cases hrefusal : near.channel.refusal frame memory with
  | some status =>
    have hcall : (near.call peer).send frame memory plan = (some status, near.call peer) := by
      unfold Call.send
      rw [show (near.call peer).channel.refusal frame memory = some status from hrefusal]
    have hend : End.send frame memory plan near peer = near := by
      simp only [End.send, hcall]
      rfl
    rw [hend]
    exact ⟨h, List.prefix_refl _⟩
  | none =>
    obtain ⟨hstatus, hsound, hsent⟩ := (h.queued hrefusal).progress
      (hpeer.grow (List.prefix_refl near.sent)) hplan
    have hcall : (near.call peer).send frame memory plan =
        (none, (((near.queued frame).call peer).progress plan).2) := by
      have hwf := hsound.working.writeFailure
      have haccepts : (near.call peer).channel.refusal frame memory = none := hrefusal
      rcases hprogress : ((near.queued frame).call peer).progress plan with ⟨status, c⟩
      have hcalled : Call.progress plan { near.call peer with
          channel := (near.call peer).channel.enqueue frame } = (status, c) := hprogress
      rw [End.progress, hprogress] at hwf
      rw [hprogress] at hstatus
      obtain rfl : status = none := hstatus
      simp only [End.after] at hwf
      simp only [Call.send, haccepts, hcalled, hwf]
    have hend : End.send frame memory plan near peer =
        End.progress plan (near.queued frame) peer := by
      simp only [End.send, hcall]
      rfl
    rw [hend]
    exact ⟨hsound, hsent⟩

/-- A complete frame is under way with its header in front of it. -/
theorem underway_of_message {channel : Channel} (h : Working channel) {frame : Frame}
    (hmessage : channel.message = some frame) :
    frame.Fits ∧ channel.underway = frame.bytes := by
  unfold Channel.message at hmessage
  split at hmessage
  · rename_i incoming hincoming
    split at hmessage
    · rename_i hcomplete
      obtain ⟨-, hpos, hlimit⟩ := h.reading.frame incoming hincoming
      have hlength : incoming.bytes.length = incoming.length := by
        simpa [Incoming.complete] using hcomplete
      obtain rfl := Option.some.inj hmessage
      cases hbytes : incoming.bytes with
      | nil =>
        rw [hbytes, List.length_nil] at hlength
        omega
      | cons kind payload =>
        rw [hbytes, List.length_cons] at hlength
        have hfits : Frame.Fits ⟨kind, payload⟩ := by
          show payload.length < frameLimit
          omega
        refine ⟨hfits, ?_⟩
        simp only [Channel.underway, hincoming, hbytes, List.headD_cons, List.tail_cons]
        rw [Frame.bytes_eq hfits, hlength]
    · cases hmessage
  · cases hmessage

theorem Sound.take {near peer : End} (h : Sound near peer) : Sound near.take peer := by
  unfold End.take
  split
  · exact h
  · rename_i frame hmessage
    obtain ⟨hfits, hunderway⟩ := underway_of_message h.working hmessage
    have hheader : near.channel.header = [] := by
      unfold Channel.message at hmessage
      split at hmessage
      · rename_i incoming hincoming
        exact (h.working.reading.frame incoming hincoming).1
      · cases hmessage
    refine ⟨⟨h.working.isOpen, h.working.failure, h.working.writeFailure, h.working.eof,
      ⟨h.working.reading.header, fun f hf => by cases hf⟩, h.working.accounted⟩, h.fits, h.written,
      ?_, ?_, h.stream⟩
    · intro f hf
      rcases List.mem_append.mp hf with hf | hf
      · exact h.takenFits f hf
      · rw [List.mem_singleton.mp hf]
        exact hfits
    · show near.received = (near.taken ++ [frame]).flatMap Frame.bytes ++ near.channel.header
      rw [h.read, hunderway, hheader]
      simp

theorem End.take_sent (near : End) : near.take.sent = near.sent := by
  unfold take
  split <;> rfl

theorem Side.other_ne (side : Side) : side.other ≠ side := by
  cases side <;> decide

theorem Side.other_other (side : Side) : side.other.other = side := by
  cases side <;> rfl

namespace Link

/-- Both ends are sound. -/
def AllSound (link : Link) : Prop := ∀ side : Side, Sound (link side) (link side.other)

theorem new_allSound : new.AllSound := by
  intro side
  refine ⟨⟨rfl, rfl, rfl, rfl, ⟨?_, ?_⟩, rfl, ?_⟩, ?_, rfl, ?_, rfl, List.prefix_refl _⟩
  · exact Nat.zero_lt_succ 3
  · intro frame hframe
    cases hframe
  · exact Nat.zero_le _
  · intro frame hframe
    cases hframe
  · intro frame hframe
    cases hframe

/-- An end may be replaced by a sound one that has sent as much. -/
theorem AllSound.update {link : Link} (h : link.AllSound) {side : Side} {near : End}
    (hnear : Sound near (link side.other)) (hgrow : (link side).sent <+: near.sent) :
    AllSound (Function.update link side near) := by
  intro s
  by_cases hs : s = side
  · subst hs
    rw [Function.update_self, Function.update_of_ne s.other_ne]
    exact hnear
  · have hother : s.other = side := by
      cases s <;> cases side <;> first | rfl | exact absurd rfl hs
    rw [Function.update_of_ne hs, hother, Function.update_self]
    have hsound := h s
    rw [hother] at hsound
    exact hsound.grow hgrow

theorem AllSound.step {link : Link} (h : link.AllSound) (l : LinkLabel) :
    (link.step l).AllSound := by
  cases l with
  | send side frame memory plan =>
    have hpeer := h side.other
    rw [side.other_other] at hpeer
    obtain ⟨hsound, hsent⟩ := (h side).send hpeer frame memory (Transfer.reliable plan)
    exact h.update hsound hsent
  | progress side plan =>
    have hpeer := h side.other
    rw [side.other_other] at hpeer
    obtain ⟨-, hsound, hsent⟩ := (h side).progress hpeer (Transfer.reliable plan)
    exact h.update hsound hsent
  | take side =>
    exact h.update (h side).take ((link side).take_sent ▸ List.prefix_refl _)

/-- **Frames arrive as they were accepted.** In every state of every run the frames taken at one
end are the first that the other end accepted; every length a sender accepts is one a receiver
accepts, and no end ever fails; the counter of the queue is the number of its unsent bytes. -/
theorem taken_prefix_accepted (ls : List LinkLabel) (side : Side) :
    let link := run step new ls
    (link side).taken <+: (link side.other).accepted ∧
    (∀ (channel : Channel) (frame : Frame) (memory : Bool),
      channel.refusal frame memory = none →
        ¬ (headerLength (frame.bytes.take 4) = 0 ∨
          headerLength (frame.bytes.take 4) > frameLimit)) ∧
    (link side).channel.failure = none ∧
    (link side).channel.writeFailure = none ∧
    (link side).channel.outBytes = ((link side).channel.out.map Outgoing.remaining).sum ∧
    (link side).channel.outBytes ≤ queueLimit := by
  intro link
  have hall : AllSound link := run_preserves (P := AllSound) (fun _ l h => h.step l) new_allSound ls
  have hsound := hall side
  have hpeer := hall side.other
  rw [side.other_other] at hpeer
  refine ⟨?_, fun channel frame memory h => ?_, hsound.working.failure,
    hsound.working.writeFailure, hsound.working.accounted.1, hsound.working.accounted.2⟩
  · obtain ⟨later, hlater, -⟩ := hpeer.later hsound.takenFits (hsound.read ▸ hsound.stream)
    exact ⟨later, hlater.symm⟩
  · have hfits := (refusal_none h).1
    rw [Frame.headerLength_bytes hfits]
    unfold Frame.Fits at hfits
    omega

end Link

end TsonicNode.Worker
