import TsonicNode.Net.Transport
import Mathlib.Algebra.BigOperators.Group.List.Basic
import Mathlib.Algebra.Order.Ring.Int

/-!
# The write queue of a socket

What stands at and behind `writeIndex` is live: chunks of which something is
still to be sent. `queuedBytes` counts that rest, and what was sent followed by
the rest is what was written, until the socket is destroyed. `Flushed` says this
of one `flush`, `Tidy` of a socket with its history; `System.write_queue` holds
of every run.

A peer that ends its side makes a socket that does not allow half-open
connections end its own, so the writing side is shut down without a call of
`end` there (`System.shut_down_by_peer`).
-/

namespace TsonicNode.Net

open TsonicNode.Lib

/-- The entries that are still to be sent. -/
def live (s : SocketState) : List (Option WriteChunk) := s.writes.drop s.writeIndex

/-- Length minus offset of an entry. -/
def remaining : Option WriteChunk → Int
  | some chunk => (chunk.bytes.length : Int) - chunk.offset
  | none => 0

def pending : Option WriteChunk → List UInt8
  | some chunk => chunk.bytes.drop chunk.offset
  | none => []

/-- The bytes that are still to be sent. -/
def unsent (s : SocketState) : List UInt8 := (live s).flatMap pending

/-- Something of this entry is still to be sent. -/
def Unfinished (e : Option WriteChunk) : Prop := ∃ chunk, e = some chunk ∧ chunk.offset < chunk.bytes.length

structure Queued (writes : List (Option WriteChunk)) (writeIndex : Nat) (queuedBytes : Int) :
    Prop where
  index_le : writeIndex ≤ writes.length
  unfinished : ∀ e ∈ writes.drop writeIndex, Unfinished e
  queued : queuedBytes = ((writes.drop writeIndex).map remaining).sum

abbrev SocketState.Queued (s : SocketState) : Prop := Net.Queued s.writes s.writeIndex s.queuedBytes

theorem Queued.empty : Queued [] 0 0 := ⟨Nat.le_refl _, by simp, by simp⟩

theorem length_pending {e : Option WriteChunk} (h : Unfinished e) :
    ((pending e).length : Int) = remaining e := by
  obtain ⟨chunk, rfl, hlt⟩ := h
  simp only [pending, remaining, List.length_drop]
  omega

theorem length_flatMap_pending {es : List (Option WriteChunk)} (h : ∀ e ∈ es, Unfinished e) :
    ((es.flatMap pending).length : Int) = (es.map remaining).sum := by
  induction es with
  | nil => rfl
  | cons e es ih =>
    rw [List.flatMap_cons, List.length_append, List.map_cons, List.sum_cons, Int.natCast_add,
      length_pending (h e List.mem_cons_self), ih fun e he => h e (List.mem_cons_of_mem _ he)]

theorem length_unsent {s : SocketState} (h : s.Queued) : ((unsent s).length : Int) = s.queuedBytes :=
  (length_flatMap_pending h.unfinished).trans h.queued.symm

/-- Nothing is queued only if everything is sent. -/
theorem unsent_eq_nil {s : SocketState} (h : s.Queued) (hq : s.queuedBytes = 0) : unsent s = [] := by
  have := length_unsent h
  apply List.eq_nil_of_length_eq_zero
  omega

/-! ## One send -/

section
variable {writes : List (Option WriteChunk)} {i : Nat} {e : Option WriteChunk}

theorem drop_set_succ : (writes.set i e).drop (i + 1) = writes.drop (i + 1) :=
  List.drop_set_of_lt (Nat.lt_succ_self i)

theorem drop_set_self (h : i < writes.length) :
    (writes.set i e).drop i = e :: writes.drop (i + 1) := by
  rw [List.drop_eq_getElem_cons (by simpa using h), drop_set_succ]
  simp

theorem drop_of_getElem? (h : writes[i]? = some e) : writes.drop i = e :: writes.drop (i + 1) := by
  obtain ⟨hlt, rfl⟩ := List.getElem?_eq_some_iff.mp h
  exact List.drop_eq_getElem_cons hlt

end

/-- What stays as it is while bytes are sent. -/
structure Kept (s t : SocketState) : Prop where
  connected : t.connected = s.connected
  started : t.started = s.started
  allowHalfOpen : t.allowHalfOpen = s.allowHalfOpen
  readEnded : t.readEnded = s.readEnded
  endPending : t.endPending = s.endPending
  writeEnding : t.writeEnding = s.writeEnding
  aborted : t.aborted = s.aborted

/-- What also stays as it is as long as the writing side is not shut down. -/
structure Unshut (s t : SocketState) : Prop where
  shutdowns : t.endpoint.shutdowns = s.endpoint.shutdowns
  writeEnded : t.writeEnded = s.writeEnded
  finishPending : t.finishPending = s.finishPending

/-- Some front of what was to be sent is sent, and the rest is still to be sent unless the socket
is destroyed. -/
def Sent (s t : SocketState) : Prop :=
  ∃ front back, unsent s = front ++ back ∧ t.endpoint.sent = s.endpoint.sent ++ front ∧
    (t.destroyed = false → unsent t = back)

structure Sending (s t : SocketState) : Prop where
  kept : Kept s t
  unshut : Unshut s t
  sent : Sent s t
  queued : t.Queued

theorem Kept.refl (s : SocketState) : Kept s s := ⟨rfl, rfl, rfl, rfl, rfl, rfl, rfl⟩

theorem Kept.trans {a b c : SocketState} (h : Kept a b) (h' : Kept b c) : Kept a c :=
  ⟨h'.1.trans h.1, h'.2.trans h.2, h'.3.trans h.3, h'.4.trans h.4, h'.5.trans h.5,
    h'.6.trans h.6, h'.7.trans h.7⟩

theorem Unshut.trans {a b c : SocketState} (h : Unshut a b) (h' : Unshut b c) : Unshut a c :=
  ⟨h'.1.trans h.1, h'.2.trans h.2, h'.3.trans h.3⟩

theorem Sent.refl (s : SocketState) : Sent s s := ⟨[], unsent s, rfl, by simp, fun _ => rfl⟩

theorem Sent.trans {a b c : SocketState} (h : Sent a b) (hb : b.destroyed = false)
    (h' : Sent b c) : Sent a c := by
  obtain ⟨front, back, ha, hs, hback⟩ := h
  obtain ⟨front', back', hb', hs', hback'⟩ := h'
  refine ⟨front ++ front', back', ?_, ?_, hback'⟩
  · rw [ha, ← hback hb, hb', List.append_assoc]
  · rw [hs', hs, List.append_assoc]

theorem Sending.refl {s : SocketState} (h : s.Queued) : Sending s s :=
  ⟨.refl s, ⟨rfl, rfl, rfl⟩, .refl s, h⟩

theorem Sending.trans {a b c : SocketState} (h : Sending a b) (hb : b.destroyed = false)
    (h' : Sending b c) : Sending a c :=
  ⟨h.kept.trans h'.kept, h.unshut.trans h'.unshut, h.sent.trans hb h'.sent, h'.queued⟩

/-- Destroying a socket empties its queue and sends nothing. -/
theorem destroy_sending {s : SocketState} (h : s.Queued) : Sending s (destroy s) := by
  unfold destroy
  split
  · exact .refl h
  · exact ⟨⟨rfl, rfl, rfl, rfl, rfl, rfl, rfl⟩, ⟨rfl, rfl, rfl⟩,
      ⟨[], unsent s, rfl, by simp, fun hd => by cases hd⟩, .empty⟩

theorem fail_sending {s : SocketState} (error : String) (h : s.Queued) : Sending s (fail error s) := by
  have hd := destroy_sending (s := { s with error := s.error.or (some error), hadError := true }) h
  exact ⟨⟨hd.1.1, hd.1.2, hd.1.3, hd.1.4, hd.1.5, hd.1.6, hd.1.7⟩, ⟨hd.2.1, hd.2.2, hd.2.3⟩,
    hd.sent, hd.queued⟩

theorem advance_sending {s : SocketState} {chunk : WriteChunk} (h : s.Queued)
    (hhead : s.writes[s.writeIndex]? = some (some chunk)) (count : Nat)
    (hcount : count ≤ chunk.bytes.length - chunk.offset) : Sending s (advance chunk count s) := by
  have hlive := drop_of_getElem? hhead
  have hlt : s.writeIndex < s.writes.length := (List.getElem?_eq_some_iff.mp hhead).1
  have hrest : ∀ e ∈ s.writes.drop (s.writeIndex + 1), Unfinished e := fun e he =>
    h.unfinished e (by rw [hlive]; exact List.mem_cons_of_mem _ he)
  have hchunk : chunk.offset < chunk.bytes.length := by
    obtain ⟨c, hc, hlt⟩ := h.unfinished (some chunk) (by rw [hlive]; exact List.mem_cons_self)
    cases hc
    exact hlt
  have hsum : s.queuedBytes =
      (chunk.bytes.length : Int) - chunk.offset + ((s.writes.drop (s.writeIndex + 1)).map remaining).sum := by
    rw [h.queued, hlive]
    rfl
  -- what was to be sent: the bytes of this send, the rest of the chunk, the other chunks
  have hunsent : unsent s = (chunk.bytes.drop chunk.offset).take count ++
      (chunk.bytes.drop (chunk.offset + count) ++ (s.writes.drop (s.writeIndex + 1)).flatMap pending) := by
    have hbytes : chunk.bytes.drop chunk.offset = (chunk.bytes.drop chunk.offset).take count ++
        chunk.bytes.drop (chunk.offset + count) := by
      rw [← List.drop_drop, List.take_append_drop]
    unfold unsent live
    rw [hlive, List.flatMap_cons, ← List.append_assoc, ← hbytes]
    rfl
  unfold advance
  dsimp only [activity]
  split
  case isTrue hdone =>
    have hdrop : ((s.writes.set s.writeIndex (some { chunk with offset := chunk.offset + count })).set
        s.writeIndex none).drop (s.writeIndex + 1) = s.writes.drop (s.writeIndex + 1) := by
      rw [drop_set_succ, drop_set_succ]
    refine ⟨⟨rfl, rfl, rfl, rfl, rfl, rfl, rfl⟩, ⟨rfl, rfl, rfl⟩, ⟨_, _, hunsent, rfl, fun _ => ?_⟩,
      ⟨?_, ?_, ?_⟩⟩
    · show List.flatMap pending (List.drop _ _) = _
      rw [hdrop, List.drop_eq_nil_of_le (Nat.le_of_eq hdone.symm), List.nil_append]
    · simpa using Nat.succ_le_of_lt hlt
    · show ∀ e ∈ List.drop _ _, _
      rw [hdrop]
      exact hrest
    · show s.queuedBytes - count = ((List.drop _ _).map remaining).sum
      rw [hdrop, hsum]
      omega
  case isFalse hmore =>
    have hdrop := drop_set_self (e := some { chunk with offset := chunk.offset + count }) hlt
    refine ⟨⟨rfl, rfl, rfl, rfl, rfl, rfl, rfl⟩, ⟨rfl, rfl, rfl⟩, ⟨_, _, hunsent, rfl, fun _ => ?_⟩,
      ⟨?_, ?_, ?_⟩⟩
    · show List.flatMap pending (List.drop _ _) = _
      rw [hdrop]
      rfl
    · simpa using Nat.le_of_lt hlt
    · show ∀ e ∈ List.drop _ _, _
      rw [hdrop]
      intro e he
      obtain rfl | he := List.mem_cons.mp he
      · refine ⟨_, rfl, ?_⟩
        show chunk.offset + count < chunk.bytes.length
        omega
      · exact hrest e he
    · show s.queuedBytes - count = ((List.drop _ _).map remaining).sum
      rw [hdrop, hsum, List.map_cons, List.sum_cons]
      simp only [remaining]
      omega

/-! ## A flush -/

/-- The head of the queue is a chunk of which something is still to be sent. -/
theorem head_chunk {s : SocketState} (h : s.Queued) (hlt : s.writeIndex < s.writes.length) :
    ∃ chunk, s.writes[s.writeIndex]? = some (some chunk) ∧ chunk.offset < chunk.bytes.length := by
  obtain ⟨chunk, hchunk, hoffset⟩ := h.unfinished s.writes[s.writeIndex]
    (by rw [List.drop_eq_getElem_cons hlt]; exact List.mem_cons_self)
  refine ⟨chunk, ?_, hoffset⟩
  rw [List.getElem?_eq_getElem hlt, hchunk]

/-- Behind its end the loop leaves a socket that is not destroyed. -/
structure Looped (s : SocketState) (loop : SendLoop) : Prop where
  sending : Sending s loop.state
  behind : loop.returned = false → loop.state.destroyed = false

theorem advance_destroyed (chunk : WriteChunk) (count : Nat) (s : SocketState) :
    (advance chunk count s).destroyed = s.destroyed := by
  unfold advance
  dsimp only [activity]
  split <;> rfl

theorem sendLoop_looped (answers : List SendAnswer) (budget : Nat) (progressed : Bool)
    {s : SocketState} (h : s.Queued) (hd : s.destroyed = false) :
    Looped s (sendLoop answers budget progressed s) := by
  induction answers generalizing budget progressed s with
  | nil =>
    unfold sendLoop
    split
    case isTrue hlt =>
      obtain ⟨chunk, hhead, -⟩ := head_chunk h hlt.1
      rw [hhead]
      exact ⟨.refl h, fun hr => by cases hr⟩
    case isFalse => exact ⟨.refl h, fun _ => hd⟩
  | cons answer answers ih =>
    unfold sendLoop
    split
    case isTrue hlt =>
      obtain ⟨chunk, hhead, -⟩ := head_chunk h hlt.1
      rw [hhead]
      cases answer with
      | blocked => exact ⟨.refl h, fun hr => by cases hr⟩
      | failed error => exact ⟨fail_sending error h, fun hr => by cases hr⟩
      | accepted count =>
        dsimp only
        split
        · exact ⟨fail_sending _ h, fun hr => by cases hr⟩
        · have hsend := advance_sending h hhead
            (min count (min budget (chunk.bytes.length - chunk.offset))) (by omega)
          have hd' := (advance_destroyed chunk
            (min count (min budget (chunk.bytes.length - chunk.offset))) s).trans hd
          obtain ⟨hrest, hbehind⟩ := ih (budget - min count (min budget (chunk.bytes.length - chunk.offset)))
            true hsend.queued hd'
          exact ⟨hsend.trans hd' hrest, hbehind⟩
    case isFalse => exact ⟨.refl h, fun _ => hd⟩

/-- Compaction changes neither what is to be sent nor how it is counted. -/
theorem live_compact (s : SocketState) : live (compact s) = live s := by
  unfold compact
  split
  case isTrue h =>
    show List.drop 0 [] = s.writes.drop s.writeIndex
    rw [h, List.drop_length, List.drop_nil]
  case isFalse h =>
    split
    · rfl
    · rfl

theorem compact_same (s : SocketState) :
    (compact s).endpoint = s.endpoint ∧ (compact s).queuedBytes = s.queuedBytes := by
  unfold compact
  split
  · exact ⟨rfl, rfl⟩
  · split <;> exact ⟨rfl, rfl⟩

/-- No entry that compaction takes is empty. -/
theorem compact_sending {s : SocketState} (h : s.Queued) : Sending s (compact s) := by
  have hlive := live_compact s
  have hunsent : unsent (compact s) = unsent s := by rw [unsent, hlive]; rfl
  have hqueued : (compact s).Queued := by
    refine ⟨?_, ?_, ?_⟩
    · unfold compact
      split
      · exact Nat.le_refl 0
      · split
        · exact Nat.zero_le _
        · exact h.index_le
    · show ∀ e ∈ live (compact s), _
      rw [hlive]
      exact h.unfinished
    · show (compact s).queuedBytes = ((live (compact s)).map remaining).sum
      rw [hlive, (compact_same s).2]
      exact h.queued
  have hnone : (s.writes.drop s.writeIndex).any (·.isNone) = false := by
    rw [List.any_eq_false]
    intro e he
    obtain ⟨chunk, rfl, -⟩ := h.unfinished e he
    simp
  refine ⟨?_, ?_, ⟨[], unsent s, rfl, by rw [(compact_same s).1, List.append_nil], fun _ => hunsent⟩,
    hqueued⟩
  · unfold compact
    split
    · exact ⟨rfl, rfl, rfl, rfl, rfl, rfl, rfl⟩
    · split
      · exact ⟨rfl, rfl, rfl, rfl, rfl, rfl, by simp [hnone]⟩
      · exact .refl s
  · unfold compact
    split
    · exact ⟨rfl, rfl, rfl⟩
    · split <;> exact ⟨rfl, rfl, rfl⟩

/-- What a flush does to the queue, and to the writing side: it is left as it is, or shut down with
nothing left to be sent. -/
structure Flushed (s t : SocketState) : Prop where
  kept : Kept s t
  sent : Sent s t
  queued : t.Queued
  shutdown : Unshut s t ∨
    (t.endpoint.shutdowns = s.endpoint.shutdowns + 1 ∧ s.writeEnded = false ∧
      t.writeEnded = true ∧ t.finishPending = true) ∧
    t.writeEnding = true ∧ unsent t = [] ∧ t.destroyed = false

theorem Sending.flushed {s t : SocketState} (h : Sending s t) : Flushed s t :=
  ⟨h.kept, h.sent, h.queued, .inl h.unshut⟩

theorem compact_destroyed (s : SocketState) : (compact s).destroyed = s.destroyed := by
  unfold compact
  split
  · rfl
  · split <;> rfl

theorem finishWrites_flushed {s t : SocketState} (h : Sending s t) (hd : t.destroyed = false)
    (error : Option String) (progressed : Bool) :
    Flushed s (finishWrites error progressed t).1 := by
  unfold finishWrites
  split
  case isTrue hend =>
    obtain ⟨hending, hended, hqueued⟩ := hend
    cases error with
    | some error => exact (h.trans hd (fail_sending error h.queued)).flushed
    | none =>
      have hshut : t.endpoint.shutdowns + 1 = s.endpoint.shutdowns + 1 := by rw [h.unshut.shutdowns]
      have hwas : s.writeEnded = false := by
        rw [← h.unshut.writeEnded]
        simpa using hended
      exact ⟨⟨h.1.1, h.1.2, h.1.3, h.1.4, h.1.5, h.1.6, h.1.7⟩, h.sent, h.queued,
        .inr ⟨⟨hshut, hwas, rfl, rfl⟩, hending, unsent_eq_nil h.queued hqueued, hd⟩⟩
  case isFalse => exact h.flushed

theorem flush_flushed (sends : Sends) {s : SocketState} (h : s.Queued) :
    Flushed s (flush sends s).1 := by
  unfold flush
  split
  case isTrue => exact (Sending.refl h).flushed
  case isFalse hopen =>
    have hd : s.destroyed = false := by
      rw [Bool.eq_false_iff]
      exact fun hd => hopen (.inl hd)
    obtain ⟨hsend, hbehind⟩ := sendLoop_looped sends.answers 65536 false h hd
    dsimp only
    split
    case isTrue => exact hsend.flushed
    case isFalse hreturned =>
      have hloop := hbehind (by simpa using hreturned)
      have hcompact := hsend.trans hloop (compact_sending hsend.queued)
      exact finishWrites_flushed hcompact ((compact_destroyed _).trans hloop) _ _

/-- A new chunk behind the queue. -/
theorem Queued.push {writes : List (Option WriteChunk)} {i : Nat} {n : Int} (h : Queued writes i n)
    {value : List UInt8} (hv : 0 < value.length) :
    Queued (writes ++ [some ⟨value, 0⟩]) i (n + value.length) := by
  have hdrop : (writes ++ [some (WriteChunk.mk value 0)]).drop i =
      writes.drop i ++ [some ⟨value, 0⟩] :=
    List.drop_append_of_le_length h.index_le
  refine ⟨?_, ?_, ?_⟩
  · rw [List.length_append]
    exact Nat.le_trans h.index_le (Nat.le_add_right _ _)
  · rw [hdrop]
    intro e he
    obtain he | he := List.mem_append.mp he
    · exact h.unfinished e he
    · exact ⟨_, List.mem_singleton.mp he, hv⟩
  · rw [hdrop, List.map_append, List.sum_append, h.queued]
    simp [remaining]

/-! ## The socket with its history -/

namespace System

structure Tidy (s : System) : Prop where
  queued : s.socket.Queued
  within : s.socket.endpoint.sent <+: s.written
  complete : s.socket.destroyed = false → s.socket.endpoint.sent ++ unsent s.socket = s.written
  shutdowns : s.socket.endpoint.shutdowns = s.socket.writeEnded.toNat
  finishes : s.emitted.count .finish + s.socket.finishPending.toNat = s.socket.writeEnded.toNat
  ended : s.socket.writeEnded = true →
    s.socket.writeEnding = true ∧ s.socket.endpoint.sent = s.written
  asked : s.socket.writeEnding = true →
    s.endCalled = true ∨ s.socket.readEnded = true ∧ s.socket.allowHalfOpen = false
  pendingEnd : s.socket.endPending = true → s.socket.readEnded = true
  reading : s.socket.readEnded = true → s.socket.connected = true
  opened : s.socket.connected = true → s.socket.started = true
  sound : s.socket.aborted = false

section
variable {s : System}

theorem Tidy.flushed {t : SocketState} (h : Tidy s) (hd : s.socket.destroyed = false)
    (hf : Flushed s.socket t) : Tidy { s with socket := t } := by
  obtain ⟨hk, ⟨front, back, hunsent, hsent, hback⟩, hq, hshut⟩ := hf
  have hwritten : s.socket.endpoint.sent ++ (front ++ back) = s.written := by
    rw [← hunsent]
    exact h.complete hd
  have hcomplete : t.destroyed = false → t.endpoint.sent ++ unsent t = s.written := fun ht => by
    rw [hback ht, hsent, List.append_assoc]
    exact hwritten
  have hended : t.writeEnded = true → t.writeEnding = true ∧ t.endpoint.sent = s.written := by
    intro ht
    obtain hunshut | ⟨-, hending, hnil, ht'⟩ := hshut
    · obtain ⟨hending, hall⟩ := h.ended (hunshut.writeEnded.symm.trans ht)
      -- nothing was left to be sent, so nothing was sent
      have hfront : front = [] := by
        rw [hall] at hwritten
        have := congrArg List.length hwritten
        simp only [List.length_append] at this
        exact List.eq_nil_of_length_eq_zero (by omega)
      exact ⟨hk.writeEnding.trans hending, by rw [hsent, hfront, List.append_nil, hall]⟩
    · refine ⟨hending, ?_⟩
      rw [← hcomplete ht', hnil, List.append_nil]
  refine ⟨hq, ⟨back, ?_⟩, hcomplete, ?_, ?_, hended, ?_, ?_, ?_, ?_, ?_⟩
  · show t.endpoint.sent ++ back = s.written
    rw [hsent, List.append_assoc]
    exact hwritten
  · show t.endpoint.shutdowns = t.writeEnded.toNat
    obtain hunshut | ⟨⟨hone, hwas, hnow, -⟩, -⟩ := hshut
    · rw [hunshut.shutdowns, hunshut.writeEnded]
      exact h.shutdowns
    · rw [hone, h.shutdowns, hwas, hnow]
      rfl
  · show s.emitted.count .finish + t.finishPending.toNat = t.writeEnded.toNat
    have hfin := h.finishes
    obtain hunshut | ⟨⟨-, hwas, hnow, hpending⟩, -⟩ := hshut
    · rw [hunshut.finishPending, hunshut.writeEnded]
      exact hfin
    · rw [hwas, Bool.toNat_false] at hfin
      rw [hnow, hpending, Bool.toNat_true]
      omega
  · show t.writeEnding = true → s.endCalled = true ∨ t.readEnded = true ∧ t.allowHalfOpen = false
    rw [hk.writeEnding, hk.readEnded, hk.allowHalfOpen]
    exact h.asked
  · show t.endPending = true → t.readEnded = true
    rw [hk.endPending, hk.readEnded]
    exact h.pendingEnd
  · show t.readEnded = true → t.connected = true
    rw [hk.readEnded, hk.connected]
    exact h.reading
  · show t.connected = true → t.started = true
    rw [hk.connected, hk.started]
    exact h.opened
  · exact hk.aborted.trans h.sound

theorem Tidy.flush (h : Tidy s) (sends : Sends) :
    Tidy { s with socket := (Net.flush sends s.socket).1 } := by
  cases hd : s.socket.destroyed with
  | true =>
    have hsame : Net.flush sends s.socket = (s.socket, false) := by
      unfold Net.flush
      rw [if_pos (.inl hd)]
    rw [hsame]
    exact h
  | false => exact h.flushed hd (flush_flushed sends h.queued)

theorem Tidy.destroy (h : Tidy s) : Tidy { s with socket := Net.destroy s.socket } := by
  cases hd : s.socket.destroyed with
  | true =>
    have hsame : Net.destroy s.socket = s.socket := by
      unfold Net.destroy
      rw [if_pos hd]
    rw [hsame]
    exact h
  | false => exact h.flushed hd (destroy_sending h.queued).flushed

theorem Tidy.fail (h : Tidy s) (hd : s.socket.destroyed = false) (error : String) :
    Tidy { s with socket := Net.fail error s.socket } :=
  h.flushed hd (fail_sending error h.queued).flushed

/-! ## The calls -/

theorem write_refused {value : List UInt8} {sends : Sends} {error : String}
    (he : enqueue value sends s.socket = .error error) : s.write value sends = s := by
  unfold System.write
  rw [he]

theorem Tidy.push (h : Tidy s) (value : List UInt8) (hd : s.socket.destroyed = false)
    (he : s.socket.writeEnding = false) :
    Tidy { s with socket := Net.push value s.socket, written := s.written ++ value } := by
  have hended : s.socket.writeEnded = true → False := fun hw => by
    rw [(h.ended hw).1] at he
    cases he
  unfold Net.push
  split
  case isTrue hv =>
    have hunsent : unsent
        { s.socket with
          writes := s.socket.writes ++ [some ⟨value, 0⟩]
          queuedBytes := s.socket.queuedBytes + value.length
          bytesWritten := s.socket.bytesWritten + value.length } = unsent s.socket ++ value := by
      unfold unsent live
      rw [List.drop_append_of_le_length h.queued.index_le, List.flatMap_append]
      simp [pending]
    exact
      { h with
        queued := h.queued.push (Nat.pos_of_ne_zero hv)
        within := h.within.trans (List.prefix_append _ _)
        complete := fun _ => by
          rw [hunsent, ← List.append_assoc]
          exact congrArg (· ++ value) (h.complete hd)
        ended := fun hw => (hended hw).elim }
  case isFalse hv =>
    have hnil : value = [] := by
      apply List.eq_nil_of_length_eq_zero
      omega
    subst hnil
    rw [List.append_nil]
    exact h

theorem Tidy.write (h : Tidy s) (value : List UInt8) (sends : Sends) :
    Tidy (s.write value sends) := by
  by_cases hrefused : s.socket.destroyed = true ∨ s.socket.writeEnding = true
  · have he : enqueue value sends s.socket =
        .error "Cannot write after ending a network socket" := by
      unfold enqueue
      rw [if_pos hrefused]
    rw [write_refused he]
    exact h
  by_cases hlimit : 268435456 - s.socket.queuedBytes < value.length
  · have he : enqueue value sends s.socket =
        .error "Network write queue exceeds the finite runtime limit" := by
      unfold enqueue
      rw [if_neg hrefused, if_pos hlimit]
    rw [write_refused he]
    exact h
  · have hd : s.socket.destroyed = false := by
      rw [Bool.eq_false_iff]
      exact fun hd => hrefused (.inl hd)
    have hw : s.socket.writeEnding = false := by
      rw [Bool.eq_false_iff]
      exact fun hw => hrefused (.inr hw)
    have hflush := (h.push value hd hw).flush sends
    unfold System.write enqueue
    rw [if_neg hrefused, if_neg hlimit]
    dsimp only
    split
    · exact hflush
    · exact { hflush with }

theorem Tidy.end_ (h : Tidy s) (sends : Sends) : Tidy (s.end_ sends) := by
  cases hd : s.socket.destroyed with
  | true =>
    have he : Net.end_ sends s.socket = .error "Network socket is closed" := by
      unfold Net.end_
      rw [if_pos hd]
    unfold System.end_
    rw [he]
    exact h
  | false =>
    have hok : Net.end_ sends s.socket =
        .ok (Net.flush sends { s.socket with writeEnding := true }).1 := by
      unfold Net.end_
      rw [if_neg (by simp [hd])]
    have hending : Tidy
        { s with socket := { s.socket with writeEnding := true }, endCalled := true } :=
      { h with
        ended := fun he => ⟨rfl, (h.ended he).2⟩
        asked := fun _ => .inl rfl }
    unfold System.end_
    rw [hok]
    exact hending.flush sends

theorem Tidy.read (h : Tidy s) (answer : ReadAnswer) :
    Tidy { s with socket := (Net.read answer s.socket).1 } := by
  unfold Net.read
  split
  case isTrue => exact h
  case isFalse hopen =>
    have hd : s.socket.destroyed = false := by
      rw [Bool.eq_false_iff]
      exact fun hd => hopen (.inl hd)
    have hc : s.socket.connected = true := by
      by_contra hc
      exact hopen (.inr (.inl hc))
    cases answer with
    | blocked => exact h
    | failed error => exact h.fail hd error
    | received bytes =>
      dsimp only
      split
      · exact
          { h with
            asked := fun he => (h.asked he).imp id fun hpeer => ⟨rfl, hpeer.2⟩
            pendingEnd := fun _ => rfl
            reading := fun _ => hc }
      · exact { h with }

theorem Tidy.perform (h : Tidy s) (call : Call) : Tidy (s.perform call) := by
  cases call with
  | write value sends => exact h.write value sends
  | end_ sends => exact h.end_ sends
  | destroy =>
    have hstarted : Tidy { s with socket := { s.socket with started := true } } :=
      { h with opened := fun _ => rfl }
    exact hstarted.destroy
  | read answer => exact h.read answer
  | pause => exact { h with }
  | resume => exact { h with }
  | onData => exact { h with }
  | setTimeout timeout =>
    unfold System.perform
    dsimp only
    split
    · exact h
    · exact { h with }
  | setNoDelay value => exact { h with }
  | connect options =>
    unfold System.perform connect
    dsimp only
    split
    · exact h
    case isFalse hnew =>
      have hunread : s.socket.readEnded = true → False := fun hr =>
        hnew (.inl (h.opened (h.reading hr)))
      exact
        { h with
          asked := fun he => (h.asked he).imp id fun hpeer => (hunread hpeer.1).elim
          opened := fun _ => rfl }

/-! ## The parts of `progress` -/

/-- An outcome that keeps the socket tidy and does not emit 'finish'. -/
structure Quiet (s : System) (r : Outcome) : Prop where
  tidy : Tidy { s with socket := r.socket }
  quiet : r.event ≠ some .finish

theorem Quiet.after {r : Outcome} (h : Quiet s r) : Tidy (s.after r) := by
  obtain ⟨ht, hr⟩ := h
  refine { ht with finishes := ?_ }
  have hcount : r.event.toList.count .finish = 0 := by
    rw [List.count_eq_zero]
    intro hmem
    exact hr (Option.mem_toList.mp hmem)
  show (s.emitted ++ r.event.toList).count .finish + _ = _
  rw [List.count_append, hcount]
  exact ht.finishes

theorem Tidy.quiet (h : Tidy s) : Quiet s { socket := s.socket } := ⟨h, by simp⟩

theorem Tidy.connecting (h : Tidy s) (answer : ConnectAnswer) :
    Quiet s (Net.connecting answer s.socket) := by
  unfold Net.connecting
  split
  case isFalse => exact h.quiet
  case isTrue hc =>
    have hd : s.socket.destroyed = false := by simpa using hc.2.1
    cases answer with
    | pending => exact h.quiet
    | failed error => exact ⟨h.fail hd error, by simp⟩
    | connected noDelayError =>
      have hconnected : Tidy { s with socket := activity { s.socket with connected := true } } :=
        { h with
          reading := fun _ => rfl
          opened := fun _ => hc.1 }
      dsimp only
      refine ⟨?_, by dsimp only; split <;> simp⟩
      split
      · exact hconnected.fail hd _
      · exact hconnected

theorem Tidy.receiving (h : Tidy s) (answer : ReadAnswer) :
    Quiet s (Net.receiving answer s.socket) := by
  refine ⟨h.read answer, ?_⟩
  show (Net.read answer s.socket).2.map Event.data ≠ some .finish
  cases (Net.read answer s.socket).2 <;> simp

theorem Tidy.peeking (h : Tidy s) (hd : s.socket.destroyed = false)
    (hc : s.socket.connected = true) (answer : Ready) (listened : Bool) :
    Quiet s (Net.peeking answer listened s.socket) := by
  cases answer with
  | blocked => exact h.quiet
  | failed error => exact ⟨h.fail hd error, by simp [Net.peeking]⟩
  | ended =>
    refine ⟨?_, by simp [Net.peeking]⟩
    exact
      { h with
        asked := fun he => (h.asked he).imp id fun hpeer => ⟨rfl, hpeer.2⟩
        pendingEnd := fun _ => rfl
        reading := fun _ => hc }
  | ready =>
    unfold Net.peeking
    dsimp only
    split
    · exact ⟨{ h with }, by simp⟩
    · exact h.quiet

/-- The peer's end makes the socket end its own side, unless it may stay half open. -/
theorem Tidy.ending (h : Tidy s) : Quiet s (Net.ending s.socket) := by
  unfold Net.ending
  split
  case isFalse => exact h.quiet
  case isTrue hend =>
    refine ⟨?_, by simp⟩
    have hpeer : s.socket.readEnded = true := h.pendingEnd hend.1
    exact
      { h with
        ended := fun he => ⟨by simp [(h.ended he).1], (h.ended he).2⟩
        asked := fun he => by
          obtain he | he := (Bool.or_eq_true _ _).mp he
          · exact h.asked he
          · exact .inr ⟨hpeer, by simpa using he⟩
        pendingEnd := fun he => by cases he }

theorem Tidy.finishing (h : Tidy s) : Tidy (s.after (Net.finishing s.socket)) := by
  unfold Net.finishing
  split
  case isFalse => exact h.quiet.after
  case isTrue hf =>
    refine { h with finishes := ?_ }
    show (s.emitted ++ [Event.finish]).count .finish + 0 = s.socket.writeEnded.toNat
    have hfin := h.finishes
    rw [hf.1, Bool.toNat_true] at hfin
    rw [List.count_append, ← hfin]
    simp

theorem Tidy.part (h : Tidy s) (p : Part) : Tidy (s.part p) := by
  unfold System.part
  cases p with
  | connecting answer => exact (h.connecting answer).after
  | flushing sends => exact Quiet.after ⟨h.flush sends, by simp [Part.outcome, Net.flushing]⟩
  | receiving answer => exact (h.receiving answer).after
  | peeking answer listened =>
    unfold Part.outcome
    dsimp only
    split
    case isTrue hc => exact (h.peeking (by simpa using hc.1) hc.2 answer listened).after
    case isFalse => exact h.quiet.after
  | ending =>
    unfold Part.outcome
    dsimp only
    split
    · exact h.ending.after
    · exact h.quiet.after
  | draining =>
    show Tidy (s.after (Net.draining s.socket))
    unfold Net.draining
    split
    · exact Quiet.after ⟨{ h with }, by simp⟩
    · exact h.quiet.after
  | finishing => exact h.finishing
  | closing =>
    show Tidy (s.after (Net.closing s.socket))
    unfold Net.closing
    split
    · exact Quiet.after ⟨h.destroy, by simp⟩
    · exact h.quiet.after
  | timing elapsed =>
    show Tidy (s.after (Net.timing elapsed s.socket))
    unfold Net.timing
    split
    · exact Quiet.after ⟨{ h with }, by simp⟩
    · exact h.quiet.after
  | reporting listened =>
    show Tidy (s.after (Net.reporting listened s.socket))
    unfold Net.reporting
    split
    · exact h.quiet.after
    · exact Quiet.after ⟨{ h with }, by dsimp only; split <;> simp⟩
  | reportingClose =>
    show Tidy (s.after (Net.reportingClose s.socket))
    unfold Net.reportingClose
    split
    · exact Quiet.after ⟨{ h with }, by simp⟩
    · exact h.quiet.after

end

/-! ## Runs -/

/-- How a socket begins. -/
inductive Start where
  | idle
  | opened (connected allowHalfOpen : Bool)

def Start.system : Start → System
  | .idle => System.idle
  | .opened connected allowHalfOpen => System.opened connected allowHalfOpen

theorem tidy_start (start : Start) : Tidy start.system := by
  have hfalse : ∀ {P : Prop}, false = true → P := fun h => by cases h
  cases start with
  | idle =>
    exact ⟨.empty, List.nil_prefix, fun _ => rfl, rfl, rfl, hfalse, hfalse, hfalse, hfalse, hfalse,
      rfl⟩
  | opened connected allowHalfOpen =>
    exact ⟨.empty, List.nil_prefix, fun _ => rfl, rfl, rfl, hfalse, hfalse, hfalse, hfalse,
      fun _ => rfl, rfl⟩

theorem tidy_run (start : Start) (ls : List Label) : Tidy (run step start.system ls) := by
  refine run_preserves (fun s l h => ?_) (tidy_start start) ls
  cases l with
  | call call => exact h.perform call
  | part p => exact h.part p

/-- What holds of a socket at every moment of its life. -/
structure Sound (s : System) : Prop where
  sent : s.socket.endpoint.sent <+: s.written
  rest : s.socket.destroyed = false → s.socket.endpoint.sent ++ unsent s.socket = s.written
  queued : s.socket.queuedBytes = ((live s.socket).map remaining).sum
  shutdown_once : s.socket.endpoint.shutdowns ≤ 1
  finish_once : s.emitted.count .finish ≤ s.socket.endpoint.shutdowns
  shutdown : 0 < s.socket.endpoint.shutdowns →
    (s.endCalled = true ∨ s.socket.readEnded = true ∧ s.socket.allowHalfOpen = false) ∧
      s.socket.endpoint.sent = s.written
  sound : s.socket.aborted = false

theorem Tidy.holds {s : System} (h : Tidy s) : Sound s := by
  have hshut := h.shutdowns
  refine ⟨h.within, h.complete, h.queued.queued, ?_, ?_, fun hpos => ?_, h.sound⟩
  · rw [hshut]
    exact Bool.toNat_le _
  · rw [hshut, ← h.finishes]
    exact Nat.le_add_right _ _
  · have hended : s.socket.writeEnded = true := by
      rw [hshut] at hpos
      cases hw : s.socket.writeEnded with
      | true => rfl
      | false => rw [hw] at hpos; cases hpos
    obtain ⟨hending, hsent⟩ := h.ended hended
    exact ⟨h.asked hending, hsent⟩

/-- At every moment of every run what was sent is a prefix of what was written and the rest is
counted; the writing side is shut down and 'finish' emitted at most once, once everything is sent
and the socket or, unless half-open connections are allowed, its peer has ended. -/
theorem write_queue (start : Start) (ls : List Label) :
    Sound (run step start.system ls) ∧
      ∀ s : SocketState, (compact s).endpoint = s.endpoint ∧
        (compact s).queuedBytes = s.queuedBytes ∧ live (compact s) = live s :=
  ⟨(tidy_run start ls).holds, fun s => ⟨(compact_same s).1, (compact_same s).2, live_compact s⟩⟩

/-- The peer ends its side, and `end` was never called. -/
theorem shut_down_by_peer :
    ¬ ∀ (start : Start) (ls : List Label),
      0 < (run step start.system ls).socket.endpoint.shutdowns ∨
          .finish ∈ (run step start.system ls).emitted →
        (run step start.system ls).endCalled = true := by
  intro h
  have hrun := h (.opened true false)
    [.part (.peeking .ended false), .part .ending, .part (.flushing ⟨[], none⟩), .part .finishing]
  exact absurd (hrun (by decide)) (by decide)

/-! ## A call of `progress` is a run -/

section
variable {s : System}

theorem reaches_calls (calls : List Call) (s : System) :
    Reaches step s (calls.foldl perform s) := by
  induction calls generalizing s with
  | nil => exact .refl s
  | cons call calls ih =>
    have hcall : Reaches step s (s.perform call) := .single s (Label.call call)
    exact hcall.trans (ih (s.perform call))

/-- A computation that only takes steps. -/
def Steps {α : Type} (m : EStateM String System α) : Prop :=
  ∀ s, wp m (fun _ t => Reaches step s t) (fun _ t => Reaches step s t) s

theorem Steps.pure {α : Type} (a : α) : Steps (Pure.pure a) := fun s => .refl s

theorem Steps.bind {α β : Type} {m : EStateM String System α} {f : α → EStateM String System β}
    (hm : Steps m) (hf : ∀ a, Steps (f a)) : Steps (m >>= f) := by
  intro s
  rw [wp_bind]
  refine wp_mono (hm s) (fun a t ht => ?_) (fun e t ht => ht)
  exact wp_mono (hf a t) (fun _ u hu => ht.trans hu) (fun _ u hu => ht.trans hu)

theorem Steps.get {α : Type} {f : System → EStateM String System α} (hf : ∀ s, Steps (f s)) :
    Steps (MonadState.get >>= f) := fun s => hf s s

theorem Steps.throw {α : Type} (e : String) : Steps (MonadExcept.throw e : EStateM String System α) :=
  fun s => .refl s

theorem Behaviour.run_steps (b : Behaviour) : Steps b.run := by
  intro s
  unfold Behaviour.run
  rw [wp_bind, wp_modify]
  cases b.raises with
  | none => exact reaches_calls b.calls s
  | some error => exact reaches_calls b.calls s

theorem runPart_steps (p : Part) (listeners : Behaviour) : Steps (runPart p listeners) := by
  intro s
  unfold runPart
  simp only [wp_bind, wp_get, wp_set]
  have hpart : Reaches step s (s.part p) := .single s (Label.part p)
  cases (p.outcome s.socket).event with
  | none => exact hpart
  | some event =>
    dsimp only
    rw [wp_bind]
    refine wp_mono (listeners.run_steps (s.part p)) (fun _ t ht => ?_) (fun _ t ht => hpart.trans ht)
    exact hpart.trans ht

theorem readLoop_steps (reads : List (ReadAnswer × Behaviour)) (received : Nat) :
    Steps (readLoop reads received) := by
  induction reads generalizing received with
  | nil => exact .pure false
  | cons read reads ih =>
    obtain ⟨answer, listeners⟩ := read
    refine .get fun s => ?_
    split
    · cases (Net.read answer s.socket).2 with
      | none => exact runPart_steps _ _
      | some chunk =>
        refine .bind (runPart_steps _ _) fun _ => ?_
        exact .bind (ih _) fun _ => .pure true
    · exact .pure false

theorem receive_steps (p : Poll) : Steps (receive p) := by
  refine .get fun s => ?_
  split
  · split
    · exact readLoop_steps p.reads 0
    · exact runPart_steps _ _
  · exact .pure false

theorem transfer_steps (p : Poll) : Steps (transfer p) := by
  refine .get fun s => ?_
  split
  · refine .bind (runPart_steps _ _) fun _ => ?_
    refine .bind (receive_steps p) fun _ => ?_
    refine .bind (runPart_steps _ _) fun _ => ?_
    refine .bind (runPart_steps _ _) fun _ => ?_
    refine .bind (runPart_steps _ _) fun _ => ?_
    refine .bind (runPart_steps _ _) fun _ => ?_
    refine .bind (runPart_steps _ _) fun _ => ?_
    exact .bind (runPart_steps _ _) fun _ => .pure _
  · exact .pure false

theorem report_steps (p : Poll) : Steps (report p) := by
  refine .get fun s => .bind (runPart_steps _ _) fun reported => ?_
  cases s.socket.error with
  | none => exact .pure reported
  | some error =>
    dsimp only
    split
    · exact .pure reported
    · exact .throw error

theorem progress_steps (p : Poll) : Steps (progress p) := by
  refine .bind (runPart_steps _ _) fun _ => ?_
  refine .bind (transfer_steps p) fun _ => ?_
  refine .bind (report_steps p) fun _ => ?_
  exact .bind (runPart_steps _ _) fun _ => .pure _

/-- Every call of `progress`, returning or raising, is a run of its parts and of the calls its
listeners make. -/
theorem progress_run (p : Poll) (s : System) :
    ∃ ls, run step s ls = finalState (progress p s) :=
  wp_final (P := fun t => Reaches step s t) (progress_steps p s)

end

end System

end TsonicNode.Net
