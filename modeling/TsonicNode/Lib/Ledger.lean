import TsonicNode.Lib.Totals
import Mathlib.Tactic.Common

/-!
# Things that wait at places

Things are issued one after another, each to a place that has a queue. Whoever
takes one from the front of a queue holds it until it is released; a place that is
given up discards what waits there. `Sound` says that everything issued is in one
of these states, once, and that each place hands its things out in the order in
which it got them; every move keeps it.
-/

namespace TsonicNode.Lib

structure Ledger where
  /-- What waits at each place; nothing at one that was given up. -/
  queues : List (Option (List Nat)) := []
  issued : Nat := 0
  enqueued : List (Nat × Nat) := []
  taken : List (Nat × Nat) := []
  held : List Nat := []
  released : List Nat := []
  discarded : List Nat := []

namespace Ledger

/-- The things of one place. -/
def ofPlace (place : Nat) (entries : List (Nat × Nat)) : List Nat :=
  (entries.filter fun entry => entry.1 == place).map Prod.snd

theorem ofPlace_append (place : Nat) (front back : List (Nat × Nat)) :
    ofPlace place (front ++ back) = ofPlace place front ++ ofPlace place back := by
  unfold ofPlace
  rw [List.filter_append, List.map_append]

theorem ofPlace_same (place thing : Nat) : ofPlace place [(place, thing)] = [thing] := by simp [ofPlace]

theorem ofPlace_other {place other : Nat} (h : other ≠ place) (thing : Nat) : ofPlace place [(other, thing)] = [] := by
  simp [ofPlace, h]

theorem ofPlace_none {place : Nat} {entries : List (Nat × Nat)} (h : ∀ entry ∈ entries, entry.1 ≠ place) :
    ofPlace place entries = [] := by
  unfold ofPlace
  rw [List.filter_eq_nil_iff.mpr fun entry hentry => by simpa using h entry hentry]
  rfl

/-- One thing more. -/
theorem count_cons_one (thing other : Nat) (things : List Nat) :
    (other :: things).count thing = things.count thing + [other].count thing := by
  rw [← List.count_append, List.perm_append_singleton other things |>.count_eq]

def waiting (thing : Nat) (queue : Option (List Nat)) : Nat := (queue.getD []).count thing

structure Sound (ledger : Ledger) : Prop where
  accounted : ∀ thing, (ledger.taken.map Prod.snd).count thing + total (waiting thing) ledger.queues +
    ledger.discarded.count thing = if thing < ledger.issued then 1 else 0
  settled : ∀ thing, ledger.released.count thing + ledger.held.count thing = (ledger.taken.map Prod.snd).count thing
  order : ∀ place, ∃ rest, ofPlace place ledger.enqueued = ofPlace place ledger.taken ++ rest ∧
    ∀ queue, ledger.queues[place]? = some (some queue) → rest = queue
  enqueued_lt : ∀ entry ∈ ledger.enqueued, entry.1 < ledger.queues.length

/-! ## Moves -/

/-- A place more. -/
def add (ledger : Ledger) : Ledger := { ledger with queues := ledger.queues ++ [some []] }

def issue (place : Nat) (queue : List Nat) (ledger : Ledger) : Ledger :=
  { ledger with
    queues := ledger.queues.set place (some (queue ++ [ledger.issued])),
    issued := ledger.issued + 1,
    enqueued := ledger.enqueued ++ [(place, ledger.issued)] }

def take (place thing : Nat) (queue : List Nat) (ledger : Ledger) : Ledger :=
  { ledger with
    queues := ledger.queues.set place (some queue),
    taken := ledger.taken ++ [(place, thing)],
    held := thing :: ledger.held }

def release (thing : Nat) (held : List Nat) (ledger : Ledger) : Ledger :=
  { ledger with held, released := ledger.released ++ [thing] }

def releaseAll (things held : List Nat) (ledger : Ledger) : Ledger :=
  { ledger with held, released := ledger.released ++ things }

def discard (place : Nat) (queue : List Nat) (ledger : Ledger) : Ledger :=
  { ledger with queues := ledger.queues.set place none, discarded := ledger.discarded ++ queue }

section
variable {ledger : Ledger} {place thing : Nat} {queue : List Nat}

theorem sound_new : Sound {} where
  accounted _ := rfl
  settled _ := rfl
  order place := ⟨[], rfl, fun queue hqueue => by simp at hqueue⟩
  enqueued_lt entry hentry := by cases hentry

theorem Sound.add (h : Sound ledger) : Sound ledger.add where
  accounted thing := by
    show _ + total (waiting thing) (ledger.queues ++ [some []]) + _ = _
    rw [total_append]
    exact h.accounted thing
  settled := h.settled
  order other := by
    obtain ⟨rest, horder, hqueue⟩ := h.order other
    refine ⟨rest, horder, fun queue hnew => ?_⟩
    by_cases hother : other < ledger.queues.length
    · exact hqueue queue (by rwa [Ledger.add, List.getElem?_append_left hother] at hnew)
    · -- nothing was issued to the new place
      have hnone : ofPlace other ledger.enqueued = [] :=
        ofPlace_none fun entry hentry hsame => hother (hsame ▸ h.enqueued_lt entry hentry)
      rw [hnone] at horder
      have hrest : rest = [] := (List.append_eq_nil_iff.mp horder.symm).2
      rw [Ledger.add, List.getElem?_append_right (Nat.le_of_not_lt hother)] at hnew
      have hempty : queue = [] := by
        rcases List.getElem?_eq_some_iff.mp hnew with ⟨hlt, hget⟩
        simpa using hget.symm
      rw [hrest, hempty]
  enqueued_lt entry hentry := by
    have hlt := h.enqueued_lt entry hentry
    simp only [Ledger.add, List.length_append, List.length_singleton]
    omega

theorem waiting_set (hqueue : ledger.queues[place]? = some (some queue)) (other : Nat) (after : Option (List Nat)) :
    total (waiting other) (ledger.queues.set place after) + queue.count other =
      total (waiting other) ledger.queues + waiting other after :=
  total_set hqueue after

/-- The queue of another place stays. -/
theorem queue_set {other : Nat} {after : Option (List Nat)} (hother : place ≠ other) (hafter : List Nat)
    (h : (ledger.queues.set place after)[other]? = some (some hafter)) :
    ledger.queues[other]? = some (some hafter) := by
  rwa [List.getElem?_set_ne hother] at h

theorem Sound.issue (h : Sound ledger) (hqueue : ledger.queues[place]? = some (some queue)) :
    Sound (ledger.issue place queue) where
  accounted thing := by
    have haccounted := h.accounted thing
    have hset := waiting_set hqueue thing (some (queue ++ [ledger.issued]))
    have hcount : waiting thing (some (queue ++ [ledger.issued])) = queue.count thing + [ledger.issued].count thing :=
      List.count_append
    have hissued : (if thing < ledger.issued + 1 then 1 else 0) =
        (if thing < ledger.issued then 1 else 0) + [ledger.issued].count thing := by
      rw [List.count_singleton]
      by_cases hsame : ledger.issued = thing
      · subst hsame
        simp
      · have hlt : thing < ledger.issued + 1 ↔ thing < ledger.issued := by omega
        simp [hsame, hlt]
    show (ledger.taken.map Prod.snd).count thing +
      total (waiting thing) (ledger.queues.set place (some (queue ++ [ledger.issued]))) + ledger.discarded.count thing =
        if thing < ledger.issued + 1 then 1 else 0
    omega
  settled := h.settled
  order other := by
    obtain ⟨rest, horder, hrest⟩ := h.order other
    simp only [Ledger.issue, ofPlace_append]
    by_cases hother : place = other
    · subst hother
      refine ⟨rest ++ [ledger.issued], ?_, fun after hafter => ?_⟩
      · rw [ofPlace_same, horder, List.append_assoc]
      · rw [List.getElem?_set_self (List.getElem?_eq_some_iff.mp hqueue).1] at hafter
        rw [hrest queue hqueue, ← Option.some.inj (Option.some.inj hafter)]
    · refine ⟨rest, ?_, fun after hafter => hrest after (queue_set hother after hafter)⟩
      rw [ofPlace_other hother, List.append_nil, horder]
  enqueued_lt entry hentry := by
    simp only [Ledger.issue, List.length_set]
    rcases List.mem_append.mp hentry with hentry | hentry
    · exact h.enqueued_lt entry hentry
    · rw [List.mem_singleton.mp hentry]
      exact (List.getElem?_eq_some_iff.mp hqueue).1

theorem Sound.take (h : Sound ledger) (hqueue : ledger.queues[place]? = some (some (thing :: queue))) :
    Sound (ledger.take place thing queue) where
  accounted other := by
    have haccounted := h.accounted other
    have hset := waiting_set hqueue other (some queue)
    have hcount : waiting other (some queue) = queue.count other := rfl
    have hfirst := count_cons_one other thing queue
    have htaken : ((ledger.taken ++ [(place, thing)]).map Prod.snd).count other =
        (ledger.taken.map Prod.snd).count other + [thing].count other := by
      rw [List.map_append, List.count_append]
      rfl
    show ((ledger.taken ++ [(place, thing)]).map Prod.snd).count other +
      total (waiting other) (ledger.queues.set place (some queue)) + ledger.discarded.count other = _
    exact (by omega : _ = (ledger.taken.map Prod.snd).count other + total (waiting other) ledger.queues +
      ledger.discarded.count other).trans haccounted
  settled other := by
    have hsettled := h.settled other
    have hheld := count_cons_one other thing ledger.held
    show ledger.released.count other + (thing :: ledger.held).count other =
      ((ledger.taken ++ [(place, thing)]).map Prod.snd).count other
    rw [List.map_append, List.count_append, hheld, ← hsettled, Nat.add_assoc]
    rfl
  order other := by
    obtain ⟨rest, horder, hrest⟩ := h.order other
    simp only [Ledger.take, ofPlace_append]
    by_cases hother : place = other
    · subst hother
      refine ⟨queue, ?_, fun after hafter => ?_⟩
      · rw [ofPlace_same, horder, hrest _ hqueue, List.append_assoc]
        rfl
      · rw [List.getElem?_set_self (List.getElem?_eq_some_iff.mp hqueue).1] at hafter
        exact Option.some.inj (Option.some.inj hafter)
    · refine ⟨rest, ?_, fun after hafter => hrest after (queue_set hother after hafter)⟩
      rw [ofPlace_other hother, List.append_nil, horder]
  enqueued_lt entry hentry := by
    simp only [Ledger.take, List.length_set]
    exact h.enqueued_lt entry hentry

theorem Sound.release (h : Sound ledger) {held : List Nat} (hheld : ledger.held = thing :: held) :
    Sound (ledger.release thing held) where
  accounted := h.accounted
  settled other := by
    have hsettled := h.settled other
    rw [hheld, count_cons_one] at hsettled
    show (ledger.released ++ [thing]).count other + held.count other = (ledger.taken.map Prod.snd).count other
    rw [List.count_append, ← hsettled]
    omega
  order := h.order
  enqueued_lt := h.enqueued_lt

theorem Sound.releaseAll {things held : List Nat} (h : Sound ledger) (hheld : ledger.held = things ++ held) :
    Sound (ledger.releaseAll things held) := by
  induction things generalizing ledger with
  | nil =>
    obtain rfl : ledger.held = held := hheld
    unfold Ledger.releaseAll
    rw [List.append_nil]
    exact h
  | cons thing things ih =>
    have hrest := ih (h.release hheld) rfl
    unfold Ledger.releaseAll Ledger.release at hrest
    rw [List.append_assoc] at hrest
    exact hrest

theorem Sound.discard (h : Sound ledger) (hqueue : ledger.queues[place]? = some (some queue)) :
    Sound (ledger.discard place queue) where
  accounted other := by
    have haccounted := h.accounted other
    have hset := waiting_set hqueue other none
    have hcount : waiting other none = 0 := rfl
    show (ledger.taken.map Prod.snd).count other + total (waiting other) (ledger.queues.set place none) +
      (ledger.discarded ++ queue).count other = if other < ledger.issued then 1 else 0
    rw [List.count_append, ← haccounted]
    omega
  settled := h.settled
  order other := by
    obtain ⟨rest, horder, hrest⟩ := h.order other
    refine ⟨rest, horder, fun after hafter => ?_⟩
    by_cases hother : place = other
    · subst hother
      simp only [Ledger.discard] at hafter
      rw [List.getElem?_set_self (List.getElem?_eq_some_iff.mp hqueue).1] at hafter
      cases hafter
    · exact hrest after (queue_set hother after hafter)
  enqueued_lt entry hentry := by
    simp only [Ledger.discard, List.length_set]
    exact h.enqueued_lt entry hentry

/-! ## What follows -/

/-- Nothing is released or discarded twice. -/
theorem Sound.nodup (h : Sound ledger) : (ledger.released ++ ledger.discarded).Nodup := by
  rw [List.nodup_iff_count]
  intro thing
  have haccounted := h.accounted thing
  have hsettled := h.settled thing
  rw [List.count_append]
  split_ifs at haccounted <;> omega

/-- What is held was neither released nor discarded, and waits nowhere. -/
theorem Sound.of_held (h : Sound ledger) (hheld : thing ∈ ledger.held) :
    thing < ledger.issued ∧ thing ∉ ledger.released ++ ledger.discarded ∧
      ∀ (place : Nat) (queue : List Nat), ledger.queues[place]? = some (some queue) → thing ∉ queue := by
  have haccounted := h.accounted thing
  have hsettled := h.settled thing
  have hpos := List.count_pos_iff.mpr hheld
  refine ⟨?_, fun hmem => ?_, fun place queue hqueue hmem => ?_⟩
  · by_contra hlt
    rw [if_neg hlt] at haccounted
    omega
  · have hcount := List.count_pos_iff.mpr hmem
    rw [List.count_append] at hcount
    split_ifs at haccounted <;> omega
  · have hle : waiting thing (some queue) ≤ total (waiting thing) ledger.queues :=
      le_total (List.mem_of_getElem? hqueue)
    have hcount : 0 < waiting thing (some queue) := List.count_pos_iff.mpr hmem
    split_ifs at haccounted <;> omega

theorem Sound.waiting_lt (h : Sound ledger) (hqueue : ledger.queues[place]? = some (some queue))
    (hmem : thing ∈ queue) : thing < ledger.issued := by
  have haccounted := h.accounted thing
  have hle : waiting thing (some queue) ≤ total (waiting thing) ledger.queues := le_total (List.mem_of_getElem? hqueue)
  have hcount : 0 < waiting thing (some queue) := List.count_pos_iff.mpr hmem
  by_contra hlt
  rw [if_neg hlt] at haccounted
  omega

/-- What waits was neither taken nor discarded, and waits once. -/
theorem Sound.of_waiting (h : Sound ledger) (hqueue : ledger.queues[place]? = some (some queue)) (hmem : thing ∈ queue) :
    thing ∉ ledger.held ∧ thing ∉ ledger.released ++ ledger.discarded ∧
      ∀ (other : Nat) (things : List Nat), ledger.queues[other]? = some (some things) → thing ∈ things →
        other = place := by
  have haccounted := h.accounted thing
  have hsettled := h.settled thing
  have hcount : 0 < waiting thing (some queue) := List.count_pos_iff.mpr hmem
  have hle : waiting thing (some queue) ≤ total (waiting thing) ledger.queues := le_total (List.mem_of_getElem? hqueue)
  refine ⟨fun hheld => (h.of_held hheld).2.2 place queue hqueue hmem, fun hgone => ?_, fun other things hother hthing => ?_⟩
  · have hpos := List.count_pos_iff.mpr hgone
    rw [List.count_append] at hpos
    split_ifs at haccounted <;> omega
  · -- two queues would count it twice
    have hpos : 0 < waiting thing (some things) := List.count_pos_iff.mpr hthing
    have happart : ∀ first second : Nat, ∀ one two : Option (List Nat), ledger.queues[first]? = some one →
        ledger.queues[second]? = some two → 0 < waiting thing one → 0 < waiting thing two → ¬ first < second := by
      intro first second one two hone htwo hfirst hsecond hlt
      have hboth := @add_le_total _ (waiting thing) _ _ _ _ _ hone htwo hlt
      split_ifs at haccounted <;> omega
    have hbefore := happart other place _ _ hother hqueue hpos hcount
    have hbehind := happart place other _ _ hqueue hother hcount hpos
    omega

/-- Nothing waits twice at a place. -/
theorem Sound.queue_nodup (h : Sound ledger) (hqueue : ledger.queues[place]? = some (some queue)) : queue.Nodup := by
  rw [List.nodup_iff_count]
  intro thing
  have haccounted := h.accounted thing
  have hle : waiting thing (some queue) ≤ total (waiting thing) ledger.queues := le_total (List.mem_of_getElem? hqueue)
  have hcount : waiting thing (some queue) = queue.count thing := rfl
  split_ifs at haccounted <;> omega

/-- Nothing is lost. -/
theorem Sound.complete (h : Sound ledger) (hthing : thing < ledger.issued) :
    thing ∈ ledger.released ++ ledger.discarded ∨ thing ∈ ledger.held ∨
      ∃ (place : Nat) (queue : List Nat), ledger.queues[place]? = some (some queue) ∧ thing ∈ queue := by
  have haccounted := h.accounted thing
  have hsettled := h.settled thing
  rw [if_pos hthing] at haccounted
  by_cases hmem : thing ∈ ledger.released ++ ledger.discarded
  · exact .inl hmem
  by_cases hheld : thing ∈ ledger.held
  · exact .inr (.inl hheld)
  right
  right
  by_contra hnone
  simp only [not_exists, not_and] at hnone
  have hwaiting : total (waiting thing) ledger.queues = 0 := by
    refine total_eq_zero fun queue hqueue => ?_
    obtain ⟨place, hplace⟩ := List.mem_iff_getElem?.mp hqueue
    cases queue with
    | none => rfl
    | some queue => exact List.count_eq_zero.mpr (hnone place queue hplace)
  rw [List.mem_append, not_or] at hmem
  rw [List.count_eq_zero.mpr hmem.1, List.count_eq_zero.mpr hheld] at hsettled
  rw [List.count_eq_zero.mpr hmem.2] at haccounted
  omega

end

end Ledger

end TsonicNode.Lib
