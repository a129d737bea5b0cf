import TsonicNode.Readline.Interface

/-!
# Closing an interface

Only `closing` closes an interface and gives its subscriptions up; `Quiet` is
what every other piece keeps (`perform_cases`). From it follow `Closing`, what
holds of the close events, of the subscriptions and of what was given away, and
`Kept`, what a closed interface still does: a line emission in progress calls
the listeners it has left, and nothing else gets a line (`interface_closes`).
-/

namespace TsonicNode.Readline

open TsonicNode.Lib TsonicNode.Internal
open TsonicNode.Stream (StreamDecoder)
open TsonicNode.Lib.Lines (Bytes)

variable {Callback : Type}

/-! ## What is told of a run -/

/-- `close` emits, and no other one has emitted since it began. -/
def Entry.first : Entry Callback → Bool
  | .closes overtaken => !overtaken
  | _ => false

theorem ends_of_first {entry : Entry Callback} (h : entry.first = true) : entry.ends = true := by
  cases entry with
  | closes overtaken => rfl
  | _ => cases h

/-- A line is given away, or a question is called. -/
def Entry.gives : Entry Callback → Bool
  | .delivered .. => true
  | .asked .. => true
  | _ => false

/-- The interface was closed then. -/
def Entry.closed : Entry Callback → Bool
  | .delivered _ _ _ _ closed => closed
  | .called _ _ closed => closed
  | .asked _ closed => closed
  | _ => false

/-- A `line` listener is called. -/
def Entry.hears : Entry Callback → Bool
  | .called .lines _ _ => true
  | _ => false

/-- The listeners that a line emission has left. -/
def Code.left : Code Callback → Nat
  | .emit .lines _ rest => rest.length
  | _ => 0

/-- It calls no `line` listener and closes nothing. -/
def Code.still : Code Callback → Bool
  | .emit .lines _ rest => rest.isEmpty
  | .closing _ => false
  | _ => true

namespace System

/-- The lines given away and the questions called. -/
def given (system : System Callback) : List (Entry Callback) := system.record.filter Entry.gives

def heard (system : System Callback) : Nat := system.record.countP Entry.hears

def left (system : System Callback) : Nat := (system.stack.map Code.left).sum

/-- What `closing` changes, but for the record. -/
def view (system : System Callback) :=
  (system.interface.closed, system.interface.inputData, system.interface.inputEnd, system.interface.inputClose,
    system.interface.inputError, system.subscriptions)

/-- Nothing is closed, and nothing is given away where the interface is closed; a `close` begins on an open
interface only. `bound` is for the listeners of an emission that is on the stack no longer. -/
structure Quiet (bound : Nat) (system after : System Callback) : Prop where
  view : after.view = system.view
  record : ∃ entries, after.record = system.record ++ entries ∧
    ∀ entry ∈ entries, entry.ends = false ∧
      (entry.gives = true → entry.closed = false ∧ system.interface.closed = false)
  begun : ∀ emitted, .closing emitted ∈ after.stack → .closing emitted ∈ system.stack ∨
    system.interface.closed = false ∧ emitted = system.record.countP Entry.ends
  heard : after.heard + after.left ≤ system.heard + system.left + bound ∨ system.interface.closed = false

section
variable {system after : System Callback} {bound : Nat}

theorem Quiet.refl (system : System Callback) : Quiet bound system system where
  view := rfl
  record := ⟨[], (List.append_nil _).symm, by simp⟩
  begun _ hmem := .inl hmem
  heard := .inl (Nat.le_add_right _ _)

/-- What changes is of no account here. -/
theorem Quiet.same (h : Quiet bound system after) {last : System Callback} (hview : last.view = after.view)
    (hrecord : last.record = after.record) (hstack : last.stack = after.stack) : Quiet bound system last where
  view := hview.trans h.view
  record := by
    rw [hrecord]
    exact h.record
  begun := by
    rw [hstack]
    exact h.begun
  heard := by
    have hheard := h.heard
    unfold System.heard left at hheard ⊢
    rw [hrecord, hstack]
    exact hheard

theorem left_push (codes : List (Code Callback)) (system : System Callback) :
    (system.push codes).left = (codes.map Code.left).sum + system.left := by
  show ((codes ++ system.stack).map Code.left).sum = _
  rw [List.map_append, List.sum_append]
  rfl

theorem left_still {code : Code Callback} (h : code.still = true) : code.left = 0 := by
  cases code with
  | emit event arguments rest =>
    cases event with
    | lines => exact List.length_eq_zero_iff.mpr (List.isEmpty_iff.mp h)
    | _ => rfl
  | _ => rfl

theorem Quiet.push (h : Quiet bound system after) {codes : List (Code Callback)}
    (hstill : codes.all Code.still = true) : Quiet bound system (after.push codes) where
  view := h.view
  record := h.record
  begun emitted hmem := by
    rcases List.mem_append.mp hmem with hmem | hmem
    · cases List.all_eq_true.mp hstill _ hmem
    · exact h.begun emitted hmem
  heard := by
    have hleft : (codes.map Code.left).sum = 0 := by
      apply List.sum_eq_zero
      intro left hleft
      obtain ⟨code, hmem, rfl⟩ := List.mem_map.mp hleft
      exact left_still (List.all_eq_true.mp hstill code hmem)
    rw [left_push, hleft, Nat.zero_add]
    exact h.heard

theorem Quiet.calls (h : Quiet bound system after) {last : System Callback} {codes : List (Code Callback)}
    (hview : last.view = after.view) (hrecord : last.record = after.record) (hstack : last.stack = codes ++ after.stack)
    (hstill : codes.all Code.still = true) : Quiet bound system last :=
  (h.push hstill).same hview hrecord hstack

/-- Lines are given away by an open interface only. -/
theorem Quiet.note (h : Quiet bound system after) {entry : Entry Callback} (hends : entry.ends = false)
    (hgives : entry.gives = true → entry.closed = false ∧ system.interface.closed = false)
    (hhears : entry.hears = false) : Quiet bound system (after.note entry) where
  view := h.view
  record := by
    obtain ⟨entries, hrecord, hentries⟩ := h.record
    refine ⟨entries ++ [entry], ?_, fun other hother => ?_⟩
    · show after.record ++ [entry] = _
      rw [hrecord, List.append_assoc]
    · rcases List.mem_append.mp hother with hother | hother
      · exact hentries other hother
      · rw [List.mem_singleton.mp hother]
        exact ⟨hends, hgives⟩
  begun := h.begun
  heard := by
    have hsame : (after.note entry).heard = after.heard := by
      show (after.record ++ [entry]).countP Entry.hears = _
      rw [List.countP_append, List.countP_singleton, hhears]
      rfl
    rw [hsame]
    exact h.heard

theorem Quiet.open (hopen : system.interface.closed = false) (hview : after.view = system.view)
    (hrecord : ∃ entries, after.record = system.record ++ entries ∧
      ∀ entry ∈ entries, entry.ends = false ∧ entry.closed = false)
    (hbegun : ∀ emitted, .closing emitted ∈ after.stack → .closing emitted ∈ system.stack) :
    Quiet bound system after where
  view := hview
  record := by
    obtain ⟨entries, hrecord, hentries⟩ := hrecord
    refine ⟨entries, hrecord, fun entry hentry => ?_⟩
    exact ⟨(hentries entry hentry).1, fun _ => ⟨(hentries entry hentry).2, hopen⟩⟩
  begun emitted hmem := .inl (hbegun emitted hmem)
  heard := .inr hopen

/-- `close` begins, on an open interface. -/
theorem Quiet.closes (hopen : system.interface.closed = false) :
    Quiet bound system (system.push [.pause, .closing (system.record.countP Entry.ends)]) where
  view := rfl
  record := ⟨[], (List.append_nil _).symm, by simp⟩
  begun emitted hmem := by
    rcases List.mem_append.mp hmem with hmem | hmem
    · have hsame : emitted = system.record.countP Entry.ends := by simpa using hmem
      exact .inr ⟨hopen, hsame⟩
    · exact .inl hmem
  heard := .inr hopen

theorem left_le {stack : List (Code Callback)} (h : stack <:+ system.stack) :
    (stack.map Code.left).sum ≤ system.left := by
  obtain ⟨front, hfront⟩ := h
  unfold left
  rw [← hfront, List.map_append, List.sum_append]
  omega

/-- Less is left to do. -/
theorem Quiet.drops (h : Quiet bound system after) {stack : List (Code Callback)} (hstack : stack <:+ after.stack) :
    Quiet bound system { after with stack } where
  view := h.view
  record := h.record
  begun emitted hmem := h.begun emitted (hstack.subset hmem)
  heard := by
    have hle := left_le hstack
    rcases h.heard with hheard | hopen
    · exact .inl ((Nat.add_le_add_left hle _).trans hheard)
    · exact .inr hopen

theorem Quiet.raise (h : Quiet bound system after) : Quiet bound system after.raise := by
  obtain ⟨dispatching, stack, hstack, hraise⟩ := raise_cases after
  rw [hraise]
  exact (h.drops hstack).same rfl rfl rfl

end

/-! ## Pieces -/

section
variable {system : System Callback}

/-- The next listener is called behind those that are passed over. -/
theorem nextCallback_lt {state listeners : Listeners Callback} {rest rest' : List (Listener Callback)}
    {listener : Listener Callback} (h : state.nextCallback rest = (listeners, some (listener, rest'))) :
    rest'.length < rest.length := by
  obtain ⟨skipped, -, ⟨-, hnone⟩ | ⟨other, behind, hrest, -, hsome⟩⟩ := nextCallback_inv state rest
  · rw [hnone] at h
    cases h
  · have hbehind : behind = rest' := by
      rcases hsome with ⟨-, hsome⟩ | ⟨flag, -, hsome⟩
      · rw [hsome] at h
        cases h
        rfl
      · rw [hsome] at h
        cases h
        rfl
    rw [hrest, ← hbehind, List.length_append, List.length_cons]
    omega

theorem emit_quiet (system : System Callback) (event : Event) (arguments : Arguments)
    (rest : List (Listener Callback)) :
    Quiet (Code.left (.emit event arguments rest : Code Callback)) system (system.emit event arguments rest) := by
  unfold System.emit
  dsimp only
  split
  · exact (Quiet.refl system).same rfl rfl rfl
  · rename_i listener rest' hnext
    have hrest : rest'.length < rest.length := nextCallback_lt (Prod.ext rfl hnext)
    refine ⟨rfl, ⟨[.called event listener.callback system.interface.closed], rfl, ?_⟩, fun emitted hmem => .inl ?_,
      .inl ?_⟩
    · intro entry hentry
      rw [List.mem_singleton.mp hentry]
      exact ⟨rfl, fun hgives => Bool.noConfusion hgives⟩
    · simpa [push, note] using hmem
    · -- a listener of those that are left
      show (system.record ++ [Entry.called event listener.callback system.interface.closed]).countP Entry.hears +
        (0 + (Code.left (.emit event arguments rest' : Code Callback) + system.left)) ≤ _
      rw [List.countP_append]
      cases event with
      | lines =>
        show system.heard + 1 + (0 + (rest'.length + system.left)) ≤ system.heard + system.left + rest.length
        omega
      | _ =>
        show system.heard + 0 + (0 + (0 + system.left)) ≤ system.heard + system.left + 0
        omega

theorem feed_quiet (text : Bytes) (now : Int) (system : System Callback) : Quiet 0 system (system.feed text now) := by
  unfold System.feed
  dsimp only
  split
  · exact (Quiet.refl system).same rfl rfl rfl
  · refine Quiet.raise ?_
    exact (Quiet.refl system).same rfl rfl rfl

theorem loop_quiet (system : System Callback) : Quiet 0 system system.loop := by
  unfold System.loop
  dsimp only
  split
  · exact (Quiet.refl system).same rfl rfl rfl
  · rename_i hrun
    have hopen : system.interface.closed = false := by
      cases hclosed : system.interface.closed with
      | false => rfl
      | true => simp [hclosed] at hrun
    split
    · refine Quiet.raise ?_
      exact (Quiet.refl system).calls rfl rfl rfl rfl
    · exact (Quiet.refl system).same rfl rfl rfl
    · rename_i line lines htake
      obtain ⟨history, hremember⟩ := remember_cases { system.interface with lines } line.text
      rw [hremember]
      dsimp only
      split
      · rename_i callback _ _
        refine Quiet.open hopen rfl ⟨[.delivered line (some callback) (.question callback) system.interface.paused
          system.interface.closed, .asked callback system.interface.closed], ?_, ?_⟩ fun emitted hmem => ?_
        · simp [note, push]
        · simp [Entry.ends, Entry.closed, hopen]
        · simpa [note, push] using hmem
      · refine Quiet.open hopen rfl ⟨[.delivered line system.interface.callback .listeners system.interface.paused
          system.interface.closed], ?_, ?_⟩ fun emitted hmem => ?_
        · simp [note, push, begins]
        · simp [Entry.ends, Entry.closed, hopen]
        · simpa [note, push, begins] using hmem

/-- Every piece but `closing` is quiet. -/
theorem perform_cases (now : Int) (system : System Callback) (code : Code Callback) :
    (∃ emitted, code = .closing emitted) ∨ Quiet code.left system (system.perform now code) := by
  have hrefl : Quiet 0 system system := .refl system
  cases code with
  | closing emitted => exact .inl ⟨emitted, rfl⟩
  | close =>
    right
    dsimp only [System.perform]
    split
    · exact hrefl
    · rename_i hopen
      exact .closes (Bool.not_eq_true _ ▸ hopen)
  | output text =>
    right
    dsimp only [System.perform]
    split
    · exact (hrefl.note rfl (fun hgives => Bool.noConfusion hgives) rfl).push rfl
    · exact hrefl
  | ask query callback => exact .inr (hrefl.calls rfl rfl rfl rfl)
  | paused => exact .inr (hrefl.calls rfl rfl rfl rfl)
  | resumed => exact .inr (hrefl.calls rfl rfl rfl rfl)
  | feed text => exact .inr (feed_quiet text now system)
  | finish => exact .inr (hrefl.same rfl rfl rfl)
  | dispatch =>
    right
    dsimp only [System.perform]
    split
    · exact hrefl
    · exact hrefl.calls rfl rfl rfl rfl
  | loop => exact .inr (loop_quiet system)
  | polled =>
    right
    dsimp only [System.perform]
    split
    · exact hrefl.push rfl
    · exact hrefl
  | emit event arguments rest => exact .inr (emit_quiet system event arguments rest)
  | outside => exact .inr (hrefl.push rfl)
  | outputPrompt => exact .inr (hrefl.push rfl)
  | _ =>
    right
    dsimp only [System.perform]
    split
    · exact hrefl
    · exact hrefl.push rfl

end

/-- The events that the input delivers once. -/
def Action.spends : Action Callback → Option InputEvent
  | .inputEnd => some .end_
  | .inputClose => some .close
  | _ => none

def spent (action : Action Callback) (system : System Callback) : System Callback :=
  match action.spends with
  | none => system
  | some event => { system with subscriptions := system.subscriptions.erase event }

section
variable (unpaired : List UInt16 → Error) (same : Callback → Callback → Bool)

/-- What outside code does is quiet, but for the events that the input delivers once. -/
theorem act_quiet (system : System Callback) (action : Action Callback) :
    Quiet 0 (spent action system) (system.act unpaired same action) := by
  have hrefl : Quiet 0 system system := .refl system
  cases action with
  | question query callback =>
    dsimp only [System.act]
    split
    · exact hrefl
    · split
      · exact hrefl.push rfl
      · exact hrefl.push rfl
  | on event callback once =>
    dsimp only [System.act]
    split
    · exact hrefl.same rfl rfl rfl
    · exact hrefl
  | data value =>
    dsimp only [System.act]
    split
    · exact hrefl
    · split
      · exact hrefl.push rfl
      · split
        · exact hrefl.same rfl rfl rfl
        · exact hrefl.calls rfl rfl rfl rfl
  | inputEnd =>
    have hspent : Quiet 0 (spent .inputEnd system)
        { system with subscriptions := system.subscriptions.erase .end_ } := .refl _
    dsimp only [System.act]
    split
    · rename_i hmem
      exact hspent.same (by rw [List.erase_of_not_mem hmem]) rfl rfl
    · split
      · exact hspent
      · split
        · exact hspent.same rfl rfl rfl
        · exact hspent.calls rfl rfl rfl rfl
  | inputClose =>
    have hspent : Quiet 0 (spent .inputClose system)
        { system with subscriptions := system.subscriptions.erase .close } := .refl _
    dsimp only [System.act]
    split
    · rename_i hmem
      exact hspent.same (by rw [List.erase_of_not_mem hmem]) rfl rfl
    · split
      · exact hspent
      · exact hspent.push rfl
  | inputError error =>
    dsimp only [System.act]
    split
    · exact hrefl
    · split
      · exact hrefl
      · rename_i hsome
        exact hrefl.push rfl
  | setPrompt value => exact hrefl.same rfl rfl rfl
  | off event callback => exact hrefl.same rfl rfl rfl
  | «return» => exact hrefl.drops (List.tail_suffix _)
  | raise =>
    refine Quiet.raise ?_
    exact hrefl.drops (List.tail_suffix _)
  | go now => exact hrefl
  | pause => exact hrefl.push rfl
  | resume => exact hrefl.push rfl
  | close => exact hrefl.push rfl
  | poll => exact hrefl.push rfl
  | _ =>
    dsimp only [System.act]
    split
    · exact hrefl
    · exact hrefl.push rfl

end

/-! ## What holds of a run -/

structure Closing (system : System Callback) : Prop where
  ends : system.record.countP Entry.ends = 0 ↔ system.interface.closed = false
  begun : ∀ emitted, .closing emitted ∈ system.stack → emitted = 0
  first : system.record.countP Entry.first = if system.interface.closed then 1 else 0
  nodup : system.subscriptions.Nodup
  shut : system.interface.closed = true → system.subscriptions = [] ∧ system.interface.inputData = false ∧
    system.interface.inputEnd = false ∧ system.interface.inputClose = false ∧ system.interface.inputError = false
  listens : system.interface.closed = false → .data ∈ system.subscriptions ∧ .error ∈ system.subscriptions ∧
    system.interface.inputData = true ∧ system.interface.inputEnd = true ∧
    system.interface.inputClose = true ∧ system.interface.inputError = true
  gives : ∀ entry ∈ system.given, entry.closed = false

/-- While the interface is open, the input has its callback. -/
def Keeps (event : InputEvent) (system : System Callback) : Prop :=
  system.interface.closed = false → event ∈ system.subscriptions

section
variable {system after : System Callback} {bound : Nat}

theorem Closing.quiet (h : Closing system) (hquiet : Quiet bound system after) : Closing after := by
  obtain ⟨hview, ⟨entries, hrecord, hentries⟩, hbegun, -⟩ := hquiet
  unfold view at hview
  simp only [Prod.mk.injEq] at hview
  obtain ⟨hclosed, hdata, hend, hclose, herror, hsubscriptions⟩ := hview
  constructor
  · have hnone : entries.countP Entry.ends = 0 := by
      rw [List.countP_eq_zero]
      intro entry hentry hends
      rw [(hentries entry hentry).1] at hends
      cases hends
    rw [hrecord, hclosed, List.countP_append, hnone, Nat.add_zero]
    exact h.ends
  · intro emitted hmem
    rcases hbegun emitted hmem with hmem | ⟨hopen, rfl⟩
    · exact h.begun emitted hmem
    · exact h.ends.mpr hopen
  · have hnone : entries.countP Entry.first = 0 := by
      rw [List.countP_eq_zero]
      intro entry hentry hfirst
      cases (hentries entry hentry).1.symm.trans (ends_of_first hfirst)
    rw [hrecord, hclosed, List.countP_append, hnone, Nat.add_zero, h.first]
  · rw [hsubscriptions]
    exact h.nodup
  · rw [hclosed, hsubscriptions, hdata, hend, hclose, herror]
    exact h.shut
  · rw [hclosed, hsubscriptions, hdata, hend, hclose, herror]
    exact h.listens
  · intro entry hentry
    obtain ⟨hmem, hgives⟩ := List.mem_filter.mp hentry
    rw [hrecord] at hmem
    rcases List.mem_append.mp hmem with hmem | hmem
    · exact h.gives entry (List.mem_filter.mpr ⟨hmem, hgives⟩)
    · exact ((hentries entry hmem).2 hgives).1

theorem Keeps.quiet {event : InputEvent} (h : Keeps event system) (hquiet : Quiet bound system after) :
    Keeps event after := by
  have hview := hquiet.view
  unfold view at hview
  simp only [Prod.mk.injEq] at hview
  obtain ⟨hclosed, -, -, -, -, hsubscriptions⟩ := hview
  unfold Keeps
  rw [hclosed, hsubscriptions]
  exact h

/-- The input delivers an event that it delivers once. -/
theorem Closing.spent (h : Closing system) (action : Action Callback) : Closing (spent action system) := by
  have herase : ∀ event, action.spends = some event →
      Closing { system with subscriptions := system.subscriptions.erase event } := by
    intro event hevent
    obtain ⟨hdata, herror⟩ : event ≠ .data ∧ event ≠ .error := by
      cases action with
      | inputEnd =>
        cases hevent
        decide
      | inputClose =>
        cases hevent
        decide
      | _ => cases hevent
    refine ⟨h.ends, h.begun, h.first, h.nodup.erase event, fun hclosed => ?_, fun hopen => ?_, h.gives⟩
    · obtain ⟨hsubscriptions, hheld⟩ := h.shut hclosed
      refine ⟨?_, hheld⟩
      show system.subscriptions.erase event = []
      rw [hsubscriptions]
      rfl
    · obtain ⟨hmem, hmem', hheld⟩ := h.listens hopen
      exact ⟨(List.mem_erase_of_ne hdata.symm).mpr hmem, (List.mem_erase_of_ne herror.symm).mpr hmem', hheld⟩
  unfold System.spent
  cases hspends : action.spends with
  | none => exact h
  | some event => exact herase event hspends

theorem Keeps.spent {event : InputEvent} (h : Keeps event system) {action : Action Callback}
    (hother : action.spends ≠ some event) : Keeps event (spent action system) := by
  unfold System.spent
  cases hspends : action.spends with
  | none => exact h
  | some other =>
    have hne : event ≠ other := by
      rintro rfl
      exact hother hspends
    exact fun hopen => (List.mem_erase_of_ne hne).mpr (h hopen)

/-- The interface gives up all its subscriptions, those too that the input has spent. -/
theorem Closing.unsubscribed (h : Closing system) : system.unsubscribe.subscriptions = [] := by
  cases hclosed : system.interface.closed with
  | true =>
    obtain ⟨hsubscriptions, hdata, hend, hclose, herror⟩ := h.shut hclosed
    simp [unsubscribe, forget, hsubscriptions, hdata, hend, hclose, herror]
  | false =>
    obtain ⟨-, -, hdata, hend, hclose, herror⟩ := h.listens hclosed
    simp only [unsubscribe, forget, hdata, hend, hclose, herror, if_true]
    rw [List.eq_nil_iff_forall_not_mem]
    intro event hevent
    have hfirst := h.nodup.erase InputEvent.data
    have hsecond := hfirst.erase InputEvent.end_
    rw [(hsecond.erase _).mem_erase_iff, hsecond.mem_erase_iff, hfirst.mem_erase_iff, h.nodup.mem_erase_iff] at hevent
    obtain ⟨hnerror, hnclose, hnend, hndata, -⟩ := hevent
    cases event with
    | end_ => exact hnend rfl
    | close => exact hnclose rfl
    | error => exact hnerror rfl
    | data => exact hndata rfl

/-- A `close` that began on an open interface was overtaken if the interface is closed by now. -/
theorem Closing.closing (h : Closing system) : Closing (system.closing 0) := by
  have hrest := h.unsubscribed
  refine ⟨⟨?_, fun hopen => Bool.noConfusion hopen⟩, fun emitted hmem => ?_, ?_, ?_,
    fun _ => ⟨hrest, rfl, rfl, rfl, rfl⟩, fun hopen => Bool.noConfusion hopen, ?_⟩
  · show (system.record ++ [Entry.closes (decide (0 < system.record.countP Entry.ends))]).countP Entry.ends = 0 → _
    rw [List.countP_append, List.countP_singleton]
    exact fun hnone => absurd hnone (Nat.succ_ne_zero _)
  · rcases List.mem_cons.mp hmem with hmem | hmem
    · cases hmem
    · exact h.begun emitted hmem
  · show (system.record ++ [Entry.closes (decide (0 < system.record.countP Entry.ends))]).countP Entry.first = 1
    rw [List.countP_append, h.first, List.countP_singleton]
    cases hclosed : system.interface.closed with
    | false =>
      rw [h.ends.mpr hclosed]
      rfl
    | true =>
      have hbefore : 0 < system.record.countP Entry.ends := by
        apply Nat.pos_of_ne_zero
        intro hnone
        cases (h.ends.mp hnone).symm.trans hclosed
      rw [decide_eq_true hbefore]
      rfl
  · show system.unsubscribe.subscriptions.Nodup
    rw [hrest]
    exact List.nodup_nil
  · intro entry hentry
    obtain ⟨hmem, hgives⟩ := List.mem_filter.mp hentry
    rcases List.mem_append.mp hmem with hmem | hmem
    · exact h.gives entry (List.mem_filter.mpr ⟨hmem, hgives⟩)
    · rw [List.mem_singleton.mp hmem] at hgives
      cases hgives

end

/-- What a closed interface does: nothing is given away, and `line` listeners are called that are left. -/
def Kept (system after : System Callback) : Prop :=
  system.interface.closed = true → after.interface.closed = true ∧ after.given = system.given ∧
    after.heard + after.left ≤ system.heard + system.left

/-- A piece is taken from the stack, with what it has left. -/
theorem Quiet.pops {system after : System Callback} {code : Code Callback} {stack : List (Code Callback)}
    (hstack : system.stack = code :: stack) (h : Quiet code.left { system with stack } after) :
    Quiet 0 system after where
  view := h.view
  record := h.record
  begun emitted hmem := (h.begun emitted hmem).imp_left fun hmem => hstack ▸ List.mem_cons_of_mem _ hmem
  heard := by
    have hleft : system.left = code.left + (stack.map Code.left).sum := by
      unfold left
      rw [hstack]
      rfl
    rcases h.heard with hheard | hopen
    · left
      rw [hleft]
      refine hheard.trans (Nat.le_of_eq ?_)
      show system.heard + (stack.map Code.left).sum + code.left = _
      omega
    · exact .inr hopen

theorem Quiet.kept {system after : System Callback} (h : Quiet 0 system after) : Kept system after := by
  intro hclosed
  obtain ⟨hview, ⟨entries, hrecord, hentries⟩, -, hheard⟩ := h
  refine ⟨(congrArg Prod.fst hview).trans hclosed, ?_, ?_⟩
  · unfold given
    have hnone : entries.filter Entry.gives = [] := by
      rw [List.filter_eq_nil_iff]
      intro entry hentry hgives
      rw [((hentries entry hentry).2 hgives).2] at hclosed
      cases hclosed
    rw [hrecord, List.filter_append, hnone, List.append_nil]
  · rcases hheard with hheard | hopen
    · exact hheard
    · rw [hopen] at hclosed
      cases hclosed

theorem Kept.closing (emitted : Nat) (system : System Callback) : Kept system (system.closing emitted) := by
  intro hclosed
  refine ⟨rfl, ?_, ?_⟩
  · show (system.record ++ [Entry.closes _]).filter Entry.gives = _
    rw [List.filter_append]
    exact List.append_nil _
  · show (system.record ++ [Entry.closes _]).countP Entry.hears + (0 + system.left) ≤ _
    rw [List.countP_append, Nat.zero_add]
    exact Nat.le_refl _

/-! ## Runs -/

section
variable (unpaired : List UInt16 → Error) (same : Callback → Callback → Bool) {system : System Callback}

theorem Closing.step (h : Closing system) (action : Action Callback) : Closing (system.step unpaired same action) := by
  rcases step_cases unpaired same system action with ⟨-, hact⟩ | ⟨now, code, stack, hstack, -, hgo⟩ | hstill
  · rw [hact]
    exact (h.spent action).quiet (act_quiet unpaired same system action)
  · have hpopped : Closing { system with stack } :=
      ⟨h.ends, fun emitted hmem => h.begun emitted (hstack ▸ List.mem_cons_of_mem _ hmem), h.first, h.nodup, h.shut,
        h.listens, h.gives⟩
    rw [hgo]
    rcases perform_cases now { system with stack } code with ⟨emitted, rfl⟩ | hquiet
    · obtain rfl := h.begun emitted (hstack ▸ List.mem_cons_self)
      exact hpopped.closing
    · exact hpopped.quiet hquiet
  · rw [hstill]
    exact h

theorem Keeps.step {event : InputEvent} (h : Keeps event system) {action : Action Callback}
    (hother : action.spends ≠ some event) : Keeps event (system.step unpaired same action) := by
  rcases step_cases unpaired same system action with ⟨-, hact⟩ | ⟨now, code, stack, -, -, hgo⟩ | hstill
  · rw [hact]
    exact (h.spent hother).quiet (act_quiet unpaired same system action)
  · have hpopped : Keeps event { system with stack } := h
    rw [hgo]
    rcases perform_cases now { system with stack } code with ⟨emitted, rfl⟩ | hquiet
    · exact fun hopen => Bool.noConfusion hopen
    · exact hpopped.quiet hquiet
  · rw [hstill]
    exact h

theorem Kept.step (system : System Callback) (action : Action Callback) :
    Kept system (system.step unpaired same action) := by
  rcases step_cases unpaired same system action with ⟨-, hact⟩ | ⟨now, code, stack, hstack, -, hgo⟩ | hstill
  · have hspent : Kept (spent action system) (system.act unpaired same action) :=
      (act_quiet unpaired same system action).kept
    have hsame : (spent action system).interface = system.interface ∧ (spent action system).record = system.record ∧
        (spent action system).stack = system.stack := by
      unfold System.spent
      split
      · exact ⟨rfl, rfl, rfl⟩
      · exact ⟨rfl, rfl, rfl⟩
    rw [hact]
    unfold Kept given heard left at hspent ⊢
    rw [hsame.1, hsame.2.1, hsame.2.2] at hspent
    exact hspent
  · rw [hgo]
    rcases perform_cases now { system with stack } code with ⟨emitted, rfl⟩ | hquiet
    · intro hclosed
      obtain ⟨hshut, hgiven, hheard⟩ := Kept.closing emitted { system with stack } hclosed
      have hle := left_le (show stack <:+ system.stack from hstack ▸ List.suffix_cons _ _)
      exact ⟨hshut, hgiven, hheard.trans (Nat.add_le_add_left hle _)⟩
    · exact (hquiet.pops hstack).kept
  · rw [hstill]
    exact fun hclosed => ⟨hclosed, rfl, Nat.le_refl _⟩

theorem Kept.run (system : System Callback) (actions : List (Action Callback)) :
    Kept system (Lib.run (System.step unpaired same) system actions) := by
  refine run_relation (R := Kept) (fun _ hclosed => ⟨hclosed, rfl, Nat.le_refl _⟩) ?_ (Kept.step unpaired same) system
    actions
  intro first second third h h' hclosed
  obtain ⟨hshut, hgiven, hheard⟩ := h hclosed
  obtain ⟨hshut', hgiven', hheard'⟩ := h' hshut
  exact ⟨hshut', hgiven'.trans hgiven, hheard'.trans hheard⟩

end

theorem Closing.new {options : ReadLineOptions} {start : System Callback} (hstart : System.new options = .ok start) :
    Closing start ∧ Keeps .end_ start ∧ Keeps .close start := by
  unfold System.new at hstart
  cases hsize : options.checkedHistorySize with
  | error error =>
    rw [hsize] at hstart
    cases hstart
  | ok historySize =>
    rw [hsize] at hstart
    cases hstart
    have hall : ∀ event : InputEvent, event ∈ [InputEvent.end_, .close, .error, .data] := by
      intro event
      cases event <;> decide
    refine ⟨⟨⟨fun _ => rfl, fun _ => rfl⟩, fun _ hmem => absurd hmem List.not_mem_nil, rfl, ?_, ?_, ?_, ?_⟩,
      fun _ => hall .end_, fun _ => hall .close⟩
    · show [InputEvent.end_, .close, .error, .data].Nodup
      decide
    · exact fun hclosed => Bool.noConfusion hclosed
    · exact fun _ => ⟨hall .data, hall .error, rfl, rfl, rfl, rfl⟩
    · exact fun entry hentry => absurd hentry List.not_mem_nil

end System

/-- In every run, one `close` emits that no other has overtaken since it began, once the interface is
closed, and none emits before; no line is given away then and no question called, but a line emission in progress goes on; the
interface gives its subscriptions up when it closes, and the input has them until then or their event. -/
theorem interface_closes (unpaired : List UInt16 → Error) (same : Callback → Callback → Bool)
    {options : ReadLineOptions} {start : System Callback} (hstart : System.new options = .ok start)
    (actions : List (System.Action Callback)) :
    let system := Lib.run (System.step unpaired same) start actions
    system.record.countP Entry.first = (if system.interface.closed then 1 else 0) ∧
    (system.record.countP Entry.ends = 0 ↔ system.interface.closed = false) ∧
    (∀ entry ∈ system.given, entry.closed = false) ∧
    (∀ later, System.Kept system (Lib.run (System.step unpaired same) system later)) ∧
    (system.interface.closed = true → system.subscriptions = [] ∧ system.interface.inputData = false ∧
      system.interface.inputEnd = false ∧ system.interface.inputClose = false ∧ system.interface.inputError = false) ∧
    (system.interface.closed = false → .data ∈ system.subscriptions ∧ .error ∈ system.subscriptions ∧
      (.inputEnd ∉ actions → .end_ ∈ system.subscriptions) ∧
      (.inputClose ∉ actions → .close ∈ system.subscriptions)) := by
  intro system
  obtain ⟨hnew, hend, hclose⟩ := System.Closing.new hstart
  have hclosing : System.Closing system := run_preserves (fun _ action h => h.step unpaired same action) hnew actions
  have hkeeps : ∀ event, System.Keeps event start → (∀ action ∈ actions, action.spends ≠ some event) →
      System.Keeps event system := fun event hevent hothers =>
    run_within (fun _ action hmem h => h.step unpaired same (hothers action hmem)) hevent actions (List.Subset.refl _)
  refine ⟨hclosing.first, hclosing.ends, hclosing.gives, System.Kept.run unpaired same system, hclosing.shut, fun hopen => ?_⟩
  obtain ⟨hdata, herror, -⟩ := hclosing.listens hopen
  refine ⟨hdata, herror, fun hnone => hkeeps .end_ hend ?_ hopen, fun hnone => hkeeps .close hclose ?_ hopen⟩
  · intro action hmem hspends
    cases action with
    | inputEnd => exact hnone hmem
    | _ => cases hspends
  · intro action hmem hspends
    cases action with
    | inputClose => exact hnone hmem
    | _ => cases hspends

/-- An interface that reads a line and is closed. -/
theorem interface_closes_once :
    ∃ start : System Unit, System.new {} = .ok start ∧
      let system := Lib.run (System.step (fun _ => ⟨""⟩) fun _ _ => true) start
        [.close, .go 0, .go 0, .return, .go 0, .go 0, .go 0]
      system.record.countP Entry.first = 1 ∧ system.subscriptions = [] := by
  refine ⟨_, rfl, ?_⟩
  obtain ⟨hfirst, -, -, -, hshut, -⟩ := interface_closes (fun _ => ⟨""⟩) (fun _ _ => true)
    (rfl : (System.new {} : Except Error (System Unit)) = .ok _) [.close, .go 0, .go 0, .return, .go 0, .go 0, .go 0]
  exact ⟨hfirst, (hshut rfl).1⟩

/-- A `pause` listener closes the interface that is being closed, and a `line` listener the one whose line
goes to another `line` listener, too. -/
theorem interface_closes_twice :
    (¬ ∀ (start : System Unit) (actions : List (System.Action Unit)), System.new {} = .ok start →
      (Lib.run (System.step (fun _ => ⟨""⟩) fun _ _ => true) start actions).record.countP Entry.ends ≤ 1) ∧
    ¬ ∀ (start : System Unit) (actions : List (System.Action Unit)), System.new {} = .ok start →
      ∀ entry ∈ (Lib.run (System.step (fun _ => ⟨""⟩) fun _ _ => true) start actions).record,
        entry.hears = true → entry.closed = false := by
  constructor
  · intro hall
    have htwice := hall _ [.on .pause () false, .close, .go 0, .go 0, .return, .go 0, .go 0,
      .close, .go 0, .go 0, .go 0, .go 0, .return, .go 0, .go 0] rfl
    revert htwice
    decide
  · intro hall
    have hcalled := hall _ [.on .lines () false, .on .lines () false, .write [10], .go 0, .go 0, .go 0, .go 0, .go 0,
      .close, .go 0, .go 0, .return, .go 0, .go 0, .go 0, .go 0, .return, .go 0] rfl
    revert hcalled
    decide

end TsonicNode.Readline
