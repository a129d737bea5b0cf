import TsonicNode.Filesystem.Copy

/-!
# Modes of copied directories

A directory that a copy creates waits for its mode until the entry it left on
the stack comes up, or until `finish` takes what is left. `unapplied` and
`unfinished` read from the log which directories wait; both are stacks, so that
inner directories come before outer ones. `copy_tree_modes` says when none is
left waiting, and that the ancestors are the directories that are not finished.
-/

namespace TsonicNode.Filesystem

open TsonicNode.Lib
open TsonicNode.Path (Bytes)

/-! ## What the log says -/

/-- A path some names below another one. -/
def Inside (outer inner : Bytes) : Prop := ∃ names, names ≠ [] ∧ inner = names.foldl joinPath outer

theorem Inside.name (outer name : Bytes) : Inside outer (joinPath outer name) :=
  ⟨[name], List.cons_ne_nil _ _, rfl⟩

theorem Inside.trans {a b c : Bytes} (h : Inside a b) (h' : Inside b c) : Inside a c := by
  obtain ⟨names, hnames, rfl⟩ := h
  obtain ⟨names', -, rfl⟩ := h'
  exact ⟨names ++ names', fun hnil => hnames (List.append_eq_nil_iff.mp hnil).1, (List.foldl_append).symm⟩

/-- The created directories that wait for their mode, the last first; a mode is
attempted for the last one only. -/
def applyEvent (waiting : Option (List (Bytes × Nat))) : Event → Option (List (Bytes × Nat))
  | .created destination mode => waiting.map ((destination, mode) :: ·)
  | .attempted destination mode => waiting.bind fun
    | [] => none
    | last :: rest => if last = (destination, mode) then some rest else none
  | .entered _ _ => waiting
  | .finished _ => waiting

def unapplied (log : List Event) : Option (List (Bytes × Nat)) := log.foldl applyEvent (some [])

/-- The directories that were entered and are not finished, the last first. -/
def finishEvent (opened : Option (List (Bytes × Stats))) : Event → Option (List (Bytes × Stats))
  | .entered destination source => opened.map ((destination, source) :: ·)
  | .finished destination => opened.bind fun
    | [] => none
    | last :: rest => if last.1 = destination then some rest else none
  | .created _ _ => opened
  | .attempted _ _ => opened

def unfinished (log : List Event) : Option (List (Bytes × Stats)) := log.foldl finishEvent (some [])

/-- A directory is created inside of all that wait. -/
def Ordered (log : List Event) : Prop :=
  ∀ before destination mode after waiting, log = before ++ .created destination mode :: after →
    unapplied before = some waiting → ∀ outer ∈ waiting, Inside outer.1 destination

theorem unapplied_append (log : List Event) (event : Event) :
    unapplied (log ++ [event]) = applyEvent (unapplied log) event := by
  rw [unapplied, List.foldl_append]
  rfl

theorem unfinished_append (log : List Event) (event : Event) :
    unfinished (log ++ [event]) = finishEvent (unfinished log) event := by
  rw [unfinished, List.foldl_append]
  rfl

theorem Ordered.append {log : List Event} (h : Ordered log) {event : Event}
    (hevent : ∀ destination mode waiting, event = .created destination mode →
      unapplied log = some waiting → ∀ outer ∈ waiting, Inside outer.1 destination) :
    Ordered (log ++ [event]) := by
  intro before destination mode after waiting hlog hwaiting
  rcases List.eq_nil_or_concat after with rfl | ⟨after, last, rfl⟩
  · obtain ⟨hbefore, hlast⟩ := List.append_inj' hlog rfl
    rw [← hbefore] at hwaiting
    exact hevent destination mode waiting (List.head_eq_of_cons_eq hlast) hwaiting
  · rw [List.concat_eq_append, ← List.cons_append, ← List.append_assoc] at hlog
    exact h before destination mode after waiting (List.append_inj' hlog rfl).1 hwaiting

/-! ## What the stack says -/

/-- The mode an entry applies. -/
def CopyEntry.applies (entry : CopyEntry) : Option Nat :=
  entry.finishMode.bind fun mode => if 0 ≤ mode then some mode.toNat else none

/-- The modes that are still to be applied. -/
def due (pending : List CopyEntry) : List (Bytes × Nat) :=
  pending.filterMap fun entry => entry.applies.map (entry.destination, ·)

/-- An entry is on the stack above the directories that it is inside of. -/
def Above (above below : CopyEntry) : Prop :=
  below.finishMode ≠ none → Inside below.destination above.destination

section Invariant

variable {World : Type}

/-- What holds in any case: what waits is what the stack applies. -/
structure Tracked (copy : Copy World) : Prop where
  waits : unapplied copy.log = some (due copy.pending)
  nested : copy.pending.Pairwise Above
  ordered : Ordered copy.log

/-- What holds as long as no step has failed: the ancestors are the directories
that are not finished, and those are the ones on the stack. -/
structure Current (copy : Copy World) (opened : List (Bytes × Stats)) : Prop where
  unfinished : unfinished copy.log = some opened
  ancestors : opened.map Prod.snd = copy.ancestors
  stack : opened.map Prod.fst =
    (copy.pending.filter fun entry => entry.finishMode.isSome).map CopyEntry.destination

end Invariant

/-! ## Calls that leave the traversal alone -/

section Quiet

variable {World α β : Type}

/-- Nothing but the world changes. -/
def Quiet (m : Action World α) : Prop := ∀ copy, ∃ world, finalState (m copy) = { copy with world := world }

theorem quiet_call (operation : EStateM Error World α) : Quiet (call operation) := fun copy => by
  unfold call zoom
  cases operation copy.world with
  | ok a world => exact ⟨world, rfl⟩
  | error e world => exact ⟨world, rfl⟩

theorem quiet_pure (a : α) : Quiet (pure a : Action World α) := fun copy => ⟨copy.world, rfl⟩

theorem quiet_throw (e : Error) : Quiet (throw e : Action World α) := fun copy => ⟨copy.world, rfl⟩

theorem quiet_raiseIf (condition : Bool) (message : String) :
    Quiet (raiseIf condition message : Action World Unit) := fun copy => by
  unfold raiseIf
  split
  case isTrue => exact ⟨copy.world, rfl⟩
  case isFalse => exact ⟨copy.world, rfl⟩

theorem quiet_get : Quiet (get : Action World (Copy World)) := fun copy => ⟨copy.world, rfl⟩

theorem Quiet.bind {m : Action World α} {f : α → Action World β} (hm : Quiet m) (hf : ∀ a, Quiet (f a)) :
    Quiet (m >>= f) := by
  intro copy
  obtain ⟨world, hworld⟩ := hm copy
  rw [bind_run]
  cases hrun : m copy with
  | ok a next =>
    rw [hrun] at hworld
    obtain rfl : next = { copy with world := world } := hworld
    obtain ⟨world', hworld'⟩ := hf a { copy with world := world }
    exact ⟨world', hworld'⟩
  | error e next =>
    rw [hrun] at hworld
    exact ⟨world, hworld⟩

theorem Quiet.ite {c : Prop} [Decidable c] {m n : Action World α} (hm : Quiet m) (hn : Quiet n) :
    Quiet (if c then m else n) := by
  split
  case isTrue => exact hm
  case isFalse => exact hn

/-- What a quiet action may be followed by. -/
theorem Quiet.wp {m : Action World α} (h : Quiet m) {Q : α → Copy World → Prop}
    {E : Error → Copy World → Prop} {copy : Copy World} (hQ : ∀ a world, Q a { copy with world := world })
    (hE : ∀ e world, E e { copy with world := world }) : wp m Q E copy := by
  obtain ⟨world, hworld⟩ := h copy
  unfold Lib.wp
  cases hrun : m copy with
  | ok a next =>
    rw [hrun] at hworld
    obtain rfl : next = { copy with world := world } := hworld
    exact hQ a world
  | error e next =>
    rw [hrun] at hworld
    obtain rfl : next = { copy with world := world } := hworld
    exact hE e world

end Quiet

section Steps

variable {World : Type} (settings : Settings World)

theorem quiet_absolute (path : Bytes) : Quiet (settings.absolute path) :=
  (quiet_call _).bind fun _ => quiet_pure _

theorem quiet_within (source destination : Bytes) : Quiet (settings.within source destination) :=
  (quiet_absolute settings source).bind fun _ => (quiet_absolute settings destination).bind fun _ => quiet_pure _

theorem quiet_checkParents (source : Stats) (turns : Nat) (parent : Bytes) :
    Quiet (settings.checkParents source turns parent) := by
  induction turns generalizing parent with
  | zero => exact quiet_pure _
  | succ turns ih =>
    exact (quiet_call _).bind fun _ => (quiet_raiseIf _ _).bind fun _ => (quiet_pure _).ite (ih _)

theorem quiet_checkOperands (source : Stats) (destination : Option Stats) :
    Quiet (Settings.checkOperands source destination : Action World Unit) := by
  cases destination with
  | none => exact quiet_pure _
  | some destination => exact (quiet_raiseIf _ _).bind fun _ => quiet_raiseIf _ _

theorem quiet_checkDirectory (entry : CopyEntry) (source : Stats) :
    Quiet (settings.checkDirectory entry source) := by
  refine (quiet_raiseIf _ _).bind fun _ => (quiet_within settings _ _).bind fun _ => ?_
  refine (quiet_raiseIf _ _).bind fun _ => quiet_get.bind fun _ => (quiet_raiseIf _ _).bind fun _ => ?_
  exact (quiet_absolute settings _).bind fun _ => quiet_checkParents settings _ _ _

theorem quiet_keeps (entry : CopyEntry) (destination : Option Stats) :
    Quiet (settings.keeps entry destination) := by
  cases destination with
  | none => exact quiet_pure _
  | some destination =>
    exact ((quiet_raiseIf _ _).bind fun _ => quiet_pure _).ite ((quiet_call _).bind fun _ => quiet_pure _)

theorem quiet_preserve (entry : CopyEntry) (permissions : Nat) :
    Quiet (settings.preserve entry permissions) :=
  ((quiet_call _).ite (quiet_pure _)).bind fun _ => (quiet_call _).bind fun _ => quiet_call _

theorem quiet_copyFile (entry : CopyEntry) (source : Stats) (destination : Option Stats) :
    Quiet (settings.copyFile entry source destination) := by
  refine (quiet_keeps settings _ _).bind fun _ => (quiet_pure _).ite ((quiet_call _).bind fun _ => ?_)
  exact ((quiet_preserve settings _ _).ite (quiet_pure _)).bind fun _ => quiet_call _

theorem quiet_replaceLink (entry : CopyEntry) (target : Bytes) (destination : Option Stats) :
    Quiet (settings.replaceLink entry target destination) := by
  cases destination with
  | none => exact quiet_pure _
  | some destination =>
    refine (quiet_raiseIf _ _).bind fun _ => (quiet_call _).bind fun _ => ?_
    refine ((quiet_pure _).ite (quiet_absolute settings _)).bind fun _ => (quiet_call _).bind fun _ => ?_
    refine ((quiet_within settings _ _).ite (quiet_pure _)).bind fun _ => (quiet_raiseIf _ _).bind fun _ => ?_
    refine (quiet_call _).bind fun _ => ((quiet_within settings _ _).ite (quiet_pure _)).bind fun _ => ?_
    exact (quiet_raiseIf _ _).bind fun _ => quiet_call _

theorem quiet_link (entry : CopyEntry) (destination : Option Stats) :
    Quiet (settings.link entry destination) := by
  refine (quiet_call _).bind fun _ => ((quiet_absolute settings _).ite (quiet_pure _)).bind fun _ => ?_
  exact (quiet_replaceLink settings _ _ _).bind fun _ => quiet_call _

theorem quiet_accepts (entry : CopyEntry) : Quiet (settings.accepts entry) := by
  unfold Settings.accepts
  split
  · exact quiet_pure _
  · exact quiet_call _

end Steps

/-! ## Entries that come up -/

theorem due_cons_none {entry : CopyEntry} (h : entry.applies = none) (rest : List CopyEntry) :
    due (entry :: rest) = due rest := by
  rw [due, List.filterMap_cons, h]
  rfl

theorem due_cons_some {entry : CopyEntry} {mode : Nat} (h : entry.applies = some mode)
    (rest : List CopyEntry) : due (entry :: rest) = (entry.destination, mode) :: due rest := by
  rw [due, List.filterMap_cons, h]
  rfl

theorem applies_none {entry : CopyEntry} (h : entry.finishMode = none) : entry.applies = none := by
  rw [CopyEntry.applies, h]
  rfl

theorem applies_nonneg {entry : CopyEntry} {mode : Int} (h : entry.finishMode = some mode) (hmode : 0 ≤ mode) :
    entry.applies = some mode.toNat := by
  rw [CopyEntry.applies, h, Option.bind_some, if_pos hmode]

theorem applies_neg {entry : CopyEntry} {mode : Int} (h : entry.finishMode = some mode) (hmode : ¬ 0 ≤ mode) :
    entry.applies = none := by
  rw [CopyEntry.applies, h, Option.bind_some, if_neg hmode]

section Entries

variable {World : Type} {copy next : Copy World} {entry : CopyEntry} {rest : List CopyEntry}

/-- Taking an entry without a mode to apply off the stack. -/
theorem Tracked.pop (h : Tracked copy) (hpending : copy.pending = entry :: rest) (happlies : entry.applies = none)
    (hrest : next.pending = rest) (hlog : next.log = copy.log) : Tracked next where
  waits := by rw [hlog, h.waits, hpending, hrest, due_cons_none happlies]
  nested := hrest ▸ (List.pairwise_cons.mp (hpending ▸ h.nested)).2
  ordered := hlog ▸ h.ordered

/-- Taking an entry off the stack and attempting its mode. -/
theorem Tracked.attempt (h : Tracked copy) (hpending : copy.pending = entry :: rest) {mode : Nat}
    (happlies : entry.applies = some mode) (hrest : next.pending = rest)
    (hlog : next.log = copy.log ++ [.attempted entry.destination mode]) : Tracked next where
  waits := by
    rw [hlog, unapplied_append, h.waits, hpending, hrest, due_cons_some happlies]
    exact if_pos rfl
  nested := hrest ▸ (List.pairwise_cons.mp (hpending ▸ h.nested)).2
  ordered := hlog ▸ h.ordered.append fun _ _ _ hevent => (by cases hevent)

/-- Events that apply no mode. -/
theorem Tracked.event (h : Tracked copy) {event : Event} (hpending : next.pending = copy.pending)
    (hlog : next.log = copy.log ++ [event]) (hevent : ∀ waiting, applyEvent waiting event = waiting)
    (hcreated : ∀ destination mode, event ≠ .created destination mode) : Tracked next where
  waits := by rw [hlog, unapplied_append, hevent, h.waits, hpending]
  nested := hpending ▸ h.nested
  ordered := hlog ▸ h.ordered.append fun destination mode _ heq => absurd heq (hcreated destination mode)

theorem Tracked.finished (h : Tracked copy) {destination : Bytes} (hpending : next.pending = copy.pending)
    (hlog : next.log = copy.log ++ [.finished destination]) : Tracked next :=
  h.event hpending hlog (fun _ => rfl) fun _ _ heq => (by cases heq)

theorem Tracked.world (h : Tracked copy) (hpending : next.pending = copy.pending) (hlog : next.log = copy.log) :
    Tracked next where
  waits := by rw [hlog, hpending, h.waits]
  nested := hpending ▸ h.nested
  ordered := hlog ▸ h.ordered

/-- An entry to copy comes up: the directories stay as they are. -/
theorem Current.pop {opened : List (Bytes × Stats)} (h : Current copy opened)
    (hpending : copy.pending = entry :: rest) (hmode : entry.finishMode = none) (hrest : next.pending = rest)
    (hancestors : next.ancestors = copy.ancestors) (hlog : next.log = copy.log) : Current next opened where
  unfinished := hlog ▸ h.unfinished
  ancestors := hancestors ▸ h.ancestors
  stack := by rw [h.stack, hpending, hrest, List.filter_cons_of_neg (by rw [hmode]; simp)]

/-- A directory is finished: it is the last one that was entered. -/
theorem Current.finish {opened : List (Bytes × Stats)} (h : Current copy opened)
    (hpending : copy.pending = entry :: rest) {mode : Int} (hmode : entry.finishMode = some mode)
    (hrest : next.pending = rest) (hancestors : next.ancestors = copy.ancestors.tail)
    (hlog : TsonicNode.Filesystem.unfinished next.log =
      finishEvent (TsonicNode.Filesystem.unfinished copy.log) (.finished entry.destination)) :
    ∃ opened, Current next opened := by
  have hstack := h.stack
  rw [hpending, List.filter_cons_of_pos (by rw [hmode]; rfl), List.map_cons] at hstack
  cases opened with
  | nil => cases hstack
  | cons last opened =>
    rw [List.map_cons] at hstack
    obtain ⟨hlast, hopened⟩ := List.cons.inj hstack
    refine ⟨opened, ?_, ?_, ?_⟩
    · rw [hlog, h.unfinished]
      exact if_pos hlast
    · rw [hancestors, ← h.ancestors]
      rfl
    · rw [hopened, hrest]

theorem mem_due {outer : Bytes × Nat} {pending : List CopyEntry} (h : outer ∈ due pending) :
    ∃ below ∈ pending, below.finishMode ≠ none ∧ below.destination = outer.1 := by
  rw [due, List.mem_filterMap] at h
  obtain ⟨below, hbelow, happlies⟩ := h
  cases hmode : below.finishMode with
  | none =>
    rw [applies_none hmode] at happlies
    cases happlies
  | some mode =>
    refine ⟨below, hbelow, by rw [hmode]; simp, ?_⟩
    obtain ⟨_, -, rfl⟩ := Option.map_eq_some_iff.mp happlies
    rfl

/-- A directory is created inside of those that wait. -/
theorem Tracked.create (h : Tracked copy) (hinside : ∀ below ∈ copy.pending, Above entry below)
    {mode : Nat} (hpending : next.pending = { entry with finishMode := some (mode : Int) } :: copy.pending)
    (hlog : next.log = copy.log ++ [.created entry.destination mode]) : Tracked next where
  waits := by
    have happlies : CopyEntry.applies { entry with finishMode := some (mode : Int) } = some mode := by
      rw [applies_nonneg rfl (Int.natCast_nonneg mode), Int.toNat_natCast]
    rw [hlog, unapplied_append, h.waits, hpending, due_cons_some happlies]
    rfl
  nested := hpending ▸ List.pairwise_cons.mpr ⟨hinside, h.nested⟩
  ordered := by
    rw [hlog]
    refine h.ordered.append fun destination mode waiting hevent hwaiting outer houter => ?_
    cases hevent
    rw [h.waits] at hwaiting
    cases hwaiting
    obtain ⟨below, hbelow, hmode, hdestination⟩ := mem_due houter
    exact hdestination ▸ hinside below hbelow hmode

/-- An entry without a mode to apply goes on the stack. -/
theorem Tracked.push (h : Tracked copy) (hinside : ∀ below ∈ copy.pending, Above entry below)
    (happlies : entry.applies = none) (hpending : next.pending = entry :: copy.pending)
    (hlog : next.log = copy.log) : Tracked next where
  waits := by rw [hlog, h.waits, hpending, due_cons_none happlies]
  nested := hpending ▸ List.pairwise_cons.mpr ⟨hinside, h.nested⟩
  ordered := hlog ▸ h.ordered

theorem Tracked.entered (h : Tracked copy) {destination : Bytes} {source : Stats}
    (hpending : next.pending = copy.pending) (hlog : next.log = copy.log ++ [.entered destination source]) :
    Tracked next :=
  h.event hpending hlog (fun _ => rfl) fun _ _ heq => (by cases heq)

theorem Current.enter {opened : List (Bytes × Stats)} (h : Current copy opened) {mode : Int} {source : Stats}
    (hpending : next.pending = { entry with finishMode := some mode } :: copy.pending)
    (hancestors : next.ancestors = source :: copy.ancestors)
    (hlog : TsonicNode.Filesystem.unfinished next.log =
      finishEvent (TsonicNode.Filesystem.unfinished copy.log) (.entered entry.destination source)) :
    Current next ((entry.destination, source) :: opened) where
  unfinished := by
    rw [hlog, h.unfinished]
    rfl
  ancestors := by rw [List.map_cons, h.ancestors, hancestors]
  stack := by
    rw [hpending, List.filter_cons_of_pos rfl, List.map_cons, List.map_cons, h.stack]

/-- The names of a directory go on the stack above it. -/
theorem Tracked.names (h : Tracked copy) (hpending : copy.pending = entry :: rest) (names : List Bytes)
    (hnext : next.pending = names.map entry.inside ++ copy.pending) (hlog : next.log = copy.log) :
    Tracked next where
  waits := by
    have hnames : due (names.map entry.inside) = [] := by
      refine List.filterMap_eq_nil_iff.mpr fun name hname => ?_
      obtain ⟨_, -, rfl⟩ := List.mem_map.mp hname
      rfl
    rw [hlog, h.waits, hnext, due, due, List.filterMap_append]
    exact congrArg some (by rw [show List.filterMap _ (names.map entry.inside) = [] from hnames, List.nil_append])
  nested := by
    rw [hnext, List.pairwise_append]
    refine ⟨?_, h.nested, fun name hname below hbelow hmode => ?_⟩
    · refine List.pairwise_map.mpr (List.pairwise_of_forall fun _ _ hmode => ?_)
      exact absurd rfl hmode
    · obtain ⟨name, -, rfl⟩ := List.mem_map.mp hname
      have hname : Inside entry.destination (entry.inside name).destination := .name _ _
      rw [hpending] at hbelow
      rcases List.mem_cons.mp hbelow with rfl | hbelow
      · exact hname
      · exact ((List.pairwise_cons.mp (hpending ▸ h.nested)).1 below hbelow hmode).trans hname
  ordered := hlog ▸ h.ordered

theorem Current.names {opened : List (Bytes × Stats)} (h : Current copy opened) (names : List Bytes)
    (hnext : next.pending = names.map entry.inside ++ copy.pending)
    (hancestors : next.ancestors = copy.ancestors) (hlog : next.log = copy.log) : Current next opened where
  unfinished := hlog ▸ h.unfinished
  ancestors := hancestors ▸ h.ancestors
  stack := by
    have hnames : (names.map entry.inside).filter (fun entry => entry.finishMode.isSome) = [] := by
      refine List.filter_eq_nil_iff.mpr fun name hname => ?_
      obtain ⟨_, -, rfl⟩ := List.mem_map.mp hname
      simp [CopyEntry.inside]
    rw [h.stack, hnext, List.filter_append, hnames, List.nil_append]

end Entries

/-! ## The traversal -/

section Traversal

variable {World : Type} (settings : Settings World)

theorem wp_record (event : Event) {Q : Unit → Copy World → Prop} {E : Error → Copy World → Prop}
    {copy : Copy World} :
    wp (record event) Q E copy = Q () { copy with log := copy.log ++ [event] } := rfl

theorem wp_applyMode {destination : Bytes} {mode : Nat} {Q : Unit → Copy World → Prop}
    {E : Error → Copy World → Prop} {copy : Copy World}
    (hQ : ∀ world, Q () { copy with log := copy.log ++ [.attempted destination mode], world := world })
    (hE : ∀ e world, E e { copy with log := copy.log ++ [.attempted destination mode], world := world }) :
    wp (settings.applyMode destination mode) Q E copy := by
  rw [Settings.applyMode, wp_bind, wp_record]
  exact (quiet_call _).wp (fun _ => hQ) hE

/-- What holds of the traversal while no step has failed. -/
def Sound (copy : Copy World) : Prop := Tracked copy ∧ ∃ opened, Current copy opened

/-- `next` finishes directories until an entry comes up that is inside of those left. -/
theorem wp_nextLoop (pending : List CopyEntry) (copy : Copy World) (hpending : copy.pending = pending)
    (hsound : Sound copy) :
    wp (settings.nextLoop pending)
      (fun found next => Sound next ∧ (found = none → next.pending = []) ∧
        ∀ entry, found = some entry → ∀ below ∈ next.pending, Above entry below)
      (fun _ next => Tracked next) copy := by
  induction pending generalizing copy with
  | nil =>
    rw [Settings.nextLoop, wp_pure]
    exact ⟨hsound, fun _ => hpending, fun _ h => (by cases h)⟩
  | cons entry rest ih =>
    obtain ⟨htracked, opened, hcurrent⟩ := hsound
    rw [Settings.nextLoop, wp_bind, wp_modify]
    cases hmode : entry.finishMode with
    | none =>
      rw [wp_pure]
      refine ⟨⟨htracked.pop hpending (applies_none hmode) rfl rfl, opened,
        hcurrent.pop hpending hmode rfl rfl rfl⟩, fun h => (by cases h), fun found hfound => ?_⟩
      cases hfound
      exact (List.pairwise_cons.mp (hpending ▸ htracked.nested)).1
    | some mode =>
      simp only [wp_bind, wp_ite, wp_pure, wp_modify, wp_record]
      by_cases hnonneg : 0 ≤ mode
      · rw [if_pos hnonneg]
        have happlies := applies_nonneg hmode hnonneg
        refine wp_applyMode settings (fun world => ?_) fun e world => htracked.attempt hpending happlies rfl rfl
        have hattempted : Tracked { copy with
            pending := rest
            log := copy.log ++ [.attempted entry.destination mode.toNat]
            world := world } := htracked.attempt hpending happlies rfl rfl
        refine ih _ rfl ⟨hattempted.finished rfl rfl, hcurrent.finish hpending hmode rfl rfl ?_⟩
        rw [unfinished_append, unfinished_append]
        rfl
      · rw [if_neg hnonneg]
        have hpopped : Tracked { copy with pending := rest } :=
          htracked.pop hpending (applies_neg hmode hnonneg) rfl rfl
        exact ih _ rfl ⟨hpopped.finished rfl rfl,
          hcurrent.finish hpending hmode rfl rfl (unfinished_append _ _)⟩

/-- A directory that is entered is inside of those that are not finished. -/
theorem wp_directory (entry : CopyEntry) (source : Stats) (destination : Option Stats) (copy : Copy World)
    (hsound : Sound copy) (hinside : ∀ below ∈ copy.pending, Above entry below) :
    wp (settings.directory entry source destination) (fun _ next => Sound next)
      (fun _ next => Tracked next) copy := by
  obtain ⟨htracked, opened, hcurrent⟩ := hsound
  -- what is the same for a new directory and for one that is there
  have hlisted : ∀ (entered : Copy World) (finish : CopyEntry) (rest : List CopyEntry),
      entered.pending = finish :: rest → finish.inside = entry.inside → Sound entered →
      wp (call (settings.system.readDirectoryNames entry.source))
        (fun names next => Sound { next with pending := names.map entry.inside ++ next.pending })
        (fun _ next => Tracked next) entered := by
    intro entered finish rest hpending hfinish ⟨htracked, opened, hcurrent⟩
    refine (quiet_call _).wp (fun names world => ?_) fun e world => htracked.world rfl rfl
    rw [← hfinish]
    exact ⟨htracked.names hpending names rfl rfl, opened, hcurrent.names names rfl rfl rfl⟩
  unfold Settings.directory
  cases destination with
  | none =>
    simp only [Settings.create, wp_bind, wp_modify, wp_record]
    refine (quiet_call _).wp (fun _ world => ?_) fun e world => htracked.world rfl rfl
    have hcreated : Tracked { copy with
        log := copy.log ++ [.created entry.destination (source.mode &&& 0o7777)]
        ancestors := source :: copy.ancestors
        pending := { entry with finishMode := some ((source.mode &&& 0o7777 : Nat) : Int) } :: copy.pending
        world := world } := htracked.create hinside rfl rfl
    refine hlisted _ _ _ rfl rfl ⟨hcreated.entered rfl rfl, _, hcurrent.enter rfl rfl ?_⟩
    rw [unfinished_append, unfinished_append]
    rfl
  | some destination =>
    simp only [Settings.create, wp_bind, wp_modify, wp_record]
    refine (quiet_raiseIf _ _).wp (fun _ world => ?_) fun e world => htracked.world rfl rfl
    have hpushed : Tracked { copy with
        ancestors := source :: copy.ancestors
        pending := { entry with finishMode := some (-1) } :: copy.pending
        world := world } := htracked.push (by exact hinside) (by rfl) rfl rfl
    exact hlisted _ _ _ rfl rfl
      ⟨hpushed.entered rfl rfl, _, hcurrent.enter rfl rfl (unfinished_append _ _)⟩

/-- A quiet action in front; where it raises, nothing is lost. -/
theorem wp_quiet_bind {α β : Type} {m : Action World α} {f : α → Action World β} (hm : Quiet m)
    {Q : β → Copy World → Prop} {copy : Copy World} (htracked : Tracked copy)
    (hf : ∀ a world, wp (f a) Q (fun _ next => Tracked next) { copy with world := world }) :
    wp (m >>= f) Q (fun _ next => Tracked next) copy := by
  rw [wp_bind]
  exact hm.wp hf fun e world => htracked.world rfl rfl

theorem Sound.world {copy next : Copy World} (h : Sound copy) (hpending : next.pending = copy.pending)
    (hancestors : next.ancestors = copy.ancestors) (hlog : next.log = copy.log) : Sound next := by
  obtain ⟨htracked, opened, hcurrent⟩ := h
  exact ⟨htracked.world hpending hlog, opened, hlog ▸ hcurrent.unfinished, hancestors ▸ hcurrent.ancestors,
    hpending ▸ hcurrent.stack⟩

theorem wp_quiet {α : Type} {m : Action World α} (hm : Quiet m) {copy : Copy World} (hsound : Sound copy) :
    wp m (fun _ next => Sound next) (fun _ next => Tracked next) copy :=
  hm.wp (fun _ _ => hsound.world rfl rfl rfl) fun _ _ => hsound.1.world rfl rfl

/-- `accept` adds a directory or leaves the traversal alone. -/
theorem wp_accept (entry : CopyEntry) (copy : Copy World) (hsound : Sound copy)
    (hinside : ∀ below ∈ copy.pending, Above entry below) :
    wp (settings.accept entry) (fun _ next => Sound next) (fun _ next => Tracked next) copy := by
  have htracked : ∀ world, Tracked { copy with world := world } := fun world => hsound.1.world rfl rfl
  have hsound' : ∀ world, Sound { copy with world := world } := fun world => hsound.world rfl rfl rfl
  unfold Settings.accept
  refine wp_quiet_bind (quiet_call _) hsound.1 fun source world => ?_
  refine wp_quiet_bind (quiet_call _) (htracked world) fun destination world => ?_
  refine wp_quiet_bind (quiet_checkOperands source destination) (htracked world) fun _ world => ?_
  refine wp_quiet_bind ((quiet_checkDirectory settings entry source).ite (quiet_pure _)) (htracked world)
    fun _ world => ?_
  refine wp_quiet_bind (quiet_call _) (htracked world) fun _ world => ?_
  by_cases hdirectory : source.directory = true
  · rw [if_pos hdirectory]
    exact wp_directory settings entry source destination _ (hsound' world) hinside
  · rw [if_neg hdirectory]
    exact wp_quiet ((quiet_link settings _ _).ite ((quiet_copyFile settings _ _ _).ite (quiet_throw _)))
      (hsound' world)

/-- The loop keeps the traversal sound, and returns with nothing left to do. -/
theorem wp_traverse (turns : Nat) (copy : Copy World) (hsound : Sound copy) :
    wp (settings.traverse turns) (fun done next => Sound next ∧ (done = true → next.pending = []))
      (fun _ next => Tracked next) copy := by
  induction turns generalizing copy with
  | zero =>
    rw [Settings.traverse, wp_pure]
    exact ⟨hsound, fun h => (by cases h)⟩
  | succ turns ih =>
    rw [Settings.traverse, wp_bind]
    refine wp_mono (wp_nextLoop settings copy.pending copy rfl hsound)
      (fun found next ⟨hnext, hnone, hsome⟩ => ?_) fun _ _ h => h
    cases found with
    | none => exact ⟨hnext, fun _ => hnone rfl⟩
    | some entry =>
      refine wp_quiet_bind (quiet_accepts settings entry) hnext.1 fun accepted world => ?_
      have hbegin : Sound { next with world := world } := hnext.world rfl rfl rfl
      rw [wp_bind]
      cases accepted with
      | true =>
        exact wp_mono (wp_accept settings entry _ hbegin (hsome entry rfl)) (fun _ => ih) fun _ _ h => h
      | false => exact ih _ hbegin

/-! ## The end -/

/-- No mode that `finish` applies fails, but for the last one. -/
def Restorable (system : System World) : List CopyEntry → World → Prop
  | [], _ => True
  | entry :: rest, world =>
    match entry.applies with
    | none => Restorable system rest world
    | some mode =>
      match system.chmod entry.destination mode world with
      | .ok _ world => Restorable system rest world
      | .error _ _ => due rest = []

/-- `finish` attempts all that is due exactly if it fails at the last one only. -/
theorem finishLoop_final (pending : List CopyEntry) (copy : Copy World) (hpending : copy.pending = pending)
    (htracked : Tracked copy) :
    Tracked (finalState (settings.finishLoop pending copy)) ∧
      (due (finalState (settings.finishLoop pending copy)).pending = [] ↔
        Restorable settings.system pending copy.world) := by
  induction pending generalizing copy with
  | nil => exact ⟨htracked, iff_of_true (congrArg due hpending) trivial⟩
  | cons entry rest ih =>
    cases hmode : entry.finishMode with
    | none =>
      have happlies := applies_none hmode
      have hrun : settings.finishLoop (entry :: rest) copy =
          settings.finishLoop rest { copy with pending := rest } := by
        rw [Settings.finishLoop, bind_run, modify_run]
        simp only [hmode]
      rw [hrun, Restorable, happlies]
      exact ih _ rfl (htracked.pop hpending happlies rfl rfl)
    | some mode =>
      by_cases hnonneg : 0 ≤ mode
      · have happlies := applies_nonneg hmode hnonneg
        have hattempt : ∀ world, Tracked { copy with
            pending := rest
            log := copy.log ++ [.attempted entry.destination mode.toNat]
            world := world } := fun world => htracked.attempt hpending happlies rfl rfl
        have hrun : settings.finishLoop (entry :: rest) copy =
            (call (settings.system.chmod entry.destination mode.toNat) >>= fun _ => settings.finishLoop rest)
              { copy with
                pending := rest
                log := copy.log ++ [.attempted entry.destination mode.toNat] } := by
          rw [Settings.finishLoop, bind_run, modify_run]
          simp only [hmode, if_pos hnonneg]
          rfl
        rw [hrun, Restorable, happlies, bind_run, call, zoom]
        dsimp only
        cases settings.system.chmod entry.destination mode.toNat copy.world with
        | ok _ world => exact ih _ rfl (hattempt world)
        | error e world => exact ⟨hattempt world, Iff.rfl⟩
      · have happlies := applies_neg hmode hnonneg
        have hrun : settings.finishLoop (entry :: rest) copy =
            settings.finishLoop rest { copy with pending := rest } := by
          rw [Settings.finishLoop, bind_run, modify_run]
          simp only [hmode, if_neg hnonneg]
          rfl
        rw [hrun, Restorable, happlies]
        exact ih _ rfl (htracked.pop hpending happlies rfl rfl)

theorem sound_start (source destination : Bytes) (world : World) :
    Sound (.start source destination world) :=
  ⟨⟨rfl, List.pairwise_singleton _ _, fun _ _ _ _ _ hlog => absurd hlog (by simp [Copy.start])⟩,
    [], rfl, rfl, rfl⟩

/-- What a run of the loop ends in is what `finish` makes of it. -/
theorem run_some {turns : Nat} {start : Copy World} {outcome : EStateM.Result Error (Copy World) Unit}
    (h : settings.run turns start = some outcome) :
    (∃ copy, settings.traverse turns start = .ok true copy ∧
        finalState outcome = finalState (settings.finish copy)) ∨
      ∃ error copy, settings.traverse turns start = .error error copy ∧
        finalState outcome = finalState (settings.finish copy) := by
  unfold Settings.run at h
  cases htraverse : settings.traverse turns start with
  | ok done copy =>
    rw [htraverse] at h
    cases done with
    | true =>
      cases h
      exact .inl ⟨copy, rfl, rfl⟩
    | false => cases h
  | error error copy =>
    rw [htraverse] at h
    refine .inr ⟨error, copy, rfl, ?_⟩
    cases hfinish : settings.finish copy with
    | ok _ last =>
      simp only [hfinish] at h
      cases h
      rfl
    | error _ last =>
      simp only [hfinish] at h
      cases h
      rfl

/-- The ancestors are the directories that were entered and are not finished. -/
def Ancestry (copy : Copy World) : Prop :=
  ∃ opened, unfinished copy.log = some opened ∧ opened.map Prod.snd = copy.ancestors

theorem Sound.ancestry {copy : Copy World} (h : Sound copy) : Ancestry copy := by
  obtain ⟨-, opened, hcurrent⟩ := h
  exact ⟨opened, hcurrent.unfinished, hcurrent.ancestors⟩

end Traversal

theorem make_system {World : Type} {system : System World} {options : CopyOptions World} {asynchronous : Bool}
    {source destination : Bytes} {settings : Settings World}
    (h : Settings.make system options asynchronous source destination = .ok settings) :
    settings.system = system := by
  unfold Settings.make at h
  cases hsource : checkedPath source with
  | error e =>
    rw [hsource] at h
    cases h
  | ok =>
    cases hdestination : checkedPath destination with
    | error e =>
      rw [hsource, hdestination] at h
      cases h
    | ok =>
      cases hmode : copyMode options.mode with
      | error e =>
        rw [hsource, hdestination, hmode] at h
        cases h
      | ok mode =>
        rw [hsource, hdestination, hmode] at h
        cases h
        rfl

/-- Where a copy ends, modes were attempted from the inside out, and for every
created directory exactly if none but the last that `finish` applied has failed.
While no step has failed the ancestors are the directories that are not finished. -/
theorem copy_tree_modes {World : Type} (system : System World) (options : CopyOptions World)
    (asynchronous : Bool) (source destination : Bytes) (turns : Nat) (world : World) :
    (∀ outcome, copyTree system options asynchronous source destination turns world = some outcome →
      (∃ waiting, unapplied (finalState outcome).log = some waiting) ∧ Ordered (finalState outcome).log ∧
        (unapplied (finalState outcome).log = some [] ↔
          ∀ settings error copy, Settings.make system options asynchronous source destination = .ok settings →
            settings.traverse turns (.start source destination world) = .error error copy →
              Restorable system copy.pending copy.world)) ∧
      ∀ settings, Settings.make system options asynchronous source destination = .ok settings →
        ∀ done copy, settings.traverse turns (.start source destination world) = .ok done copy →
          Ancestry copy ∧ ∀ found next, settings.next copy = .ok found next → Ancestry next := by
  constructor
  · intro outcome houtcome
    unfold copyTree at houtcome
    cases hmake : Settings.make system options asynchronous source destination with
    | error e =>
      rw [hmake] at houtcome
      cases houtcome
      refine ⟨⟨[], rfl⟩, fun _ _ _ _ _ hlog => absurd hlog (by simp [finalState]), iff_of_true rfl ?_⟩
      intro _ _ _ h
      cases h
    | ok settings =>
      rw [hmake] at houtcome
      have htraverse := wp_traverse settings turns _ (sound_start source destination world)
      rcases run_some settings houtcome with ⟨copy, hrun, hfinal⟩ | ⟨error, copy, hrun, hfinal⟩
      · obtain ⟨hsound, hdone⟩ := wp_ok htraverse hrun
        have hend : finalState (settings.finish copy) = copy := by
          have hfinish : settings.finish copy = settings.finishLoop copy.pending copy := rfl
          rw [hfinish, hdone rfl]
          rfl
        have hwaits : unapplied copy.log = some [] := by
          rw [hsound.1.waits, hdone rfl]
          rfl
        rw [hfinal, hend]
        refine ⟨⟨_, hwaits⟩, hsound.1.ordered, iff_of_true hwaits fun settings' e copy' hmake' herror => ?_⟩
        cases hmake'
        rw [hrun] at herror
        cases herror
      · have htracked := wp_error htraverse hrun
        obtain ⟨hlast, hrestorable⟩ := finishLoop_final settings copy.pending copy rfl htracked
        rw [make_system hmake] at hrestorable
        have hend : settings.finish copy = settings.finishLoop copy.pending copy := rfl
        rw [hfinal, hend]
        refine ⟨⟨_, hlast.waits⟩, hlast.ordered, ?_⟩
        rw [hlast.waits, Option.some.injEq, hrestorable]
        constructor
        · intro h settings' e copy' hmake' herror
          cases hmake'
          rw [hrun] at herror
          cases herror
          exact h
        · intro h
          exact h settings error copy rfl hrun
  · intro settings hmake done copy hrun
    obtain ⟨hsound, -⟩ := wp_ok (wp_traverse settings turns _ (sound_start source destination world)) hrun
    refine ⟨hsound.ancestry, fun found next hnext => ?_⟩
    exact (wp_ok (wp_nextLoop settings copy.pending copy rfl hsound) hnext).1.ancestry

/-! A tree of two directories; asked about the file in the inner one, the filter
removes the inner directory of the destination and raises. -/

def sampleStats (path : Bytes) : Stats :=
  ⟨0o40755, 1, path.length, false, true, false, .finite 0, .finite 0⟩

def sampleSystem : System Bool where
  cwd removed := .ok [47] removed
  stat path removed := .ok (sampleStats path) removed
  lstat path removed := .ok (sampleStats path) removed
  statIfPresent path _ removed := .ok (if path = [47] then some (sampleStats path) else none) removed
  makeDirectory _ _ removed := .ok () removed
  readDirectoryNames path removed := .ok (if path = [47, 115] then [[120]] else [[121]]) removed
  readLink _ removed := .ok [] removed
  unlink _ removed := .ok () removed
  symbolicLink _ _ removed := .ok () removed
  copyFile _ _ _ removed := .ok () removed
  chmod path _ removed :=
    if removed ∧ path = [47, 100, 47, 120] then .error ⟨"chmod: ENOENT: no such file or directory"⟩ removed
    else .ok () removed
  utimes _ _ _ removed := .ok () removed

def sampleOptions : CopyOptions Bool where
  recursive := some true
  filter := some fun source _ removed =>
    if source = [47, 115, 47, 120, 47, 121] then .error ⟨"rejected"⟩ true else .ok true removed

/-- The mode of the outer directory is not attempted. -/
theorem copy_tree_unrestored :
    (copyTree sampleSystem sampleOptions false [47, 115] [47, 100] 3 false).map
      (fun outcome => (returned outcome, unapplied (finalState outcome).log)) =
        some (false, some [([47, 100], 0o755)]) := by
  decide +kernel

end TsonicNode.Filesystem
