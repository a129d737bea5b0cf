import Mathlib.Data.List.Nodup
import Mathlib.Data.List.Range
import Mathlib.Logic.Relation
import Mathlib.Tactic.Common

/-!
# Emissions

An emission takes a snapshot of registrations and calls them in order; while one
is called, others may begin. A once registration has a flag: the emission that
calls it sets the flag first, and every other passes over it. `Move` is what may
happen, `Orderly` what holds of every emission then, running or over.
-/

namespace TsonicNode.Lib

variable {α : Type}

/-- An emission is a number; `running` has what is left of its snapshot. -/
structure Emissions (α : Type) where
  flags : List Bool := []
  running : List (Nat × List α) := []
  emits : Nat := 0
  started : List (Nat × List α) := []
  calls : List (Nat × α) := []
  finished : List Nat := []
  raised : List Nat := []

def flagged (flags : List Bool) (flag : Nat) : Bool := flags[flag]?.getD false

/-- What an emission has called. -/
def callsOf (calls : List (Nat × α)) (emit : Nat) : List α := (calls.filter fun call => call.1 == emit).map Prod.snd

section
variable (once : α → Option Nat)

/-- The flags once a registration is about to be called. -/
def mark (flags : List Bool) (registration : α) : List Bool :=
  match once registration with
  | none => flags
  | some flag => flags.set flag true

/-- Another emission has called the registration, which is called once. -/
def firedElsewhere (calls : List (Nat × α)) (emit : Nat) (registration : α) : Bool :=
  (once registration).isSome && calls.any fun call => call.1 != emit && once call.2 == once registration

/-- The registrations have flags of their own. -/
structure Flags (flags : List Bool) (registrations : List α) : Prop where
  nodup : (registrations.filterMap once).Nodup
  bound : ∀ registration ∈ registrations, ∀ flag, once registration = some flag → flag < flags.length

/-- The registration is passed over. -/
def Spent (flags : List Bool) (registration : α) : Prop :=
  ∃ flag, once registration = some flag ∧ flagged flags flag = true

inductive Move : Emissions α → Emissions α → Prop
  | flag (e : Emissions α) : Move e { e with flags := e.flags ++ [false] }
  | begins (e : Emissions α) (snapshot : List α) (hflags : Flags once e.flags snapshot) :
    Move e { e with
      running := (e.emits, snapshot) :: e.running, emits := e.emits + 1,
      started := e.started ++ [(e.emits, snapshot)] }
  | calls (e : Emissions α) (emit : Nat) (skipped rest : List α) (registration : α) (running : List (Nat × List α))
    (hrunning : e.running = (emit, skipped ++ registration :: rest) :: running)
    (hskipped : ∀ other ∈ skipped, Spent once e.flags other) (hfresh : ¬ Spent once e.flags registration) :
    Move e { e with
      flags := mark once e.flags registration, running := (emit, rest) :: running,
      calls := e.calls ++ [(emit, registration)] }
  | finishes (e : Emissions α) (emit : Nat) (rest : List α) (running : List (Nat × List α))
    (hrunning : e.running = (emit, rest) :: running) (hskipped : ∀ other ∈ rest, Spent once e.flags other) :
    Move e { e with running, finished := e.finished ++ [emit] }
  | raises (e : Emissions α) (emit : Nat) (rest : List α) (running : List (Nat × List α))
    (hrunning : e.running = (emit, rest) :: running) :
    Move e { e with running, raised := e.raised ++ [emit] }

/-- An emission has dealt with a part of its snapshot. -/
structure Settled (calls : List (Nat × α)) (flags : List Bool) (emit : Nat) (done : List α) : Prop where
  called : callsOf calls emit = done.filter fun registration => !firedElsewhere once calls emit registration
  spent : ∀ registration ∈ done, ∀ flag, once registration = some flag → flagged flags flag = true

/-- The flags tell what was called. -/
def Counted (calls : List (Nat × α)) (flags : List Bool) : Prop :=
  ∀ flag, calls.countP (fun call => once call.2 == some flag) = if flagged flags flag then 1 else 0

/-- What holds between two moves. -/
structure Orderly (e : Emissions α) : Prop where
  counted : Counted once e.calls e.flags
  numbered : ∀ call ∈ e.calls, call.1 < e.emits
  started : e.started.map Prod.fst = List.range e.emits
  nested : (e.running.map Prod.fst).Nodup
  running : ∀ emission ∈ e.running, emission.1 ∉ e.finished ∧
    ∃ done, (emission.1, done ++ emission.2) ∈ e.started ∧ Flags once e.flags (done ++ emission.2) ∧
      Settled once e.calls e.flags emission.1 done
  finished : ∀ emit ∈ e.finished, emit < e.emits ∧ ∀ snapshot, (emit, snapshot) ∈ e.started →
    Settled once e.calls e.flags emit snapshot
  ended : ∀ emit < e.emits, emit ∈ e.running.map Prod.fst ∨ emit ∈ e.finished ∨ emit ∈ e.raised

end

/-! ## Flags -/

section
variable {once : α → Option Nat} {flags : List Bool} {registration : α} {registrations : List α}

theorem flagged_append (flags : List Bool) (flag : Nat) : flagged (flags ++ [false]) flag = flagged flags flag := by
  unfold flagged
  rw [List.getElem?_append]
  split_ifs with hlt
  · rfl
  · rw [List.getElem?_eq_none (Nat.le_of_not_lt hlt), List.getElem?_singleton]
    split_ifs <;> rfl

theorem mark_length (flags : List Bool) (registration : α) : (mark once flags registration).length = flags.length := by
  unfold mark
  split
  · rfl
  · exact List.length_set

/-- A mark sets the registration's flag. -/
theorem flagged_mark (hbound : ∀ flag, once registration = some flag → flag < flags.length) (flag : Nat) :
    flagged (mark once flags registration) flag = (flagged flags flag || once registration == some flag) := by
  unfold mark flagged
  cases honce : once registration with
  | none => simp
  | some flag' =>
    dsimp only
    rw [List.getElem?_set]
    by_cases hsame : flag' = flag
    · subst hsame
      simp [hbound flag' honce]
    · simp [hsame]

theorem not_spent (h : ¬ Spent once flags registration) {flag : Nat} (honce : once registration = some flag) :
    flagged flags flag = false :=
  Bool.eq_false_iff.mpr fun hflag => h ⟨flag, honce, hflag⟩

theorem Flags.mono (h : Flags once flags registrations) {flags' : List Bool} (hle : flags.length ≤ flags'.length) :
    Flags once flags' registrations where
  nodup := h.nodup
  bound registration hmem flag honce := Nat.lt_of_lt_of_le (h.bound registration hmem flag honce) hle

/-- A flag belongs to one registration. -/
theorem Flags.eq_of_flag (h : Flags once flags registrations) {other : α} (hmem : registration ∈ registrations)
    (hother : other ∈ registrations) {flag : Nat} (honce : once registration = some flag)
    (hflag : once other = some flag) : registration = other := by
  by_contra hne
  have hpairs := List.pairwise_filterMap.mp h.nodup
  have : Std.Symm fun registration other : α =>
      ∀ flag, once registration = some flag → ∀ flag', once other = some flag' → flag ≠ flag' :=
    ⟨fun _ _ hpair flag hflag flag' hflag' => (hpair flag' hflag' flag hflag).symm⟩
  exact hpairs.forall hmem hother hne flag honce flag hflag rfl

theorem Flags.append_left {more : List α} (h : Flags once flags (registrations ++ more)) :
    Flags once flags registrations where
  nodup := by
    have hnodup := h.nodup
    rw [List.filterMap_append] at hnodup
    exact hnodup.of_append_left
  bound registration hmem := h.bound registration (List.mem_append_left _ hmem)

end

/-! ## Calls -/

section
variable {once : α → Option Nat} {calls : List (Nat × α)} {flags flags' : List Bool} {emit : Nat} {done : List α}
  {registration : α}

theorem callsOf_append (calls : List (Nat × α)) (emit emit' : Nat) (registration : α) :
    callsOf (calls ++ [(emit', registration)]) emit =
      callsOf calls emit ++ if emit' = emit then [registration] else [] := by
  rw [callsOf, List.filter_append, List.map_append, callsOf]
  by_cases hsame : emit' = emit
  · simp [hsame]
  · simp [hsame]

theorem firedElsewhere_append (calls : List (Nat × α)) (emit emit' : Nat) (registration other : α) :
    firedElsewhere once (calls ++ [(emit', other)]) emit registration =
      (firedElsewhere once calls emit registration ||
        ((once registration).isSome && (emit' != emit && once other == once registration))) := by
  simp only [firedElsewhere, List.any_append, List.any_cons, List.any_nil, Bool.or_false, Bool.and_or_distrib_left]

/-- A registration whose flag is not set was called nowhere. -/
theorem Counted.fresh (h : Counted once calls flags) (hfresh : ¬ Spent once flags registration) (emit : Nat) :
    firedElsewhere once calls emit registration = false := by
  rw [firedElsewhere, Bool.and_eq_false_iff]
  cases honce : once registration with
  | none => exact .inl rfl
  | some flag =>
    refine .inr (List.any_eq_false.mpr fun call hcall hsame => ?_)
    have hcount := h flag
    rw [not_spent hfresh honce, if_neg Bool.false_ne_true, List.countP_eq_zero] at hcount
    exact hcount call hcall (Bool.and_eq_true_iff.mp hsame).2

theorem Counted.grows (h : Counted once calls flags) (hfresh : ¬ Spent once flags registration)
    (hbound : ∀ flag, once registration = some flag → flag < flags.length) :
    Counted once (calls ++ [(emit, registration)]) (mark once flags registration) := by
  intro flag
  rw [List.countP_append, h flag, List.countP_singleton, flagged_mark hbound]
  by_cases honce : once registration = some flag
  · simp [not_spent hfresh honce, honce]
  · simp [honce]

/-- The next registration is called. -/
theorem Settled.advances (h : Settled once calls flags emit done) (hcounted : Counted once calls flags)
    (hfresh : ¬ Spent once flags registration)
    (hbound : ∀ flag, once registration = some flag → flag < flags.length) :
    Settled once (calls ++ [(emit, registration)]) (mark once flags registration) emit (done ++ [registration]) where
  called := by
    have hsame : ∀ other, firedElsewhere once (calls ++ [(emit, registration)]) emit other =
        firedElsewhere once calls emit other := by
      intro other
      simp [firedElsewhere_append]
    rw [callsOf_append, if_pos rfl, h.called, List.filter_append]
    simp [hsame, hcounted.fresh hfresh emit]
  spent other hother flag hflag := by
    rw [flagged_mark hbound]
    rcases List.mem_append.mp hother with hother | hother
    · rw [h.spent other hother flag hflag, Bool.true_or]
    · rw [List.mem_singleton.mp hother] at hflag
      rw [hflag, beq_self_eq_true, Bool.or_true]

/-- A call of another emission: it spends nothing that was dealt with. -/
theorem Settled.others (h : Settled once calls flags emit done) {emit' : Nat} (hother : emit' ≠ emit)
    (hfresh : ¬ Spent once flags registration)
    (hbound : ∀ flag, once registration = some flag → flag < flags.length) :
    Settled once (calls ++ [(emit', registration)]) (mark once flags registration) emit done where
  called := by
    rw [callsOf_append, if_neg hother, List.append_nil, h.called]
    refine List.filter_congr fun other hmem => ?_
    rw [firedElsewhere_append]
    cases honce : once other with
    | none => simp
    | some flag =>
      have hne : once registration ≠ some flag := by
        intro hsame
        exact hfresh ⟨flag, hsame, h.spent other hmem flag honce⟩
      simp [hne]
  spent other hmem flag hflag := by
    rw [flagged_mark hbound, h.spent other hmem flag hflag, Bool.true_or]

/-- The next registration is spent: by another emission, for it stands once in the snapshot. -/
theorem Settled.skips (h : Settled once calls flags emit done) (hcounted : Counted once calls flags)
    (hspent : Spent once flags registration) (hnodup : ((done ++ [registration]).filterMap once).Nodup) :
    Settled once calls flags emit (done ++ [registration]) where
  called := by
    obtain ⟨flag, honce, hflag⟩ := hspent
    have hnew : flag ∉ done.filterMap once := by
      intro hmem
      rw [List.filterMap_append, List.nodup_append] at hnodup
      exact hnodup.2.2 flag hmem flag (List.mem_filterMap.mpr ⟨registration, List.mem_singleton_self _, honce⟩) rfl
    have helsewhere : firedElsewhere once calls emit registration = true := by
      have hcount := hcounted flag
      rw [if_pos hflag] at hcount
      obtain ⟨call, hcall, hsame⟩ := List.countP_pos_iff.mp (Nat.lt_of_lt_of_eq Nat.one_pos hcount.symm)
      rw [firedElsewhere, honce]
      refine List.any_eq_true.mpr ⟨call, hcall, Bool.and_eq_true_iff.mpr ⟨bne_iff_ne.mpr fun hself => ?_, hsame⟩⟩
      have hmem : call.2 ∈ callsOf calls emit :=
        List.mem_map_of_mem (List.mem_filter.mpr ⟨hcall, beq_iff_eq.mpr hself⟩)
      rw [h.called] at hmem
      exact hnew (List.mem_filterMap.mpr ⟨call.2, (List.mem_filter.mp hmem).1, beq_iff_eq.mp hsame⟩)
    rw [h.called, List.filter_append]
    simp [helsewhere]
  spent other hother flag' hflag' := by
    rcases List.mem_append.mp hother with hother | hother
    · exact h.spent other hother flag' hflag'
    · obtain ⟨flag, honce, hflag⟩ := hspent
      rw [List.mem_singleton.mp hother] at hflag'
      obtain rfl := Option.some.inj (honce.symm.trans hflag')
      exact hflag

theorem Settled.skipsAll {skipped : List α} (hskipped : ∀ registration ∈ skipped, Spent once flags registration)
    (h : Settled once calls flags emit done) (hcounted : Counted once calls flags)
    (hnodup : ((done ++ skipped).filterMap once).Nodup) : Settled once calls flags emit (done ++ skipped) := by
  induction skipped generalizing done with
  | nil =>
    rw [List.append_nil]
    exact h
  | cons registration skipped ih =>
    have hsplit : done ++ registration :: skipped = done ++ [registration] ++ skipped := by simp
    rw [hsplit] at hnodup ⊢
    refine ih (fun other hother => hskipped other (List.mem_cons_of_mem _ hother)) ?_ hnodup
    rw [List.filterMap_append] at hnodup
    exact h.skips hcounted (hskipped registration List.mem_cons_self) hnodup.of_append_left

end

/-! ## Moves -/

namespace Orderly

variable {once : α → Option Nat} {e : Emissions α}

theorem new : Orderly once ({} : Emissions α) where
  counted _ := rfl
  numbered _ hcall := absurd hcall List.not_mem_nil
  started := rfl
  nested := List.nodup_nil
  running _ hmem := absurd hmem List.not_mem_nil
  finished _ hmem := absurd hmem List.not_mem_nil
  ended _ hemit := absurd hemit (Nat.not_lt_zero _)

theorem started_lt (h : Orderly once e) {emit : Nat} {snapshot : List α} (hmem : (emit, snapshot) ∈ e.started) :
    emit < e.emits := by
  have hrange : emit ∈ e.started.map Prod.fst := List.mem_map_of_mem hmem
  rw [h.started] at hrange
  exact List.mem_range.mp hrange

theorem started_unique (h : Orderly once e) {emit : Nat} {snapshot snapshot' : List α}
    (hmem : (emit, snapshot) ∈ e.started) (hmem' : (emit, snapshot') ∈ e.started) : snapshot = snapshot' := by
  have hnodup : (e.started.map Prod.fst).Nodup := by
    rw [h.started]
    exact List.nodup_range
  exact congrArg Prod.snd (List.inj_on_of_nodup_map hnodup hmem hmem' rfl)

theorem running_lt (h : Orderly once e) {emission : Nat × List α} (hmem : emission ∈ e.running) :
    emission.1 < e.emits := by
  obtain ⟨-, done, hstarted, -⟩ := h.running emission hmem
  exact h.started_lt hstarted

/-- A flag more changes nothing. -/
theorem flag (h : Orderly once e) : Orderly once { e with flags := e.flags ++ [false] } := by
  have hsettled : ∀ {emit done}, Settled once e.calls e.flags emit done →
      Settled once e.calls (e.flags ++ [false]) emit done := by
    intro emit done hdone
    refine ⟨hdone.called, fun registration hmem flag honce => ?_⟩
    rw [flagged_append]
    exact hdone.spent registration hmem flag honce
  have hcounted : Counted once e.calls (e.flags ++ [false]) := by
    intro flag
    rw [flagged_append]
    exact h.counted flag
  refine ⟨hcounted, h.numbered, h.started, h.nested, ?_, ?_, h.ended⟩
  · intro emission hemission
    obtain ⟨hunfinished, done, hstarted, hflags, hdone⟩ := h.running emission hemission
    refine ⟨hunfinished, done, hstarted, hflags.mono ?_, hsettled hdone⟩
    rw [List.length_append]
    omega
  · intro emit hemit
    obtain ⟨hlt, hdone⟩ := h.finished emit hemit
    exact ⟨hlt, fun snapshot hstarted => hsettled (hdone snapshot hstarted)⟩

/-- A new emission has called nothing yet. -/
theorem begins (h : Orderly once e) {snapshot : List α} (hflags : Flags once e.flags snapshot) :
    Orderly once { e with
      running := (e.emits, snapshot) :: e.running, emits := e.emits + 1,
      started := e.started ++ [(e.emits, snapshot)] } := by
  have hnone : callsOf e.calls e.emits = [] := by
    rw [callsOf, List.map_eq_nil_iff, List.filter_eq_nil_iff]
    intro call hcall hsame
    have := h.numbered call hcall
    have := beq_iff_eq.mp hsame
    omega
  refine ⟨h.counted, ?_, ?_, ?_, ?_, ?_, ?_⟩
  · exact fun call hcall => Nat.lt_succ_of_lt (h.numbered call hcall)
  · rw [List.map_append, h.started, List.range_succ]
    rfl
  · refine List.nodup_cons.mpr ⟨fun hmem => ?_, h.nested⟩
    obtain ⟨emission, hemission, hsame⟩ := List.mem_map.mp hmem
    exact absurd hsame (Nat.ne_of_lt (h.running_lt hemission))
  · intro emission hemission
    rcases List.mem_cons.mp hemission with rfl | hemission
    · refine ⟨fun hmem => Nat.lt_irrefl _ (h.finished e.emits hmem).1, [], ?_, hflags, hnone, by simp⟩
      exact List.mem_append_right _ (List.mem_singleton_self _)
    · obtain ⟨hunfinished, done, hstarted, hrest⟩ := h.running emission hemission
      exact ⟨hunfinished, done, List.mem_append_left _ hstarted, hrest⟩
  · intro emit hemit
    obtain ⟨hlt, hdone⟩ := h.finished emit hemit
    refine ⟨Nat.lt_succ_of_lt hlt, fun snapshot' hstarted => ?_⟩
    rcases List.mem_append.mp hstarted with hstarted | hstarted
    · exact hdone snapshot' hstarted
    · cases List.mem_singleton.mp hstarted
      exact absurd hlt (Nat.lt_irrefl _)
  · intro emit hemit
    rcases Nat.lt_succ_iff_lt_or_eq.mp hemit with hlt | rfl
    · rcases h.ended emit hlt with hrunning | hover
      · exact .inl (List.mem_cons_of_mem _ hrunning)
      · exact .inr hover
    · exact .inl List.mem_cons_self

/-- What leaves the running emissions but the topmost as they are, and the topmost is over. -/
theorem pops (h : Orderly once e) {emit : Nat} {rest : List α} {running : List (Nat × List α)}
    (hrunning : e.running = (emit, rest) :: running) :
    (running.map Prod.fst).Nodup ∧ emit ∉ running.map Prod.fst := by
  have hnested := h.nested
  rw [hrunning, List.map_cons, List.nodup_cons] at hnested
  exact ⟨hnested.2, hnested.1⟩

/-- The topmost emission calls its next registration. -/
theorem calls (h : Orderly once e) {emit : Nat} {skipped rest : List α} {registration : α}
    {running : List (Nat × List α)} (hrunning : e.running = (emit, skipped ++ registration :: rest) :: running)
    (hskipped : ∀ other ∈ skipped, Spent once e.flags other) (hfresh : ¬ Spent once e.flags registration) :
    Orderly once { e with
      flags := mark once e.flags registration, running := (emit, rest) :: running,
      calls := e.calls ++ [(emit, registration)] } := by
  obtain ⟨hnodup, hnew⟩ := h.pops hrunning
  have htop : (emit, skipped ++ registration :: rest) ∈ e.running := hrunning ▸ List.mem_cons_self
  obtain ⟨hunfinished, done, hstarted, hflags, hsettled⟩ := h.running _ htop
  have hsplit : done ++ (skipped ++ registration :: rest) = done ++ skipped ++ [registration] ++ rest := by simp
  rw [hsplit] at hstarted hflags
  have hbound := hflags.append_left.bound registration (List.mem_append_right _ (List.mem_singleton_self _))
  have hlength : e.flags.length ≤ (mark once e.flags registration).length :=
    Nat.le_of_eq (mark_length e.flags registration).symm
  refine ⟨h.counted.grows hfresh hbound, ?_, h.started, List.nodup_cons.mpr ⟨hnew, hnodup⟩, ?_, ?_, ?_⟩
  · intro call hcall
    rcases List.mem_append.mp hcall with hcall | hcall
    · exact h.numbered call hcall
    · rw [List.mem_singleton.mp hcall]
      exact h.started_lt hstarted
  · intro emission hemission
    rcases List.mem_cons.mp hemission with rfl | hother
    · refine ⟨hunfinished, done ++ skipped ++ [registration], hstarted, hflags.mono hlength, ?_⟩
      exact (hsettled.skipsAll hskipped h.counted hflags.append_left.append_left.nodup).advances h.counted hfresh
        hbound
    · have hne : emit ≠ emission.1 := by
        rintro rfl
        exact hnew (List.mem_map_of_mem hother)
      obtain ⟨hunfinished', done', hstarted', hflags', hsettled'⟩ :=
        h.running emission (hrunning ▸ List.mem_cons_of_mem _ hother)
      exact ⟨hunfinished', done', hstarted', hflags'.mono hlength, hsettled'.others hne hfresh hbound⟩
  · intro emit' hemit'
    obtain ⟨hlt, hdone⟩ := h.finished emit' hemit'
    have hne : emit ≠ emit' := by
      rintro rfl
      exact hunfinished hemit'
    exact ⟨hlt, fun snapshot hstarted' => (hdone snapshot hstarted').others hne hfresh hbound⟩
  · have hended := h.ended
    rw [hrunning] at hended
    exact hended

/-- The topmost emission is over: what is left of its snapshot is spent. -/
theorem finishes (h : Orderly once e) {emit : Nat} {rest : List α} {running : List (Nat × List α)}
    (hrunning : e.running = (emit, rest) :: running) (hskipped : ∀ other ∈ rest, Spent once e.flags other) :
    Orderly once { e with running, finished := e.finished ++ [emit] } := by
  obtain ⟨hnodup, hnew⟩ := h.pops hrunning
  obtain ⟨-, done, hstarted, hflags, hsettled⟩ := h.running (emit, rest) (hrunning ▸ List.mem_cons_self)
  refine ⟨h.counted, h.numbered, h.started, hnodup, ?_, ?_, ?_⟩
  · intro emission hemission
    obtain ⟨hunfinished, hrest⟩ := h.running emission (hrunning ▸ List.mem_cons_of_mem _ hemission)
    refine ⟨fun hmem => ?_, hrest⟩
    rcases List.mem_append.mp hmem with hmem | hmem
    · exact hunfinished hmem
    · rw [← List.mem_singleton.mp hmem] at hnew
      exact hnew (List.mem_map_of_mem hemission)
  · intro emit' hemit'
    rcases List.mem_append.mp hemit' with hemit' | hemit'
    · exact h.finished emit' hemit'
    · obtain rfl := List.mem_singleton.mp hemit'
      refine ⟨h.started_lt hstarted, fun snapshot hstarted' => ?_⟩
      rw [h.started_unique hstarted' hstarted]
      exact hsettled.skipsAll hskipped h.counted hflags.nodup
  · intro emit' hemit'
    have hended := h.ended emit' hemit'
    rw [hrunning] at hended
    rcases hended with hrunning' | hfinished | hraised
    · rcases List.mem_cons.mp hrunning' with rfl | hrunning'
      · exact .inr (.inl (List.mem_append_right _ (List.mem_singleton_self _)))
      · exact .inl hrunning'
    · exact .inr (.inl (List.mem_append_left _ hfinished))
    · exact .inr (.inr hraised)

/-- The topmost emission is cut short. -/
theorem raises (h : Orderly once e) {emit : Nat} {rest : List α} {running : List (Nat × List α)}
    (hrunning : e.running = (emit, rest) :: running) :
    Orderly once { e with running, raised := e.raised ++ [emit] } := by
  refine ⟨h.counted, h.numbered, h.started, (h.pops hrunning).1, ?_, h.finished, ?_⟩
  · exact fun emission hemission => h.running emission (hrunning ▸ List.mem_cons_of_mem _ hemission)
  · intro emit' hemit'
    have hended := h.ended emit' hemit'
    rw [hrunning] at hended
    rcases hended with hrunning' | hfinished | hraised
    · rcases List.mem_cons.mp hrunning' with rfl | hrunning'
      · exact .inr (.inr (List.mem_append_right _ (List.mem_singleton_self _)))
      · exact .inl hrunning'
    · exact .inr (.inl hfinished)
    · exact .inr (.inr (List.mem_append_left _ hraised))

theorem moves (h : Orderly once e) {e' : Emissions α} (hmove : Move once e e') : Orderly once e' := by
  cases hmove with
  | flag => exact h.flag
  | begins snapshot hflags => exact h.begins hflags
  | calls emit skipped rest registration running hrunning hskipped hfresh => exact h.calls hrunning hskipped hfresh
  | finishes emit rest running hrunning hskipped => exact h.finishes hrunning hskipped
  | raises emit rest running hrunning => exact h.raises hrunning

theorem leads (h : Orderly once e) {e' : Emissions α} (hleads : Relation.ReflTransGen (Move once) e e') :
    Orderly once e' := by
  induction hleads with
  | refl => exact h
  | tail _ hmove ih => exact ih.moves hmove

end Orderly

end TsonicNode.Lib
