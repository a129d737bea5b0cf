import TsonicNode.Timers.Arming

/-!
# The order in which timers fire

The list of timers is in the order of their creation, and stays so; a poll walks
it from its front. The timers that fire in one poll fire in that order, each at
most once, whatever their due times are (`System.fires_created`). Of two timers
that are due at the same poll the one created first fires first, also when the
other was due before it (`System.fires_crossed`).
-/

namespace TsonicNode.Timers

open TsonicNode.Lib

variable {C : Type}

/-- The one timer was created before the other. -/
def Before (t u : Timeout) : Prop := t.state < u.state

/-! ## The list only grows -/

/-- What calls through the API do to the list: new timers go behind the old ones. -/
structure Grows (w w' : World C) : Prop where
  heap : w.heap.length ≤ w'.heap.length
  timers : ∃ new, w'.timers = w.timers ++ new ∧ new.Pairwise Before ∧
    ∀ t ∈ new, w.heap.length ≤ t.state ∧ t.state < w'.heap.length

theorem Grows.of_same {w w' : World C} (htimers : w'.timers = w.timers)
    (hheap : w'.heap.length = w.heap.length) : Grows w w' :=
  ⟨Nat.le_of_eq hheap.symm, [], htimers.trans (List.append_nil _).symm, .nil, fun _ h => absurd h List.not_mem_nil⟩

theorem Grows.trans {a b c : World C} (h : Grows a b) (h' : Grows b c) : Grows a c := by
  obtain ⟨hheap, new, htimers, hpair, hnew⟩ := h
  obtain ⟨hheap', new', htimers', hpair', hnew'⟩ := h'
  refine ⟨Nat.le_trans hheap hheap', new ++ new', ?_, ?_, fun t ht => ?_⟩
  · rw [htimers', htimers, List.append_assoc]
  · refine List.pairwise_append.mpr ⟨hpair, hpair', fun t ht u hu => ?_⟩
    exact Nat.lt_of_lt_of_le (hnew t ht).2 (hnew' u hu).1
  · obtain ht | ht := List.mem_append.mp ht
    · exact ⟨(hnew t ht).1, Nat.lt_of_lt_of_le (hnew t ht).2 hheap'⟩
    · exact ⟨Nat.le_trans hheap (hnew' t ht).1, (hnew' t ht).2⟩

theorem schedule_grows (callback : C) (delayMs : Int) (interval : Bool) (w : World C) :
    Grows w (finalState (schedule callback delayMs interval w)) := by
  refine wp_final (P := fun w' => Grows w w') ?_
  simp only [schedule, monotonic, wp_bind, wp_get, wp_ite, wp_throw, wp_modify, wp_pure]
  split
  · exact .of_same rfl rfl
  · refine ⟨?_, [⟨w.heap.length⟩], rfl, List.pairwise_singleton _ _, fun t ht => ?_⟩
    · simp
    · obtain rfl := List.mem_singleton.mp ht
      simp

theorem perform_grows (action : Action C) (w : World C) : Grows w (finalState (action.perform w)) := by
  cases action with
  | setTimeout callback delayMs =>
    simp only [Action.perform, Timers.setTimeout, finalState_bind_pure]
    exact schedule_grows callback delayMs false w
  | setInterval callback delayMs =>
    simp only [Action.perform, Timers.setInterval, finalState_bind_pure]
    exact schedule_grows callback delayMs true w
  | close timer =>
    refine wp_final (P := fun w' => Grows w w') ?_
    simp only [Action.perform, Timeout.close, wp_bind, wp_get, wp_ite, wp_modify, wp_pure]
    split
    · exact .of_same rfl (write_heap_length w timer _)
    · exact .of_same rfl rfl
  | refresh timer => exact .of_same rfl (write_heap_length _ timer _)
  | ref timer => exact .of_same rfl (write_heap_length w timer _)
  | unref timer => exact .of_same rfl (write_heap_length w timer _)

theorem performAll_grows (actions : List (Action C)) (w : World C) :
    Grows w (finalState (performAll actions w)) := by
  induction actions generalizing w with
  | nil => exact .of_same rfl rfl
  | cons action rest ih =>
    rw [performAll_final]
    exact (perform_grows action w).trans (ih _)

theorem visit_grows (behaviour : Behaviour C) (now : Int) (timer : Timeout) (w : World C) :
    Grows w (finalState (visit behaviour now timer w)) := by
  by_cases hdue : w.active timer = true ∧ w.dueNs timer ≤ now
  · rw [System.visit_due hdue.1 hdue.2]
    have hcalls := performAll_grows behaviour.actions w
    cases behaviour.raises with
    | some error => exact hcalls
    | none =>
      dsimp only
      split
      · exact hcalls.trans (.of_same rfl (write_heap_length _ timer _))
      · exact hcalls.trans (.of_same rfl (write_heap_length _ timer _))
  · rw [System.visit_idle hdue]
    exact .of_same rfl rfl

/-! ## The list is in the order of creation -/

/-- In every state, and so is what a poll under way retains. -/
structure Listed (s : System C) : Prop where
  pairwise : s.world.timers.Pairwise Before
  bounded : ∀ t ∈ s.world.timers, t.state < s.world.heap.length
  retained : ∀ p, s.poll = some p → p.retained.Sublist (s.world.timers.take p.index)

section
variable {s : System C}

theorem Listed.grows (h : Listed s) {w : World C} (hgrows : Grows s.world w) :
    w.timers.Pairwise Before ∧ ∀ t ∈ w.timers, t.state < w.heap.length := by
  obtain ⟨hheap, new, htimers, hpair, hnew⟩ := hgrows
  rw [htimers]
  constructor
  · refine List.pairwise_append.mpr ⟨h.pairwise, hpair, fun t ht u hu => ?_⟩
    exact Nat.lt_of_lt_of_le (h.bounded t ht) (hnew u hu).1
  · intro t ht
    obtain ht | ht := List.mem_append.mp ht
    · exact Nat.lt_of_lt_of_le (h.bounded t ht) hheap
    · exact (hnew t ht).2

theorem Listed.turn (h : Listed s) {behaviour : Behaviour C} {p : Poll} (hpoll : s.poll = some p) :
    Listed (s.turn behaviour p) := by
  unfold System.turn
  split
  · split
    · exact ⟨h.pairwise, h.bounded, fun _ hp => by cases hp⟩
    · rename_i timer htimer
      have hgrows := visit_grows behaviour p.now timer s.world
      generalize Timers.visit behaviour p.now timer s.world = result at hgrows ⊢
      obtain ⟨⟨fired, keep⟩, w⟩ | ⟨error, w⟩ := result
      · obtain ⟨hpair, hbounded⟩ := h.grows hgrows
        refine ⟨hpair, hbounded, fun q hq => ?_⟩
        obtain rfl := Option.some.inj hq
        obtain ⟨-, new, htimers, -⟩ := hgrows
        obtain ⟨hindex, hget⟩ := List.getElem?_eq_some_iff.mp htimer
        have htimers : w.timers = s.world.timers ++ new := htimers
        have htake : w.timers.take (p.index + 1) = s.world.timers.take p.index ++ [timer] := by
          rw [htimers, List.take_append_of_le_length hindex, List.take_succ_eq_append_getElem hindex, hget]
        show (if keep then p.retained ++ [timer] else p.retained).Sublist (w.timers.take (p.index + 1))
        rw [htake]
        split
        · exact (h.retained p hpoll).append_right [timer]
        · exact (h.retained p hpoll).trans (List.sublist_append_left _ _)
      · obtain ⟨hpair, hbounded⟩ := h.grows hgrows
        exact ⟨hpair, hbounded, fun _ hq => by cases hq⟩
  · have hsub := (h.retained p hpoll).trans (List.take_sublist _ _)
    exact ⟨h.pairwise.sublist hsub, fun t ht => h.bounded t (hsub.subset ht), fun _ hq => by cases hq⟩

theorem Listed.step (h : Listed s) (label : Label C) : Listed (s.step label) := by
  cases label with
  | call action =>
    unfold System.step
    dsimp only
    split
    · obtain ⟨hpair, hbounded⟩ := h.grows (perform_grows action s.world)
      exact ⟨hpair, hbounded, fun _ hq => by cases hq⟩
    · exact h
  | poll =>
    unfold System.step
    dsimp only
    split
    · refine ⟨h.pairwise, h.bounded, fun q hq => ?_⟩
      obtain rfl := Option.some.inj hq
      exact List.nil_sublist _
    · exact h
  | turn behaviour =>
    unfold System.step
    dsimp only
    split
    · exact h
    · rename_i p hpoll
      exact h.turn hpoll

theorem listed_run (clock : Nat → Int) (labels : List (Label C)) :
    Listed (run System.step (System.new clock) labels) :=
  run_preserves (fun _ label h => h.step label)
    ⟨.nil, fun _ h => absurd h List.not_mem_nil, fun _ hq => by cases hq⟩ labels

end

/-! ## What fires -/

/-- What the log says of a timer that fires. -/
def invocation (w : World C) (t : Timeout) : Event := .invoked t (w.dueNs t) (w.interval t)

def World.due (w : World C) (now : Int) (t : Timeout) : Bool := w.active t && decide (w.dueNs t ≤ now)

theorem due_iff {w : World C} {now : Int} {t : Timeout} :
    w.due now t = true ↔ w.active t = true ∧ w.dueNs t ≤ now := by
  unfold World.due
  rw [Bool.and_eq_true, decide_eq_true_eq]

/-- The callback of a turn does not touch any timer. -/
def Quiet (behaviour : Behaviour C) : Prop := behaviour.actions = []

/-- A turn whose callback touches no timer leaves all other timers alone. -/
theorem visit_quiet {behaviour : Behaviour C} (hquiet : Quiet behaviour) (now : Int) (timer : Timeout)
    (w : World C) :
    (finalState (visit behaviour now timer w)).timers = w.timers ∧
      ∀ u : Timeout, timer.state ≠ u.state →
        (finalState (visit behaviour now timer w)).heap[u.state]? = w.heap[u.state]? := by
  have hwrite : ∀ f : TimerState C → TimerState C, (w.write timer f).timers = w.timers ∧
      ∀ u : Timeout, timer.state ≠ u.state → (w.write timer f).heap[u.state]? = w.heap[u.state]? := by
    intro f
    refine ⟨rfl, fun u hu => ?_⟩
    rw [heap_write, if_neg hu]
  by_cases hdue : w.active timer = true ∧ w.dueNs timer ≤ now
  · rw [System.visit_due hdue.1 hdue.2, hquiet]
    cases behaviour.raises with
    | some error => exact ⟨rfl, fun _ _ => rfl⟩
    | none =>
      dsimp only
      split
      · exact hwrite _
      · exact hwrite _
  · rw [System.visit_idle hdue]
    exact ⟨rfl, fun _ _ => rfl⟩

theorem call_raises (behaviour : Behaviour C) (w : World C) :
    wp behaviour.call (fun _ _ => True) (fun _ _ => behaviour.raises ≠ none) w := by
  simp only [Behaviour.call, wp_bind]
  rw [wp_of_ok (System.performAll_ok behaviour.actions w)]
  cases behaviour.raises with
  | none => trivial
  | some error => exact Option.some_ne_none error

/-- A turn raises only where its callback is called, and only if this does. -/
theorem visit_raises (behaviour : Behaviour C) (now : Int) (timer : Timeout) (w : World C) :
    wp (visit behaviour now timer) (fun _ _ => True)
      (fun _ _ => w.due now timer = true ∧ behaviour.raises ≠ none) w := by
  simp only [visit, wp_bind, wp_get, wp_ite, wp_pure, wp_modify]
  split
  · rename_i hactive
    split
    · rename_i hdue
      refine wp_mono (call_raises behaviour w) (fun _ w₁ _ => ?_) (fun _ _ h => ⟨due_iff.mpr ⟨hactive, hdue⟩, h⟩)
      split
      · trivial
      · trivial
    · trivial
  · trivial

/-- Nothing a poll does to one timer is seen by another. -/
theorem same_state {w w' : World C} {u : Timeout} (h : w'.heap[u.state]? = w.heap[u.state]?) (now : Int) :
    w'.due now u = w.due now u ∧ invocation w' u = invocation w u := by
  unfold World.due invocation World.active World.dueNs World.interval
  rw [h]
  exact ⟨rfl, rfl⟩

namespace System

theorem turned_quiet {behaviour : Behaviour C} (hquiet : Quiet behaviour) (now : Int) (timer : Timeout)
    (w : World C) :
    turned behaviour now timer w = if w.due now timer then [invocation w timer] else [] := by
  unfold turned
  rw [hquiet]
  by_cases hdue : w.active timer = true ∧ w.dueNs timer ≤ now
  · rw [if_pos hdue, if_pos (due_iff.mpr hdue)]
    rfl
  · rw [if_neg hdue, if_neg (fun h => hdue (due_iff.mp h))]

/-- The rest of a poll fires the rest of what is due, in the order of the list, until one raises. -/
theorem turns_fire {behaviour : Nat → Behaviour C} (hquiet : ∀ i, Quiet (behaviour i)) (now : Int)
    {rest : List Timeout} (index : Nat) (retained : List Timeout) (w : World C) (log : List Event)
    (hrest : w.timers.drop index = rest) (hpair : rest.Pairwise Before) :
    ∃ fired, (run step ⟨w, some ⟨now, index + rest.length, index, retained⟩, log⟩
        (turns behaviour index rest.length)).log = (fired.map (invocation w)).reverse ++ log ∧
      fired <+: rest.filter (w.due now) ∧
      ((∀ i, (behaviour i).raises = none) → fired = rest.filter (w.due now)) := by
  induction rest generalizing index retained w log with
  | nil =>
    refine ⟨[], ?_, List.prefix_refl _, fun _ => rfl⟩
    show (turn ⟨[], none⟩ ⟨now, index + 0, index, retained⟩
      ⟨w, some ⟨now, index + 0, index, retained⟩, log⟩ : System C).log = _
    have hend : ¬ index < index + 0 := Nat.lt_irrefl index
    rw [turn]
    exact congrArg System.log (if_neg hend)
  | cons timer rest ih =>
    have hget : w.timers[index]? = some timer := by
      have hhead := List.head?_drop (l := w.timers) (i := index)
      rw [hrest] at hhead
      exact hhead.symm
    have hlater : ∀ u ∈ rest, timer.state ≠ u.state := fun u hu =>
      Nat.ne_of_lt (List.rel_of_pairwise_cons hpair hu)
    obtain ⟨htimers, hothers⟩ := visit_quiet (hquiet index) now timer w
    have hraises := visit_raises (behaviour index) now timer w
    have hturns : turns behaviour index (timer :: rest).length =
        .turn (behaviour index) :: turns behaviour (index + 1) rest.length := rfl
    have hstep : step ⟨w, some ⟨now, index + (timer :: rest).length, index, retained⟩, log⟩
        (.turn (behaviour index)) = turn (behaviour index)
          ⟨now, index + (timer :: rest).length, index, retained⟩
          ⟨w, some ⟨now, index + (timer :: rest).length, index, retained⟩, log⟩ := rfl
    have hmore : index < index + (timer :: rest).length := by
      rw [List.length_cons]
      omega
    rw [hturns, run_cons, hstep, turn, if_pos hmore]
    dsimp only
    rw [hget]
    dsimp only
    rw [turned_quiet (hquiet index)]
    unfold wp at hraises
    generalize Timers.visit (behaviour index) now timer w = result at htimers hothers hraises ⊢
    obtain ⟨⟨fired, keep⟩, w'⟩ | ⟨error, w'⟩ := result
    · have hrest' : w'.timers.drop (index + 1) = rest := by
        have htimers : w'.timers = w.timers := htimers
        rw [htimers, ← List.drop_drop, hrest]
        rfl
      have hcount : index + (timer :: rest).length = index + 1 + rest.length := by
        rw [List.length_cons]
        omega
      rw [hcount]
      obtain ⟨after, hlog, hfired, hall⟩ := ih (index + 1)
        (if keep then retained ++ [timer] else retained) w'
        ((if w.due now timer then [invocation w timer] else []) ++ log) hrest' hpair.of_cons
      have hsame : ∀ u ∈ rest, w'.due now u = w.due now u ∧ invocation w' u = invocation w u :=
        fun u hu => same_state (hothers u (hlater u hu)) now
      have hfilter : rest.filter (w'.due now) = rest.filter (w.due now) :=
        List.filter_congr fun u hu => (hsame u hu).1
      rw [hfilter] at hfired hall
      have hinvocations : after.map (invocation w') = after.map (invocation w) :=
        List.map_congr_left fun u hu => (hsame u (List.mem_of_mem_filter (hfired.subset hu))).2
      refine ⟨(if w.due now timer then [timer] else []) ++ after, ?_, ?_, ?_⟩
      · refine hlog.trans ?_
        rw [hinvocations]
        cases w.due now timer with
        | true => simp
        | false => simp
      · rw [List.filter_cons]
        cases w.due now timer with
        | true => exact (List.prefix_cons_inj timer).mpr hfired
        | false => exact hfired
      · intro hnone
        rw [List.filter_cons, hall hnone]
        cases w.due now timer with
        | true => rfl
        | false => rfl
    · obtain ⟨hdue, hraise⟩ := hraises
      refine ⟨[timer], ?_, ?_, fun hnone => absurd (hnone index) hraise⟩
      · rw [run_idle rfl mem_turns, hdue]
        rfl
      · rw [List.filter_cons, hdue]
        exact (List.prefix_cons_inj timer).mpr (List.nil_prefix)

/-- Timers in the order they are due, and of their creation where they are due at the same time. -/
def DueOrder (w : World C) (fired : List Timeout) : Prop :=
  fired.Pairwise fun t u => w.dueNs t < w.dueNs u ∨ w.dueNs t = w.dueNs u ∧ Before t u

theorem dueOrder_iff {w : World C} {fired : List Timeout} (hcreated : fired.Pairwise Before) :
    DueOrder w fired ↔ ∀ t ∈ fired, ∀ u ∈ fired, Before t u → w.dueNs t ≤ w.dueNs u := by
  constructor
  · intro horder
    have hforth : fired.Pairwise fun t u => Before t u → w.dueNs t ≤ w.dueNs u :=
      horder.imp fun h _ => by omega
    have hback : fired.Pairwise fun t u => Before u t → w.dueNs u ≤ w.dueNs t :=
      hcreated.imp fun h h' => absurd h (Nat.lt_asymm h')
    intro t ht u hu
    exact List.Pairwise.forall_of_forall_of_flip (fun _ _ _ => Int.le_refl _) hforth hback ht hu
  · intro horder
    refine hcreated.imp_of_mem fun ht hu hbefore => ?_
    have hle := horder _ ht _ hu hbefore
    obtain hlt | heq := Int.lt_or_eq_of_le hle
    · exact .inl hlt
    · exact .inr ⟨heq, hbefore⟩

/-- **Timers fire in the order of their creation.** In every run, a poll whose callbacks touch no
timer fires what is active and due, from the front of the list up to a callback that raises. It
does so in the order of due times exactly if no timer that fires is due after one created later. -/
theorem fires_created (clock : Nat → Int) (labels : List (Label C)) (behaviour : Nat → Behaviour C)
    (hidle : (run step (new clock) labels).poll = none) (hquiet : ∀ i, Quiet (behaviour i)) :
    let s := run step (new clock) labels
    let polled := run step s (.poll :: turns behaviour 0 s.world.timers.length)
    polled.world = finalState (pollTimers behaviour s.world) ∧
    ∃ fired : List Timeout, polled.log = (fired.map (invocation s.world)).reverse ++ s.log ∧
      fired <+: s.world.timers.filter (s.world.due (s.world.clock s.world.readings)) ∧
      ((∀ i, (behaviour i).raises = none) →
        fired = s.world.timers.filter (s.world.due (s.world.clock s.world.readings))) ∧
      fired.Pairwise Before ∧
      (DueOrder s.world fired ↔
        ∀ t ∈ fired, ∀ u ∈ fired, Before t u → s.world.dueNs t ≤ s.world.dueNs u) := by
  have hlisted := listed_run clock labels
  intro s polled
  change Listed s at hlisted
  have hidle : s.poll = none := hidle
  obtain ⟨hpair, -, -⟩ := hlisted
  obtain ⟨log', hpoll⟩ := pollTimers_run behaviour s.world s.log
  have hs : (⟨s.world, none, s.log⟩ : System C) = s := by
    rw [← hidle]
  rw [hs] at hpoll
  refine ⟨congrArg System.world hpoll, ?_⟩
  have hstart : s.step .poll = ⟨{ s.world with readings := s.world.readings + 1 },
      some ⟨s.world.clock s.world.readings, 0 + s.world.timers.length, 0, []⟩, s.log⟩ := by
    unfold step
    dsimp only
    rw [hidle, Nat.zero_add]
  obtain ⟨fired, hlog, hfired, hall⟩ := turns_fire hquiet (s.world.clock s.world.readings) 0 []
    { s.world with readings := s.world.readings + 1 } s.log rfl hpair
  have hcreated : fired.Pairwise Before :=
    hpair.sublist (hfired.sublist.trans List.filter_sublist)
  refine ⟨fired, ?_, hfired, hall, hcreated, dueOrder_iff hcreated⟩
  show (run step (s.step .poll) (turns behaviour 0 s.world.timers.length)).log = _
  rw [hstart]
  exact hlog

/-- A timer of ten milliseconds and one of five, polled after twenty. -/
def crossing : Nat → Int := fun reading => if reading < 2 then 0 else 20000000

theorem fires_created_crossing :
    ∃ fired : List Timeout, (run step (new crossing) [.call (.setTimeout () 10), .call (.setTimeout () 5),
        .poll, .turn ⟨[], none⟩, .turn ⟨[], none⟩, .turn ⟨[], none⟩]).log =
          (fired.map (invocation (run step (new crossing)
            [.call (.setTimeout () 10), .call (.setTimeout () 5)]).world)).reverse ++
          (run step (new crossing) [.call (.setTimeout () 10), .call (.setTimeout () 5)]).log ∧
      fired.Pairwise Before := by
  obtain ⟨-, fired, hlog, -, -, hcreated, -⟩ := fires_created crossing
    [.call (.setTimeout () 10), .call (.setTimeout () 5)] (fun _ => ⟨[], none⟩) rfl (fun _ => rfl)
  exact ⟨fired, hlog, hcreated⟩

/-- The timer that is due later fires first. -/
theorem fires_crossed :
    ∃ w : World Unit, w = (run step (new crossing)
        [.call (.setTimeout () 10), .call (.setTimeout () 5)]).world ∧
      (run step (new crossing) [.call (.setTimeout () 10), .call (.setTimeout () 5),
        .poll, .turn ⟨[], none⟩, .turn ⟨[], none⟩, .turn ⟨[], none⟩]).log =
          [invocation w ⟨1⟩, invocation w ⟨0⟩, .armed ⟨1⟩, .armed ⟨0⟩] ∧
      ¬ DueOrder w [⟨0⟩, ⟨1⟩] := by
  refine ⟨_, rfl, rfl, fun h => ?_⟩
  obtain hlt | heq := List.rel_of_pairwise_cons h (List.mem_singleton.mpr rfl)
  · exact absurd hlt (by decide)
  · exact absurd heq.1 (by decide)

end System

end TsonicNode.Timers
