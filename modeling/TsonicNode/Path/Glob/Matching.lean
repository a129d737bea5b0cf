import TsonicNode.Runtime
import TsonicNode.Lib.Cuts
import TsonicNode.Path.Components

/-!
# Matching the components of a path

`_match` tries a list of compiled pattern components on the components of a
path. It keeps the set of places the components so far can lead to, as one
boolean for each place; a `**` moves a place over components without a leading
dot as it goes. What an expression accepts is left to `test`, which may raise.
-/

namespace TsonicNode.Path.Glob

open TsonicNode.Lib

/-- What a component that is not a globstar is compiled to. -/
inductive Part (RegExp : Type) where
  | literal (text : Bytes)
  | expression (regExp : RegExp)

/-- `_Component`. -/
inductive Component (RegExp : Type) where
  | globstar
  | part (part : Part RegExp)

/-- `startswith(".")`. -/
def startsWithDot (part : Bytes) : Bool := part.head? == some 46

section
variable {RegExp : Type} (test : RegExp → Bytes → Except Error Bool)

/-- `_Component.matches`. -/
def Part.matches : Part RegExp → Bytes → Except Error Bool
  | .literal text, value => .ok (text == value)
  | .expression regExp, value => test regExp value

/-- The places behind a globstar; `reached` is what the place before has set. -/
def globstarStates : Bool → List Bytes → List Bool → List Bool
  | reached, part :: path, state :: states =>
    (reached || state) :: globstarStates ((reached || state) && !startsWithDot part) path states
  | reached, _, _ => [reached]

/-- The places behind a part, from the second on. -/
def partStates (part : Part RegExp) : List Bytes → List Bool → Except Error (List Bool)
  | value :: path, state :: states => do
    let matched ← if state then part.matches test value else .ok false
    let next ← partStates part path states
    return matched :: next
  | _, _ => .ok []

/-- The states behind one more component of the pattern. -/
def nextStates (path : List Bytes) (states : List Bool) :
    Component RegExp → Except Error (List Bool)
  | .globstar => .ok (globstarStates false path states)
  | .part part => do
    let next ← partStates test part path states
    return false :: next

/-- `_match`. -/
def match_ (path : List Bytes) (pattern : List (Component RegExp)) : Except Error Bool := do
  let states ← pattern.foldlM (nextStates test path) (true :: path.map fun _ => false)
  return states.getD path.length false ||
    (0 < path.length && path.getD (path.length - 1) [] == [] && states.getD (path.length - 1) false)

/-! ## What a pattern means -/

/-- The segment of a component in front of `rest`: of a globstar any components without a leading
dot, beginning before the end of the path, of a part one component that it matches. -/
inductive Segment : Component RegExp → List Bytes → List Bytes → Prop where
  | globstar {segment rest : List Bytes} (hend : segment ++ rest ≠ [])
      (hdots : ∀ value ∈ segment, startsWithDot value = false) :
      Segment .globstar (segment ++ rest) rest
  | part {part : Part RegExp} {value : Bytes} {rest : List Bytes}
      (h : part.matches test value = .ok true) : Segment (.part part) (value :: rest) rest

/-- The whole path falls into the segments of the pattern. -/
def Cut (pattern : List (Component RegExp)) (path : List Bytes) : Prop :=
  Cuts (Segment test) pattern path []

/-- The path does, or it does without a last component that is empty. -/
def Accepts (pattern : List (Component RegExp)) (path : List Bytes) : Prop :=
  Cut test pattern path ∨ ∃ init, path = init ++ [[]] ∧ Cut test pattern init

end

/-! ## One component -/

section
variable {RegExp : Type} {test : RegExp → Bytes → Except Error Bool}

theorem segment_globstar {whole rest : List Bytes} :
    Segment test .globstar whole rest ↔ whole ≠ [] ∧
      ∃ segment, whole = segment ++ rest ∧ ∀ value ∈ segment, startsWithDot value = false := by
  constructor
  · rintro ⟨hend, hdots⟩
    exact ⟨hend, _, rfl, hdots⟩
  · rintro ⟨hend, segment, rfl, hdots⟩
    exact .globstar hend hdots

theorem segment_part {part : Part RegExp} {whole rest : List Bytes} :
    Segment test (.part part) whole rest ↔
      ∃ value, whole = value :: rest ∧ part.matches test value = .ok true := by
  constructor
  · rintro ⟨⟩
    exact ⟨_, rfl, by assumption⟩
  · rintro ⟨value, rfl, h⟩
    exact .part h

/-- Components without a leading dot lead from a place to a later one. -/
def Clear (whole rest : List Bytes) : Prop :=
  ∃ segment, whole = segment ++ rest ∧ ∀ value ∈ segment, startsWithDot value = false

theorem clear_cons {value : Bytes} {whole rest : List Bytes} :
    Clear (value :: whole) rest ↔
      rest = value :: whole ∨ startsWithDot value = false ∧ Clear whole rest := by
  constructor
  · rintro ⟨segment, heq, hdots⟩
    cases segment with
    | nil => exact .inl heq.symm
    | cons first segment =>
      obtain ⟨rfl, htail⟩ := List.cons.inj heq
      exact .inr ⟨hdots _ List.mem_cons_self, segment, htail, fun other hother =>
        hdots other (List.mem_cons_of_mem _ hother)⟩
  · rintro (rfl | ⟨hdot, segment, rfl, hdots⟩)
    · exact ⟨[], rfl, fun _ h => by cases h⟩
    · refine ⟨value :: segment, rfl, fun other hother => ?_⟩
      rcases List.mem_cons.mp hother with rfl | hother
      · exact hdot
      · exact hdots other hother

/-- A globstar moves the places over components without a leading dot. -/
theorem marks_globstarStates {path rest : List Bytes} {states : List Bool} (reached : Bool)
    (hlength : states.length = path.length + 1) :
    Marks path (globstarStates reached path states) rest ↔
      reached = true ∧ Clear path rest ∨
      ∃ middle, Marks path states middle ∧ middle ≠ [] ∧ Clear middle rest := by
  induction path generalizing reached states with
  | nil =>
    obtain ⟨state, rfl⟩ := List.length_eq_one_iff.mp hlength
    simp only [globstarStates, marks_nil]
    constructor
    · rintro ⟨hreached, rfl⟩
      exact .inl ⟨hreached, [], rfl, fun _ h => by cases h⟩
    · rintro (⟨hreached, segment, heq, -⟩ | ⟨middle, ⟨-, rfl⟩, hend, -⟩)
      · exact ⟨hreached, (List.nil_eq_append_iff.mp heq).2⟩
      · exact absurd rfl hend
  | cons value path ih =>
    cases states with
    | nil => cases hlength
    | cons state states =>
      simp only [globstarStates, marks_cons, ih _ (Nat.succ.inj hlength), clear_cons]
      constructor
      · rintro (⟨hhere, rfl⟩ | ⟨hhere, hclear⟩ | ⟨middle, hmark, hend, hclear⟩)
        · rcases Bool.or_eq_true_iff.mp hhere with hreached | hstate
          · exact .inl ⟨hreached, .inl rfl⟩
          · exact .inr ⟨_, .inl ⟨hstate, rfl⟩, by simp, clear_cons.mpr (.inl rfl)⟩
        · obtain ⟨hhere, hdot⟩ := (Bool.and_eq_true_iff).mp hhere
          have hdot : startsWithDot value = false := by simpa using hdot
          rcases Bool.or_eq_true_iff.mp hhere with hreached | hstate
          · exact .inl ⟨hreached, .inr ⟨hdot, hclear⟩⟩
          · exact .inr ⟨_, .inl ⟨hstate, rfl⟩, by simp, clear_cons.mpr (.inr ⟨hdot, hclear⟩)⟩
        · exact .inr ⟨middle, .inr hmark, hend, hclear⟩
      · rintro (⟨hreached, rfl | ⟨hdot, hclear⟩⟩ |
          ⟨middle, ⟨hstate, rfl⟩ | hmark, hend, hclear⟩)
        · exact .inl ⟨by rw [hreached]; rfl, rfl⟩
        · exact .inr (.inl ⟨by rw [hreached, hdot]; rfl, hclear⟩)
        · rcases clear_cons.mp hclear with rfl | ⟨hdot, hclear⟩
          · exact .inl ⟨by rw [hstate, Bool.or_true], rfl⟩
          · exact .inr (.inl ⟨by rw [hstate, hdot, Bool.or_true]; rfl, hclear⟩)
        · exact .inr (.inr ⟨middle, hmark, hend, hclear⟩)

theorem globstarStates_length {path : List Bytes} {states : List Bool} (reached : Bool)
    (hlength : states.length = path.length + 1) :
    (globstarStates reached path states).length = path.length + 1 := by
  induction path generalizing reached states with
  | nil =>
    obtain ⟨state, rfl⟩ := List.length_eq_one_iff.mp hlength
    rfl
  | cons value path ih =>
    cases states with
    | nil => cases hlength
    | cons state states =>
      rw [globstarStates, List.length_cons, ih _ (Nat.succ.inj hlength), List.length_cons]

/-- What a part makes of the first place, and of the others. -/
theorem partStates_cons {part : Part RegExp} {value : Bytes} {path : List Bytes} {state : Bool}
    {states next : List Bool}
    (h : partStates test part (value :: path) (state :: states) = .ok next) :
    ∃ matched next', next = matched :: next' ∧ partStates test part path states = .ok next' ∧
      (matched = true ↔ state = true ∧ part.matches test value = .ok true) := by
  unfold partStates at h
  cases state with
  | false =>
    cases hnext : partStates test part path states with
    | error error => simp [hnext, bind, Except.bind] at h
    | ok next' =>
      rw [if_neg Bool.false_ne_true, hnext] at h
      obtain rfl := Except.ok.inj h
      exact ⟨false, next', rfl, rfl, by simp⟩
  | true =>
    cases hmatched : part.matches test value with
    | error error => simp [hmatched, bind, Except.bind] at h
    | ok matched =>
      cases hnext : partStates test part path states with
      | error error => simp [hmatched, hnext, bind, Except.bind] at h
      | ok next' =>
        rw [if_pos rfl, hmatched, hnext] at h
        obtain rfl := Except.ok.inj h
        exact ⟨matched, next', rfl, rfl, by simp⟩

/-- A part moves each place over the component there, if it matches it. -/
theorem marks_partStates {part : Part RegExp} {path rest : List Bytes} {states next : List Bool}
    (mark : Bool) (hlength : states.length = path.length + 1)
    (h : partStates test part path states = .ok next) :
    next.length = path.length ∧
    (Marks path (mark :: next) rest ↔ mark = true ∧ rest = path ∨
      ∃ middle, Marks path states middle ∧ Segment test (.part part) middle rest) := by
  induction path generalizing mark states next with
  | nil =>
    obtain ⟨state, rfl⟩ := List.length_eq_one_iff.mp hlength
    obtain rfl := Except.ok.inj h
    refine ⟨rfl, ?_⟩
    rw [marks_nil]
    constructor
    · exact .inl
    · rintro (hmark | ⟨middle, hmiddle, hsegment⟩)
      · exact hmark
      · obtain ⟨value, rfl, -⟩ := segment_part.mp hsegment
        cases (marks_nil.mp hmiddle).2
  | cons value path ih =>
    cases states with
    | nil => cases hlength
    | cons state states =>
      obtain ⟨matched, next', rfl, hnext, hmatched⟩ := partStates_cons h
      obtain ⟨hlength', hmarks⟩ := ih matched (Nat.succ.inj hlength) hnext
      refine ⟨congrArg (· + 1) hlength', ?_⟩
      rw [marks_cons, hmarks]
      refine or_congr_right ?_
      constructor
      · rintro (⟨htrue, rfl⟩ | ⟨middle, hmiddle, hsegment⟩)
        · obtain ⟨hstate, hmatches⟩ := hmatched.mp htrue
          exact ⟨_, .inl ⟨hstate, rfl⟩ |> marks_cons.mpr, .part hmatches⟩
        · exact ⟨middle, .there hmiddle, hsegment⟩
      · rintro ⟨middle, hmiddle, hsegment⟩
        rcases marks_cons.mp hmiddle with ⟨hstate, rfl⟩ | hmiddle
        · obtain ⟨first, heq, hmatches⟩ := segment_part.mp hsegment
          obtain ⟨rfl, rfl⟩ := List.cons.inj heq
          exact .inl ⟨hmatched.mpr ⟨hstate, hmatches⟩, rfl⟩
        · exact .inr ⟨middle, hmiddle, hsegment⟩

/-- One component of the pattern moves the places over its segments. -/
theorem marks_nextStates {component : Component RegExp} {path rest : List Bytes}
    {states next : List Bool} (hlength : states.length = path.length + 1)
    (h : nextStates test path states component = .ok next) :
    next.length = path.length + 1 ∧ (Marks path next rest ↔
      ∃ middle, Marks path states middle ∧ Segment test component middle rest) := by
  cases component with
  | globstar =>
    obtain rfl := Except.ok.inj h
    refine ⟨globstarStates_length false hlength, ?_⟩
    rw [marks_globstarStates false hlength]
    simp only [Bool.false_eq_true, false_and, false_or, segment_globstar, Clear]
  | part part =>
    unfold nextStates at h
    cases hnext : partStates test part path states with
    | error error => simp [hnext, bind, Except.bind] at h
    | ok next' =>
      simp only [hnext, bind, Except.bind, pure, Except.pure, Except.ok.injEq] at h
      obtain rfl := h
      obtain ⟨hlength', hmarks⟩ : next'.length = path.length ∧
          (Marks path (false :: next') rest ↔ false = true ∧ rest = path ∨
            ∃ middle, Marks path states middle ∧ Segment test (.part part) middle rest) :=
        marks_partStates false hlength hnext
      refine ⟨congrArg (· + 1) hlength', ?_⟩
      rw [hmarks]
      simp

/-! ## The pattern -/

/-- After some components the places are where their cuts end. -/
theorem marks_foldlM {pattern : List (Component RegExp)} {path rest : List Bytes}
    {states final : List Bool} (hlength : states.length = path.length + 1)
    (h : pattern.foldlM (nextStates test path) states = .ok final) :
    final.length = path.length + 1 ∧ (Marks path final rest ↔
      ∃ middle, Marks path states middle ∧ Cuts (Segment test) pattern middle rest) := by
  induction pattern generalizing states with
  | nil =>
    obtain rfl := Except.ok.inj h
    exact ⟨hlength, by simp⟩
  | cons component pattern ih =>
    rw [List.foldlM_cons] at h
    cases hnext : nextStates test path states component with
    | error error => simp [hnext, bind, Except.bind] at h
    | ok next =>
      rw [hnext] at h
      have hlength' := (@marks_nextStates _ test component path rest _ _ hlength hnext).1
      obtain ⟨hfinal, hmarks⟩ := ih hlength' h
      refine ⟨hfinal, hmarks.trans ?_⟩
      constructor
      · rintro ⟨middle, hmiddle, hcuts⟩
        obtain ⟨first, hfirst, hsegment⟩ := (marks_nextStates hlength hnext).2.mp hmiddle
        exact ⟨first, hfirst, .cons hsegment hcuts⟩
      · rintro ⟨first, hfirst, hcuts⟩
        obtain ⟨middle, hsegment, hcuts⟩ := cuts_cons.mp hcuts
        exact ⟨middle, (marks_nextStates hlength hnext).2.mpr ⟨first, hfirst, hsegment⟩, hcuts⟩

/-- What is left by a cut is the end of what was cut. -/
theorem Cuts.suffix {pattern : List (Component RegExp)} {whole rest : List Bytes}
    (h : Cuts (Segment test) pattern whole rest) : rest <:+ whole := by
  induction h with
  | nil rest => exact List.suffix_refl rest
  | cons hsegment _ ih =>
    refine ih.trans ?_
    cases hsegment with
    | globstar hend hdots => exact List.suffix_append ..
    | part h => exact List.suffix_cons ..

/-- What stands behind a list does not keep a pattern from cutting it. -/
theorem cuts_append {pattern : List (Component RegExp)} {whole rest : List Bytes}
    (h : Cuts (Segment test) pattern whole rest) (tail : List Bytes) :
    Cuts (Segment test) pattern (whole ++ tail) (rest ++ tail) := by
  induction h with
  | nil rest => exact .nil _
  | cons hsegment _ ih =>
    refine .cons ?_ ih
    cases hsegment with
    | @globstar segment rest hend hdots =>
      rw [List.append_assoc]
      refine .globstar (fun h => hend ?_) hdots
      rw [← List.append_assoc] at h
      exact (List.append_eq_nil_iff.mp h).1
    | part h => exact .part h

/-- A cut that leaves a last empty component is one of the path without it, or of the whole path:
a globstar right in front of the empty component may take it in. -/
theorem cut_of_left {pattern : List (Component RegExp)} {whole rest : List Bytes}
    (h : Cuts (Segment test) pattern whole rest) {init : List Bytes} (hwhole : whole = init ++ [[]])
    (hrest : rest = [[]]) : Cut test pattern init ∨ Cut test pattern whole := by
  induction h generalizing init with
  | nil rest =>
    left
    rw [hrest] at hwhole
    obtain rfl : init = [] := by simpa using hwhole.symm
    exact .nil []
  | @cons component pattern whole middle rest hsegment hcuts ih =>
    -- what is left for the other components still ends in the empty one
    obtain ⟨init', hmiddle⟩ : ∃ init', middle = init' ++ [[]] := by
      obtain ⟨before, hbefore⟩ := Cuts.suffix hcuts
      exact ⟨before, by rw [← hbefore, hrest]⟩
    cases hsegment with
    | @globstar segment rest hend hdots =>
      have hinit : init = segment ++ init' := by
        rw [hmiddle, ← List.append_assoc] at hwhole
        exact (List.append_cancel_right hwhole).symm
      rcases ih hmiddle hrest with hcut | hcut
      · by_cases hempty : segment ++ init' = []
        · right
          obtain ⟨rfl, rfl⟩ := List.append_eq_nil_iff.mp hempty
          rw [hmiddle]
          exact .cons (@Segment.globstar _ test [[]] [] (by simp) (by simp [startsWithDot])) hcut
        · left
          rw [hinit]
          exact .cons (.globstar hempty hdots) hcut
      · exact .inr (.cons (.globstar hend hdots) hcut)
    | @part part value rest h =>
      have hinit : init = value :: init' := by
        rw [hmiddle, ← List.cons_append] at hwhole
        exact (List.append_cancel_right hwhole).symm
      rcases ih hmiddle hrest with hcut | hcut
      · left
        rw [hinit]
        exact .cons (.part h) hcut
      · exact .inr (.cons (.part h) hcut)

theorem accepts_iff {pattern : List (Component RegExp)} {path : List Bytes} :
    Accepts test pattern path ↔ Cuts (Segment test) pattern path [] ∨
      path.getLast? = some [] ∧ Cuts (Segment test) pattern path [[]] := by
  constructor
  · rintro (hcut | ⟨init, rfl, hcut⟩)
    · exact .inl hcut
    · exact .inr ⟨by simp, cuts_append hcut [[]]⟩
  · rintro (hcut | ⟨hlast, hcuts⟩)
    · exact .inl hcut
    · obtain ⟨init, rfl⟩ := List.getLast?_eq_some_iff.mp hlast
      rcases cut_of_left hcuts rfl rfl with hcut | hcut
      · exact .inr ⟨init, rfl, hcut⟩
      · exact .inl hcut

/-! ### Nothing is raised unless an expression does -/

theorem partStates_returns {part : Part RegExp} {path : List Bytes}
    (h : ∀ value ∈ path, ∃ matched, part.matches test value = .ok matched) (states : List Bool) :
    ∃ next, partStates test part path states = .ok next := by
  induction path generalizing states with
  | nil => exact ⟨[], by cases states <;> rfl⟩
  | cons value path ih =>
    cases states with
    | nil => exact ⟨[], rfl⟩
    | cons state states =>
      obtain ⟨matched, hmatched⟩ := h value List.mem_cons_self
      obtain ⟨next, hnext⟩ := ih (fun other hother => h other (List.mem_cons_of_mem _ hother)) states
      unfold partStates
      rw [hmatched, hnext]
      cases state
      · exact ⟨_, rfl⟩
      · exact ⟨_, rfl⟩

theorem foldlM_returns {pattern : List (Component RegExp)} {path : List Bytes}
    (h : ∀ part, .part part ∈ pattern → ∀ value ∈ path,
      ∃ matched, part.matches test value = .ok matched) (states : List Bool) :
    ∃ final, pattern.foldlM (nextStates test path) states = .ok final := by
  induction pattern generalizing states with
  | nil => exact ⟨states, rfl⟩
  | cons component pattern ih =>
    have hnext : ∃ next, nextStates test path states component = .ok next := by
      cases component with
      | globstar => exact ⟨_, rfl⟩
      | part part =>
        obtain ⟨next, hnext⟩ := partStates_returns (h part List.mem_cons_self) states
        exact ⟨false :: next, by rw [nextStates, hnext]; rfl⟩
    obtain ⟨next, hnext⟩ := hnext
    rw [List.foldlM_cons, hnext]
    exact ih (fun part hpart => h part (List.mem_cons_of_mem _ hpart)) next

theorem getD_true {marks : List Bool} {index : Nat} :
    marks.getD index false = true ↔ marks[index]? = some true := by
  rw [List.getD_eq_getElem?_getD]
  cases marks[index]? <;> simp

/-- A path whose last component is empty. -/
theorem last_empty {path : List Bytes} :
    (decide (0 < path.length) = true ∧ (path.getD (path.length - 1) [] == []) = true) ↔
      path.getLast? = some [] ∧ [[]] <:+ path := by
  cases path using List.reverseRecOn with
  | nil => simp
  | append_singleton init last =>
    have hlast : (init ++ [last]).getD ((init ++ [last]).length - 1) [] = last := by
      simp [List.getD_eq_getElem?_getD]
    rw [hlast, List.getLast?_concat]
    constructor
    · rintro ⟨-, hempty⟩
      obtain rfl : last = [] := by simpa using hempty
      exact ⟨rfl, List.suffix_append ..⟩
    · rintro ⟨hempty, -⟩
      obtain rfl : last = [] := by simpa using hempty
      exact ⟨by simp, rfl⟩

/-- `_match` accepts a path exactly when the pattern's segments make it up, and raises only where
an expression raises on one of the components. -/
theorem match_accepts (test : RegExp → Bytes → Except Error Bool) (path : List Bytes)
    (pattern : List (Component RegExp)) :
    (∀ accepted, match_ test path pattern = .ok accepted →
      (accepted = true ↔ Accepts test pattern path)) ∧
    ((∀ part, .part part ∈ pattern → ∀ value ∈ path,
      ∃ matched, part.matches test value = .ok matched) →
      ∃ accepted, match_ test path pattern = .ok accepted) := by
  constructor
  · intro accepted h
    unfold match_ at h
    cases hfinal : pattern.foldlM (nextStates test path) (true :: path.map fun _ => false) with
    | error error =>
      rw [hfinal] at h
      cases h
    | ok final =>
      rw [hfinal] at h
      obtain rfl := Except.ok.inj h
      have hmarks : ∀ rest, Cuts (Segment test) pattern path rest ↔
          rest <:+ path ∧ final[path.length - rest.length]? = some true := by
        intro rest
        rw [← marks_iff, (marks_foldlM (by simp) hfinal).2]
        constructor
        · exact fun hcuts => ⟨path, marks_start.mpr rfl, hcuts⟩
        · rintro ⟨middle, hmiddle, hcuts⟩
          rwa [marks_start.mp hmiddle] at hcuts
      rw [accepts_iff, hmarks, hmarks, Bool.or_eq_true, Bool.and_eq_true, Bool.and_eq_true]
      refine or_congr ?_ ?_
      · rw [getD_true, and_iff_right (List.nil_suffix ..)]
        rfl
      · rw [getD_true, last_empty, and_assoc]
        rfl
  · intro h
    obtain ⟨final, hfinal⟩ := foldlM_returns h (true :: path.map fun _ => false)
    unfold match_
    rw [hfinal]
    exact ⟨_, rfl⟩

/-- The path `a/` and the pattern `a/**`. -/
theorem match_accepts_slash :
    Accepts (fun (regExp : Empty) _ => regExp.elim) [.part (.literal [97]), .globstar] [[97], []] ∧
      ∃ accepted, match_ (fun (regExp : Empty) _ => regExp.elim) [[97], []]
        [.part (.literal [97]), .globstar] = .ok accepted := by
  obtain ⟨haccepts, hreturns⟩ := match_accepts (fun (regExp : Empty) _ => regExp.elim) [[97], []]
    [.part (.literal [97]), .globstar]
  refine ⟨(haccepts true rfl).mp rfl, hreturns fun part hpart value _ => ?_⟩
  obtain rfl : part = .literal [97] := by simpa using hpart
  exact ⟨_, rfl⟩

end

end TsonicNode.Path.Glob
