import Mathlib.Data.List.Chain
import TsonicNode.Path.Glob.Groups

/-!
# The components of a pattern

`split_components` cuts a path at its slashes and `normalize_components` takes
back what a `..` leads out of. `pattern_components` replaces a `**/..` in front
of two components by the two paths it stands for, and normalizes these again.
`components_normal` says that it ends, and what its lists look like.
-/

namespace TsonicNode.Path.Glob

open TsonicNode.Lib

def globstar : Bytes := [42, 42]

/-- The components from here on; a slash ends one together with the slashes behind it. -/
def splitFrom (component : Bytes) : Bytes → List Bytes
  | [] => [component]
  | 47 :: 47 :: rest => splitFrom component (47 :: rest)
  | 47 :: rest => component :: splitFrom [] rest
  | byte :: rest => splitFrom (component ++ [byte]) rest

def splitComponents (path : Bytes) (windows : Bool) : List Bytes :=
  let components := splitFrom [] path
  if windows = true ∧ [47, 47].isPrefixOf path ∧ path.length > 2 ∧ path.getD 2 0 ≠ 47 then [] :: components
  else components

/-! ## Normalizing -/

/-- The last component is one that a `..` takes back. -/
def takesBack (result : List Bytes) : Bool :=
  match result.getLast? with
  | none => false
  | some previous => previous != [] && previous != dot && previous != dotDot && previous != globstar

/-- The loop of `normalize_components`, from an index on. -/
def normalizeFrom (pattern : Bool) (parts : List Bytes) (index : Nat) (result : List Bytes) :
    List Bytes → List Bytes
  | [] => result
  | part :: rest =>
    if index > 0 ∧ rest ≠ [] ∧ isIdle part = true ∧ ¬ (index = 1 ∧ part = [] ∧ parts.head? = some []) then
      normalizeFrom pattern parts (index + 1) result rest
    else if pattern = true ∧ part = globstar ∧ result.getLast? = some globstar then
      normalizeFrom pattern parts (index + 1) result rest
    else if part = dotDot ∧ takesBack result = true then
      if pattern = true ∧ result.dropLast = [] ∧ rest.head? = some globstar then
        normalizeFrom pattern parts (index + 1) [dot] rest
      else normalizeFrom pattern parts (index + 1) result.dropLast rest
    else normalizeFrom pattern parts (index + 1) (result ++ [part]) rest

/-- A dot in front of an idle component. -/
def idlePair : List Bytes → Bool
  | [first, second] => first == dot && isIdle second
  | _ => false

def normalizeComponents (parts : List Bytes) (pattern : Bool) : List Bytes :=
  let result := normalizeFrom pattern parts 0 [] parts
  let result := if idlePair result = true then result.dropLast else result
  if result = [] then [[]] else result

/-! ## Replacing -/

def ordinary (part : Bytes) : Bool := part != [] && part != dot && part != dotDot

/-- The first `**/..` in front of two components, replaced by the `..` and by the `**`. -/
def splitParts : List Bytes → List Bytes → Option (List Bytes × List Bytes)
  | front, part :: parent :: first :: second :: back =>
    if part = globstar ∧ parent = dotDot ∧ ordinary first = true ∧ ordinary second = true then
      some (front ++ parent :: first :: second :: back, front ++ part :: first :: second :: back)
    else splitParts (front ++ [part]) (parent :: first :: second :: back)
  | _, _ => none

structure Work where
  /-- The last one first. -/
  pending : List (List Bytes)
  output : List (List Bytes) := []
  size : Int := 0

/-- A turn of the loop with `parts`. -/
def Work.turn (work : Work) (parts : List Bytes) : Except Error Work :=
  match splitParts [] parts with
  | some (parent, recursive) => do
    let pending := normalizeComponents recursive true :: normalizeComponents parent true :: work.pending
    requireExpansionSize (pending.length + work.output.length)
    return { work with pending }
  | none => do
    let size := parts.foldl (fun size part => size + (part.length : Int)) work.size
    requireSourceSize size
    return { work with output := work.output ++ [parts], size }

/-- The loop, for at most so many turns. -/
def componentsLoop : Nat → Work → Option (Except Error (List (List Bytes)))
  | _, ⟨[], output, _⟩ => some (.ok output)
  | 0, _ => none
  | turns + 1, ⟨parts :: pending, output, size⟩ =>
    match Work.turn ⟨pending, output, size⟩ parts with
    | .error error => some (.error error)
    | .ok work => componentsLoop turns work

/-- `pattern_components` ends with this outcome. -/
def PatternComponents (pattern : Bytes) (windows : Bool) (outcome : Except Error (List (List Bytes))) : Prop :=
  ∃ turns, componentsLoop turns ⟨[normalizeComponents (splitComponents pattern windows) true], [], 0⟩ = some outcome

/-! ## The normal form -/

/-- What a component may stand behind: no globstar behind one, no `..` behind what it takes back. -/
def Beside (part next : Bytes) : Prop :=
  ¬ (part = globstar ∧ next = globstar) ∧
    (next = dotDot → part = [] ∨ part = dot ∨ part = dotDot ∨ part = globstar)

/-- The root, a dot, or nothing in front of components that are not idle. -/
structure Led (result : List Bytes) : Prop where
  led : ∃ lead names, result = lead ++ names ∧ (lead = [] ∨ lead = [[]] ∨ lead = [dot] ∨ lead = [[], []]) ∧
    ∀ name ∈ names, isIdle name = false
  beside : result.IsChain Beside

theorem isIdle_iff {part : Bytes} : isIdle part = true ↔ part = [] ∨ part = dot := by
  unfold isIdle
  rw [Bool.or_eq_true, beq_iff_eq, beq_iff_eq]

theorem takesBack_iff {result : List Bytes} : takesBack result = true ↔
    ∃ previous, result.getLast? = some previous ∧ isIdle previous = false ∧ previous ≠ dotDot ∧
      previous ≠ globstar := by
  unfold takesBack
  cases result.getLast? with
  | none => simp
  | some previous => simp [isIdle, and_assoc]

section
variable {result : List Bytes}

/-- What may stand behind the last component. -/
theorem Led.push (h : Led result) {part : Bytes} (hidle : isIdle part = false)
    (hbeside : ∀ previous ∈ result.getLast?, Beside previous part) : Led (result ++ [part]) := by
  obtain ⟨⟨lead, names, rfl, hlead, hnames⟩, hchain⟩ := h
  refine ⟨⟨lead, names ++ [part], (List.append_assoc ..), hlead, fun name hname => ?_⟩, ?_⟩
  · rcases List.mem_append.mp hname with hname | hname
    · exact hnames name hname
    · rw [List.mem_singleton.mp hname]
      exact hidle
  · rw [List.isChain_append]
    refine ⟨hchain, List.isChain_singleton _, fun previous hprevious next hnext => ?_⟩
    obtain rfl : part = next := Option.some.inj hnext
    exact hbeside previous hprevious

theorem Led.pop (h : Led result) (hback : takesBack result = true) : Led result.dropLast := by
  obtain ⟨previous, hprevious, hidle, -, -⟩ := takesBack_iff.mp hback
  obtain ⟨⟨lead, names, rfl, hlead, hnames⟩, hchain⟩ := h
  refine ⟨?_, ?_⟩
  · cases hlast : names.getLast? with
    | none =>
      -- no root or dot is taken back
      rw [List.getLast?_eq_none_iff] at hlast
      subst hlast
      rw [List.append_nil] at hprevious
      rcases hlead with rfl | rfl | rfl | rfl
      · cases hprevious
      · cases hprevious
        cases hidle
      · cases hprevious
        cases hidle
      · cases hprevious
        cases hidle
    | some last =>
      have hne : names ≠ [] := by
        rintro rfl
        cases hlast
      rw [List.dropLast_append_of_ne_nil hne]
      exact ⟨lead, names.dropLast, rfl, hlead, fun name hname => hnames name ((List.dropLast_sublist _).subset hname)⟩
  · rw [← List.dropLast_append_getLast? _ hprevious] at hchain
    exact (List.isChain_append.mp hchain).1

theorem led_dot : Led [dot] := ⟨⟨[dot], [], rfl, .inr (.inr (.inl rfl)), by simp⟩, List.isChain_singleton _⟩

end

/-- What the loop leaves: the last component may be idle too. -/
structure Formed (result : List Bytes) : Prop where
  formed : ∃ front last, result = front ++ last ∧ Led front ∧ (last = [] ∨ ∃ part, last = [part] ∧ isIdle part = true)
  beside : result.IsChain Beside

theorem Led.formed {result : List Bytes} (h : Led result) : Formed result :=
  ⟨⟨result, [], (List.append_nil _).symm, h, .inl rfl⟩, h.beside⟩

theorem beside_idle {previous part : Bytes} (h : isIdle part = true) : Beside previous part := by
  rcases isIdle_iff.mp h with rfl | rfl
  · exact ⟨by simp [globstar], by simp [dotDot]⟩
  · exact ⟨by simp [globstar, dot], by simp [dotDot, dot]⟩

theorem Led.close {result : List Bytes} (h : Led result) {part : Bytes} (hidle : isIdle part = true) :
    Formed (result ++ [part]) := by
  refine ⟨⟨result, [part], rfl, h, .inr ⟨part, rfl, hidle⟩⟩, ?_⟩
  rw [List.isChain_append]
  refine ⟨h.beside, List.isChain_singleton _, fun previous _ next hnext => ?_⟩
  obtain rfl : part = next := Option.some.inj hnext
  exact beside_idle hidle

/-- The loop from the second component on. -/
theorem normalizeFrom_formed {parts rest result : List Bytes} {index : Nat} (hindex : 0 < index)
    (hfirst : index = 1 → parts.head? = some [] → result = [[]]) (h : Led result) :
    Formed (normalizeFrom true parts index result rest) := by
  induction rest generalizing index result with
  | nil => exact h.formed
  | cons part rest ih =>
    have hnext : ∀ after : List Bytes, index + 1 = 1 → parts.head? = some [] → after = [[]] := by
      intro after hone
      omega
    unfold normalizeFrom
    split_ifs with hskip hstars hback hdot
    · exact ih (by omega) (hnext _) h
    · exact ih (by omega) (hnext _) h
    · exact ih (by omega) (hnext _) led_dot
    · exact ih (by omega) (hnext _) (h.pop hback.2)
    · by_cases hidle : isIdle part = true
      · by_cases hlast : rest = []
        · subst hlast
          exact h.close hidle
        · -- the second of two empty components
          obtain ⟨rfl, rfl, hhead⟩ : index = 1 ∧ part = [] ∧ parts.head? = some [] := by
            by_contra hnot
            exact hskip ⟨hindex, hlast, hidle, hnot⟩
          obtain rfl := hfirst rfl hhead
          refine ih (by omega) (hnext _) ⟨⟨[[], []], [], rfl, .inr (.inr (.inr rfl)), by simp⟩, ?_⟩
          rw [List.isChain_append]
          refine ⟨h.beside, List.isChain_singleton _, fun previous _ next hnext => ?_⟩
          obtain rfl := Option.some.inj hnext
          exact beside_idle rfl
      · refine ih (by omega) (hnext _) (h.push (eq_false_of_ne_true hidle) fun previous hprevious => ⟨?_, ?_⟩)
        · rintro ⟨rfl, rfl⟩
          exact hstars ⟨rfl, rfl, hprevious⟩
        · rintro rfl
          by_contra hnot
          push Not at hnot
          obtain ⟨hempty, hdot, hparent, hstar⟩ := hnot
          refine hback ⟨rfl, takesBack_iff.mpr ⟨previous, hprevious, ?_, hparent, hstar⟩⟩
          rw [Bool.eq_false_iff]
          intro hidle
          rcases isIdle_iff.mp hidle with hidle | hidle
          · exact hempty hidle
          · exact hdot hidle

/-- What a list of components looks like that is normalized. -/
structure Normal (parts : List Bytes) : Prop where
  fixed : normalizeComponents parts true = parts
  stars : ∀ front back, parts ≠ front ++ globstar :: globstar :: back
  parents : ∀ front part back, parts = front ++ part :: dotDot :: back →
    part = [] ∨ part = dot ∨ part = dotDot ∨ part = globstar
  interior : ∀ front part back, parts = front ++ part :: back → front ≠ [] → back ≠ [] → part = [] ∨ part = dot →
    front = [[]] ∧ part = []

/-- An idle component is the first or the last one, or the second of two empty ones. -/
theorem Formed.interior {parts front back : List Bytes} {part : Bytes} (h : Formed parts)
    (hparts : parts = front ++ part :: back) (hfront : front ≠ []) (hback : back ≠ []) (hidle : isIdle part = true) :
    front = [[]] ∧ part = [] := by
  obtain ⟨result, last, rfl, ⟨⟨lead, names, rfl, hlead, hnames⟩, -⟩, hlast⟩ := h.formed
  -- it is none of the names, and the last one is behind it
  have hback' : last = [] ∨ ∃ other, last = [other] := by
    rcases hlast with rfl | ⟨other, rfl, -⟩
    · exact .inl rfl
    · exact .inr ⟨other, rfl⟩
  rw [List.append_assoc] at hparts
  rcases List.append_eq_append_iff.mp hparts with ⟨middle, rfl, hmiddle⟩ | ⟨middle, rfl, hmiddle⟩
  · exfalso
    rcases List.append_eq_append_iff.mp hmiddle with ⟨behind, rfl, hbehind⟩ | ⟨behind, rfl, hbehind⟩
    · rcases hback' with rfl | ⟨other, rfl⟩
      · simp at hbehind
      · have hlength := congrArg List.length hbehind
        simp only [List.length_append, List.length_cons, List.length_nil] at hlength
        have hempty : back.length = 0 := by omega
        exact hback (List.length_eq_zero_iff.mp hempty)
    · cases behind with
      | nil =>
        rw [List.nil_append] at hbehind
        rcases hback' with rfl | ⟨other, rfl⟩
        · cases hbehind
        · obtain ⟨-, rfl⟩ := List.cons.inj hbehind
          exact hback rfl
      | cons other behind =>
        obtain ⟨rfl, -⟩ := List.cons.inj hbehind
        have hname := hnames part (List.mem_append_right _ List.mem_cons_self)
        rw [hname] at hidle
        cases hidle
  · cases middle with
    | nil =>
      exfalso
      rw [List.nil_append] at hmiddle
      cases names with
      | nil =>
        rcases hback' with rfl | ⟨other, rfl⟩
        · cases hmiddle
        · obtain ⟨-, rfl⟩ := List.cons.inj hmiddle
          exact hback rfl
      | cons name names =>
        obtain ⟨rfl, -⟩ := List.cons.inj hmiddle
        have hname := hnames part List.mem_cons_self
        rw [hname] at hidle
        cases hidle
    | cons other middle =>
      obtain ⟨rfl, -⟩ := List.cons.inj hmiddle
      rcases hlead with hlead | hlead | hlead | hlead
      · simp at hlead
      · cases front with
        | nil => exact absurd rfl hfront
        | cons first front => simp at hlead
      · cases front with
        | nil => exact absurd rfl hfront
        | cons first front => simp at hlead
      · cases front with
        | nil => exact absurd rfl hfront
        | cons first front =>
          cases front with
          | nil =>
            simp only [List.cons_append, List.nil_append, List.cons.injEq] at hlead
            obtain ⟨rfl, rfl, -⟩ := hlead
            exact ⟨rfl, rfl⟩
          | cons second front => simp at hlead

theorem Formed.stars {parts front back : List Bytes} (h : Formed parts) :
    parts ≠ front ++ globstar :: globstar :: back := by
  rintro rfl
  exact (List.isChain_append_cons_cons.mp h.beside).2.1.1 ⟨rfl, rfl⟩

theorem Formed.parents {parts front back : List Bytes} {part : Bytes} (h : Formed parts)
    (hparts : parts = front ++ part :: dotDot :: back) : part = [] ∨ part = dot ∨ part = dotDot ∨ part = globstar := by
  subst hparts
  exact (List.isChain_append_cons_cons.mp h.beside).2.1.2 rfl

/-- The loop goes over what is formed and leaves it. -/
theorem normalizeFrom_fixed {parts result rest : List Bytes} (h : Formed parts) (hparts : parts = result ++ rest) :
    normalizeFrom true parts result.length result rest = parts := by
  induction rest generalizing result with
  | nil =>
    rw [List.append_nil] at hparts
    exact hparts.symm
  | cons part rest ih =>
    have hskip : ¬ (result.length > 0 ∧ rest ≠ [] ∧ isIdle part = true ∧
        ¬ (result.length = 1 ∧ part = [] ∧ parts.head? = some [])) := by
      rintro ⟨hlength, hrest, hidle, hnot⟩
      obtain ⟨rfl, rfl⟩ := h.interior hparts (List.length_pos_iff.mp hlength) hrest hidle
      exact hnot ⟨rfl, rfl, by rw [hparts]; rfl⟩
    have hstars : ¬ (true = true ∧ part = globstar ∧ result.getLast? = some globstar) := by
      rintro ⟨-, rfl, hlast⟩
      rw [← List.dropLast_append_getLast? _ hlast, List.append_assoc] at hparts
      exact h.stars hparts
    have hback : ¬ (part = dotDot ∧ takesBack result = true) := by
      rintro ⟨rfl, hback⟩
      obtain ⟨previous, hlast, hidle, hparent, hstar⟩ := takesBack_iff.mp hback
      rw [← List.dropLast_append_getLast? _ hlast, List.append_assoc] at hparts
      rcases h.parents hparts with rfl | rfl | rfl | rfl
      · cases hidle
      · cases hidle
      · exact hparent rfl
      · exact hstar rfl
    have hlength : result.length + 1 = (result ++ [part]).length := by simp
    unfold normalizeFrom
    rw [if_neg hskip, if_neg hstars, if_neg hback, hlength]
    refine ih ?_
    rw [List.append_assoc]
    exact hparts

/-- What is normalized is formed, and no dot in front of an idle component. -/
theorem normalizeComponents_formed (parts : List Bytes) :
    Formed (normalizeComponents parts true) ∧ idlePair (normalizeComponents parts true) = false ∧
      normalizeComponents parts true ≠ [] := by
  have hled : ∀ part : Bytes, Led [part] := by
    intro part
    refine ⟨?_, List.isChain_singleton _⟩
    by_cases hidle : isIdle part = true
    · refine ⟨[part], [], rfl, ?_, by simp⟩
      rcases isIdle_iff.mp hidle with rfl | rfl
      · exact .inr (.inl rfl)
      · exact .inr (.inr (.inl rfl))
    · exact ⟨[], [part], rfl, .inl rfl, fun name hname => by
        rw [List.mem_singleton.mp hname]
        exact eq_false_of_ne_true hidle⟩
  have hresult : Formed (normalizeFrom true parts 0 [] parts) := by
    cases parts with
    | nil => exact ⟨⟨[], [], rfl, ⟨⟨[], [], rfl, .inl rfl, by simp⟩, .nil⟩, .inl rfl⟩, .nil⟩
    | cons part rest =>
      have hfirst : normalizeFrom true (part :: rest) 0 [] (part :: rest) =
          normalizeFrom true (part :: rest) 1 [part] rest := by
        rw [normalizeFrom, if_neg (by simp), if_neg (by simp), if_neg (by simp [takesBack])]
        rfl
      rw [hfirst]
      refine normalizeFrom_formed (by decide) (fun _ hhead => ?_) (hled part)
      rw [Option.some.inj hhead]
  unfold normalizeComponents
  generalize normalizeFrom true parts 0 [] parts = result at hresult
  dsimp only
  by_cases hpair : idlePair result = true
  · obtain ⟨second, rfl⟩ : ∃ second, result = [dot, second] := by
      unfold idlePair at hpair
      split at hpair
      · rename_i first second
        rw [Bool.and_eq_true, beq_iff_eq] at hpair
        exact ⟨second, by rw [hpair.1]⟩
      · cases hpair
    rw [if_pos hpair]
    exact ⟨led_dot.formed, rfl, by simp⟩
  · rw [if_neg hpair]
    by_cases hempty : result = []
    · rw [if_pos hempty]
      exact ⟨(hled []).formed, rfl, by simp⟩
    · rw [if_neg hempty]
      exact ⟨hresult, eq_false_of_ne_true hpair, hempty⟩

theorem normalizeComponents_normal (parts : List Bytes) : Normal (normalizeComponents parts true) := by
  obtain ⟨hformed, hpair, hempty⟩ := normalizeComponents_formed parts
  generalize normalizeComponents parts true = result at *
  refine ⟨?_, fun front back => hformed.stars, fun front part back hparts => hformed.parents hparts,
    fun front part back hparts hfront hback hidle => hformed.interior hparts hfront hback (isIdle_iff.mpr hidle)⟩
  have hfixed : normalizeFrom true result 0 [] result = result := @normalizeFrom_fixed result [] result hformed rfl
  unfold normalizeComponents
  rw [hfixed]
  dsimp only
  rw [hpair, if_neg Bool.false_ne_true, if_neg hempty]

/-! ## The loop -/

/-- No component is added. -/
theorem length_normalizeFrom (pattern : Bool) (parts : List Bytes) (index : Nat) (result rest : List Bytes) :
    (normalizeFrom pattern parts index result rest).length ≤ result.length + rest.length := by
  induction rest generalizing index result with
  | nil => exact Nat.le_refl _
  | cons part rest ih =>
    rw [List.length_cons]
    unfold normalizeFrom
    split_ifs with hskip hstars hback hdot
    · exact (ih _ _).trans (by omega)
    · exact (ih _ _).trans (by omega)
    · refine (ih _ _).trans ?_
      rw [List.length_singleton]
      have hpos : 0 < result.length := by
        obtain ⟨previous, hlast, -⟩ := takesBack_iff.mp hback.2
        rw [List.length_pos_iff]
        rintro rfl
        cases hlast
      omega
    · refine (ih _ _).trans ?_
      rw [List.length_dropLast]
      omega
    · refine (ih _ _).trans ?_
      rw [List.length_append, List.length_singleton]
      omega

theorem length_normalizeComponents {parts : List Bytes} (h : 0 < parts.length) (pattern : Bool) :
    (normalizeComponents parts pattern).length ≤ parts.length := by
  have hlength := length_normalizeFrom pattern parts 0 [] parts
  rw [List.length_nil, Nat.zero_add] at hlength
  unfold normalizeComponents
  dsimp only
  generalize normalizeFrom pattern parts 0 [] parts = result at hlength
  by_cases hpair : idlePair result = true
  · rw [if_pos hpair]
    split_ifs
    · exact h
    · rw [List.length_dropLast]
      omega
  · rw [if_neg hpair]
    split_ifs
    · exact h
    · exact hlength

/-- Normalized, with no `**/..` in front of two components. -/
structure Replaced (parts : List Bytes) : Prop extends Normal parts where
  replaced : ∀ front first second back, parts = front ++ globstar :: dotDot :: first :: second :: back →
    ¬ (ordinary first = true ∧ ordinary second = true)

/-- Both paths have a component less. -/
theorem splitParts_length {front rest parent recursive : List Bytes}
    (h : splitParts front rest = some (parent, recursive)) :
    parent.length + 1 = front.length + rest.length ∧ recursive.length + 1 = front.length + rest.length ∧
      4 ≤ rest.length := by
  induction rest generalizing front with
  | nil => cases h
  | cons part rest ih =>
    unfold splitParts at h
    split at h
    · rename_i one two first second back heq
      obtain ⟨rfl, rfl⟩ := List.cons.inj heq
      split_ifs at h with hsplit
      · obtain ⟨rfl, rfl⟩ := Prod.mk.inj (Option.some.inj h)
        simp only [List.length_append, List.length_cons]
        omega
      · obtain ⟨hparent, hrecursive, hlength⟩ := ih h
        simp only [List.length_append, List.length_cons, List.length_nil] at hparent hrecursive hlength ⊢
        omega
    · cases h

theorem splitParts_none {front rest : List Bytes} (h : splitParts front rest = none) :
    ∀ before first second back, rest = before ++ globstar :: dotDot :: first :: second :: back →
      ¬ (ordinary first = true ∧ ordinary second = true) := by
  induction rest generalizing front with
  | nil =>
    intro before first second back hrest
    simp at hrest
  | cons part rest ih =>
    intro before first second back hrest hordinary
    cases before with
    | nil =>
      obtain ⟨rfl, rfl⟩ := List.cons.inj hrest
      rw [splitParts, if_pos ⟨rfl, rfl, hordinary⟩] at h
      cases h
    | cons other before =>
      obtain ⟨hpart, htail⟩ := List.cons.inj hrest
      have htail : rest = before ++ globstar :: dotDot :: first :: second :: back := htail
      have hlonger : ∃ one two three back', before ++ globstar :: dotDot :: first :: second :: back =
          one :: two :: three :: back' := by
        rcases before with _ | ⟨one, _ | ⟨two, _ | ⟨three, before⟩⟩⟩
        · exact ⟨_, _, _, _, rfl⟩
        · exact ⟨_, _, _, _, rfl⟩
        · exact ⟨_, _, _, _, rfl⟩
        · exact ⟨_, _, _, _, rfl⟩
      obtain ⟨one, two, three, back', hlonger⟩ := hlonger
      rw [htail.trans hlonger, splitParts] at h
      split_ifs at h
      rw [← htail.trans hlonger] at h
      exact ih h before first second back htail hordinary

/-- How many turns a list takes at most. -/
def turnsFor : Nat → Nat
  | 0 => 1
  | length + 1 => 2 * turnsFor length + 1

theorem turnsFor_mono {length more : Nat} (h : length ≤ more) : turnsFor length ≤ turnsFor more := by
  induction more with
  | zero =>
    obtain rfl := Nat.le_zero.mp h
    exact Nat.le_refl _
  | succ more ih =>
    rcases Nat.le_succ_iff.mp h with hle | rfl
    · rw [turnsFor]
      have := ih hle
      omega
    · exact Nat.le_refl _

theorem turnsFor_pos (length : Nat) : 0 < turnsFor length := by
  cases length with
  | zero => decide
  | succ length =>
    rw [turnsFor]
    omega

def Work.turns (pending : List (List Bytes)) : Nat :=
  pending.foldr (fun parts turns => turnsFor parts.length + turns) 0

/-- A turn takes at least one of the turns away. -/
theorem Work.turn_turns {work after : Work} {parts : List Bytes} (h : work.turn parts = .ok after) :
    Work.turns after.pending + 1 ≤ Work.turns (parts :: work.pending) := by
  have hfirst : Work.turns (parts :: work.pending) = turnsFor parts.length + Work.turns work.pending := rfl
  unfold Work.turn at h
  split at h
  · rename_i parent recursive hsplit
    obtain ⟨_, -, h⟩ := bind_ok h
    obtain rfl := Except.ok.inj h
    obtain ⟨hparent, hrecursive, hlength⟩ := splitParts_length hsplit
    rw [List.length_nil, Nat.zero_add] at hparent hrecursive
    obtain ⟨length, hparts⟩ : ∃ length, parts.length = length + 1 := ⟨parts.length - 1, by omega⟩
    have hweight : ∀ part : List Bytes, part.length + 1 = parts.length →
        turnsFor (normalizeComponents part true).length ≤ turnsFor length := by
      intro part hpart
      exact turnsFor_mono ((length_normalizeComponents (by omega) true).trans (by omega))
    have := hweight parent hparent
    have := hweight recursive hrecursive
    have hpending : Work.turns (normalizeComponents recursive true :: normalizeComponents parent true :: work.pending) =
        turnsFor (normalizeComponents recursive true).length +
          (turnsFor (normalizeComponents parent true).length + Work.turns work.pending) := rfl
    rw [hfirst, hparts, turnsFor]
    dsimp only
    omega
  · obtain ⟨_, -, h⟩ := bind_ok h
    obtain rfl := Except.ok.inj h
    have := turnsFor_pos parts.length
    rw [hfirst]
    dsimp only
    omega

theorem componentsLoop_ends (turns : Nat) (work : Work) (h : Work.turns work.pending ≤ turns) :
    ∃ outcome, componentsLoop turns work = some outcome := by
  induction turns generalizing work with
  | zero =>
    obtain ⟨_ | ⟨parts, pending⟩, output, size⟩ := work
    · exact ⟨_, rfl⟩
    · have hfirst : Work.turns (parts :: pending) = turnsFor parts.length + Work.turns pending := rfl
      have := turnsFor_pos parts.length
      dsimp only at h
      omega
  | succ turns ih =>
    obtain ⟨_ | ⟨parts, pending⟩, output, size⟩ := work
    · exact ⟨_, rfl⟩
    · rw [componentsLoop]
      cases hturn : Work.turn ⟨pending, output, size⟩ parts with
      | error error => exact ⟨_, rfl⟩
      | ok work =>
        have hless := Work.turn_turns hturn
        dsimp only at h hless
        exact ih work (by omega)

/-- What waits is normalized, and what is put out is replaced too. -/
structure Work.Sound (work : Work) : Prop where
  pending : ∀ parts ∈ work.pending, Normal parts
  output : ∀ parts ∈ work.output, Replaced parts

/-- The two limits. -/
def Exceeds (error : Error) : Prop :=
  error = ⟨"Path glob expansion budget exceeded"⟩ ∨ error = ⟨"Path glob generated-source budget exceeded"⟩

theorem Work.Sound.turn {work : Work} {parts : List Bytes} (h : work.Sound) (hparts : Normal parts) :
    (∀ after, work.turn parts = .ok after → after.Sound) ∧ ∀ error, work.turn parts = .error error → Exceeds error := by
  unfold Work.turn
  cases hsplit : splitParts [] parts with
  | some pair =>
    obtain ⟨parent, recursive⟩ := pair
    dsimp only
    unfold requireExpansionSize
    split_ifs with hlimit
    · refine ⟨fun after hafter => (by cases hafter), fun error herror => ?_⟩
      cases herror
      exact .inl rfl
    · refine ⟨fun after hafter => ?_, fun error herror => by cases herror⟩
      cases hafter
      refine ⟨fun other hother => ?_, h.output⟩
      rcases List.mem_cons.mp hother with rfl | hother
      · exact normalizeComponents_normal recursive
      · rcases List.mem_cons.mp hother with rfl | hother
        · exact normalizeComponents_normal parent
        · exact h.pending other hother
  | none =>
    dsimp only
    unfold requireSourceSize
    split_ifs with hlimit
    · refine ⟨fun after hafter => (by cases hafter), fun error herror => ?_⟩
      cases herror
      exact .inr rfl
    · refine ⟨fun after hafter => ?_, fun error herror => by cases herror⟩
      cases hafter
      refine ⟨h.pending, fun other hother => ?_⟩
      rcases List.mem_append.mp hother with hother | hother
      · exact h.output other hother
      · rw [List.mem_singleton.mp hother]
        exact ⟨hparts, splitParts_none hsplit⟩

theorem componentsLoop_sound (turns : Nat) {work : Work} (h : work.Sound) {outcome : Except Error (List (List Bytes))}
    (hloop : componentsLoop turns work = some outcome) :
    (∀ lists, outcome = .ok lists → ∀ parts ∈ lists, Replaced parts) ∧
      ∀ error, outcome = .error error → Exceeds error := by
  induction turns generalizing work with
  | zero =>
    obtain ⟨_ | ⟨parts, pending⟩, output, size⟩ := work
    · cases hloop
      refine ⟨fun lists hlists => ?_, fun error herror => by cases herror⟩
      cases hlists
      exact h.output
    · cases hloop
  | succ turns ih =>
    obtain ⟨_ | ⟨parts, pending⟩, output, size⟩ := work
    · cases hloop
      refine ⟨fun lists hlists => ?_, fun error herror => by cases herror⟩
      cases hlists
      exact h.output
    · have hrest : Work.Sound ⟨pending, output, size⟩ :=
        ⟨fun other hother => h.pending other (List.mem_cons_of_mem _ hother), h.output⟩
      obtain ⟨hok, herror⟩ := hrest.turn (h.pending parts List.mem_cons_self)
      rw [componentsLoop] at hloop
      cases hturn : Work.turn ⟨pending, output, size⟩ parts with
      | error error =>
        rw [hturn] at hloop
        cases hloop
        refine ⟨fun lists hlists => (by cases hlists), fun error' heq => ?_⟩
        cases heq
        exact herror error hturn
      | ok after =>
        rw [hturn] at hloop
        exact ih (hok after hturn) hloop

/-- `pattern_components` ends, and what it returns is normalized and replaced. -/
theorem components_normal (pattern : Bytes) (windows : Bool) :
    (∃ outcome, PatternComponents pattern windows outcome) ∧
    ∀ outcome, PatternComponents pattern windows outcome →
      (∀ lists, outcome = .ok lists → ∀ parts ∈ lists, Replaced parts) ∧
        ∀ error, outcome = .error error → Exceeds error := by
  refine ⟨?_, ?_⟩
  · obtain ⟨outcome, houtcome⟩ := componentsLoop_ends _
      ⟨[normalizeComponents (splitComponents pattern windows) true], [], 0⟩ (Nat.le_refl _)
    exact ⟨outcome, _, houtcome⟩
  · rintro outcome ⟨turns, hturns⟩
    refine componentsLoop_sound turns ⟨fun parts hparts => ?_, by simp⟩ hturns
    rw [List.mem_singleton.mp hparts]
    exact normalizeComponents_normal _

/-- `**/../a/b` is `**/a/b` or `../a/b`. -/
theorem components_normal_two :
    PatternComponents [42, 42, 47, 46, 46, 47, 97, 47, 98] false
        (.ok [[globstar, [97], [98]], [dotDot, [97], [98]]]) ∧
      ∀ parts ∈ [[globstar, [97], [98]], [dotDot, [97], [98]]], Replaced parts := by
  have houtcome : PatternComponents [42, 42, 47, 46, 46, 47, 97, 47, 98] false
      (.ok [[globstar, [97], [98]], [dotDot, [97], [98]]]) := ⟨3, by rfl⟩
  exact ⟨houtcome, ((components_normal _ _).2 _ houtcome).1 _ rfl⟩

end TsonicNode.Path.Glob
