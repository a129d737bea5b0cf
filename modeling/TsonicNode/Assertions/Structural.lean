import TsonicNode.Assertions.Deep
import Mathlib.Data.Set.Card

/-!
# Deep equality is structural

`Agree` is the comparison without a stack: it says of two values below what is
marked that they compare equal. The loop decides it frame by frame
(`visit_decides`), it does not mind which side is which (`agree_symm`), and where
no cycle is it is `Same`, equality by structure (`agree_iff_same`).
-/

namespace TsonicNode.Assertions.Runtime

open TsonicNode.Lib

variable {Value Key Address : Type}

/-- What `deep_value_equal` relies on of the language runtime. -/
structure Lawful (runtime : Runtime Value Key Address) : Prop where
  prototype_refl : ∀ a, runtime.samePrototype a a = true
  prototype_symm : ∀ a b, runtime.samePrototype a b = runtime.samePrototype b a
  prototype_array : ∀ a b, runtime.samePrototype a b = true → runtime.isArray a = runtime.isArray b
  prototype_object : ∀ a b, runtime.samePrototype a b = true → runtime.isObject a = runtime.isObject b
  prototype_bytes : ∀ a b, runtime.samePrototype a b = true → runtime.isByteView a = runtime.isByteView b
  is_refl : ∀ a, runtime.objectIs a a = true
  is_symm : ∀ a b, runtime.objectIs a b = runtime.objectIs b a
  is_aggregate : ∀ a b, runtime.objectIs a b = true → runtime.Aggregate a → a = b
  address_injective : ∀ a b, runtime.Aggregate a → runtime.Aggregate b →
    runtime.identityAddress a = runtime.identityAddress b → a = b
  array_not_object : ∀ a, runtime.isArray a = true → runtime.isObject a = false
  bytes_object : ∀ a, runtime.isByteView a = true → runtime.isObject a = true
  key_injective : ∀ a i j, runtime.isObject a = true → i < runtime.aggregateLength a →
    j < runtime.aggregateLength a → runtime.aggregateKey a i = runtime.aggregateKey a j → i = j

variable (runtime : Runtime Value Key Address)

/-- An element of an array or a value of an object; a byte view has none. -/
def Child (value element : Value) : Prop :=
  runtime.Aggregate value ∧ runtime.isByteView value = false ∧
    ∃ index < runtime.aggregateLength value,
      (runtime.isArray value = true → runtime.aggregateHas value index = true) ∧
        element = runtime.aggregateValue value index

/-- The keys of an object. -/
def keys (value : Value) : Set Key :=
  { key | ∃ index < runtime.aggregateLength value, runtime.aggregateKey value index = key }

/-- Equality by structure. -/
inductive Same : Value → Value → Prop where
  | leaf {a b : Value} : runtime.samePrototype a b = true → ¬ runtime.Aggregate a →
      runtime.objectIs a b = true → Same a b
  | bytes {a b : Value} : runtime.samePrototype a b = true → runtime.isByteView a = true →
      (runtime.byteView a).bytes = (runtime.byteView b).bytes → Same a b
  | array {a b : Value} : runtime.samePrototype a b = true → runtime.isArray a = true →
      runtime.aggregateLength a = runtime.aggregateLength b →
      (∀ i < runtime.aggregateLength a, runtime.aggregateHas a i = runtime.aggregateHas b i) →
      (∀ i < runtime.aggregateLength a, runtime.aggregateHas a i = true →
        Same (runtime.aggregateValue a i) (runtime.aggregateValue b i)) →
      Same a b
  | object {a b : Value} : runtime.samePrototype a b = true → runtime.isObject a = true →
      runtime.isByteView a = false → runtime.keys a = runtime.keys b →
      (∀ i < runtime.aggregateLength a, ∀ j < runtime.aggregateLength b,
        runtime.aggregateKey a i = runtime.aggregateKey b j →
          Same (runtime.aggregateValue a i) (runtime.aggregateValue b j)) →
      Same a b

/-- The elements of two aggregates correspond and their values are related. -/
def Matches (related : Value → Value → Prop) (a b : Value) : Prop :=
  runtime.aggregateLength a = runtime.aggregateLength b ∧
    if runtime.isArray a = true then
      ∀ i < runtime.aggregateLength a, runtime.aggregateHas a i = runtime.aggregateHas b i ∧
        (runtime.aggregateHas a i = true →
          related (runtime.aggregateValue a i) (runtime.aggregateValue b i))
    else
      ∀ i < runtime.aggregateLength a, ∃ j < runtime.aggregateLength b,
        runtime.aggregateKey b j = runtime.aggregateKey a i ∧
          related (runtime.aggregateValue a i) (runtime.aggregateValue b j)

/-- Two values compare equal below the marks, `position` deep. The first number
bounds how much deeper they go. -/
def Agree [DecidableEq Address] : Nat → Nat → Marks Address → Marks Address → Value → Value → Prop
  | 0, _, _, _, _, _ => False
  | depth + 1, position, activeLeft, activeRight, a, b =>
    runtime.samePrototype a b = true ∧
      (runtime.objectIs a b = true ∨ runtime.Aggregate a ∧
        if runtime.isByteView a = true then (runtime.byteView a).bytes = (runtime.byteView b).bytes
        else if activeLeft (runtime.identityAddress a) = none ∧
            activeRight (runtime.identityAddress b) = none then
          runtime.Matches
            (Agree depth (position + 1)
              (Function.update activeLeft (runtime.identityAddress a) (some position))
              (Function.update activeRight (runtime.identityAddress b) (some position))) a b
        else activeLeft (runtime.identityAddress a) = activeRight (runtime.identityAddress b))

/-! ## Keys -/

theorem mapM_some_iff {α β : Type} {f : α → Option β} {xs : List α} {ys : List β} :
    xs.mapM f = some ys ↔ xs.map f = ys.map some := by
  induction xs generalizing ys with
  | nil => cases ys <;> simp
  | cons x xs ih =>
    rw [List.mapM_cons, List.map_cons]
    cases hx : f x with
    | none =>
      constructor
      · intro h
        cases h
      · intro h
        cases ys <;> cases h
    | some y =>
      cases ys with
      | nil => cases xs.mapM f <;> simp
      | cons z zs =>
        rw [List.map_cons, List.cons.injEq, ← ih]
        cases xs.mapM f <;> simp [eq_comm]

theorem mapM_none_iff {α β : Type} {f : α → Option β} {xs : List α} :
    xs.mapM f = none ↔ ∃ x ∈ xs, f x = none := by
  induction xs with
  | nil => simp
  | cons x xs ih =>
    rw [List.mapM_cons, List.exists_mem_cons_iff, ← ih]
    cases f x <;> cases xs.mapM f <;> simp

section Keys

variable [DecidableEq Key]

theorem keyIndexes_succ (value : Value) (length : Nat) :
    runtime.keyIndexes value (length + 1) =
      Function.update (runtime.keyIndexes value length) (runtime.aggregateKey value length)
        (some length) := by
  rw [keyIndexes, List.range_succ, List.foldl_append]
  rfl

theorem keyIndexes_some {value : Value} {length index : Nat} {key : Key}
    (h : runtime.keyIndexes value length key = some index) :
    index < length ∧ runtime.aggregateKey value index = key := by
  induction length with
  | zero => cases h
  | succ length ih =>
    rw [keyIndexes_succ] at h
    by_cases hkey : key = runtime.aggregateKey value length
    · rw [hkey, Function.update_self] at h
      obtain rfl : length = index := Option.some.inj h
      exact ⟨Nat.lt_succ_self _, hkey.symm⟩
    · rw [Function.update_of_ne hkey] at h
      exact ⟨Nat.lt_succ_of_lt (ih h).1, (ih h).2⟩

theorem keyIndexes_none {value : Value} {length : Nat} {key : Key}
    (h : runtime.keyIndexes value length key = none) (index : Nat) (hindex : index < length) :
    runtime.aggregateKey value index ≠ key := by
  induction length with
  | zero => exact absurd hindex (Nat.not_lt_zero _)
  | succ length ih =>
    rw [keyIndexes_succ] at h
    by_cases hkey : key = runtime.aggregateKey value length
    · rw [hkey, Function.update_self] at h
      cases h
    · rw [Function.update_of_ne hkey] at h
      rcases Nat.lt_succ_iff_lt_or_eq.mp hindex with hlt | rfl
      · exact ih h hlt
      · exact fun heq => hkey heq.symm

/-- The indexes found point at the keys of the left object. -/
theorem rightIndexes_some {left right : Value} {length : Nat} {indexes : List Nat}
    (h : runtime.rightIndexes left right length = some indexes) (index : Nat) (hindex : index < length) :
    ∃ j, indexes[index]? = some j ∧ j < length ∧
      runtime.aggregateKey right j = runtime.aggregateKey left index := by
  have hmap := congrArg (fun list : List (Option Nat) => list[index]?) (mapM_some_iff.mp h)
  simp only [List.getElem?_map, List.getElem?_range hindex, Option.map_some] at hmap
  cases hj : indexes[index]? with
  | none =>
    rw [hj] at hmap
    cases hmap
  | some j =>
    rw [hj] at hmap
    exact ⟨j, rfl, runtime.keyIndexes_some (Option.some.inj hmap)⟩

theorem rightIndexes_none {left right : Value} {length : Nat}
    (h : runtime.rightIndexes left right length = none) :
    ∃ index < length, ∀ j < length, runtime.aggregateKey right j ≠ runtime.aggregateKey left index := by
  obtain ⟨index, hmem, hnone⟩ := mapM_none_iff.mp h
  exact ⟨index, List.mem_range.mp hmem, runtime.keyIndexes_none hnone⟩

end Keys

/-! ## The loop decides -/

section Loop

variable [DecidableEq Key] [DecidableEq Address]

/-- The loop behind a turn. -/
def after (result : Except Error (Option (State Value Address))) (turns : Nat) :
    Option (Except Error Bool) :=
  match result with
  | .error error => some (.error error)
  | .ok none => some (.ok false)
  | .ok (some state) => runtime.compareLoop turns state

/-- A run goes on from `next` where `p` holds, and returns false where not. -/
def Decides (run : Nat → Option (Except Error Bool)) (p : Prop) (next : State Value Address) : Prop :=
  (p → ∃ turns, ∀ more, run (turns + more) = runtime.compareLoop more next) ∧
    (¬ p → ∃ turns, ∀ more, run (turns + more) = some (.ok false))

variable {runtime} {run : Nat → Option (Except Error Bool)} {p q : Prop}
  {mid next : State Value Address}

theorem decides_next (hp : p) (h : ∀ turns, run turns = runtime.compareLoop turns next) :
    runtime.Decides run p next :=
  ⟨fun _ => ⟨0, fun more => by rw [Nat.zero_add, h]⟩, fun hnot => absurd hp hnot⟩

theorem decides_false (hp : ¬ p) (h : ∀ turns, run turns = some (.ok false)) :
    runtime.Decides run p next :=
  ⟨fun hyes => absurd hyes hp, fun _ => ⟨0, fun _ => h _⟩⟩

theorem Decides.congr (h : runtime.Decides run p next) (hiff : q ↔ p) : runtime.Decides run q next :=
  ⟨fun hq => h.1 (hiff.mp hq), fun hq => h.2 (mt hiff.mpr hq)⟩

/-- One decision after another. -/
theorem Decides.trans (h : runtime.Decides run p mid)
    (h' : runtime.Decides (fun turns => runtime.compareLoop turns mid) q next) :
    runtime.Decides run (p ∧ q) next := by
  constructor
  · rintro ⟨hp, hq⟩
    obtain ⟨turns, hturns⟩ := h.1 hp
    obtain ⟨turns', hturns'⟩ := h'.1 hq
    exact ⟨turns + turns', fun more => by rw [Nat.add_assoc, hturns]; exact hturns' more⟩
  · intro hnot
    by_cases hp : p
    · obtain ⟨turns, hturns⟩ := h.1 hp
      obtain ⟨turns', hturns'⟩ := h'.2 fun hq => hnot ⟨hp, hq⟩
      exact ⟨turns + turns', fun more => by rw [Nat.add_assoc, hturns]; exact hturns' more⟩
    · exact h.2 hp

/-- A turn and what is behind it. -/
theorem Decides.turn {frame : Frame Value} {frames : List (Frame Value)}
    {activeLeft activeRight : Marks Address}
    (h : runtime.Decides (runtime.after (runtime.turn frame ⟨frames, activeLeft, activeRight⟩)) p next) :
    runtime.Decides
      (fun turns => runtime.compareLoop turns ⟨frame :: frames, activeLeft, activeRight⟩) p next := by
  constructor
  · intro hp
    obtain ⟨turns, hturns⟩ := h.1 hp
    exact ⟨turns + 1, fun more => by rw [Nat.add_right_comm]; exact hturns more⟩
  · intro hp
    obtain ⟨turns, hturns⟩ := h.2 hp
    exact ⟨turns + 1, fun more => by rw [Nat.add_right_comm]; exact hturns more⟩

/-- The elements at an index are found and related. -/
def Element (runtime : Runtime Value Key Address) (related : Value → Value → Prop) (frame : Frame Value)
    (i : Nat) : Prop :=
  if runtime.isArray frame.left = true then
    runtime.aggregateHas frame.left i = runtime.aggregateHas frame.right i ∧
      (runtime.aggregateHas frame.left i = true →
        related (runtime.aggregateValue frame.left i) (runtime.aggregateValue frame.right i))
  else
    ∃ j, frame.rightIndexes[i]? = some j ∧
      related (runtime.aggregateValue frame.left i) (runtime.aggregateValue frame.right j)

theorem pop_update {marks : Marks Address} {address : Address} (h : marks address = none) (position : Nat) :
    pop (Function.update marks address (some position)) address = .ok marks := by
  rw [pop, if_neg (by rw [Function.update_self]; simp), update_none h]

theorem range_succ_iff {i n : Nat} (h : i < n) {P : Nat → Prop} :
    (∀ j, i ≤ j → j < n → P j) ↔ P i ∧ ∀ j, i + 1 ≤ j → j < n → P j := by
  constructor
  · intro hall
    exact ⟨hall i (Nat.le_refl i) h, fun j hj => hall j (Nat.le_of_succ_le hj)⟩
  · rintro ⟨hi, hall⟩ j hj
    rcases Nat.lt_or_eq_of_le hj with hlt | rfl
    · exact hall j hlt
    · exact fun _ => hi

/-- The loop over the elements of a pair whose first look is over. -/
theorem elements_decides {frame : Frame Value} {frames : List (Frame Value)}
    {activeLeft activeRight : Marks Address} {position : Nat} {related : Value → Value → Prop}
    (hleft : activeLeft (runtime.identityAddress frame.left) = none)
    (hright : activeRight (runtime.identityAddress frame.right) = none)
    (hindexes : runtime.isArray frame.left = false → ∀ i < frame.length, ∃ j, frame.rightIndexes[i]? = some j)
    (hchild : ∀ a b (parent : Frame Value), runtime.Decides
      (fun turns => runtime.compareLoop turns ⟨{ left := a, right := b } :: parent :: frames,
        Function.update activeLeft (runtime.identityAddress frame.left) (some position),
        Function.update activeRight (runtime.identityAddress frame.right) (some position)⟩)
      (related a b) ⟨parent :: frames,
        Function.update activeLeft (runtime.identityAddress frame.left) (some position),
        Function.update activeRight (runtime.identityAddress frame.right) (some position)⟩)
    (rest index : Nat) (hrest : index + rest = frame.length) :
    runtime.Decides
      (runtime.after (runtime.advance frame index ⟨frames,
        Function.update activeLeft (runtime.identityAddress frame.left) (some position),
        Function.update activeRight (runtime.identityAddress frame.right) (some position)⟩))
      (∀ i, index ≤ i → i < frame.length → Element runtime related frame i)
      ⟨frames, activeLeft, activeRight⟩ := by
  induction rest generalizing index with
  | zero =>
    refine decides_next (fun i hi hlt => by omega) fun turns => ?_
    simp only [advance, if_pos (show index = frame.length by omega), pop_update hleft, pop_update hright]
    rfl
  | succ rest ih =>
    have hlt : index < frame.length := by omega
    have hne : index ≠ frame.length := by omega
    -- the frame goes back on the stack one element further
    have hnext := ih (index + 1) (by omega)
    have hback : runtime.Decides
        (fun turns => runtime.compareLoop turns ⟨{ frame with index := some (index + 1) } :: frames, _, _⟩)
        _ _ := Decides.turn hnext
    refine Decides.congr ?_ (range_succ_iff hlt)
    cases harray : runtime.isArray frame.left with
    | true =>
      by_cases hsame : runtime.aggregateHas frame.left index = runtime.aggregateHas frame.right index
      · cases hhas : runtime.aggregateHas frame.left index with
        | true =>
          have hhere : Element runtime related frame index ↔ related
              (runtime.aggregateValue frame.left index) (runtime.aggregateValue frame.right index) := by
            rw [Element, if_pos harray, hhas, ← hsame, hhas]
            simp only [true_and, forall_const]
          simp only [advance, if_neg hne, harray, ← hsame, hhas, bne_self_eq_false, Bool.and_false,
            Bool.not_true, Bool.false_eq_true, if_false, if_true]
          exact ((hchild _ _ _).congr hhere).trans hback
        | false =>
          have hhere : Element runtime related frame index := by
            rw [Element, if_pos harray, hhas, ← hsame, hhas]
            exact ⟨rfl, fun h => by cases h⟩
          simp only [advance, if_neg hne, harray, ← hsame, hhas, bne_self_eq_false, Bool.and_false,
            Bool.not_false, Bool.and_true, Bool.false_eq_true, if_false, if_true]
          exact hback.congr (and_iff_right hhere)
      · refine decides_false (fun h => ?_) fun turns => ?_
        · have helement := h.1
          rw [Element, if_pos harray] at helement
          exact hsame helement.1
        · have hbne : (runtime.aggregateHas frame.left index !=
              runtime.aggregateHas frame.right index) = true := bne_iff_ne.mpr hsame
          simp only [advance, if_neg hne, harray, hbne, Bool.and_true, if_true]
          rfl
    | false =>
      obtain ⟨j, hj⟩ := hindexes harray index hlt
      have hhere : Element runtime related frame index ↔ related
          (runtime.aggregateValue frame.left index) (runtime.aggregateValue frame.right j) := by
        rw [Element, if_neg (by rw [harray]; simp), hj]
        simp only [Option.some.injEq, exists_eq_left']
      simp only [advance, if_neg hne, harray, Bool.false_and, Bool.false_eq_true, if_false, hj]
      exact ((hchild _ _ _).congr hhere).trans hback

omit [DecidableEq Address] in
/-- The elements at all the indexes are those of two aggregates that match. -/
theorem elements_iff_matches (h : runtime.Lawful) {a b : Value} {indexes : List Nat}
    {related : Value → Value → Prop} (haggregate : runtime.Aggregate a)
    (hprototype : runtime.samePrototype a b = true)
    (hlength : runtime.aggregateLength a = runtime.aggregateLength b)
    (hindexes : runtime.isObject a = true →
      runtime.rightIndexes a b (runtime.aggregateLength a) = some indexes) :
    (∀ i, 0 ≤ i → i < runtime.aggregateLength a → Element runtime related
      { left := a, right := b, index := some 0, length := runtime.aggregateLength a,
        rightIndexes := indexes } i) ↔ runtime.Matches related a b := by
  unfold Matches Element
  cases harray : runtime.isArray a with
  | true =>
    simp only [if_true, hlength, true_and, Nat.zero_le, true_implies]
  | false =>
    have hobject : runtime.isObject a = true := haggregate.resolve_left (by rw [harray]; simp)
    have hobject' : runtime.isObject b = true := (h.prototype_object a b hprototype) ▸ hobject
    simp only [Bool.false_eq_true, if_false, hlength, true_and, Nat.zero_le, true_implies]
    refine forall₂_congr fun i hi => ?_
    obtain ⟨j, hj, hlt, hkey⟩ := runtime.rightIndexes_some (hindexes hobject) i (hlength ▸ hi)
    constructor
    · rintro ⟨j', hj', hrelated⟩
      obtain rfl : j = j' := Option.some.inj (hj.symm.trans hj')
      exact ⟨j, hlength ▸ hlt, hkey, hrelated⟩
    · rintro ⟨j', hlt', hkey', hrelated⟩
      obtain rfl : j = j' := h.key_injective b j j' hobject' (hlength ▸ hlt) hlt' (hkey.trans hkey'.symm)
      exact ⟨j, hj, hrelated⟩

/-- The loop goes on behind a pair that agrees and returns false at one that does not. -/
theorem visit_decides [Fintype Address] (h : runtime.Lawful) (depth : Nat)
    (activeLeft activeRight : Marks Address) (a b : Value) (frames : List (Frame Value))
    (hdepth : unmarked activeLeft < depth) :
    runtime.Decides
      (fun turns => runtime.compareLoop turns ⟨{ left := a, right := b } :: frames, activeLeft, activeRight⟩)
      (runtime.Agree depth frames.length activeLeft activeRight a b) ⟨frames, activeLeft, activeRight⟩ := by
  induction depth generalizing activeLeft activeRight a b frames with
  | zero => exact absurd hdepth (Nat.not_lt_zero _)
  | succ depth ih =>
    apply Decides.turn
    unfold Agree turn enter
    by_cases hprototype : runtime.samePrototype a b = true
    case neg => 
      refine decides_false (fun hagree => hprototype hagree.1) fun turns => ?_
      simp only [hprototype]
      rfl
    by_cases his : runtime.objectIs a b = true
    case pos =>
      refine decides_next ⟨hprototype, .inl his⟩ fun turns => ?_
      simp only [hprototype, his]
      rfl
    rw [Bool.not_eq_true] at his
    by_cases haggregate : runtime.Aggregate a
    case neg =>
      refine decides_false (fun hagree => ?_) fun turns => ?_
      · rcases hagree.2 with his' | hrest
        · exact absurd his' (by rw [his]; simp)
        · exact haggregate hrest.1
      · obtain ⟨harray, hobject⟩ := not_or.mp haggregate
        simp only [hprototype, his, harray, hobject]
        rfl
    have hkind : (!runtime.isArray a && !runtime.isObject a) = false := by
      rcases haggregate with harray | hobject
      · rw [harray]; rfl
      · rw [hobject, Bool.not_true, Bool.and_false]
    simp only [hprototype, his, hkind, haggregate, Bool.not_true, Bool.false_eq_true, if_false, true_and,
      false_or]
    by_cases hbytes : runtime.isByteView a = true
    case pos =>
      simp only [hbytes, if_true]
      by_cases hsame : (runtime.byteView a).same (runtime.byteView b) = true
      · refine decides_next ((ByteView.same_iff _ _).mp hsame) fun turns => ?_
        simp only [hsame, if_true]
        rfl
      · refine decides_false (mt (ByteView.same_iff _ _).mpr hsame) fun turns => ?_
        simp only [hsame, Bool.false_eq_true, if_false]
        rfl
    simp only [hbytes, Bool.false_eq_true, if_false]
    by_cases hfree : activeLeft (runtime.identityAddress a) = none ∧
        activeRight (runtime.identityAddress b) = none
    case neg =>
      have hmarked : activeLeft (runtime.identityAddress a) ≠ none ∨
          activeRight (runtime.identityAddress b) ≠ none := not_and_or.mp hfree
      simp only [if_neg hfree, if_pos hmarked]
      by_cases hsame : activeLeft (runtime.identityAddress a) = activeRight (runtime.identityAddress b)
      · refine decides_next hsame fun turns => ?_
        rw [if_neg (not_not_intro hsame)]
        rfl
      · refine decides_false hsame fun turns => ?_
        rw [if_pos hsame]
        rfl
    have hmarked : ¬ (activeLeft (runtime.identityAddress a) ≠ none ∨
        activeRight (runtime.identityAddress b) ≠ none) := by
      rw [hfree.1, hfree.2]
      simp
    simp only [if_pos hfree, if_neg hmarked]
    by_cases hlength : runtime.aggregateLength a = runtime.aggregateLength b
    case neg =>
      refine decides_false (fun hmatches => hlength hmatches.1) fun turns => ?_
      rw [if_pos hlength]
      rfl
    rw [if_neg (not_not_intro hlength)]
    cases hfound : (if runtime.isObject a = true then
        runtime.rightIndexes a b (runtime.aggregateLength a) else some []) with
    | none =>
      refine decides_false (fun hmatches => ?_) fun turns => rfl
      by_cases hobject : runtime.isObject a = true
      · rw [if_pos hobject] at hfound
        obtain ⟨i, hi, hmissing⟩ := runtime.rightIndexes_none hfound
        have harray : ¬ runtime.isArray a = true := fun harray => by
          rw [h.array_not_object a harray] at hobject
          cases hobject
        have hkeys := hmatches.2
        rw [if_neg harray] at hkeys
        obtain ⟨j, hj, hkey, -⟩ := hkeys i hi
        exact hmissing j (hlength ▸ hj) hkey
      · rw [if_neg hobject] at hfound
        cases hfound
    | some indexes =>
      have hindexes : runtime.isObject a = true →
          runtime.rightIndexes a b (runtime.aggregateLength a) = some indexes := fun hobject => by
        rw [if_pos hobject] at hfound
        exact hfound
      refine Decides.congr ?_
        (elements_iff_matches h haggregate hprototype hlength hindexes).symm
      refine elements_decides hfree.1 hfree.2 (fun harray i hi => ?_) (fun x y parent => ?_)
        (runtime.aggregateLength a) 0 (Nat.zero_add _)
      · have hobject : runtime.isObject a = true := haggregate.resolve_left (by rw [harray]; simp)
        obtain ⟨j, hj, -⟩ := runtime.rightIndexes_some (hindexes hobject) i hi
        exact ⟨j, hj⟩
      · have hfewer := unmarked_update hfree.1 frames.length
        exact ih _ _ x y (parent :: frames) (Nat.lt_of_lt_of_le hfewer (Nat.le_of_lt_succ hdepth))

end Loop

/-! ## Both sides alike -/

section Symmetry

variable {runtime}

theorem Aggregate.of_prototype (h : runtime.Lawful) {a b : Value} (haggregate : runtime.Aggregate a)
    (hprototype : runtime.samePrototype a b = true) : runtime.Aggregate b := by
  unfold Aggregate at haggregate ⊢
  rwa [← h.prototype_array a b hprototype, ← h.prototype_object a b hprototype]

/-- Keys that are all found stand at different indexes. -/
theorem exists_indexes (h : runtime.Lawful) {a b : Value} (hobject : runtime.isObject a = true)
    (hfound : ∀ i < runtime.aggregateLength a, ∃ j < runtime.aggregateLength b,
      runtime.aggregateKey b j = runtime.aggregateKey a i) :
    ∃ indexes : Fin (runtime.aggregateLength a) → Fin (runtime.aggregateLength b),
      Function.Injective indexes ∧
        ∀ i, runtime.aggregateKey b (indexes i) = runtime.aggregateKey a i := by
  choose indexes hlt hkey using hfound
  refine ⟨fun i => ⟨indexes i i.isLt, hlt i i.isLt⟩, fun i i' hsame => ?_, fun i => hkey i i.isLt⟩
  have hindex : indexes i i.isLt = indexes i' i'.isLt := congrArg Fin.val hsame
  apply Fin.ext
  apply h.key_injective a i i' hobject i.isLt i'.isLt
  rw [← hkey i i.isLt, hindex, hkey i' i'.isLt]

/-- No more keys than there are to be found. -/
theorem length_le_of_keys (h : runtime.Lawful) {a b : Value} (hobject : runtime.isObject a = true)
    (hkeys : runtime.keys a ⊆ runtime.keys b) : runtime.aggregateLength a ≤ runtime.aggregateLength b := by
  obtain ⟨indexes, hinjective, -⟩ := exists_indexes h hobject fun i hi => hkeys ⟨i, hi, rfl⟩
  have hcard := Fintype.card_le_of_injective indexes hinjective
  rwa [Fintype.card_fin, Fintype.card_fin] at hcard

theorem matches_symm (h : runtime.Lawful) {related related' : Value → Value → Prop}
    (hrelated : ∀ x y, related x y → related' y x) {a b : Value} (haggregate : runtime.Aggregate a)
    (hprototype : runtime.samePrototype a b = true) (hmatches : runtime.Matches related a b) :
    runtime.Matches related' b a := by
  obtain ⟨hlength, helements⟩ := hmatches
  refine ⟨hlength.symm, ?_⟩
  rw [← h.prototype_array a b hprototype, ← hlength]
  by_cases harray : runtime.isArray a = true
  · rw [if_pos harray] at helements ⊢
    intro i hi
    obtain ⟨hhas, hvalue⟩ := helements i hi
    exact ⟨hhas.symm, fun hthere => hrelated _ _ (hvalue (hhas.trans hthere))⟩
  · rw [if_neg harray] at helements ⊢
    have hobject := haggregate.resolve_left harray
    intro j hj
    obtain ⟨indexes, hinjective, hkey⟩ := exists_indexes h hobject fun i hi =>
      (helements i hi).imp fun j hj => ⟨hj.1, hj.2.1⟩
    -- as many keys on either side, so that each index on the right is one found
    have hsurjective : Function.Surjective indexes :=
      ((Fintype.bijective_iff_injective_and_card indexes).mpr
        ⟨hinjective, by rw [Fintype.card_fin, Fintype.card_fin, hlength]⟩).surjective
    obtain ⟨i, hi⟩ := hsurjective ⟨j, hlength ▸ hj⟩
    have hkeyi : runtime.aggregateKey b j = runtime.aggregateKey a i := by
      rw [← hkey i, hi]
    obtain ⟨j', hj', hkey', hvalue⟩ := helements i i.isLt
    obtain rfl : j' = j := h.key_injective b j' j ((h.prototype_object a b hprototype) ▸ hobject) hj'
      (hlength ▸ hj) (hkey'.trans hkeyi.symm)
    exact ⟨i, i.isLt, hkeyi.symm, hrelated _ _ hvalue⟩

theorem agree_symm [DecidableEq Address] (h : runtime.Lawful) (depth position : Nat)
    (activeLeft activeRight : Marks Address) (a b : Value)
    (hagree : runtime.Agree depth position activeLeft activeRight a b) :
    runtime.Agree depth position activeRight activeLeft b a := by
  induction depth generalizing position activeLeft activeRight a b with
  | zero => exact hagree
  | succ depth ih =>
    obtain ⟨hprototype, hrest⟩ := hagree
    refine ⟨(h.prototype_symm b a).trans hprototype, ?_⟩
    rcases hrest with his | ⟨haggregate, hrest⟩
    · exact .inl ((h.is_symm b a).trans his)
    refine .inr ⟨haggregate.of_prototype h hprototype, ?_⟩
    rw [← h.prototype_bytes a b hprototype]
    by_cases hbytes : runtime.isByteView a = true
    · rw [if_pos hbytes] at hrest ⊢
      exact hrest.symm
    rw [if_neg hbytes] at hrest ⊢
    by_cases hfree : activeLeft (runtime.identityAddress a) = none ∧
        activeRight (runtime.identityAddress b) = none
    · rw [if_pos hfree] at hrest
      rw [if_pos hfree.symm]
      exact matches_symm h (fun x y => ih _ _ _ x y) haggregate hprototype hrest
    · rw [if_neg hfree] at hrest
      rw [if_neg (mt And.symm hfree)]
      exact hrest.symm

end Symmetry

/-! ## Values without cycles -/

section Structure

variable {runtime}

/-- What is marked lies above the value, and the value closes no cycle. -/
structure Below (runtime : Runtime Value Key Address) (marks : Marks Address) (value : Value) : Prop where
  leads : Leads runtime.Child runtime.identityAddress runtime.Aggregate marks value
  acyclic : Acyclic runtime.Child value

theorem Below.start {value : Value} (h : Acyclic runtime.Child value) :
    Below runtime (fun _ => none) value :=
  ⟨leads_none value, h⟩

theorem Below.unmarked {marks : Marks Address} {value : Value} (hbelow : Below runtime marks value)
    (haggregate : runtime.Aggregate value) : marks (runtime.identityAddress value) = none :=
  hbelow.leads.unmarked hbelow.acyclic haggregate

theorem bytes_false (h : runtime.Lawful) {value : Value} (harray : runtime.isArray value = true) :
    runtime.isByteView value = false := by
  by_contra hbytes
  have hobject := h.bytes_object value (Bool.eq_true_of_not_eq_false hbytes)
  rw [h.array_not_object value harray] at hobject
  cases hobject

variable [DecidableEq Address]

theorem Below.element (h : runtime.Lawful) {marks : Marks Address} {value : Value}
    (hbelow : Below runtime marks value) (haggregate : runtime.Aggregate value)
    (hbytes : runtime.isByteView value = false) {index : Nat}
    (hindex : index < runtime.aggregateLength value)
    (hhas : runtime.isArray value = true → runtime.aggregateHas value index = true) (position : Nat) :
    Below runtime (Function.update marks (runtime.identityAddress value) (some position))
      (runtime.aggregateValue value index) := by
  have hchild : runtime.Child value (runtime.aggregateValue value index) :=
    ⟨haggregate, hbytes, index, hindex, hhas, rfl⟩
  exact ⟨hbelow.leads.descend h.address_injective haggregate hchild position,
    hbelow.acyclic.descend hchild⟩

variable [Fintype Address]

/-- A value without cycles is the same as itself. -/
theorem same_self (h : runtime.Lawful) (depth : Nat) (marks : Marks Address) (a : Value)
    (hdepth : unmarked marks < depth) (hbelow : Below runtime marks a) : runtime.Same a a := by
  induction depth generalizing marks a with
  | zero => exact absurd hdepth (Nat.not_lt_zero _)
  | succ depth ih =>
    have hprototype := h.prototype_refl a
    by_cases haggregate : runtime.Aggregate a
    case neg => exact .leaf hprototype haggregate (h.is_refl a)
    have hfewer := unmarked_update (hbelow.unmarked haggregate) 0
    have helement : ∀ i < runtime.aggregateLength a, runtime.isByteView a = false →
        (runtime.isArray a = true → runtime.aggregateHas a i = true) →
        runtime.Same (runtime.aggregateValue a i) (runtime.aggregateValue a i) := fun i hi hbytes hhas =>
      ih _ _ (Nat.lt_of_lt_of_le hfewer (Nat.le_of_lt_succ hdepth))
        (hbelow.element h haggregate hbytes hi hhas 0)
    by_cases harray : runtime.isArray a = true
    · exact .array hprototype harray rfl (fun i _ => rfl) fun i hi hhas =>
        helement i hi (bytes_false h harray) fun _ => hhas
    have hobject := haggregate.resolve_left harray
    cases hbytes : runtime.isByteView a with
    | true => exact .bytes hprototype hbytes rfl
    | false =>
      refine .object hprototype hobject hbytes rfl fun i hi j hj hkey => ?_
      obtain rfl : i = j := h.key_injective a i j hobject hi hj hkey
      exact helement i hi hbytes fun hyes => absurd hyes harray

theorem agree_same (h : runtime.Lawful) (depth position : Nat) (activeLeft activeRight : Marks Address)
    (a b : Value) (hdepth : unmarked activeLeft < depth) (hleft : Below runtime activeLeft a)
    (hright : Below runtime activeRight b)
    (hagree : runtime.Agree depth position activeLeft activeRight a b) : runtime.Same a b := by
  induction depth generalizing position activeLeft activeRight a b with
  | zero => exact absurd hdepth (Nat.not_lt_zero _)
  | succ depth ih =>
    obtain ⟨hprototype, hrest⟩ := hagree
    rcases hrest with his | ⟨haggregate, hrest⟩
    · by_cases haggregate : runtime.Aggregate a
      · rw [← h.is_aggregate a b his haggregate]
        exact same_self h _ activeLeft a hdepth hleft
      · exact .leaf hprototype haggregate his
    by_cases hbytes : runtime.isByteView a = true
    · rw [if_pos hbytes] at hrest
      exact .bytes hprototype hbytes hrest
    rw [if_neg hbytes] at hrest
    rw [Bool.not_eq_true] at hbytes
    have hbytes' : runtime.isByteView b = false := (h.prototype_bytes a b hprototype) ▸ hbytes
    have haggregate' := haggregate.of_prototype h hprototype
    have hfree := hleft.unmarked haggregate
    rw [if_pos ⟨hfree, hright.unmarked haggregate'⟩] at hrest
    have hfewer := Nat.lt_of_lt_of_le (unmarked_update hfree position) (Nat.le_of_lt_succ hdepth)
    obtain ⟨hlength, helements⟩ := hrest
    by_cases harray : runtime.isArray a = true
    · rw [if_pos harray] at helements
      refine .array hprototype harray hlength (fun i hi => (helements i hi).1) fun i hi hhas => ?_
      obtain ⟨hsame, hvalue⟩ := helements i hi
      exact ih _ _ _ _ _ hfewer (hleft.element h haggregate hbytes hi (fun _ => hhas) position)
        (hright.element h haggregate' hbytes' (hlength ▸ hi) (fun _ => hsame ▸ hhas) position)
        (hvalue hhas)
    · rw [if_neg harray] at helements
      have harray' : ¬ runtime.isArray b = true := (h.prototype_array a b hprototype) ▸ harray
      have hback := (matches_symm h (fun x y hxy => hxy) haggregate hprototype
        ⟨hlength, by rw [if_neg harray]; exact helements⟩).2
      rw [if_neg harray'] at hback
      refine .object hprototype (haggregate.resolve_left harray) hbytes (Set.ext fun key => ⟨?_, ?_⟩)
        fun i hi j hj hkey => ?_
      · rintro ⟨i, hi, rfl⟩
        obtain ⟨j, hj, hkey, -⟩ := helements i hi
        exact ⟨j, hj, hkey⟩
      · rintro ⟨j, hj, rfl⟩
        obtain ⟨i, hi, hkey, -⟩ := hback j hj
        exact ⟨i, hi, hkey⟩
      · obtain ⟨j', hj', hkey', hvalue⟩ := helements i hi
        obtain rfl : j' = j :=
          h.key_injective b j' j (haggregate'.resolve_left harray') hj' hj (hkey'.trans hkey)
        exact ih _ _ _ _ _ hfewer
          (hleft.element h haggregate hbytes hi (fun hyes => absurd hyes harray) position)
          (hright.element h haggregate' hbytes' hj (fun hyes => absurd hyes harray') position) hvalue

theorem same_agree (h : runtime.Lawful) {a b : Value} (hsame : runtime.Same a b) (depth position : Nat)
    (activeLeft activeRight : Marks Address) (hdepth : unmarked activeLeft < depth)
    (hleft : Below runtime activeLeft a) (hright : Below runtime activeRight b) :
    runtime.Agree depth position activeLeft activeRight a b := by
  induction hsame generalizing depth position activeLeft activeRight with
  | @leaf a b hprototype hleaf his =>
    obtain ⟨depth, rfl⟩ := Nat.exists_eq_succ_of_ne_zero (Nat.ne_zero_of_lt hdepth)
    exact ⟨hprototype, .inl his⟩
  | @bytes a b hprototype hbytes hequal =>
    obtain ⟨depth, rfl⟩ := Nat.exists_eq_succ_of_ne_zero (Nat.ne_zero_of_lt hdepth)
    exact ⟨hprototype, .inr ⟨.inr (h.bytes_object a hbytes), by rw [if_pos hbytes]; exact hequal⟩⟩
  | @array a b hprototype harray hlength hholes hvalues ih =>
    obtain ⟨depth, rfl⟩ := Nat.exists_eq_succ_of_ne_zero (Nat.ne_zero_of_lt hdepth)
    have haggregate : runtime.Aggregate a := .inl harray
    have haggregate' := haggregate.of_prototype h hprototype
    have hbytes := bytes_false h harray
    have hbytes' : runtime.isByteView b = false := (h.prototype_bytes a b hprototype) ▸ hbytes
    have hfree := hleft.unmarked haggregate
    have hfewer := Nat.lt_of_lt_of_le (unmarked_update hfree position) (Nat.le_of_lt_succ hdepth)
    refine ⟨hprototype, .inr ⟨haggregate, ?_⟩⟩
    rw [if_neg (by rw [hbytes]; simp), if_pos ⟨hfree, hright.unmarked haggregate'⟩]
    refine ⟨hlength, ?_⟩
    rw [if_pos harray]
    exact fun i hi => ⟨hholes i hi, fun hhas => ih i hi hhas _ _ _ _ hfewer
      (hleft.element h haggregate hbytes hi (fun _ => hhas) position)
      (hright.element h haggregate' hbytes' (hlength ▸ hi) (fun _ => hholes i hi ▸ hhas) position)⟩
  | @object a b hprototype hobject hbytes hkeys hvalues ih =>
    obtain ⟨depth, rfl⟩ := Nat.exists_eq_succ_of_ne_zero (Nat.ne_zero_of_lt hdepth)
    have haggregate : runtime.Aggregate a := .inr hobject
    have haggregate' := haggregate.of_prototype h hprototype
    have hobject' : runtime.isObject b = true := (h.prototype_object a b hprototype) ▸ hobject
    have harray : ¬ runtime.isArray a = true := fun harray => by
      rw [h.array_not_object a harray] at hobject
      cases hobject
    have harray' : ¬ runtime.isArray b = true := (h.prototype_array a b hprototype) ▸ harray
    have hbytes' : runtime.isByteView b = false := (h.prototype_bytes a b hprototype) ▸ hbytes
    have hfree := hleft.unmarked haggregate
    have hfewer := Nat.lt_of_lt_of_le (unmarked_update hfree position) (Nat.le_of_lt_succ hdepth)
    refine ⟨hprototype, .inr ⟨haggregate, ?_⟩⟩
    rw [if_neg (by rw [hbytes]; simp), if_pos ⟨hfree, hright.unmarked haggregate'⟩]
    refine ⟨Nat.le_antisymm (length_le_of_keys h hobject hkeys.subset)
      (length_le_of_keys h hobject' hkeys.symm.subset), ?_⟩
    rw [if_neg harray]
    intro i hi
    obtain ⟨j, hj, hkey⟩ := hkeys.subset ⟨i, hi, rfl⟩
    exact ⟨j, hj, hkey, ih i hi j hj hkey.symm _ _ _ _ hfewer
      (hleft.element h haggregate hbytes hi (fun hyes => absurd hyes harray) position)
      (hright.element h haggregate' hbytes' hj (fun hyes => absurd hyes harray') position)⟩

end Structure

/-! ## Results -/

section Result

variable {runtime} [DecidableEq Key] [DecidableEq Address]

theorem compareLoop_add {turns : Nat} {state : State Value Address} {result : Except Error Bool}
    (h : runtime.compareLoop turns state = some result) (more : Nat) :
    runtime.compareLoop (turns + more) state = some result := by
  induction turns generalizing state with
  | zero => cases h
  | succ turns ih =>
    rw [Nat.add_right_comm]
    rw [compareLoop] at h ⊢
    cases hframes : state.frames with
    | nil =>
      rw [hframes] at h
      exact h
    | cons frame frames =>
      simp only [hframes] at h ⊢
      cases hturn : runtime.turn frame { state with frames := frames } with
      | error error =>
        rw [hturn] at h
        exact h
      | ok next =>
        rw [hturn] at h
        cases next with
        | none => exact h
        | some next => exact ih h

/-- A call has one result. -/
theorem ends_unique {left right : Value} {result result' : Except Error Bool}
    (h : runtime.Ends left right result) (h' : runtime.Ends left right result') : result = result' := by
  obtain ⟨turns, hturns⟩ := h
  obtain ⟨turns', hturns'⟩ := h'
  have hlater := compareLoop_add hturns turns'
  rw [Nat.add_comm, compareLoop_add hturns' turns] at hlater
  exact (Option.some.inj hlater).symm

open Classical in
/-- Every call ends, and what it returns is whether the values agree. -/
theorem ends_agree [Fintype Address] (h : runtime.Lawful) (left right : Value) :
    runtime.Ends left right (.ok (decide (runtime.Agree (Fintype.card Address + 1) 0
      (fun _ => none) (fun _ => none) left right))) := by
  have hdecides := visit_decides h (Fintype.card Address + 1) (fun _ => none) (fun _ => none) left right []
    (Nat.lt_succ_of_le (unmarked_le _))
  by_cases hagree : runtime.Agree (Fintype.card Address + 1) 0 (fun _ => none) (fun _ => none) left right
  · obtain ⟨turns, hturns⟩ := hdecides.1 hagree
    refine ⟨turns + 1, (hturns 1).trans ?_⟩
    rw [decide_eq_true hagree]
    rfl
  · obtain ⟨turns, hturns⟩ := hdecides.2 hagree
    exact ⟨turns + 0, (hturns 0).trans (by rw [decide_eq_false hagree])⟩

open Classical in
/-- A call ends with one answer, whichever side is which; without cycles it is
whether the two values have the same structure. -/
theorem deep_value_equal_same [Fintype Address] (h : runtime.Lawful) (left right : Value) :
    ∃ answer, runtime.Ends left right (.ok answer) ∧ runtime.Ends right left (.ok answer) ∧
      (∀ result, runtime.Ends left right result → result = .ok answer) ∧
      (Acyclic runtime.Child left → Acyclic runtime.Child right →
        (answer = true ↔ runtime.Same left right)) := by
  have hdepth : unmarked (fun _ : Address => (none : Option Nat)) < Fintype.card Address + 1 :=
    Nat.lt_succ_of_le (unmarked_le _)
  have hends := ends_agree h left right
  refine ⟨_, hends, ?_, fun result hresult => ends_unique hresult hends, fun hleft hright => ?_⟩
  · have hsymm : runtime.Agree (Fintype.card Address + 1) 0 (fun _ => none) (fun _ => none) left right ↔
        runtime.Agree (Fintype.card Address + 1) 0 (fun _ => none) (fun _ => none) right left :=
      ⟨agree_symm h _ _ _ _ _ _, agree_symm h _ _ _ _ _ _⟩
    rw [decide_eq_decide.mpr hsymm]
    exact ends_agree h right left
  · rw [decide_eq_true_iff]
    exact ⟨agree_same h _ _ _ _ _ _ hdepth (.start hleft) (.start hright),
      fun hsame => same_agree h hsame _ _ _ _ hdepth (.start hleft) (.start hright)⟩

end Result

/-! Two objects with the same keys in another order. -/

inductive Sample where
  | one
  | two
  | record (address : Bool)
  deriving DecidableEq

def sampleKey (value : Sample) (index : Nat) : Nat :=
  if value = .record true then 1 - index else index

def sampleRuntime : Runtime Sample Nat Bool where
  samePrototype a b := (a matches .record _) == (b matches .record _)
  objectIs a b := a == b
  isArray _ := false
  isObject a := a matches .record _
  isByteView _ := false
  byteView _ := ⟨[], 0, 0, Nat.le_refl 0⟩
  identityAddress
    | .record address => address
    | _ => false
  aggregateLength
    | .record _ => 2
    | _ => 0
  aggregateKey := sampleKey
  aggregateHas _ _ := true
  aggregateValue a index := if sampleKey a index = 0 then .one else .two

theorem sampleRuntime_lawful : sampleRuntime.Lawful where
  prototype_refl a := beq_self_eq_true _
  prototype_symm a b := by cases a <;> cases b <;> rfl
  prototype_array a b _ := rfl
  prototype_object a b h := by
    cases a <;> cases b <;> first | rfl | cases h
  prototype_bytes a b _ := rfl
  is_refl a := beq_self_eq_true _
  is_symm a b := by
    rw [Bool.eq_iff_iff]
    exact ⟨fun h => beq_iff_eq.mpr (beq_iff_eq.mp h).symm, fun h => beq_iff_eq.mpr (beq_iff_eq.mp h).symm⟩
  is_aggregate a b h _ := beq_iff_eq.mp h
  address_injective a b ha hb h := by
    cases a with
    | record address =>
      cases b with
      | record address' => exact congrArg Sample.record h
      | one => rcases hb with h | h <;> cases h
      | two => rcases hb with h | h <;> cases h
    | one => rcases ha with h | h <;> cases h
    | two => rcases ha with h | h <;> cases h
  array_not_object a h := by cases h
  bytes_object a h := by cases h
  key_injective a i j h hi hj hkey := by
    have hlength : sampleRuntime.aggregateLength a ≤ 2 := by
      cases a <;> first | exact Nat.le_refl 2 | exact Nat.zero_le 2
    have hkey : sampleKey a i = sampleKey a j := hkey
    unfold sampleKey at hkey
    split at hkey <;> omega

theorem deep_value_equal_same_reordered :
    ∃ answer, sampleRuntime.Ends (.record false) (.record true) (.ok answer) ∧
      sampleRuntime.Ends (.record true) (.record false) (.ok answer) ∧
      (∀ result, sampleRuntime.Ends (.record false) (.record true) result → result = .ok answer) ∧
      (Acyclic sampleRuntime.Child (.record false) → Acyclic sampleRuntime.Child (.record true) →
        (answer = true ↔ sampleRuntime.Same (.record false) (.record true))) :=
  deep_value_equal_same sampleRuntime_lawful _ _

end TsonicNode.Assertions.Runtime
