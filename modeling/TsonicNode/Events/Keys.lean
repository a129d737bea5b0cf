import TsonicNode.Events.Emission
import TsonicNode.Lib.Insertion

/-!
# Event names

`eventIndex` reads a string as an array index, `orderedEventNames` puts the keys
of an emitter in the order in which the language lists them. `decimal` is the
decimal form of a number; the strings that are read are the decimal forms below
4294967295.
-/

namespace TsonicNode.Events

open TsonicNode.Lib

/-- What an event may be named by; a string is its code units. -/
inductive EventKey (Symbol : Type)
  | string (text : List UInt16)
  | symbol (symbol : Symbol)
  deriving DecidableEq

variable {Symbol : Type}

namespace EventKey

def isString : EventKey Symbol → Bool
  | .string _ => true
  | .symbol _ => false

end EventKey

/-- The loop of `event_index` over the code units. -/
def readDigits (result : UInt64) : List UInt16 → Option UInt64
  | [] => some result
  | unit :: units =>
    if unit < 48 ∨ unit > 57 then none else readDigits (result * 10 + (unit - 48).toUInt64) units

def eventIndex (event : EventKey Symbol) : Option UInt32 :=
  match event with
  | .symbol _ => none
  | .string text =>
    if text.length = 0 ∨ text.length > 10 then none
    else if text.length > 1 ∧ text[0]? = some 48 then none
    else
      match readDigits 0 text with
      | none => none
      | some result => if result ≥ 4294967295 then none else some result.toUInt32

/-- The lists of `ordered_event_names`. -/
structure Names (Symbol : Type) where
  indexes : List (UInt32 × EventKey Symbol) := []
  strings : List (EventKey Symbol) := []
  symbols : List (EventKey Symbol) := []

/-- One turn of the loop of `ordered_event_names`. -/
def Names.place (names : Names Symbol) (event : EventKey Symbol) : Names Symbol :=
  match eventIndex event with
  | some index =>
    { names with indexes := insertBehind (fun previous => previous.1 > index) (index, event) names.indexes }
  | none =>
    if event.isString then { names with strings := names.strings ++ [event] }
    else { names with symbols := names.symbols ++ [event] }

def orderedEventNames (events : List (EventKey Symbol)) : List (EventKey Symbol) :=
  let names := events.foldl Names.place {}
  names.indexes.map Prod.snd ++ names.strings ++ names.symbols

/-! ## Decimal forms -/

def digit (d : Nat) : UInt16 := UInt16.ofNat (48 + d)

def decimal (n : Nat) : List UInt16 := (Nat.toDigits 10 n).map fun c => UInt16.ofNat c.toNat

theorem digit_toNat {d : Nat} (h : d < 10) : (digit d).toNat = 48 + d := by
  unfold digit
  rw [UInt16.toNat_ofNat']
  omega

theorem decimal_digit {d : Nat} (h : d < 10) : decimal d = [digit d] := by
  unfold decimal digit
  rw [Nat.toDigits_of_lt_base h, List.map_singleton, Nat.toNat_digitChar_of_lt_ten h]

theorem decimal_snoc {n d : Nat} (hn : 0 < n) (hd : d < 10) : decimal (n * 10 + d) = decimal n ++ [digit d] := by
  have hdigits : Nat.toDigits 10 n ++ Nat.toDigits 10 d = Nat.toDigits 10 (10 * n + d) :=
    Nat.toDigits_append_toDigits (by decide) hn hd
  rw [← decimal_digit hd]
  unfold decimal
  rw [← List.map_append, hdigits, Nat.mul_comm]

theorem decimal_length_le {n : Nat} : (decimal n).length ≤ 10 ↔ n < 10000000000 := by
  unfold decimal
  rw [List.length_map]
  exact Nat.length_toDigits_le_iff (by decide) (by decide)

/-- No decimal form of a positive number starts with a zero. -/
theorem decimal_head {n : Nat} (hn : 0 < n) :
    ∃ d rest, decimal n = digit d :: rest ∧ 0 < d ∧ d < 10 := by
  induction n using Nat.strongRecOn with
  | ind n ih =>
    by_cases h : n < 10
    · exact ⟨n, [], decimal_digit h, hn, h⟩
    · obtain ⟨d, rest, hhead, hd⟩ := ih (n / 10) (by omega) (by omega)
      have hn : n = n / 10 * 10 + n % 10 := by omega
      refine ⟨d, rest ++ [digit (n % 10)], ?_, hd⟩
      rw [hn, decimal_snoc (by omega) (by omega), ← hn, hhead, List.cons_append]

/-! ## Reading an index -/

theorem ofNat_toNat {n : Nat} (h : n < 10000000000) : (UInt64.ofNat n).toNat = n :=
  UInt64.toNat_ofNat_of_lt' (Nat.lt_trans h (by decide))

theorem digit_bounds {d : Nat} (h : d < 10) : ¬ (digit d < 48 ∨ digit d > 57) := by
  rw [UInt16.lt_iff_toNat_lt, gt_iff_lt, UInt16.lt_iff_toNat_lt, digit_toNat h]
  show ¬ (48 + d < 48 ∨ 57 < 48 + d)
  omega

theorem digit_value {d : Nat} (h : d < 10) : (digit d - 48).toUInt64 = UInt64.ofNat d := by
  have hle : (48 : UInt16) ≤ digit d := UInt16.not_lt.mp fun hlt => digit_bounds h (.inl hlt)
  rw [← UInt64.toNat_inj, UInt16.toNat_toUInt64, UInt16.toNat_sub_of_le _ _ hle, digit_toNat h,
    ofNat_toNat (by omega)]
  show 48 + d - 48 = d
  omega

/-- A code unit that the loop goes past is a digit. -/
theorem digit_of_unit {unit : UInt16} (h : ¬ (unit < 48 ∨ unit > 57)) : ∃ d, d < 10 ∧ unit = digit d := by
  rw [UInt16.lt_iff_toNat_lt, gt_iff_lt, UInt16.lt_iff_toNat_lt] at h
  have hunit : 48 ≤ unit.toNat ∧ unit.toNat ≤ 57 := by
    change ¬ (unit.toNat < 48 ∨ 57 < unit.toNat) at h
    omega
  refine ⟨unit.toNat - 48, by omega, ?_⟩
  rw [← UInt16.toNat_inj, digit_toNat (by omega)]
  omega

theorem readDigits_digit {d : Nat} (h : d < 10) (n : Nat) (units : List UInt16) :
    readDigits (.ofNat n) (digit d :: units) = readDigits (.ofNat (n * 10 + d)) units := by
  rw [readDigits, if_neg (digit_bounds h), digit_value h, UInt64.ofNat_add, UInt64.ofNat_mul]
  rfl

/-- Behind a number without leading zeros the loop reads its decimal form to the end. -/
theorem readDigits_sound {n : Nat} (hn : 0 < n) {units : List UInt16} {result : UInt64}
    (h : readDigits (.ofNat n) units = some result) : ∃ m, result = .ofNat m ∧ decimal n ++ units = decimal m := by
  induction units generalizing n with
  | nil =>
    cases h
    exact ⟨n, rfl, List.append_nil _⟩
  | cons unit units ih =>
    by_cases hunit : unit < 48 ∨ unit > 57
    · rw [readDigits, if_pos hunit] at h
      cases h
    · obtain ⟨d, hd, rfl⟩ := digit_of_unit hunit
      rw [readDigits_digit hd] at h
      obtain ⟨m, hresult, hm⟩ := ih (by omega) h
      refine ⟨m, hresult, ?_⟩
      rw [← hm, decimal_snoc hn hd, List.append_assoc, List.singleton_append]

theorem readDigits_append (result : UInt64) (units more : List UInt16) :
    readDigits result (units ++ more) = (readDigits result units).bind (readDigits · more) := by
  induction units generalizing result with
  | nil => rfl
  | cons unit units ih =>
    rw [List.cons_append, readDigits, readDigits]
    split
    · rfl
    · exact ih _

theorem readDigits_decimal (n : Nat) : readDigits 0 (decimal n) = some (.ofNat n) := by
  induction n using Nat.strongRecOn with
  | ind n ih =>
    by_cases h : n < 10
    · have hread := readDigits_digit h 0 []
      rw [Nat.zero_mul, Nat.zero_add] at hread
      rw [decimal_digit h]
      exact hread
    · have hn : n = n / 10 * 10 + n % 10 := by omega
      have hsnoc : decimal n = decimal (n / 10) ++ [digit (n % 10)] := by
        conv_lhs => rw [hn]
        exact decimal_snoc (by omega) (by omega)
      rw [hsnoc, readDigits_append, ih (n / 10) (by omega), Option.bind_some, readDigits_digit (by omega), ← hn]
      rfl

/-- What is read from the start, without a leading zero, is a decimal form. -/
theorem decimal_of_readDigits {text : List UInt16} {result : UInt64} (hne : ¬ text.length = 0)
    (hzero : ¬ (text.length > 1 ∧ text[0]? = some 48)) (h : readDigits 0 text = some result) :
    ∃ n, result = .ofNat n ∧ text = decimal n := by
  cases text with
  | nil => exact absurd rfl hne
  | cons unit units =>
    by_cases hunit : unit < 48 ∨ unit > 57
    · rw [readDigits, if_pos hunit] at h
      cases h
    · obtain ⟨d, hd, rfl⟩ := digit_of_unit hunit
      have hread := readDigits_digit hd 0 units
      rw [Nat.zero_mul, Nat.zero_add] at hread
      have h : readDigits (.ofNat d) units = some result := hread.symm.trans h
      by_cases hpos : 0 < d
      · obtain ⟨m, hresult, hm⟩ := readDigits_sound hpos h
        exact ⟨m, hresult, by rw [← hm, decimal_digit hd, List.singleton_append]⟩
      · -- a zero stands alone
        obtain rfl : d = 0 := by omega
        have hunits : units = [] := by
          by_contra hunits
          have hlen := List.length_pos_iff.mpr hunits
          exact hzero ⟨by rw [List.length_cons]; omega, rfl⟩
        subst hunits
        cases h
        exact ⟨0, rfl, (decimal_digit (by decide)).symm⟩

/-- The strings read are the decimal forms below 4294967295. -/
theorem event_index_eq_some {event : EventKey Symbol} {index : UInt32} :
    eventIndex event = some index ↔ index.toNat < 4294967295 ∧ event = .string (decimal index.toNat) := by
  constructor
  · intro h
    cases event with
    | symbol symbol => cases h
    | string text =>
      unfold eventIndex at h
      dsimp only at h
      split_ifs at h with hlen hzero
      cases hread : readDigits 0 text with
      | none =>
        rw [hread] at h
        cases h
      | some result =>
        rw [hread] at h
        dsimp only at h
        obtain ⟨n, rfl, rfl⟩ := decimal_of_readDigits (fun hz => hlen (.inl hz)) hzero hread
        have hn : n < 10000000000 := decimal_length_le.mp (by omega)
        have hvalue : (UInt64.ofNat n).toNat = n := ofNat_toNat hn
        split_ifs at h with hlarge
        cases h
        have hsmall : n < 4294967295 := by
          rw [ge_iff_le, UInt64.le_iff_toNat_le, hvalue] at hlarge
          exact Nat.lt_of_not_le hlarge
        have hindex : (UInt64.ofNat n).toUInt32.toNat = n := by
          rw [UInt64.toNat_toUInt32, hvalue]
          omega
        rw [hindex]
        exact ⟨hsmall, rfl⟩
  · rintro ⟨hsmall, rfl⟩
    have hlen : ¬ ((decimal index.toNat).length = 0 ∨ (decimal index.toNat).length > 10) := by
      have hle : (decimal index.toNat).length ≤ 10 := decimal_length_le.mpr (by omega)
      have hpos : (decimal index.toNat).length ≠ 0 := by
        unfold decimal
        rw [List.length_map]
        exact Nat.ne_of_gt Nat.length_toDigits_pos
      omega
    have hzero : ¬ ((decimal index.toNat).length > 1 ∧ (decimal index.toNat)[0]? = some 48) := by
      rintro ⟨hlong, hhead⟩
      by_cases hpos : 0 < index.toNat
      · obtain ⟨d, rest, hform, hd, hten⟩ := decimal_head hpos
        rw [hform] at hhead
        have hdigit : (digit d).toNat = 48 := congrArg UInt16.toNat (Option.some.inj hhead)
        rw [digit_toNat hten] at hdigit
        omega
      · rw [Nat.eq_zero_of_not_pos hpos, decimal_digit (by decide)] at hlong
        exact absurd hlong (by decide)
    have hvalue : (UInt64.ofNat index.toNat).toNat = index.toNat := ofNat_toNat (by omega)
    have hlarge : ¬ (UInt64.ofNat index.toNat ≥ 4294967295) := by
      rw [ge_iff_le, UInt64.le_iff_toNat_le, hvalue]
      exact Nat.not_le_of_lt hsmall
    unfold eventIndex
    dsimp only
    rw [if_neg hlen, if_neg hzero, readDigits_decimal]
    dsimp only
    rw [if_neg hlarge]
    congr 1
    rw [← UInt32.toNat_inj, UInt64.toNat_toUInt32, hvalue]
    omega

theorem event_index_injective {event event' : EventKey Symbol} {index : UInt32} (h : eventIndex event = some index)
    (h' : eventIndex event' = some index) : event = event' :=
  (event_index_eq_some.mp h).2.trans (event_index_eq_some.mp h').2.symm

/-! ## The order -/

/-- What the lists are after the events of the loop so far. -/
structure Names.Holds (names : Names Symbol) (events : List (EventKey Symbol)) : Prop where
  read : ∀ entry ∈ names.indexes, eventIndex entry.2 = some entry.1
  sorted : names.indexes.Pairwise fun entry entry' => entry.1 ≤ entry'.1
  strings : names.strings = events.filter fun event => event.isString && (eventIndex event).isNone
  symbols : names.symbols = events.filter fun event => !event.isString
  perm : (names.indexes.map Prod.snd ++ names.strings ++ names.symbols).Perm events

namespace Names.Holds

variable {names : Names Symbol} {events : List (EventKey Symbol)} {event : EventKey Symbol}

theorem empty : Holds ({} : Names Symbol) [] where
  read := by simp
  sorted := .nil
  strings := rfl
  symbols := rfl
  perm := .nil

theorem place_index (h : names.Holds events) {index : UInt32} (hindex : eventIndex event = some index) :
    (names.place event).Holds (events ++ [event]) := by
  have hstring : event.isString = true := by
    rw [(event_index_eq_some.mp hindex).2]
    rfl
  have hplace : names.place event = { names with
      indexes := insertBehind (fun previous => previous.1 > index) (index, event) names.indexes } := by
    unfold Names.place
    rw [hindex]
  have hperm := insertBehind_perm (fun previous => previous.1 > index) (index, event) names.indexes
  rw [hplace]
  constructor
  · intro entry hentry
    rcases List.mem_cons.mp (hperm.subset hentry) with rfl | hentry
    · exact hindex
    · exact h.read entry hentry
  · apply insertBehind_sorted ?_ ?_ ?_ h.sorted
    · intro _ _ _ hle hle'
      exact UInt32.le_trans hle hle'
    · intro previous hprevious
      exact UInt32.le_of_lt (of_decide_eq_true hprevious)
    · intro previous hprevious
      exact UInt32.not_lt.mp (of_decide_eq_false hprevious)
  · rw [List.filter_append, ← h.strings]
    simp [hstring, hindex]
  · rw [List.filter_append, ← h.symbols]
    simp [hstring]
  · calc (_ ++ names.strings ++ names.symbols).Perm (event :: (names.indexes.map Prod.snd ++ names.strings ++
          names.symbols)) := ((hperm.map Prod.snd).append_right _).append_right _
      _ |>.Perm (event :: events) := h.perm.cons event
      _ |>.Perm (events ++ [event]) := (List.perm_append_singleton event events).symm

theorem place_string (h : names.Holds events) (hindex : eventIndex event = none) (hstring : event.isString = true) :
    (names.place event).Holds (events ++ [event]) := by
  have hplace : names.place event = { names with strings := names.strings ++ [event] } := by
    unfold Names.place
    rw [hindex]
    exact if_pos hstring
  rw [hplace]
  refine ⟨h.read, h.sorted, ?_, ?_, ?_⟩
  · rw [List.filter_append, ← h.strings]
    simp [hstring, hindex]
  · rw [List.filter_append, ← h.symbols]
    simp [hstring]
  · calc (names.indexes.map Prod.snd ++ (names.strings ++ [event]) ++ names.symbols).Perm
          (names.indexes.map Prod.snd ++ names.strings ++ event :: names.symbols) := by simp
      _ |>.Perm (event :: (names.indexes.map Prod.snd ++ names.strings ++ names.symbols)) := List.perm_middle
      _ |>.Perm (event :: events) := h.perm.cons event
      _ |>.Perm (events ++ [event]) := (List.perm_append_singleton event events).symm

theorem place_symbol (h : names.Holds events) (hindex : eventIndex event = none) (hstring : event.isString = false) :
    (names.place event).Holds (events ++ [event]) := by
  have hplace : names.place event = { names with symbols := names.symbols ++ [event] } := by
    unfold Names.place
    rw [hindex]
    exact if_neg (by rw [hstring]; simp)
  rw [hplace]
  refine ⟨h.read, h.sorted, ?_, ?_, ?_⟩
  · rw [List.filter_append, ← h.strings]
    simp [hstring]
  · rw [List.filter_append, ← h.symbols]
    simp [hstring]
  · dsimp only
    rw [← List.append_assoc]
    exact h.perm.append_right [event]

theorem places (h : names.Holds events) (event : EventKey Symbol) : (names.place event).Holds (events ++ [event]) := by
  cases hindex : eventIndex event with
  | some index => exact h.place_index hindex
  | none =>
    cases hstring : event.isString with
    | true => exact h.place_string hindex hstring
    | false => exact h.place_symbol hindex hstring

theorem foldl (events : List (EventKey Symbol)) : (events.foldl Names.place {}).Holds events := by
  induction events using List.reverseRecOn with
  | nil => exact empty
  | append_singleton events event ih =>
    rw [List.foldl_append]
    exact ih.places event

/-- The keys of the entries follow from their indexes. -/
theorem map_snd (h : names.Holds events) :
    names.indexes.map Prod.snd = (names.indexes.map fun entry => entry.1.toNat).map (.string <| decimal ·) := by
  rw [List.map_map]
  apply List.map_congr_left
  intro entry hentry
  exact (event_index_eq_some.mp (h.read entry hentry)).2

/-- Keys told apart have indexes told apart. -/
theorem increasing (h : names.Holds events) (hnodup : events.Nodup) :
    (names.indexes.map fun entry => entry.1.toNat).Pairwise (· < ·) := by
  have hkeys : (names.indexes.map Prod.snd).Nodup := by
    have hall := h.perm.nodup_iff.mpr hnodup
    rw [List.append_assoc] at hall
    exact hall.of_append_left
  have hpairs := (List.pairwise_map.mp hkeys).and h.sorted
  refine List.pairwise_map.mpr (hpairs.imp_of_mem ?_)
  intro entry entry' hentry hentry' ⟨hne, hle⟩
  refine Nat.lt_of_le_of_ne (UInt32.le_iff_toNat_le.mp hle) fun heq => hne ?_
  have hindex := h.read entry hentry
  rw [UInt32.toNat_inj.mp heq] at hindex
  exact event_index_injective hindex (h.read entry' hentry')

end Names.Holds

/-- Told apart, the keys are listed as the language lists them: array indexes by their number,
then strings and symbols as they came. -/
theorem ordered_event_names_listed {events : List (EventKey Symbol)} (hnodup : events.Nodup) :
    (orderedEventNames events).Perm events ∧
    (∃ indexes : List Nat, indexes.Pairwise (· < ·) ∧ (∀ n ∈ indexes, n < 4294967295) ∧
      orderedEventNames events = indexes.map (.string <| decimal ·) ++
        events.filter (fun event => event.isString && (eventIndex event).isNone) ++
        events.filter (fun event => !event.isString)) ∧
    ∀ (text : List UInt16) (n : Nat),
      (∃ index, eventIndex (.string text : EventKey Symbol) = some index ∧ index.toNat = n) ↔
        n < 4294967295 ∧ text = decimal n := by
  have h := Names.Holds.foldl events
  refine ⟨h.perm, ⟨_, h.increasing hnodup, ?_, ?_⟩, ?_⟩
  · intro n hn
    obtain ⟨entry, hentry, rfl⟩ := List.mem_map.mp hn
    exact (event_index_eq_some.mp (h.read entry hentry)).1
  · rw [← h.map_snd, ← h.strings, ← h.symbols]
    rfl
  · intro text n
    constructor
    · rintro ⟨index, hindex, rfl⟩
      obtain ⟨hsmall, htext⟩ := event_index_eq_some.mp hindex
      cases htext
      exact ⟨hsmall, rfl⟩
    · rintro ⟨hsmall, rfl⟩
      have hvalue : (UInt32.ofNat n).toNat = n := UInt32.toNat_ofNat_of_lt' (Nat.lt_trans hsmall (by decide))
      exact ⟨.ofNat n, event_index_eq_some.mpr (by rw [hvalue]; exact ⟨hsmall, rfl⟩), hvalue⟩

theorem ordered_event_names_listed_mixed :
    let events : List (EventKey Nat) :=
      [.symbol 0, .string [98], .string [49, 48], .string [57], .string [48, 49]]
    (orderedEventNames events).Perm events ∧
      orderedEventNames events = [.string [57], .string [49, 48], .string [98], .string [48, 49], .symbol 0] :=
  ⟨(ordered_event_names_listed (by decide)).1, by decide +kernel⟩

/-! ## The names of an emitter -/

/-- Keys as the emitter asks for them; `text` is what a message calls a key. -/
def keyValues [DecidableEq Symbol] (text : EventKey Symbol → Except Error String) : Values (EventKey Symbol) where
  isString := EventKey.isString
  isSymbol event := !event.isString
  isErrorText event := event = .string [101, 114, 114, 111, 114]
  eventKeyEqual event event' := event = event'
  valueToString := text

/-- The keys of the groups, as `event_names` collects them. -/
def EventEmitterState.events {JsValue : Type} (state : EventEmitterState JsValue) : List JsValue :=
  state.groups.filterMap fun place => (state.memory[place]?).map EventGroup.event

def EventEmitterState.eventNames (state : EventEmitterState (EventKey Symbol)) : List (EventKey Symbol) :=
  orderedEventNames state.events

variable [DecidableEq Symbol] {text : EventKey Symbol → Except Error String}

theorem Sound.events_nodup {state : EventEmitterState (EventKey Symbol)} (h : Sound (keyValues text) state) :
    state.events.Nodup := by
  refine List.pairwise_filterMap.mpr (h.distinct.imp ?_)
  intro place place' hpair event hevent event' hevent'
  obtain ⟨group, hgroup, rfl⟩ := Option.map_eq_some_iff.mp hevent
  obtain ⟨group', hgroup', rfl⟩ := Option.map_eq_some_iff.mp hevent'
  exact of_decide_eq_false (hpair group group' hgroup hgroup')

/-- Whatever the listeners do, `event_names` lists the key of each group once. -/
theorem event_names_run (actions : List (Action (EventKey Symbol))) :
    let state := (run (System.step (keyValues text)) {} actions).state
    state.eventNames.Perm state.events ∧ state.eventNames.Nodup := by
  intro state
  have hperm : state.eventNames.Perm state.events := (Names.Holds.foldl state.events).perm
  exact ⟨hperm, hperm.nodup_iff.mpr (emission_run (keyValues text) actions).1.events_nodup⟩

end TsonicNode.Events
