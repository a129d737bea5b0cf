import TsonicNode.Lib.Form
import TsonicNode.Lib.Run
import TsonicNode.Lib.Unicode

/-!
# URLs and their search parameters

The bridge to the URL library: a URL and its parameters stand in one state, and
`set` and `mutate` update the one behind the other. The library is the parameter
`Ada`; its parameters are lists of pairs of strings in form encoding
(`Lib.Form`). A string of the runtime is well-formed UTF-8.

`Linked` says that the parameters are those of the search. `perform_linked` is
the step and `linked_run` the run.
-/

namespace TsonicNode.Url

open TsonicNode.Lib TsonicNode.Lib.Form

abbrev Bytes := List UInt8

/-! ## Well-formed text -/

/-- `U8_NEXT`: how many bytes follow the first one in its sequence, and whether it is well formed. -/
def u8Next (lead : UInt8) (rest : Bytes) : Nat × Bool :=
  let length := matched (trail lead) rest
  (length, decide (lead < 0x80) || (decide (trail lead ≠ []) && decide (length = (trail lead).length)))

def wellFormedFrom : Nat → Bytes → Bool
  | _, [] => true
  | skip + 1, _ :: rest => wellFormedFrom skip rest
  | 0, lead :: rest => (u8Next lead rest).2 && wellFormedFrom (u8Next lead rest).1 rest

def WellFormed (text : Bytes) : Prop := wellFormedFrom 0 text = true

instance (text : Bytes) : Decidable (WellFormed text) :=
  inferInstanceAs (Decidable (_ = true))

/-- U+FFFD. -/
def replacement : Bytes := [0xEF, 0xBF, 0xBD]

/-- The next `skip` bytes go on a sequence that is kept or replaced. -/
def replaceFrom : Bool → Nat → Bytes → Bytes
  | _, _, [] => []
  | true, skip + 1, b :: rest => b :: replaceFrom true skip rest
  | false, skip + 1, _ :: rest => replaceFrom false skip rest
  | _, 0, lead :: rest =>
    match u8Next lead rest with
    | (length, true) => lead :: replaceFrom true length rest
    | (length, false) => replacement ++ replaceFrom false length rest

/-- Nothing, if there is nothing to replace. -/
def replaceInvalidUtf8 (text : Bytes) : Option Bytes :=
  if WellFormed text then none else some (replaceFrom true 0 text)

def scalarText (text : Bytes) : Bytes := (replaceInvalidUtf8 text).getD text

/-- A string of the runtime. -/
abbrev Utf8 := { bytes : Bytes // WellFormed bytes }

/-! ## The library -/

/-- The setters besides `set_href`. -/
inductive Setter where
  | protocol
  | username
  | password
  | host
  | hostname
  | port
  | pathname
  | search
  | hash
  deriving DecidableEq, Repr

/-- A query as it stands in a URL. -/
def marked (query : Bytes) : Bytes := if query = [] then [] else 63 :: query

structure Ada where
  Address : Type
  maxInputLength : Nat
  setHref : Address → Bytes → Option Address
  set : Setter → Address → Bytes → Address
  search : Address → Bytes
  /-- The length the href comes to with this search. -/
  hrefLength : Address → Bytes → Nat
  /-- The order of the keys in a sorted list. -/
  precedes : Bytes → Bytes → Bool
  search_set : ∀ setter url text, setter ≠ .search → search (set setter url text) = search url
  /-- A search that makes the href too long is silently not set. -/
  set_search_long : ∀ url query, maxInputLength < hrefLength url query →
    set .search url query = url
  /-- What form encoding writes needs no other encoding. -/
  set_search_serialized : ∀ url params, hrefLength url (serialize params) ≤ maxInputLength →
    search (set .search url (serialize params)) = marked (serialize params)

variable {ada : Ada}

/-- `url_search_params` of a query, with or without its mark. -/
def parseParams (ada : Ada) (query : Bytes) : List Pair :=
  let query := if query.head? = some 63 then query.drop 1 else query
  if ada.maxInputLength < query.length then [] else parse query

/-- `scalar_params`. -/
def scalarParams (ada : Ada) (query : Bytes) : List Pair :=
  (parseParams ada query).map fun p => (scalarText p.1, scalarText p.2)

inductive ParamsOperation where
  | append
  | set
  | remove
  | removeValue
  | sort
  deriving DecidableEq, Repr

/-- The first pair of the key takes the value, the others go. -/
def setParam (key value : Bytes) : List Pair → List Pair
  | [] => [(key, value)]
  | p :: params =>
    if p.1 = key then (p.1, value) :: params.filter fun q => decide (q.1 ≠ key)
    else p :: setParam key value params

def apply (ada : Ada) (operation : ParamsOperation) (name text : Bytes) (params : List Pair) :
    List Pair :=
  match operation with
  | .append => params ++ [(name, text)]
  | .set => setParam name text params
  | .remove => params.filter fun p => decide (p.1 ≠ name)
  | .removeValue => params.filter fun p => !(decide (p.1 = name) && decide (p.2 = text))
  | .sort => params.mergeSort fun p q => !ada.precedes q.1 p.1

/-! ## The bridge -/

structure UrlState (ada : Ada) where
  url : Option ada.Address
  params : List Pair

/-- The state of a URL that was parsed. -/
def newState (url : ada.Address) : UrlState ada :=
  { url := some url, params := scalarParams ada (ada.search url) }

/-- Whether `input` raises. -/
def TooLarge (ada : Ada) (text : Bytes) : Prop := ada.maxInputLength < text.length

instance (text : Bytes) : Decidable (TooLarge ada text) :=
  inferInstanceAs (Decidable (_ < _))

/-- `tsonic_node_url_params_mutate`, and whether it succeeds. -/
def mutate (s : UrlState ada) (operation : ParamsOperation) (name text : Bytes) :
    UrlState ada × Bool :=
  if TooLarge ada name ∨ TooLarge ada text then (s, false)
  else
    match s.url with
    | none => ({ s with params := apply ada operation name text s.params }, true)
    | some url =>
      let params := apply ada operation name text s.params
      let query := serialize params
      if TooLarge ada query then (s, false)
      else ({ url := some (ada.set .search url query), params := params }, true)

/-- `tsonic_node_url_set` of the href. -/
def setHref (s : UrlState ada) (text : Bytes) : UrlState ada × Bool :=
  if TooLarge ada text then (s, false)
  else
    match s.url.bind fun url => ada.setHref url text with
    | none => (s, false)
    | some url => ({ url := some url, params := scalarParams ada (ada.search url) }, true)

/-- `tsonic_node_url_set` of another field. -/
def setField (s : UrlState ada) (setter : Setter) (text : Bytes) : UrlState ada × Bool :=
  if TooLarge ada text then (s, false)
  else
    match s.url.map fun url => ada.set setter url text with
    | none => (s, false)
    | some url =>
      if setter = .search then
        ({ url := some url, params := scalarParams ada (ada.search url) }, true)
      else ({ s with url := some url }, true)

inductive Operation where
  | setHref (text : Utf8)
  | set (setter : Setter) (text : Utf8)
  | mutate (operation : ParamsOperation) (name text : Utf8)

def perform (s : UrlState ada) : Operation → UrlState ada × Bool
  | .setHref text => setHref s text
  | .set setter text => setField s setter text
  | .mutate operation name text => mutate s operation name text

/-- The state after an operation, which may have failed. -/
def step (s : UrlState ada) (operation : Operation) : UrlState ada := (perform s operation).1

/-- The parameters are those of the current search. -/
def Linked (s : UrlState ada) : Prop :=
  ∀ url, s.url = some url → s.params = scalarParams ada (ada.search url)

/-- The search that goes with a change of the parameters is set: the change is refused, or the href
stays within the limit, or nothing changes. -/
def Fits (s : UrlState ada) : Operation → Prop
  | .mutate operation name text =>
    ∀ url, s.url = some url →
      TooLarge ada name ∨ TooLarge ada text ∨
        TooLarge ada (serialize (apply ada operation name text s.params)) ∨
        ada.hrefLength url (serialize (apply ada operation name text s.params)) ≤
          ada.maxInputLength ∨
        apply ada operation name text s.params = s.params
  | _ => True

/-! ## Replacing -/

theorem replaceFrom_kept (n : Nat) (text : Bytes) :
    replaceFrom true n text = text.take n ++ replaceFrom true 0 (text.drop n) := by
  induction text generalizing n with
  | nil => simp [replaceFrom]
  | cons b rest ih =>
    cases n with
    | zero => rfl
    | succ n => rw [replaceFrom, ih, List.take_succ_cons, List.drop_succ_cons, List.cons_append]

theorem replaceFrom_dropped (n : Nat) (text : Bytes) :
    replaceFrom false n text = replaceFrom true 0 (text.drop n) := by
  induction text generalizing n with
  | nil => simp [replaceFrom]
  | cons b rest ih =>
    cases n with
    | zero => rfl
    | succ n => rw [replaceFrom, ih, List.drop_succ_cons]

theorem wellFormedFrom_drop (n : Nat) (text : Bytes) :
    wellFormedFrom n text = wellFormedFrom 0 (text.drop n) := by
  induction text generalizing n with
  | nil => simp [wellFormedFrom]
  | cons b rest ih =>
    cases n with
    | zero => rfl
    | succ n => rw [wellFormedFrom, ih, List.drop_succ_cons]

/-- A well-formed sequence is as long as its lead byte says. -/
theorem length_of_wellFormed {lead : UInt8} {rest : Bytes} (h : (u8Next lead rest).2 = true) :
    (trail lead).length = matched (trail lead) rest := by
  unfold u8Next at h
  obtain h | h := (Bool.or_eq_true _ _).mp h
  · have hlead : lead < 0xC2 := UInt8.lt_trans (of_decide_eq_true h) (by decide)
    have htrail : trail lead = [] := by
      unfold trail
      rw [if_pos hlead]
    rw [htrail]
    rfl
  · exact (of_decide_eq_true ((Bool.and_eq_true _ _).mp h).2).symm

/-- It is read alike in front of anything. -/
theorem u8Next_complete {lead : UInt8} {rest : Bytes} (h : (u8Next lead rest).2 = true)
    (back : Bytes) :
    u8Next lead (rest.take (u8Next lead rest).1 ++ back) = u8Next lead rest := by
  have hlength := length_of_wellFormed h
  have htake : (trail lead).length ≤ (rest.take (matched (trail lead) rest)).length := by
    rw [List.length_take, hlength]
    have := matched_le_length (trail lead) rest
    omega
  have hmatched : matched (trail lead) (rest.take (matched (trail lead) rest) ++ back) =
      matched (trail lead) rest := by
    rw [matched_append_of_closed (Or.inl htake)]
    have hsplit := matched_append_of_closed (Or.inl htake) (rest.drop (matched (trail lead) rest))
    rw [List.take_append_drop] at hsplit
    exact hsplit.symm
  show (_, _) = (_, _)
  rw [show (u8Next lead rest).1 = matched (trail lead) rest from rfl, hmatched]

theorem replaceFrom_wellFormed (text : Bytes) : WellFormed (replaceFrom true 0 text) := by
  induction hn : text.length using Nat.strongRecOn generalizing text with
  | ind n ih =>
    unfold WellFormed at ih ⊢
    cases text with
    | nil => rfl
    | cons lead rest =>
      have htail : wellFormedFrom 0 (replaceFrom true 0 (rest.drop (u8Next lead rest).1)) = true := by
        refine ih (rest.drop (u8Next lead rest).1).length ?_ _ rfl
        rw [List.length_drop, ← hn, List.length_cons]
        omega
      rw [replaceFrom]
      cases hok : (u8Next lead rest).2 with
      | true =>
        have hnext : u8Next lead rest = ((u8Next lead rest).1, true) := Prod.ext rfl hok
        rw [hnext]
        dsimp only
        have hle : (u8Next lead rest).1 ≤ rest.length := matched_le_length _ _
        rw [replaceFrom_kept, wellFormedFrom, u8Next_complete hok, hok, Bool.true_and,
          wellFormedFrom_drop, List.drop_append, List.length_take, Nat.min_eq_left hle,
          Nat.sub_self, List.drop_zero, List.drop_of_length_le (by rw [List.length_take]; omega)]
        exact htail
      | false =>
        have hnext : u8Next lead rest = ((u8Next lead rest).1, false) := Prod.ext rfl hok
        rw [hnext]
        dsimp only
        rw [replaceFrom_dropped]
        exact htail

theorem scalarText_wellFormed (text : Bytes) : WellFormed (scalarText text) := by
  unfold scalarText replaceInvalidUtf8
  split
  case isTrue h => exact h
  case isFalse => exact replaceFrom_wellFormed text

theorem scalarText_eq {text : Bytes} (h : WellFormed text) : scalarText text = text := by
  unfold scalarText replaceInvalidUtf8
  rw [if_pos h]
  rfl

/-! ## Parameters -/

def AllWellFormed (params : List Pair) : Prop := ∀ p ∈ params, WellFormed p.1 ∧ WellFormed p.2

theorem scalarParams_wellFormed (ada : Ada) (query : Bytes) :
    AllWellFormed (scalarParams ada query) := by
  intro p hp
  obtain ⟨q, _, rfl⟩ := List.mem_map.mp hp
  exact ⟨scalarText_wellFormed q.1, scalarText_wellFormed q.2⟩

theorem setParam_wellFormed {key value : Bytes} (hkey : WellFormed key) (hvalue : WellFormed value)
    {params : List Pair} (h : AllWellFormed params) : AllWellFormed (setParam key value params) := by
  induction params with
  | nil =>
    intro p hp
    rw [List.mem_singleton.mp hp]
    exact ⟨hkey, hvalue⟩
  | cons q params ih =>
    have hq := h q List.mem_cons_self
    have htail : AllWellFormed params := fun p hp => h p (List.mem_cons_of_mem q hp)
    unfold setParam
    split
    · intro p hp
      obtain rfl | hp := List.mem_cons.mp hp
      · exact ⟨hq.1, hvalue⟩
      · exact htail p (List.mem_filter.mp hp).1
    · intro p hp
      obtain rfl | hp := List.mem_cons.mp hp
      · exact hq
      · exact ih htail p hp

theorem apply_wellFormed (ada : Ada) (operation : ParamsOperation) {name text : Bytes}
    (hname : WellFormed name) (htext : WellFormed text) {params : List Pair}
    (h : AllWellFormed params) : AllWellFormed (apply ada operation name text params) := by
  cases operation with
  | append =>
    intro p hp
    obtain hp | hp := List.mem_append.mp hp
    · exact h p hp
    · rw [List.mem_singleton.mp hp]
      exact ⟨hname, htext⟩
  | set => exact setParam_wellFormed hname htext h
  | remove | removeValue => exact fun p hp => h p (List.mem_filter.mp hp).1
  | sort => exact fun p hp => h p (List.mem_mergeSort.mp hp)

/-- Parameters that are written into a search are read back from it. -/
theorem scalarParams_marked {params : List Pair} (hlength : ¬ TooLarge ada (serialize params))
    (hwell : AllWellFormed params) : scalarParams ada (marked (serialize params)) = params := by
  have hparse : parseParams ada (marked (serialize params)) = params := by
    unfold parseParams marked
    by_cases hempty : serialize params = []
    · have hparams := parse_serialize params
      rw [hempty] at hparams
      rw [if_pos hempty, ← hparams]
      rfl
    · have hmark : (63 :: serialize params).head? = some 63 := rfl
      rw [if_neg hempty]
      dsimp only
      rw [if_pos hmark, List.drop_succ_cons, List.drop_zero, parse_serialize]
      exact if_neg hlength
  unfold scalarParams
  rw [hparse]
  calc
    _ = params.map id := List.map_congr_left fun p hp =>
      Prod.ext (scalarText_eq (hwell p hp).1) (scalarText_eq (hwell p hp).2)
    _ = params := List.map_id params

/-! ## The operations -/

/-- A change that fails changes nothing. -/
theorem perform_failed (s : UrlState ada) (operation : Operation)
    (h : (perform s operation).2 = false) : (perform s operation).1 = s := by
  cases operation with
  | setHref text =>
    unfold perform setHref at *
    dsimp only at *
    split at h
    · rw [if_pos ‹_›]
    · rw [if_neg ‹_›]
      cases hurl : s.url.bind fun url => ada.setHref url text with
      | none => rfl
      | some url =>
        rw [hurl] at h
        cases h
  | set setter text =>
    unfold perform setField at *
    dsimp only at *
    split at h
    · rw [if_pos ‹_›]
    · rw [if_neg ‹_›]
      cases hurl : s.url.map fun url => ada.set setter url text with
      | none => rfl
      | some url =>
        rw [hurl] at h
        dsimp only at h
        split at h <;> cases h
  | mutate operation name text =>
    unfold perform mutate at *
    dsimp only at *
    split at h
    · rw [if_pos ‹_›]
    · rw [if_neg ‹_›]
      cases hurl : s.url with
      | none =>
        rw [hurl] at h
        cases h
      | some url =>
        rw [hurl] at h
        dsimp only at h ⊢
        split at h
        · rw [if_pos ‹_›]
        · cases h

theorem setHref_linked (s : UrlState ada) (text : Bytes) (h : Linked s) :
    Linked (setHref s text).1 := by
  unfold setHref
  split
  · exact h
  · split
    · exact h
    · rintro url ⟨⟩
      rfl

theorem setField_linked (s : UrlState ada) (setter : Setter) (text : Bytes) (h : Linked s) :
    Linked (setField s setter text).1 := by
  unfold setField
  split
  case isTrue => exact h
  case isFalse =>
    cases hurl : s.url with
    | none => exact h
    | some url =>
      dsimp only [Option.map_some]
      split
      case isTrue =>
        rintro url' ⟨⟩
        rfl
      case isFalse hsetter =>
        rintro url' ⟨⟩
        show s.params = _
        rw [ada.search_set setter url text hsetter]
        exact h url hurl

theorem mutate_linked (s : UrlState ada) (operation : ParamsOperation) (name text : Utf8)
    (h : Linked s) (hfits : Fits s (.mutate operation name text)) :
    Linked (mutate s operation name text).1 := by
  unfold mutate
  split
  case isTrue => exact h
  case isFalse hlarge =>
    cases hurl : s.url with
    | none =>
      intro url hsome
      cases hsome
    | some url =>
      dsimp only
      split
      case isTrue => exact h
      case isFalse hquery =>
        have hparams := h url hurl
        have hwell : AllWellFormed (apply ada operation name text s.params) :=
          apply_wellFormed ada operation name.2 text.2
            (by rw [hparams]; exact scalarParams_wellFormed ada _)
        rintro url' ⟨⟩
        show apply ada operation name text s.params = _
        by_cases hset : ada.hrefLength url (serialize (apply ada operation name text s.params)) ≤
            ada.maxInputLength
        · rw [ada.set_search_serialized url _ hset, scalarParams_marked hquery hwell]
        · -- the search stays as it is, and so must the parameters
          rw [ada.set_search_long url _ (by omega), ← hparams]
          obtain hlong | hlong | hlong | hlong | hsame := hfits url hurl
          · exact absurd (Or.inl hlong) hlarge
          · exact absurd (Or.inr hlong) hlarge
          · exact absurd hlong hquery
          · exact absurd hlong hset
          · exact hsame

theorem perform_linked (s : UrlState ada) (operation : Operation) (h : Linked s)
    (hfits : Fits s operation) : Linked (step s operation) := by
  cases operation with
  | setHref text => exact setHref_linked s text h
  | set setter text => exact setField_linked s setter text h
  | mutate operation name text => exact mutate_linked s operation name text h hfits

/-- In a run in which no search outgrows the limit, the parameters are always those of the search;
an operation that fails leaves both as they were. -/
theorem linked_run (url : ada.Address) (operations : List Operation)
    (h : Meets step Fits (newState url) operations) :
    Linked (run step (newState url) operations) ∧
      ∀ operation, (perform (run step (newState url) operations) operation).2 = false →
        (perform (run step (newState url) operations) operation).1 =
          run step (newState url) operations := by
  have hnew : Linked (newState url) := by
    rintro url' ⟨⟩
    rfl
  exact ⟨run_invariant (P := Linked) perform_linked hnew h, fun operation => perform_failed _ operation⟩

/-! ## URLs of which only the search is of interest -/

structure PlainUrl where
  /-- How many bytes stand in front of the search. -/
  front : Nat
  search : Bytes
  deriving DecidableEq, Repr

/-- The library's default limit; a search is given without its mark. -/
def plainUrls : Ada where
  Address := PlainUrl
  maxInputLength := 4294967295
  setHref := fun _ _ => none
  set := fun setter url text =>
    if setter = .search ∧ url.front + (marked text).length ≤ 4294967295 then
      { url with search := marked text }
    else url
  search := PlainUrl.search
  hrefLength := fun url query => url.front + (marked query).length
  precedes := fun key key' => decide (key < key')
  search_set := fun setter url text h => by rw [if_neg fun hset => h hset.1]
  set_search_long := fun url query h => if_neg fun hset => by omega
  set_search_serialized := fun url params h => by rw [if_pos ⟨rfl, h⟩]

/-- A URL without a search. -/
def plainState (front : Nat) : UrlState plainUrls := @newState plainUrls ⟨front, []⟩

/-- `append("a", "b")`. -/
def appendPair : Operation := .mutate .append ⟨[97], by decide⟩ ⟨[98], by decide⟩

theorem linked_run_append :
    Linked (run step (plainState 20) [appendPair]) ∧
      ∀ operation, (perform (run step (plainState 20) [appendPair]) operation).2 = false →
        (perform (run step (plainState 20) [appendPair]) operation).1 =
          run step (plainState 20) [appendPair] :=
  @linked_run plainUrls ⟨20, []⟩ [appendPair]
    ⟨by rintro url ⟨⟩; exact Or.inr (Or.inr (Or.inr (Or.inl (by decide)))), trivial⟩

/-- A URL three bytes short of the limit: the pair is appended, the search stays empty, and the
change succeeds. -/
theorem append_drifts :
    (perform (plainState 4294967292) appendPair).2 = true ∧
      ¬ Linked (step (plainState 4294967292) appendPair) := by
  refine ⟨by decide, fun h => ?_⟩
  have hurl : (step (plainState 4294967292) appendPair).url = some (⟨4294967292, []⟩ : PlainUrl) :=
    congrArg some (plainUrls.set_search_long ⟨4294967292, []⟩ _ (by decide))
  have hparams : (step (plainState 4294967292) appendPair).params = [] := h ⟨4294967292, []⟩ hurl
  revert hparams
  decide

end TsonicNode.Url
