import TsonicNode.Dns.Aliases

/-!
# Addresses of a lookup

`lookup_complete` takes the addresses that the system found, those of the preferred
family in a first pass and the others in a second one. `ordered` is the list that
the two passes come to.
-/

namespace TsonicNode.Dns

open TsonicNode.Lib

/-- An `addrinfo`; the family is 0 where it is neither IPv4 nor IPv6, the text is that of `inet_ntop`. -/
structure Address where
  family : Nat
  text : Option Bytes

/-- The address in print, if there is one. -/
def Address.printed (address : Address) : Option Bytes := if address.family = 0 then none else address.text

/-- What `uv_getaddrinfo` reports where it fails, in the code and the text that are kept of it. -/
structure LookupFailure where
  /-- `UV_EAI_NONAME` or `UV_EAI_NODATA`. -/
  unknown : Bool
  name : String
  message : String

section
variable (memory : Memory)

/-- The last value gets its family. -/
def setFamily (family : Nat) (request : Request) : Request :=
  { request with values := request.values.modify (request.values.length - 1) fun result => { result with family } }

/-- One pass over the addresses. -/
def pass (first : Bool) : List Address → Request → Request
  | [], request => request
  | address :: rest, request =>
    if request.lookupOrder ≠ 0 ∧ (address.family == request.lookupOrder) ≠ first then pass first rest request
    else
      match address.printed with
      | none => pass first rest request
      | some text =>
        let appended := request.append memory text
        if !appended.2 then appended.1
        else
          let request := setFamily address.family appended.1
          if !request.lookupAll then request else pass first rest request

/-- The second pass is made where the first one does not have all that is asked for. -/
def passes (addresses : List Address) (request : Request) : Request :=
  let request := pass memory true addresses request
  if request.lookupOrder = 0 ∨ request.failed ∨ (!request.lookupAll ∧ request.values.length ≠ 0) then request
  else pass memory false addresses request

/-- `lookup_complete`. -/
def lookupComplete (found : Except LookupFailure (List Address)) (request : Request) : Request :=
  match found with
  | .error failure => request.fail (if failure.unknown then "ENOTFOUND" else failure.name) failure.message
  | .ok addresses =>
    let request := passes memory addresses request
    if request.values.length = 0 ∧ !request.failed then
      request.fail "ENOTFOUND" "OS lookup returned no IP address"
    else request

end

/-! ## The order -/

def Address.result (address : Address) : Option Result := address.printed.map (⟨·, address.family⟩)

/-- The addresses of a pass. -/
def offered (order : Nat) (first : Bool) (addresses : List Address) : List Result :=
  (addresses.filter fun address => order == 0 || (address.family == order) == first).filterMap Address.result

/-- The preferred family comes first; each family keeps its order. -/
def ordered (order : Nat) (addresses : List Address) : List Result :=
  offered order true addresses ++ if order = 0 then [] else offered order false addresses

def chosen (all : Bool) (results : List Result) : List Result := if all then results else results.take 1

def Result.size (result : Result) : Nat := result.value.length + 1

/-! ## A pass -/

section
variable {memory : Memory} {request : Request}

theorem append_kept (request : Request) (text : Bytes) :
    (request.append memory text).1.lookupAll = request.lookupAll ∧
      (request.append memory text).1.lookupOrder = request.lookupOrder := by
  have henlarged : request.enlarged.lookupAll = request.lookupAll ∧
      request.enlarged.lookupOrder = request.lookupOrder := by
    unfold Request.enlarged
    split <;> exact ⟨rfl, rfl⟩
  unfold Request.append
  split
  · exact ⟨rfl, rfl⟩
  · dsimp only
    split
    · exact ⟨rfl, rfl⟩
    · split
      · exact ⟨rfl, rfl⟩
      · split
        · exact henlarged
        · exact henlarged

/-- It tells whether the value is there. -/
theorem append_tells (hfailure : request.failure = none) (text : Bytes) :
    (request.append memory text).2 = (request.append memory text).1.failure.isNone := by
  have hfailed : request.failed = false := Request.failed_of_none hfailure
  unfold Request.append
  rw [hfailed, if_neg Bool.false_ne_true]
  dsimp only
  split
  · rfl
  · split
    · rfl
    · split
      · rfl
      · show true = request.enlarged.failure.isNone
        rw [(enlarged_same request).1, hfailure]
        rfl

theorem modify_last {α : Type} (f : α → α) (xs : List α) (x : α) :
    (xs ++ [x]).modify xs.length f = xs ++ [f x] := by
  induction xs with
  | nil => rfl
  | cons y xs ih => exact congrArg (y :: ·) ih

theorem setFamily_last {values : List Result} {text : Bytes} (hvalues : request.values = values ++ [⟨text, 0⟩])
    (family : Nat) : (setFamily family request).values = values ++ [⟨text, family⟩] := by
  unfold setFamily
  dsimp only
  rw [hvalues, List.length_append, List.length_singleton, Nat.add_sub_cancel, modify_last]

/-- The results are behind those that were there, or they are too many. -/
def Passes (memory : Memory) (results : List Result) (before after : Request) : Prop :=
  after.lookupAll = before.lookupAll ∧ after.lookupOrder = before.lookupOrder ∧
    (((∃ message, after.failure = some ⟨"ENOMEM", message⟩) ∧
        Tight memory (before.bytes + total Result.size results) (before.values.length + results.length)) ∨
      (after.failure = none ∧ after.values = before.values ++ results ∧
        after.bytes = before.bytes + total Result.size results))

theorem Passes.none (hfailure : request.failure = none) : Passes memory [] request request :=
  ⟨rfl, rfl, .inr ⟨hfailure, (List.append_nil _).symm, rfl⟩⟩

theorem Passes.append {front back : List Result} {before middle after : Request}
    (hall : middle.lookupAll = before.lookupAll) (horder : middle.lookupOrder = before.lookupOrder)
    (hvalues : middle.values = before.values ++ front) (hbytes : middle.bytes = before.bytes + total Result.size front)
    (h : Passes memory back middle after) : Passes memory (front ++ back) before after := by
  obtain ⟨hall', horder', hrest⟩ := h
  refine ⟨hall'.trans hall, horder'.trans horder, ?_⟩
  rw [hvalues, hbytes, List.length_append] at hrest
  rwa [total_append, List.length_append, ← List.append_assoc, ← Nat.add_assoc, ← Nat.add_assoc]

section
variable {order : Nat} {first : Bool} {address : Address} {addresses : List Address}

theorem offered_skip (h : order ≠ 0 ∧ (address.family == order) ≠ first) :
    offered order first (address :: addresses) = offered order first addresses := by
  unfold offered
  rw [List.filter_cons_of_neg (by simpa using h)]

theorem offered_cons (h : ¬ (order ≠ 0 ∧ (address.family == order) ≠ first)) :
    offered order first (address :: addresses) = address.result.toList ++ offered order first addresses := by
  unfold offered
  rw [List.filter_cons_of_pos (by simpa [or_iff_not_imp_left] using h)]
  cases hresult : address.result with
  | none => exact List.filterMap_cons_none hresult
  | some result => exact List.filterMap_cons_some hresult

end

theorem chosen_cons (all : Bool) (result : Result) (results : List Result) :
    chosen all (result :: results) = result :: if all then results else [] := by
  cases all <;> rfl

/-- A pass takes what it is offered, or the first of it. -/
theorem pass_spec (first : Bool) (addresses : List Address) (hfailure : request.failure = none) :
    Passes memory (chosen request.lookupAll (offered request.lookupOrder first addresses)) request
      (pass memory first addresses request) := by
  induction addresses generalizing request with
  | nil =>
    have hnone : chosen request.lookupAll (offered request.lookupOrder first []) = [] := by
      unfold chosen
      split <;> rfl
    rw [hnone]
    exact .none hfailure
  | cons address addresses ih =>
    unfold pass
    split
    · rename_i hskip
      rw [offered_skip hskip]
      exact ih hfailure
    · rename_i htaken
      rw [offered_cons htaken]
      unfold Address.result
      cases address.printed with
      | none => exact ih hfailure
      | some text =>
        rw [Option.map_some, Option.toList_some, List.singleton_append, chosen_cons]
        have hkept := @append_kept memory request text
        have htells := @append_tells memory request hfailure text
        dsimp only
        rcases @append_cases memory request hfailure text with
          ⟨hnone, -, hvalues, hbytes⟩ | ⟨⟨message, hfull⟩, -, htight⟩
        · have hgoes : (!(request.append memory text).2) = false := by rw [htells, hnone]; rfl
          rw [hgoes, if_neg Bool.false_ne_true]
          have hset : (setFamily address.family (request.append memory text).1).failure = none := hnone
          refine @Passes.append memory [⟨text, address.family⟩] _ _
            (setFamily address.family (request.append memory text).1) _ hkept.1 hkept.2 (setFamily_last hvalues _)
              hbytes ?_
          cases hall : request.lookupAll with
          | true =>
            have hmore : (!(setFamily address.family (request.append memory text).1).lookupAll) = false :=
              congrArg Bool.not (hkept.1.trans hall)
            rw [hmore, if_neg Bool.false_ne_true]
            have hrest := ih hset
            rw [show (setFamily address.family (request.append memory text).1).lookupAll = true from
                hkept.1.trans hall,
              show (setFamily address.family (request.append memory text).1).lookupOrder = _ from hkept.2] at hrest
            exact hrest
          | false =>
            have hstop : (!(setFamily address.family (request.append memory text).1).lookupAll) = true :=
              congrArg Bool.not (hkept.1.trans hall)
            rw [hstop, if_pos rfl]
            exact .none hset
        · have hstops : (!(request.append memory text).2) = true := by rw [htells, hfull]; rfl
          rw [hstops, if_pos rfl]
          refine ⟨hkept.1, hkept.2, .inl ⟨⟨message, hfull⟩, htight.mono ?_ ?_⟩⟩
          · simp only [total_cons, Result.size]
            omega
          · simp only [List.length_cons]
            omega

theorem chosen_extends (all : Bool) (front back : List Result) : chosen all front <+: chosen all (front ++ back) := by
  cases all with
  | true => exact List.prefix_append _ _
  | false =>
    cases front with
    | nil => exact List.nil_prefix
    | cons result front => exact List.prefix_rfl

/-- The two passes. -/
theorem passes_spec (addresses : List Address) (hfailure : request.failure = none) (hvalues : request.values = []) :
    Passes memory (chosen request.lookupAll (ordered request.lookupOrder addresses)) request
      (passes memory addresses request) := by
  have hfirst := @pass_spec memory request true addresses hfailure
  unfold passes ordered
  generalize pass memory true addresses request = after at hfirst
  obtain ⟨hall, horder, hresults⟩ := hfirst
  dsimp only
  rw [horder, hall]
  by_cases hzero : request.lookupOrder = 0
  · rw [if_pos hzero, if_pos (.inl hzero), List.append_nil]
    exact ⟨hall, horder, hresults⟩
  rw [if_neg hzero]
  rcases hresults with ⟨⟨message, hfull⟩, htight⟩ | ⟨hnone, hgiven, hbytes⟩
  · have hstops : after.failed = true := Request.failed_of_some hfull
    obtain ⟨rest, hrest⟩ := chosen_extends request.lookupAll (offered request.lookupOrder true addresses)
      (offered request.lookupOrder false addresses)
    rw [if_pos (.inr (.inl hstops)), ← hrest]
    refine ⟨hall, horder, .inl ⟨⟨message, hfull⟩, htight.mono ?_ ?_⟩⟩
    · rw [total_append]
      omega
    · rw [List.length_append]
      omega
  · have hgood : ¬ after.failed = true := Bool.eq_false_iff.mp (Request.failed_of_none hnone)
    have hsecond : Passes memory (chosen request.lookupAll (offered request.lookupOrder false addresses)) after
        (pass memory false addresses after) := by
      rw [← hall, ← horder]
      exact pass_spec false addresses hnone
    rw [hvalues, List.nil_append] at hgiven
    have hboth : Passes memory (chosen request.lookupAll (offered request.lookupOrder true addresses) ++
        chosen request.lookupAll (offered request.lookupOrder false addresses)) request
          (pass memory false addresses after) :=
      hsecond.append hall horder (hgiven.trans (by rw [hvalues, List.nil_append])) hbytes
    cases hasked : request.lookupAll with
    | true =>
      have hgoes : ¬ (request.lookupOrder = 0 ∨ after.failed = true ∨ (!true) = true ∧ after.values.length ≠ 0) := by
        simp [hzero, hgood]
      rw [if_neg hgoes]
      rw [hasked] at hboth
      exact hboth
    | false =>
      rw [hasked] at hboth hgiven hbytes
      cases hoffered : offered request.lookupOrder true addresses with
      | nil =>
        rw [hoffered] at hboth hgiven
        have hgoes : ¬ (request.lookupOrder = 0 ∨ after.failed = true ∨ (!false) = true ∧ after.values.length ≠ 0) := by
          rw [hgiven]
          simp [hzero, hgood, chosen]
        rw [if_neg hgoes]
        exact hboth
      | cons result results =>
        rw [hoffered] at hgiven hbytes
        have hstops : request.lookupOrder = 0 ∨ after.failed = true ∨ (!false) = true ∧ after.values.length ≠ 0 := by
          rw [hgiven]
          exact .inr (.inr ⟨rfl, Nat.succ_ne_zero _⟩)
        rw [if_pos hstops]
        exact ⟨hall, horder, .inr ⟨hnone, hgiven.trans (by rw [hvalues]; rfl), hbytes⟩⟩

end

/-- Where the system finds addresses, a lookup gives those of the preferred family first, each family in the order of
the system; one address, if not all are asked for. -/
theorem lookup_ordered (memory : Memory) (all : Bool) (order : Nat) (addresses : List Address) :
    let wanted := chosen all (ordered order addresses)
    let answer := lookupComplete memory (.ok addresses) { kind := 0, lookupAll := all, lookupOrder := order }
    ((∃ message, answer.failure = some ⟨"ENOMEM", message⟩) ∧
      Tight memory (total Result.size wanted) wanted.length) ∨
    (ordered order addresses = [] ∧ answer.failure = some ⟨"ENOTFOUND", "OS lookup returned no IP address"⟩) ∨
    (ordered order addresses ≠ [] ∧ answer.failure = none ∧ answer.values = wanted) := by
  intro wanted answer
  have hpasses := @passes_spec memory { kind := 0, lookupAll := all, lookupOrder := order } addresses rfl rfl
  have hanswer : answer =
      if (passes memory addresses { kind := 0, lookupAll := all, lookupOrder := order }).values.length = 0 ∧
          !(passes memory addresses { kind := 0, lookupAll := all, lookupOrder := order }).failed then
        (passes memory addresses { kind := 0, lookupAll := all, lookupOrder := order }).fail "ENOTFOUND"
          "OS lookup returned no IP address"
      else passes memory addresses { kind := 0, lookupAll := all, lookupOrder := order } := rfl
  generalize passes memory addresses { kind := 0, lookupAll := all, lookupOrder := order } = after at hpasses hanswer
  obtain ⟨-, -, ⟨⟨message, hfull⟩, htight⟩ | ⟨hnone, hvalues, -⟩⟩ := hpasses
  · left
    have hfailed : ¬ (after.values.length = 0 ∧ (!after.failed) = true) := by
      rw [Request.failed_of_some hfull]
      simp
    rw [hanswer, if_neg hfailed]
    rw [Nat.zero_add, List.length_nil, Nat.zero_add] at htight
    exact ⟨⟨message, hfull⟩, htight⟩
  · right
    have hgood : after.failed = false := Request.failed_of_none hnone
    have hvalues : after.values = chosen all (ordered order addresses) := hvalues
    rw [hanswer, hgood]
    by_cases hempty : ordered order addresses = []
    · left
      have hnothing : after.values.length = 0 ∧ (!false) = true := by
        rw [hvalues, hempty]
        cases all <;> exact ⟨rfl, rfl⟩
      rw [if_pos hnothing]
      exact ⟨hempty, rfl⟩
    · right
      have hsomething : ¬ (after.values.length = 0 ∧ (!false) = true) := by
        rintro ⟨hlength, -⟩
        obtain ⟨result, results, hordered⟩ := List.exists_cons_of_ne_nil hempty
        rw [hvalues, hordered, chosen_cons] at hlength
        exact Nat.succ_ne_zero _ hlength
      rw [if_neg hsomething]
      exact ⟨hempty, hnone, hvalues⟩

end TsonicNode.Dns
