import TsonicNode.Dns.Records
import TsonicNode.Lib.Totals

/-!
# The chain of aliases

What an answer section says of a name is a `Stage`: its addresses, or the name it
is an alias of. Names are compared up to case and a last dot, so the chain runs
over names in one form (`canon`), and `collectRecords` finds its end
(`records_followed`).
-/

namespace TsonicNode.Dns

open TsonicNode.Lib

/-! ## Names -/

def canon (name : Bytes) : Bytes := (stripDot name).map lower

theorem zip_all_eq {f : UInt8 → UInt8} (left right : Bytes) :
    (left.length == right.length && (left.zip right).all fun pair => f pair.1 == f pair.2) = true ↔
      left.map f = right.map f := by
  induction left generalizing right with
  | nil =>
    cases right with
    | nil => simp
    | cons byte right => simp
  | cons first left ih =>
    cases right with
    | nil => simp
    | cons second right =>
      have hrest := ih right
      simp only [Bool.and_eq_true, beq_iff_eq] at hrest
      simp only [List.length_cons, List.zip_cons_cons, List.all_cons, Bool.and_eq_true, beq_iff_eq, List.map_cons,
        List.cons.injEq, Nat.add_right_cancel_iff]
      rw [← hrest]
      exact and_left_comm

theorem sameDnsName_iff (left right : Bytes) : sameDnsName (some left) (some right) = true ↔ canon left = canon right :=
  zip_all_eq (stripDot left) (stripDot right)

theorem sameDnsName_owner (name : Bytes) (owner : Option Bytes) :
    sameDnsName (some name) owner = true ↔ owner.map canon = some (canon name) := by
  cases owner with
  | none => simp [sameDnsName]
  | some owner =>
    rw [sameDnsName_iff, Option.map_some, Option.some.injEq]
    exact eq_comm

/-! ## What is said of a name -/

/-- The record is one of the name, and of a type that is read. -/
def Record.Says (kind : Int) (name : Bytes) (record : Record) : Prop :=
  record.internet = true ∧ record.name.map canon = some name ∧ (record.type = .cname ∨ wants kind record.type = true)

instance (kind : Int) (name : Bytes) (record : Record) : Decidable (record.Says kind name) :=
  inferInstanceAs (Decidable (_ ∧ _ ∧ _))

def said (kind : Int) (name : Bytes) (answers : List Record) : List Record :=
  answers.filter fun record => record.Says kind name

/-- The names that it is an alias of. -/
def targets (kind : Int) (name : Bytes) (answers : List Record) : List Bytes :=
  (said kind name answers).filterMap fun record => if record.type = .cname then record.text else none

def texts (kind : Int) (name : Bytes) (answers : List Record) : List Bytes :=
  (said kind name answers).filterMap fun record => if record.type = .cname then none else record.text

inductive Ending where
  | found (texts : List Bytes)
  | noData
  | broken

/-- A record has no text, or the name is an alias of two. -/
def Broken (kind : Int) (answers : List Record) (name : Bytes) : Prop :=
  (∃ record ∈ said kind name answers, record.text = none) ∨
    ∃ one ∈ targets kind name answers, ∃ two ∈ targets kind name answers, canon one ≠ canon two

instance (kind : Int) (answers : List Record) (name : Bytes) : Decidable (Broken kind answers name) :=
  inferInstanceAs (Decidable (_ ∨ _))

/-- The answer section as a chain. -/
def reading (kind : Int) (answers : List Record) (name : Bytes) : Stage Bytes Ending :=
  if Broken kind answers name then .stop .broken
  else
    match texts kind name answers, targets kind name answers with
    | [], [] => .stop .noData
    | [], target :: _ => .go (canon target)
    | text :: more, _ => .stop (.found (text :: more))

def size (texts : List Bytes) : Nat := total (fun text => text.length + 1) texts

/-! ## Appending -/

/-- There is memory for so many values: each finds its place and its copy. -/
structure Memory.Holds (memory : Memory) (count : Nat) : Prop where
  grows : ∀ capacity < count, memory.grows capacity = true
  copies : ∀ index < count, memory.copies index = true

/-- So many values are too many: for memory, or for the limits. -/
def Tight (memory : Memory) (bytes count : Nat) : Prop :=
  memory.Holds count → byteLimit < bytes ∨ resultLimit < count

theorem Memory.Holds.mono {memory : Memory} {count count' : Nat} (h : memory.Holds count') (hcount : count ≤ count') :
    memory.Holds count :=
  ⟨fun capacity hcapacity => h.grows capacity (Nat.lt_of_lt_of_le hcapacity hcount),
    fun index hindex => h.copies index (Nat.lt_of_lt_of_le hindex hcount)⟩

theorem Tight.mono {memory : Memory} {bytes count bytes' count' : Nat} (h : Tight memory bytes count)
    (hbytes : bytes ≤ bytes') (hcount : count ≤ count') : Tight memory bytes' count' := by
  intro hmemory
  rcases h (hmemory.mono hcount) with hlimit | hlimit
  · exact .inl (Nat.lt_of_lt_of_le hlimit hbytes)
  · exact .inr (Nat.lt_of_lt_of_le hlimit hcount)

section
variable {strerror : AresStatus → String} {memory : Memory} {request : Request}

theorem enlarged_same (request : Request) :
    request.enlarged.failure = request.failure ∧ request.enlarged.kind = request.kind := by
  unfold Request.enlarged
  split <;> exact ⟨rfl, rfl⟩

theorem append_cases (hfailure : request.failure = none) (text : Bytes) :
    ((request.append memory text).1.failure = none ∧ (request.append memory text).1.kind = request.kind ∧
        (request.append memory text).1.values = request.values ++ [⟨text, 0⟩] ∧
        (request.append memory text).1.bytes = request.bytes + (text.length + 1)) ∨
      ((∃ message, (request.append memory text).1.failure = some ⟨"ENOMEM", message⟩) ∧
        (request.append memory text).1.kind = request.kind ∧
        Tight memory (request.bytes + (text.length + 1)) (request.values.length + 1)) := by
  have hfailed : request.failed = false := Request.failed_of_none hfailure
  unfold Request.append
  rw [hfailed, if_neg Bool.false_ne_true]
  dsimp only
  split
  · rename_i hlimit
    refine .inr ⟨⟨_, rfl⟩, rfl, fun _ => ?_⟩
    omega
  · split
    · rename_i hgrows
      refine .inr ⟨⟨_, rfl⟩, rfl, fun hmemory => ?_⟩
      rw [hmemory.grows request.capacity (by omega)] at hgrows
      exact absurd hgrows.2 (by decide)
    · split
      · rename_i hcopies
        refine .inr ⟨⟨_, rfl⟩, (enlarged_same request).2, fun hmemory => ?_⟩
        rw [hmemory.copies request.values.length (Nat.lt_succ_self _)] at hcopies
        exact absurd hcopies (by decide)
      · exact .inl ⟨(enlarged_same request).1.trans hfailure, (enlarged_same request).2, rfl, rfl⟩

/-! ## One reading of the section -/

/-- As `Broken`, where an alias was met before. -/
def BrokenBehind (kind : Int) (met : Option Bytes) (answers : List Record) (name : Bytes) : Prop :=
  (∃ record ∈ said kind name answers, record.text = none) ∨
    ∃ one ∈ met.toList ++ targets kind name answers, ∃ two ∈ met.toList ++ targets kind name answers,
      canon one ≠ canon two

/-- What is left once the section has been read. -/
def Reads (strerror : AresStatus → String) (memory : Memory) (name : Bytes) (answers : List Record) (request : Request)
    (met : Option Bytes) (after : Request × Option Bytes) : Prop :=
  after.1.kind = request.kind ∧
    (((∃ message, after.1.failure = some ⟨"ENOMEM", message⟩) ∧
        Tight memory (request.bytes + size (texts request.kind name answers))
          (request.values.length + (texts request.kind name answers).length)) ∨
      (after.1.failure = some ⟨"EBADRESP", strerror .ebadresp⟩ ∧ BrokenBehind request.kind met answers name) ∨
      (after.1.failure = none ∧ ¬ BrokenBehind request.kind met answers name ∧
        after.1.values = request.values ++ (texts request.kind name answers).map (⟨·, 0⟩) ∧
        after.1.bytes = request.bytes + size (texts request.kind name answers) ∧
        after.2.map canon = (met.toList ++ targets request.kind name answers).head?.map canon))

theorem visit_failed (name : Bytes) (answers : List Record) {state : Request × Option Bytes} {failure : Failure}
    (h : state.1.failure = some failure) : answers.foldl (visit strerror memory name) state = state := by
  have hfailed : state.1.failed = true := Request.failed_of_some h
  induction answers with
  | nil => rfl
  | cons record answers ih =>
    have hstays : visit strerror memory name state record = state := by
      unfold visit
      rw [if_pos hfailed]
    rw [List.foldl_cons, hstays, ih]

/-- What one record does. -/
inductive Visits (strerror : AresStatus → String) (memory : Memory) (name : Bytes) (request : Request)
    (met : Option Bytes) (record : Record) : Request × Option Bytes → Prop where
  | silent (h : ¬ record.Says request.kind name) : Visits strerror memory name request met record (request, met)
  | bare (h : record.Says request.kind name) (htext : record.text = none) :
    Visits strerror memory name request met record (request.dnsFailure strerror .ebadresp, met)
  | clash (h : record.Says request.kind name) (hcname : record.type = .cname) {one two : Bytes} (hmet : met = some one)
    (htext : record.text = some two) (hne : canon one ≠ canon two) :
    Visits strerror memory name request met record (request.dnsFailure strerror .ebadresp, met)
  | pointer (h : record.Says request.kind name) (hcname : record.type = .cname) {next : Bytes}
    (htext : record.text = some next) (hsame : ∀ one, met = some one → canon one = canon next) :
    Visits strerror memory name request met record (request, some next)
  | text (h : record.Says request.kind name) (hcname : record.type ≠ .cname) {text : Bytes}
    (htext : record.text = some text) :
    Visits strerror memory name request met record ((request.append memory text).1, met)

theorem visit_cases (hfailure : request.failure = none) (name : Bytes) (met : Option Bytes) (record : Record) :
    Visits strerror memory (canon name) request met record (visit strerror memory name (request, met) record) := by
  have hfailed : request.failed = false := Request.failed_of_none hfailure
  unfold visit
  rw [hfailed, if_neg Bool.false_ne_true]
  split
  · rename_i hother
    refine .silent fun hspeaks => ?_
    rw [hspeaks.1, (sameDnsName_owner name record.name).mpr hspeaks.2.1] at hother
    exact absurd hother (by decide)
  · rename_i hnamed
    simp only [Bool.or_eq_true, Bool.not_eq_true', not_or, Bool.not_eq_false] at hnamed
    have hname := (sameDnsName_owner name record.name).mp hnamed.2
    split
    · rename_i hcname
      have hspeaks : record.Says request.kind (canon name) := ⟨hnamed.1, hname, .inl hcname⟩
      split
      · rename_i htext
        exact .bare hspeaks htext
      · rename_i next htext
        split
        · rename_i hclash
          cases hmet : met with
          | none =>
            rw [hmet] at hclash
            exact absurd hclash (by simp)
          | some one =>
            rw [hmet] at hclash
            have hne : canon one ≠ canon next := by
              intro hsame
              have htrue := (sameDnsName_iff one next).mpr hsame
              simp [htrue] at hclash
            exact .clash hspeaks hcname rfl htext hne
        · rename_i hagrees
          refine .pointer hspeaks hcname htext fun one hmet => ?_
          rw [hmet] at hagrees
          rw [← sameDnsName_iff]
          simpa using hagrees
    · rename_i hcname
      split
      · rename_i hwants
        have hspeaks : record.Says request.kind (canon name) := ⟨hnamed.1, hname, .inr hwants⟩
        split
        · rename_i htext
          exact .bare hspeaks htext
        · rename_i text htext
          exact .text hspeaks hcname htext
      · rename_i hwants
        exact .silent fun hspeaks => hspeaks.2.2.elim hcname hwants

/-! ### Lists with a record more -/

section
variable {kind : Int} {name : Bytes} {record : Record} {answers : List Record} {met : Option Bytes}

theorem said_silent (h : ¬ record.Says kind name) : said kind name (record :: answers) = said kind name answers :=
  List.filter_cons_of_neg (by simpa using h)

theorem said_cons (h : record.Says kind name) :
    said kind name (record :: answers) = record :: said kind name answers :=
  List.filter_cons_of_pos (by simpa using h)

theorem lists_silent (h : ¬ record.Says kind name) :
    targets kind name (record :: answers) = targets kind name answers ∧
      texts kind name (record :: answers) = texts kind name answers := by
  unfold targets texts
  rw [said_silent h]
  exact ⟨rfl, rfl⟩

theorem lists_alias (h : record.Says kind name) (hcname : record.type = .cname) {next : Bytes}
    (htext : record.text = some next) :
    targets kind name (record :: answers) = next :: targets kind name answers ∧
      texts kind name (record :: answers) = texts kind name answers := by
  unfold targets texts
  rw [said_cons h]
  simp [hcname, htext]

theorem lists_text (h : record.Says kind name) (hcname : record.type ≠ .cname) {text : Bytes}
    (htext : record.text = some text) :
    targets kind name (record :: answers) = targets kind name answers ∧
      texts kind name (record :: answers) = text :: texts kind name answers := by
  unfold targets texts
  rw [said_cons h]
  simp [hcname, htext]

theorem broken_silent (h : ¬ record.Says kind name) :
    BrokenBehind kind met (record :: answers) name ↔ BrokenBehind kind met answers name := by
  unfold BrokenBehind
  rw [said_silent h, (lists_silent h).1]

theorem bare_cons (h : record.Says kind name) {text : Bytes} (htext : record.text = some text) :
    (∃ bare ∈ said kind name (record :: answers), bare.text = none) ↔
      ∃ bare ∈ said kind name answers, bare.text = none := by
  rw [said_cons h]
  simp [htext]

theorem broken_text (h : record.Says kind name) (hcname : record.type ≠ .cname) {text : Bytes}
    (htext : record.text = some text) :
    BrokenBehind kind met (record :: answers) name ↔ BrokenBehind kind met answers name := by
  unfold BrokenBehind
  rw [bare_cons h htext, (lists_text h hcname htext).1]

/-- An alias takes the place of one that is the same. -/
theorem broken_alias (h : record.Says kind name) (hcname : record.type = .cname) {next : Bytes}
    (htext : record.text = some next) (hsame : ∀ one, met = some one → canon one = canon next) :
    BrokenBehind kind met (record :: answers) name ↔ BrokenBehind kind (some next) answers name := by
  unfold BrokenBehind
  rw [bare_cons h htext, (lists_alias h hcname htext).1]
  refine or_congr_right ?_
  cases met with
  | none => exact Iff.rfl
  | some one =>
    have hone := hsame one rfl
    constructor
    · rintro ⟨first, hfirst, second, hsecond, hne⟩
      have hmoves : ∀ other ∈ [one] ++ next :: targets kind name answers,
          ∃ moved ∈ [next] ++ targets kind name answers, canon moved = canon other := by
        intro other hother
        rcases List.mem_cons.mp hother with rfl | hother
        · exact ⟨next, List.mem_cons_self, hone.symm⟩
        · exact ⟨other, hother, rfl⟩
      obtain ⟨first', hfirst', heq⟩ := hmoves first hfirst
      obtain ⟨second', hsecond', heq'⟩ := hmoves second hsecond
      exact ⟨first', hfirst', second', hsecond', by rwa [heq, heq']⟩
    · rintro ⟨first, hfirst, second, hsecond, hne⟩
      exact ⟨first, List.mem_cons_of_mem one hfirst, second, List.mem_cons_of_mem one hsecond, hne⟩

end

theorem Reads.failed {name : Bytes} {answers : List Record} {request : Request} {met : Option Bytes}
    (hbroken : BrokenBehind request.kind met answers name) :
    Reads strerror memory name answers request met (request.dnsFailure strerror .ebadresp, met) :=
  ⟨rfl, .inr (.inl ⟨rfl, hbroken⟩)⟩

/-- The section is read record by record. -/
theorem visit_all (name : Bytes) (answers : List Record) (hfailure : request.failure = none) (met : Option Bytes) :
    Reads strerror memory (canon name) answers request met
      (answers.foldl (visit strerror memory name) (request, met)) := by
  induction answers generalizing request met with
  | nil =>
    refine ⟨rfl, .inr (.inr ⟨hfailure, ?_, (List.append_nil _).symm, rfl, ?_⟩)⟩
    · rintro (⟨record, hmem, -⟩ | ⟨one, hone, two, htwo, hne⟩)
      · exact List.not_mem_nil hmem
      · rw [show targets request.kind (canon name) [] = [] from rfl, List.append_nil, Option.mem_toList] at hone htwo
        rw [Option.mem_def.mp hone] at htwo
        exact hne (congrArg canon (Option.some.inj htwo))
    · cases met <;> rfl
  | cons record answers ih =>
    rw [List.foldl_cons]
    have hvisit := @visit_cases strerror memory request hfailure name met record
    revert hvisit
    generalize visit strerror memory name (request, met) record = state
    intro hvisit
    cases hvisit with
    | silent h =>
      have hrest := ih hfailure met
      unfold Reads at hrest ⊢
      rwa [broken_silent h, (lists_silent h).1, (lists_silent h).2]
    | bare h htext =>
      rw [visit_failed name answers rfl]
      refine .failed (.inl ⟨record, ?_, htext⟩)
      rw [said_cons h]
      exact List.mem_cons_self
    | clash h hcname hmet htext hne =>
      rw [visit_failed name answers rfl]
      rename_i one two
      refine .failed (.inr ⟨one, ?_, two, ?_, hne⟩)
      · rw [hmet]
        exact List.mem_cons_self
      · rw [(lists_alias h hcname htext).1]
        exact List.mem_append_right _ List.mem_cons_self
    | pointer h hcname htext hsame =>
      rename_i next
      obtain ⟨hkind, hrest⟩ := ih hfailure (some next)
      refine ⟨hkind, ?_⟩
      rw [broken_alias h hcname htext hsame, (lists_alias h hcname htext).1, (lists_alias h hcname htext).2]
      refine hrest.imp id (Or.imp id fun hread => ?_)
      obtain ⟨hnone, hsound, hvalues, hbytes, hmet⟩ := hread
      refine ⟨hnone, hsound, hvalues, hbytes, hmet.trans ?_⟩
      cases met with
      | none => rfl
      | some one => exact congrArg some (hsame one rfl).symm
    | text h hcname htext =>
      rename_i text
      rw [Reads, broken_text h hcname htext, (lists_text h hcname htext).1, (lists_text h hcname htext).2]
      rcases append_cases hfailure text with ⟨hnone, hkind, hvalues, hbytes⟩ | ⟨⟨message, hfull⟩, hkind, htight⟩
      · obtain ⟨hsame, hrest⟩ := ih hnone met
        rw [hkind, hvalues, hbytes] at hrest
        rw [hkind] at hsame
        refine ⟨hsame, ?_⟩
        simpa [size, Nat.add_assoc, Nat.add_comm, Nat.add_left_comm] using hrest
      · rw [visit_failed name answers hfull]
        refine ⟨hkind, .inl ⟨⟨message, hfull⟩, htight.mono ?_ ?_⟩⟩
        · simp [size]
        · simp

/-! ## The chain -/

/-- What `collectRecords` makes of the way the chain was followed. -/
def Tells (strerror : AresStatus → String) (after : Request) : Followed Ending → Prop
  | .stopped (.found texts) => after.failure = none ∧ texts ≠ [] ∧ after.values = texts.map (⟨·, 0⟩)
  | .stopped .noData => after.failure = some ⟨"ENODATA", strerror .enodata⟩
  | .stopped .broken => after.failure = some ⟨"EBADRESP", strerror .ebadresp⟩
  | .looped => after.failure = some ⟨"EBADRESP", strerror .ebadresp⟩
  | .cut => True

section
variable {strerror : AresStatus → String} {after : Request} {followed : Followed Ending}

theorem failure_ne {one two message text : String} (hcode : one ≠ two) :
    some (⟨one, message⟩ : Failure) ≠ some ⟨two, text⟩ :=
  fun h => hcode (congrArg Failure.code (Option.some.inj h))

theorem result_injective : Function.Injective fun text : Bytes => (⟨text, 0⟩ : Result) :=
  fun _ _ h => (Result.mk.inj h).1

theorem Tells.found_iff (h : Tells strerror after followed) (hcut : followed ≠ .cut) {found : List Bytes} :
    (after.failure = none ∧ after.values = found.map (⟨·, 0⟩)) ↔ followed = .stopped (.found found) := by
  cases followed with
  | stopped ending =>
    cases ending with
    | found texts =>
      obtain ⟨hnone, -, hvalues⟩ := h
      constructor
      · rintro ⟨-, hfound⟩
        rw [List.map_injective_iff.mpr result_injective (hvalues.symm.trans hfound)]
      · intro heq
        cases heq
        exact ⟨hnone, hvalues⟩
    | noData => exact iff_of_false (fun hfound => by cases hfound.1.symm.trans h) fun heq => by cases heq
    | broken => exact iff_of_false (fun hfound => by cases hfound.1.symm.trans h) fun heq => by cases heq
  | looped => exact iff_of_false (fun hfound => by cases hfound.1.symm.trans h) fun heq => by cases heq
  | cut => exact absurd rfl hcut

theorem Tells.noData_iff (h : Tells strerror after followed) (hcut : followed ≠ .cut) :
    after.failure = some ⟨"ENODATA", strerror .enodata⟩ ↔ followed = .stopped .noData := by
  cases followed with
  | stopped ending =>
    cases ending with
    | found texts => exact iff_of_false (fun hnodata => by cases h.1.symm.trans hnodata) fun heq => by cases heq
    | noData => exact iff_of_true h rfl
    | broken =>
      refine iff_of_false (fun hnodata => ?_) fun heq => by cases heq
      exact failure_ne (by decide) (Eq.trans (Eq.symm h) hnodata)
  | looped =>
    refine iff_of_false (fun hnodata => ?_) fun heq => by cases heq
    exact failure_ne (by decide) (Eq.trans (Eq.symm h) hnodata)
  | cut => exact absurd rfl hcut

theorem Tells.broken_iff (h : Tells strerror after followed) (hcut : followed ≠ .cut) :
    after.failure = some ⟨"EBADRESP", strerror .ebadresp⟩ ↔ followed = .stopped .broken ∨ followed = .looped := by
  cases followed with
  | stopped ending =>
    cases ending with
    | found texts =>
      refine iff_of_false (fun hbad => ?_) fun heq => by rcases heq with heq | heq <;> cases heq
      cases h.1.symm.trans hbad
    | noData =>
      refine iff_of_false (fun hbad => ?_) fun heq => by rcases heq with heq | heq <;> cases heq
      exact failure_ne (by decide) (Eq.trans (Eq.symm h) hbad)
    | broken => exact iff_of_true h (.inl rfl)
  | looped => exact iff_of_true h (.inr rfl)
  | cut => exact absurd rfl hcut

theorem Tells.not_full (h : Tells strerror after followed) (hcut : followed ≠ .cut) :
    after.failure.map Failure.code ≠ some "ENOMEM" := by
  intro hfull
  obtain ⟨⟨code, text⟩, hfailure, rfl⟩ := Option.map_eq_some_iff.mp hfull
  cases followed with
  | stopped ending =>
    cases ending with
    | found texts => cases h.1.symm.trans hfailure
    | noData => exact failure_ne (by decide) (Eq.trans (Eq.symm h) hfailure)
    | broken => exact failure_ne (by decide) (Eq.trans (Eq.symm h) hfailure)
  | looped => exact failure_ne (by decide) (Eq.trans (Eq.symm h) hfailure)
  | cut => exact hcut rfl

end

/-- The name comes in the chain. -/
def Comes (kind : Int) (answers : List Record) : Bytes → Bytes → Prop :=
  Relation.ReflTransGen (Chase.Next (reading kind answers))

/-- The texts of some name in the chain are too many. -/
def Full (memory : Memory) (kind : Int) (answers : List Record) (first : Bytes) (after : Request) : Prop :=
  (∃ message, after.failure = some ⟨"ENOMEM", message⟩) ∧
    ∃ name, Comes kind answers first name ∧
      Tight memory (size (texts kind name answers)) (texts kind name answers).length

theorem Full.cons {kind : Int} {answers : List Record} {first next : Bytes} {after : Request}
    (hgo : reading kind answers first = .go next) (h : Full memory kind answers next after) :
    Full memory kind answers first after := by
  obtain ⟨hfull, name, hcomes, htight⟩ := h
  exact ⟨hfull, name, hcomes.head hgo, htight⟩

theorem broken_behind_none {kind : Int} {answers : List Record} {name : Bytes} :
    BrokenBehind kind none answers name ↔ Broken kind answers name := Iff.rfl

theorem visited_any (name : Bytes) (visited : List Bytes) :
    (visited.any fun earlier => sameDnsName (some name) (some earlier)) = true ↔ canon name ∈ visited.map canon := by
  rw [List.any_eq_true, List.mem_map]
  refine exists_congr fun earlier => and_congr_right fun _ => ?_
  rw [sameDnsName_iff]
  exact eq_comm

theorem collectSteps_cases (answers : List Record) (steps : Nat) (visited : List Bytes) (name : Bytes)
    (hfailure : request.failure = none) (hvalues : request.values = []) (hbytes : request.bytes = 0) :
    Full memory request.kind answers (canon name) (collectSteps strerror memory answers steps visited name request) ∨
      Tells strerror (collectSteps strerror memory answers steps visited name request)
        (Chase.follow (reading request.kind answers) steps (visited.map canon) (canon name)) := by
  induction steps generalizing visited name request with
  | zero => exact .inr trivial
  | succ steps ih =>
    have hfailed : request.failed = false := Request.failed_of_none hfailure
    unfold collectSteps Chase.follow
    rw [hfailed, if_neg Bool.false_ne_true]
    by_cases hvisited : canon name ∈ visited.map canon
    · rw [if_pos ((visited_any name visited).mpr hvisited), if_pos hvisited]
      exact .inr rfl
    · rw [if_neg (fun h => hvisited ((visited_any name visited).mp h)), if_neg hvisited]
      dsimp only
      have hread := @visit_all strerror memory request name answers hfailure none
      revert hread
      generalize answers.foldl (visit strerror memory name) (request, none) = state
      rintro ⟨hkind, ⟨⟨message, hfull⟩, htight⟩ | ⟨hbad, hbroken⟩ | ⟨hnone, hsound, hread, hsize, hmet⟩⟩
      · left
        have hstops : state.1.values.length ≠ 0 ∨ state.1.failed = true := .inr (Request.failed_of_some hfull)
        rw [if_pos hstops]
        refine ⟨⟨message, hfull⟩, canon name, .refl, ?_⟩
        rwa [hvalues, hbytes, List.length_nil, Nat.zero_add, Nat.zero_add] at htight
      · right
        have hstops : state.1.values.length ≠ 0 ∨ state.1.failed = true := .inr (Request.failed_of_some hbad)
        rw [if_pos hstops]
        unfold reading
        rw [if_pos (broken_behind_none.mp hbroken)]
        exact hbad
      · have hgood : state.1.failed = false := Request.failed_of_none hnone
        rw [hvalues, List.nil_append] at hread
        rw [hgood]
        have hreading : reading request.kind answers (canon name) = _ :=
          if_neg (fun hbroken => hsound (broken_behind_none.mpr hbroken))
        rw [hreading]
        cases htexts : texts request.kind (canon name) answers with
        | cons text more =>
          right
          rw [htexts] at hread
          have hstops : state.1.values.length ≠ 0 ∨ false = true := by
            left
            rw [hread]
            exact Nat.succ_ne_zero _
          rw [if_pos hstops]
          exact ⟨hnone, List.cons_ne_nil _ _, hread⟩
        | nil =>
          rw [htexts] at hread hsize
          have hgoes : ¬ (state.1.values.length ≠ 0 ∨ false = true) := by
            rw [hread]
            simp
          rw [if_neg hgoes]
          cases htargets : targets request.kind (canon name) answers with
          | nil =>
            rw [htargets] at hmet
            have hnowhere : state.2 = none := by simpa using hmet
            rw [hnowhere]
            exact .inr rfl
          | cons target more =>
            rw [htargets] at hmet
            obtain ⟨next, hnext, hcanon⟩ : ∃ next, state.2 = some next ∧ canon next = canon target := by
              simpa using hmet
            rw [hnext]
            dsimp only
            have hafter := @ih state.1 (visited ++ [name]) next hnone hread (hsize.trans (by rw [hbytes]; rfl))
            rw [hkind, List.map_append, hcanon] at hafter
            refine hafter.imp_left (Full.cons ?_)
            rw [hreading, htexts, htargets]

/-- A name that leads on has a record. -/
theorem reading_source {kind : Int} {answers : List Record} {name next : Bytes}
    (hgo : reading kind answers name = .go next) : name ∈ answers.filterMap fun record => record.name.map canon := by
  unfold reading at hgo
  split at hgo
  · cases hgo
  · split at hgo
    · cases hgo
    · rename_i target more _ htargets
      have hmem : target ∈ targets kind name answers := htargets ▸ List.mem_cons_self
      obtain ⟨record, hrecord, -⟩ := List.mem_filterMap.mp hmem
      obtain ⟨hanswers, hspeaks⟩ := List.mem_filter.mp hrecord
      have hspeaks : record.Says kind name := by simpa using hspeaks
      exact List.mem_filterMap.mpr ⟨record, hanswers, hspeaks.2.1⟩
    · cases hgo

theorem texts_length (kind : Int) (name : Bytes) (answers : List Record) :
    (texts kind name answers).length ≤ answers.length :=
  Nat.le_trans (List.length_filterMap_le _ _) (List.length_filter_le _ _)

/-- With as many turns as there are records and one more, the chain is followed to its end. -/
theorem collectRecords_tells (message : Message) (kind : Int) {name : Bytes} (hqueries : message.queries = 1)
    (hquestion : message.question = some name) (hcount : message.answers.length ≤ resultLimit) :
    let answer := collectRecords strerror memory (some message) { kind }
    ((∃ text, answer.failure = some ⟨"ENOMEM", text⟩) ∧
      (memory.visits = true → ∃ other, Comes kind message.answers (canon name) other ∧
        (memory.Holds (texts kind other message.answers).length →
          byteLimit < size (texts kind other message.answers)))) ∨
    ∃ followed, followed ≠ .cut ∧ Tells strerror answer followed ∧
      followed = Chase.follow (reading kind message.answers) (message.answers.length + 1) [] (canon name) := by
  dsimp only [collectRecords]
  rw [hquestion, if_neg (not_not.mpr hqueries)]
  dsimp only
  rw [if_neg (Nat.not_lt.mpr hcount)]
  split
  · rename_i hvisits
    refine .inl ⟨⟨_, rfl⟩, fun hmemory => ?_⟩
    rw [hmemory] at hvisits
    exact absurd hvisits (by decide)
  · have hsteps := @collectSteps_cases strerror memory { kind } message.answers (message.answers.length + 1) [] name
      rfl rfl rfl
    revert hsteps
    generalize collectSteps strerror memory message.answers (message.answers.length + 1) [] name { kind } = after
    rintro (⟨⟨text, hfull⟩, other, hcomes, htight⟩ | htells)
    · have hfailed : ¬ (after.values.length = 0 ∧ (!after.failed) = true) := by
        rw [Request.failed_of_some hfull]
        simp
      rw [if_neg hfailed]
      have hroom := Nat.not_lt.mpr (Nat.le_trans (texts_length kind other message.answers) hcount)
      exact .inl ⟨⟨text, hfull⟩, fun _ => ⟨other, hcomes, fun hmemory => (htight hmemory).resolve_right hroom⟩⟩
    · have huncut := @Chase.follow_uncut _ _ (reading kind message.answers) _
        (message.answers.filterMap fun record => record.name.map canon) (fun _ _ => reading_source)
        (message.answers.length + 1) [] (canon name) List.nodup_nil (List.nil_subset _)
        (Nat.lt_of_le_of_lt (List.length_filterMap_le _ _) (by simp))
      rw [List.map_nil] at htells
      refine .inr ⟨_, huncut, ?_, rfl⟩
      revert htells huncut
      generalize Chase.follow (reading kind message.answers) (message.answers.length + 1) [] (canon name) = followed
      intro htells huncut
      have hkeeps : ¬ (after.values.length = 0 ∧ (!after.failed) = true) := by
        rintro ⟨hnone, hgood⟩
        have hfailure : after.failure = none := by
          unfold Request.failed at hgood
          simpa using hgood
        unfold Tells at htells
        split at htells
        · rw [htells.2.2, List.length_map, List.length_eq_zero_iff] at hnone
          exact htells.2.1 hnone
        · rw [hfailure] at htells
          cases htells
        · rw [hfailure] at htells
          cases htells
        · rw [hfailure] at htells
          cases htells
        · exact huncut rfl
      rw [if_neg hkeeps]
      exact htells

end

/-- The addresses of a name are those of the first name in its chain of aliases that has any; a chain that ends at a
name with none, one that is broken and one that never ends are told apart. -/
theorem records_followed (strerror : AresStatus → String) (memory : Memory) (message : Message) (kind : Int)
    (name : Bytes) (hqueries : message.queries = 1) (hquestion : message.question = some name)
    (hcount : message.answers.length ≤ resultLimit) :
    let answer := collectRecords strerror memory (some message) { kind }
    let chain := reading kind message.answers
    (answer.failure.map Failure.code = some "ENOMEM" → memory.visits = true →
      ∃ other, Comes kind message.answers (canon name) other ∧
        (memory.Holds (texts kind other message.answers).length →
          byteLimit < size (texts kind other message.answers))) ∧
    (answer.failure.map Failure.code ≠ some "ENOMEM" →
      (∀ found, Chase.Ends chain (canon name) (.found found) ↔
        answer.failure = none ∧ answer.values = found.map (⟨·, 0⟩)) ∧
      (Chase.Ends chain (canon name) .noData ↔ answer.failure = some ⟨"ENODATA", strerror .enodata⟩) ∧
      (Chase.Ends chain (canon name) .broken ∨ Chase.Endless chain (canon name) ↔
        answer.failure = some ⟨"EBADRESP", strerror .ebadresp⟩)) := by
  intro answer chain
  rcases @collectRecords_tells strerror memory message kind name hqueries hquestion hcount with
    ⟨⟨text, hfull⟩, hroom⟩ | ⟨followed, hcut, htells, hfollowed⟩
  · have henomem : answer.failure.map Failure.code = some "ENOMEM" := congrArg (Option.map Failure.code) hfull
    exact ⟨fun _ => hroom, fun hother => absurd henomem hother⟩
  · rw [hfollowed] at hcut htells
    refine ⟨fun henomem => absurd henomem (htells.not_full hcut), fun _ => ⟨fun found => ?_, ?_, ?_⟩⟩
    · exact (Chase.follow_ends hcut).trans (htells.found_iff hcut).symm
    · exact (Chase.follow_ends hcut).trans (htells.noData_iff hcut).symm
    · exact (or_congr (Chase.follow_ends hcut) (Chase.follow_endless hcut)).trans (htells.broken_iff hcut).symm

/-- `www` is an alias of `a`, whose address is there. -/
def aliased : Message where
  queries := 1
  question := some [119, 119, 119]
  answers := [⟨true, some [87, 119, 119, 46], .cname, some [97]⟩, ⟨true, some [97], .a, some [49]⟩]

theorem records_followed_alias :
    Chase.Ends (reading 4 aliased.answers) (canon [119, 119, 119]) (.found [[49]]) :=
  (((records_followed AresStatus.code ⟨fun _ => true, fun _ => true, true⟩ aliased 4 [119, 119, 119] rfl rfl
    (by decide)).2 (by decide)).1 [[49]]).mpr (by decide)

end TsonicNode.Dns
