import TsonicNode.Path.Glob.Groups
import Mathlib.Data.List.Perm.Basic

/-!
# What the braces of a pattern denote

`denote` gives the texts of a pattern by its structure: a group denotes what its
alternatives denote, each in front of what stands behind the group. `expand`
follows `expand_braces` instead: an alternative takes the place of its group and
the text is scanned on from there. `expand_append` takes a closed text apart from
what stands behind it, and `expands_expand` says that `expand_braces` ends, with
the texts of `expand` unless it raises.
-/

namespace TsonicNode.Path.Glob

open TsonicNode.Lib

/-- What a group that opens here is made of. -/
theorem opens_cases {dollar : Bool} {byte : UInt8} {rest suffix : Bytes} {texts : List Bytes}
    (h : opens dollar byte rest = some (texts, suffix)) :
    byte = 123 ∧ dollar = false ∧ ∃ body, closes 1 rest = some (body, suffix) ∧
      alternatives body = some texts := by
  unfold opens at h
  split_ifs at h with hopen
  cases hcloses : closes 1 rest with
  | none =>
    rw [hcloses] at h
    cases h
  | some pair =>
    obtain ⟨body, suffix⟩ := pair
    rw [hcloses] at h
    obtain ⟨found, hfound, heq⟩ := Option.map_eq_some_iff.mp h
    obtain ⟨rfl, rfl⟩ := Prod.mk.inj heq
    exact ⟨hopen.1, hopen.2, body, rfl, hfound⟩

/-- Its alternatives, and what stands behind it, have fewer braces. -/
theorem opens_count {dollar : Bool} {byte : UInt8} {rest suffix : Bytes} {texts : List Bytes}
    (h : opens dollar byte rest = some (texts, suffix)) :
    ∀ text ∈ texts, text.count 123 + suffix.count 123 < (byte :: rest).count 123 := by
  obtain ⟨rfl, -, body, hcloses, halternatives⟩ := opens_cases h
  obtain ⟨rfl, hlevel⟩ := closes_one hcloses
  intro text htext
  have hcount := (alternatives_balanced hlevel halternatives text htext).2
  rw [List.count_cons_self, List.count_append, List.count_cons_of_ne (by decide)]
  omega

theorem opens_suffix {dollar : Bool} {byte : UInt8} {rest suffix : Bytes} {texts : List Bytes}
    (h : opens dollar byte rest = some (texts, suffix)) :
    suffix.count 123 < (byte :: rest).count 123 := by
  obtain ⟨rfl, -, body, hcloses, -⟩ := opens_cases h
  obtain ⟨rfl, -⟩ := closes_one hcloses
  rw [List.count_cons_self, List.count_append, List.count_cons_of_ne (by decide)]
  omega

/-- The measure of the recursions below: a text with fewer braces, or a shorter one. -/
theorem tail_smaller (byte : UInt8) (rest : Bytes) :
    Prod.Lex (· < ·) (· < ·) (rest.count 123, rest.length)
      ((byte :: rest).count 123, (byte :: rest).length) := by
  by_cases hopen : byte = 123
  · exact Prod.Lex.left _ _ (by rw [hopen, List.count_cons_self]; omega)
  · rw [List.count_cons_of_ne hopen]
    exact Prod.Lex.right _ (Nat.lt_succ_self _)

set_option linter.unusedVariables false in
/-- The texts a pattern denotes; `dollar` says that it stands behind a `$`. -/
def denote (dollar : Bool) (text : Bytes) : List Bytes :=
  match text with
  | [] => [[]]
  | byte :: rest =>
    match h : opens dollar byte rest with
    | some (texts, suffix) =>
      (texts.attach.flatMap fun text => denote false text.1).flatMap fun front =>
        (denote false suffix).map (front ++ ·)
    | none => (denote (byte == 36) rest).map (byte :: ·)
termination_by (text.count 123, text.length)
decreasing_by
  · exact Prod.Lex.left _ _ (opens_suffix h)
  · exact Prod.Lex.left _ _ (Nat.lt_of_le_of_lt (Nat.le_add_right ..) (opens_count h text.1 text.2))
  · exact tail_smaller byte rest

set_option linter.unusedVariables false in
/-- The texts `expand_braces` makes of a text; `dollar` says that it stands behind a `$`. -/
def expand (dollar : Bool) (text : Bytes) : List Bytes :=
  match text with
  | [] => [[]]
  | byte :: rest =>
    match h : opens dollar byte rest with
    | some (texts, suffix) => texts.attach.flatMap fun text => expand dollar (text.1 ++ suffix)
    | none => (expand (byte == 36) rest).map (byte :: ·)
termination_by (text.count 123, text.length)
decreasing_by
  · rw [List.count_append]
    exact Prod.Lex.left _ _ (opens_count h text.1 text.2)
  · exact tail_smaller byte rest

theorem attach_flatMap {α β : Type} (l : List α) (f : α → List β) :
    (l.attach.flatMap fun x => f x.1) = l.flatMap f := by
  rw [← List.flatMap_map, List.attach_map_subtype_val]

theorem denote_nil (dollar : Bool) : denote dollar [] = [[]] := by
  rw [denote]

theorem denote_group {dollar : Bool} {byte : UInt8} {rest suffix : Bytes} {texts : List Bytes}
    (h : opens dollar byte rest = some (texts, suffix)) :
    denote dollar (byte :: rest) =
      (texts.flatMap (denote false)).flatMap fun front => (denote false suffix).map (front ++ ·) := by
  rw [denote]
  split
  · rename_i heq
    obtain ⟨rfl, rfl⟩ := Prod.mk.inj (Option.some.inj (heq.symm.trans h))
    rw [attach_flatMap]
  · rename_i heq
    rw [h] at heq
    cases heq

theorem denote_byte {dollar : Bool} {byte : UInt8} {rest : Bytes} (h : opens dollar byte rest = none) :
    denote dollar (byte :: rest) = (denote (byte == 36) rest).map (byte :: ·) := by
  rw [denote]
  split
  · rename_i heq
    rw [h] at heq
    cases heq
  · rfl

theorem expand_nil (dollar : Bool) : expand dollar [] = [[]] := by
  rw [expand]

theorem expand_group {dollar : Bool} {byte : UInt8} {rest suffix : Bytes} {texts : List Bytes}
    (h : opens dollar byte rest = some (texts, suffix)) :
    expand dollar (byte :: rest) = texts.flatMap fun text => expand dollar (text ++ suffix) := by
  rw [expand]
  split
  · rename_i heq
    obtain ⟨rfl, rfl⟩ := Prod.mk.inj (Option.some.inj (heq.symm.trans h))
    exact attach_flatMap _ fun text => expand dollar (text ++ _)
  · rename_i heq
    rw [h] at heq
    cases heq

theorem expand_byte {dollar : Bool} {byte : UInt8} {rest : Bytes} (h : opens dollar byte rest = none) :
    expand dollar (byte :: rest) = (expand (byte == 36) rest).map (byte :: ·) := by
  rw [expand]
  split
  · rename_i heq
    rw [h] at heq
    cases heq
  · rfl

/-! ## A closed text and what stands behind it -/

/-- Whether what follows a text stands behind a `$`. -/
def endsInDollar : Bool → Bytes → Bool
  | dollar, [] => dollar
  | _, byte :: rest => endsInDollar (byte == 36) rest

/-- A group in a closed text is closed in it. -/
theorem Closed.closes {rest : Bytes} (h : Closed (123 :: rest)) :
    ∃ body suffix, closes 1 rest = some (body, suffix) ∧ Closed suffix := by
  obtain ⟨depth, hdepth⟩ := h
  obtain ⟨body, suffix, hcloses, hlevel⟩ := @closes_of_level 0 depth _ hdepth
  exact ⟨body, suffix, hcloses, depth, hlevel⟩

theorem opens_append {dollar : Bool} {byte : UInt8} {rest : Bytes} (h : Closed (byte :: rest))
    (tail : Bytes) : opens dollar byte (rest ++ tail) =
      (opens dollar byte rest).map fun (texts, suffix) => (texts, suffix ++ tail) := by
  unfold opens
  split_ifs with hopen
  · obtain ⟨rfl, rfl⟩ := hopen
    obtain ⟨body, suffix, hcloses, -⟩ := h.closes
    rw [closes_append hcloses, hcloses, Option.map_map]
    rfl
  · rfl

/-- With an alternative in the place of its group the text is still closed. -/
theorem Closed.replace {dollar : Bool} {byte : UInt8} {rest suffix : Bytes} {texts : List Bytes}
    (h : Closed (byte :: rest)) (hopens : opens dollar byte rest = some (texts, suffix)) :
    ∀ text ∈ texts, Balanced text ∧ Closed (text ++ suffix) := by
  obtain ⟨rfl, -, body, hcloses, halternatives⟩ := opens_cases hopens
  obtain ⟨body', suffix', hcloses', hsuffix⟩ := h.closes
  obtain ⟨rfl, rfl⟩ := Prod.mk.inj (Option.some.inj (hcloses.symm.trans hcloses'))
  intro text htext
  have hbalanced := (alternatives_balanced (closes_one hcloses).2 halternatives
    text htext).1
  exact ⟨hbalanced, hbalanced.closed_append hsuffix⟩

/-- A closed text is expanded first, and then what stands behind it. -/
theorem expand_append {text : Bytes} (h : Closed text) (dollar : Bool) (tail : Bytes) :
    expand dollar (text ++ tail) = (expand dollar text).flatMap fun front =>
      (expand (endsInDollar dollar front) tail).map (front ++ ·) := by
  induction dollar, text using expand.induct with
  | case1 dollar => simp [expand_nil, endsInDollar]
  | case2 dollar byte rest texts suffix hopens ih =>
    have hopens' : opens dollar byte (rest ++ tail) = some (texts, suffix ++ tail) := by
      rw [opens_append h, hopens]
      rfl
    rw [List.cons_append, expand_group hopens', expand_group hopens, List.flatMap_assoc]
    refine List.flatMap_congr fun text htext => ?_
    rw [← List.append_assoc]
    exact ih ⟨text, htext⟩ (h.replace hopens text htext).2
  | case3 dollar byte rest hopens ih =>
    have hopens' : opens dollar byte (rest ++ tail) = none := by
      rw [opens_append h, hopens]
      rfl
    rw [List.cons_append, expand_byte hopens', expand_byte hopens, ih h.tail, List.map_flatMap,
      List.flatMap_map]
    refine List.flatMap_congr fun front _ => ?_
    rw [List.map_map]
    rfl

/-! ## `expand_braces` -/

/-- The texts of a text that has been scanned up to `rest`. -/
def scanned (before rest : Bytes) : List Bytes :=
  (expand (before.getLast? == some 36) rest).map (before ++ ·)

/-- The texts an expansion on the stack stands for. -/
def Expansion.texts (work : Expansion) : List Bytes :=
  scanned (work.text.take work.scan) (work.text.drop work.scan)

theorem scanned_nil (before : Bytes) : scanned before [] = [before] := by
  rw [scanned, expand_nil, List.map_singleton, List.append_nil]

theorem scanned_group {before rest suffix : Bytes} {byte : UInt8} {texts : List Bytes}
    (h : opens (before.getLast? == some 36) byte rest = some (texts, suffix)) :
    scanned before (byte :: rest) = texts.flatMap fun text => scanned before (text ++ suffix) := by
  rw [scanned, expand_group h, List.map_flatMap]
  rfl

theorem scanned_byte {before rest : Bytes} {byte : UInt8}
    (h : opens (before.getLast? == some 36) byte rest = none) :
    scanned before (byte :: rest) = scanned (before ++ [byte]) rest := by
  rw [scanned, scanned, expand_byte h, List.map_map, List.getLast?_concat]
  refine congrArg₂ List.map ?_ rfl
  funext text
  exact List.append_cons before byte text

/-- A text stands for what its first group makes of it, and without one for itself. -/
def Leads (before rest : Bytes) : Option Group → Prop
  | none => scanned before rest = [before ++ rest]
  | some group => scanned before rest = group.alternatives.flatMap fun text =>
      scanned group.before (text ++ group.suffix)

theorem findGroup_ok {before rest : Bytes} {found : Option Group}
    (h : findGroup before rest = .ok found) : Leads before rest found := by
  induction rest generalizing before with
  | nil =>
    obtain rfl := Except.ok.inj h
    show scanned before [] = [before ++ []]
    rw [List.append_nil]
    exact scanned_nil before
  | cons byte rest ih =>
    have hnext : opens (before.getLast? == some 36) byte rest = none →
        findGroup (before ++ [byte]) rest = .ok found → Leads before (byte :: rest) found := by
      intro hopens hfound
      have hleads := ih hfound
      cases found with
      | none =>
        have hleads : scanned (before ++ [byte]) rest = [before ++ [byte] ++ rest] := hleads
        show scanned before (byte :: rest) = [before ++ byte :: rest]
        rw [scanned_byte hopens, hleads, ← List.append_cons]
      | some group => exact (scanned_byte hopens).trans hleads
    unfold findGroup at h
    split_ifs at h with hskip
    · refine hnext ?_ h
      unfold opens
      rw [if_neg]
      rintro ⟨hbyte, hdollar⟩
      rcases hskip with hs | hs
      · exact hs hbyte
      · rw [hs] at hdollar
        cases hdollar
    · simp only [not_or, not_not] at hskip
      obtain ⟨rfl, hdollar⟩ := hskip
      have hfalse : (before.getLast? == some 36) = false := by simpa using hdollar
      obtain ⟨group, hgroup, h⟩ := bind_ok h
      have hopens := groupAt_ok hgroup
      rw [← hfalse] at hopens
      cases hfound : opens (before.getLast? == some 36) 123 rest with
      | none =>
        rw [hfound] at hopens
        obtain rfl : group = none := hopens
        exact hnext hfound h
      | some pair =>
        obtain ⟨texts, suffix⟩ := pair
        rw [hfound] at hopens
        obtain rfl : group = some ⟨before, texts, suffix⟩ := hopens
        obtain rfl := Except.ok.inj h
        exact scanned_group hfound

/-- The alternatives of a group are pushed one after the other. -/
theorem foldlM_push {group : Group} {texts : List Bytes} {loop loop' : Loop}
    (h : texts.foldlM (push group) loop = .ok loop') :
    loop'.result = loop.result ∧
      loop'.pending = (texts.map fun text =>
        ⟨group.before ++ text ++ group.suffix, group.before.length⟩).reverse ++ loop.pending := by
  induction texts generalizing loop with
  | nil =>
    obtain rfl := Except.ok.inj h
    exact ⟨rfl, rfl⟩
  | cons text texts ih =>
    rw [List.foldlM_cons] at h
    obtain ⟨next, hnext, h⟩ := bind_ok h
    obtain ⟨-, -, hnext⟩ := bind_ok hnext
    obtain ⟨-, -, hnext⟩ := bind_ok hnext
    obtain rfl := Except.ok.inj hnext
    obtain ⟨hresult, hpending⟩ := ih h
    refine ⟨hresult, ?_⟩
    rw [hpending]
    simp

/-- What a loop will have found in the end. -/
def Loop.texts (loop : Loop) : List Bytes :=
  loop.result ++ (loop.pending.flatMap Expansion.texts).filter (· ≠ [])

/-- A turn of the loop changes nothing about what will be found, but its order. -/
theorem step_texts {work : Expansion} {loop loop' : Loop} (h : step work loop = .ok loop') :
    loop'.texts.Perm ({ loop with pending := work :: loop.pending } : Loop).texts := by
  obtain ⟨found, hfound, h⟩ := bind_ok h
  have hleads := findGroup_ok hfound
  have hwork : work.text.take work.scan ++ work.text.drop work.scan = work.text :=
    List.take_append_drop ..
  cases found with
  | some group =>
    have hleads : work.texts = group.alternatives.flatMap fun text =>
      scanned group.before (text ++ group.suffix) := hleads
    obtain ⟨hresult, hpending⟩ := foldlM_push h
    have hpushed : ∀ text, Expansion.texts
        ⟨group.before ++ text ++ group.suffix, group.before.length⟩ =
          scanned group.before (text ++ group.suffix) := by
      intro text
      rw [Expansion.texts, List.append_assoc, List.take_left, List.drop_left]
    unfold Loop.texts
    rw [hresult, hpending, List.flatMap_append, List.flatMap_cons, hleads]
    refine List.Perm.append_left _ (List.Perm.filter _ (List.Perm.append_right _ ?_))
    refine (List.Perm.flatMap_right _ (List.reverse_perm _)).trans (.of_eq ?_)
    rw [List.flatMap_map]
    exact List.flatMap_congr fun text _ => hpushed text
  | none =>
    have hleads : work.texts = [work.text] := by
      have : work.texts = [work.text.take work.scan ++ work.text.drop work.scan] := hleads
      rwa [hwork] at this
    dsimp only at h
    unfold Loop.texts
    dsimp only
    rw [List.flatMap_cons, hleads, List.filter_append]
    split_ifs at h with hempty
    · obtain rfl := Except.ok.inj h
      rw [hempty]
      simp
    · obtain ⟨-, -, h⟩ := bind_ok h
      obtain ⟨-, -, h⟩ := bind_ok h
      obtain rfl := Except.ok.inj h
      simp [hempty]

theorem expandLoop_texts {turns : Nat} {loop : Loop} {results : List Bytes}
    (h : expandLoop turns loop = some (.ok results)) : results.Perm loop.texts := by
  induction turns generalizing loop with
  | zero =>
    obtain ⟨_ | ⟨work, pending⟩, result, retained⟩ := loop
    · obtain rfl := Except.ok.inj (Option.some.inj h)
      simp [Loop.texts]
    · cases h
  | succ turns ih =>
    obtain ⟨_ | ⟨work, pending⟩, result, retained⟩ := loop
    · obtain rfl := Except.ok.inj (Option.some.inj h)
      simp [Loop.texts]
    · rw [expandLoop] at h
      cases hstep : step work ⟨pending, result, retained⟩ with
      | error error =>
        rw [hstep] at h
        cases h
      | ok loop =>
        rw [hstep] at h
        exact (ih h).trans (step_texts hstep)

/-- The texts a pattern is expanded to, when nothing is raised. -/
theorem expands_expand {pattern : Bytes} {results : List Bytes}
    (h : Expands pattern (.ok results)) :
    results.Perm ((expand false pattern).filter (· ≠ [])) := by
  obtain ⟨turns, hturns⟩ := h
  refine (expandLoop_texts hturns).trans (.of_eq ?_)
  simp [Loop.texts, Expansion.texts, scanned]

/-! ### The loop ends -/

/-- With an alternative in the place of the first group fewer braces are left. -/
theorem findGroup_count {before rest : Bytes} {group : Group}
    (h : findGroup before rest = .ok (some group)) :
    ∀ text ∈ group.alternatives, (text ++ group.suffix).count 123 < rest.count 123 := by
  induction rest generalizing before with
  | nil => cases h
  | cons byte rest ih =>
    have hlater : ∀ {before}, findGroup before rest = .ok (some group) →
        ∀ text ∈ group.alternatives, (text ++ group.suffix).count 123 < (byte :: rest).count 123 := by
      intro before hfound text htext
      refine Nat.lt_of_lt_of_le (ih hfound text htext) ?_
      rw [List.count_cons]
      exact Nat.le_add_right ..
    unfold findGroup at h
    split_ifs at h with hskip
    · exact hlater h
    · simp only [not_or, not_not] at hskip
      obtain ⟨rfl, -⟩ := hskip
      obtain ⟨found, hgroup, h⟩ := bind_ok h
      cases found with
      | none => exact hlater h
      | some found =>
        obtain rfl : found = group := Option.some.inj (Except.ok.inj h)
        obtain ⟨⟨texts, suffix⟩, hopens, heq⟩ := Option.map_eq_some_iff.mp (groupAt_ok hgroup).symm
        obtain rfl := heq
        intro text htext
        rw [List.count_append]
        exact opens_count hopens text htext

/-- The loop comes to its end with this stack. -/
def Ends (pending : List Expansion) : Prop :=
  ∀ result retained, ∃ turns outcome, expandLoop turns ⟨pending, result, retained⟩ = some outcome

/-- The braces behind the place up to which a text has been scanned. -/
def Expansion.left (work : Expansion) : Nat := (work.text.drop work.scan).count 123

/-- One more text on the stack is worked off, since each turn leaves texts with fewer braces. -/
theorem Ends.cons {pending : List Expansion} (h : Ends pending) (work : Expansion) :
    Ends (work :: pending) := by
  induction hleft : work.left using Nat.strongRecOn generalizing work pending with
  | _ n ih =>
    have hpush : ∀ works : List Expansion, (∀ pushed ∈ works, pushed.left < n) →
        Ends (works ++ pending) := by
      intro works hworks
      induction works with
      | nil => exact h
      | cons pushed works ihworks =>
        exact ih pushed.left (hworks pushed List.mem_cons_self)
          (ihworks fun other hother => hworks other (List.mem_cons_of_mem _ hother)) pushed rfl
    intro result retained
    cases hstep : step work ⟨pending, result, retained⟩ with
    | error error => exact ⟨1, .error error, by rw [expandLoop, hstep]⟩
    | ok loop =>
      have hends : Ends loop.pending := by
        obtain ⟨found, hfound, hok⟩ := bind_ok hstep
        cases found with
        | none =>
          dsimp only at hok
          split_ifs at hok with hempty
          · obtain rfl := Except.ok.inj hok
            exact h
          · obtain ⟨-, -, hok⟩ := bind_ok hok
            obtain ⟨-, -, hok⟩ := bind_ok hok
            obtain rfl := Except.ok.inj hok
            exact h
        | some group =>
          rw [(foldlM_push hok).2]
          refine hpush _ fun pushed hpushed => ?_
          obtain ⟨text, htext, rfl⟩ := List.mem_map.mp (List.mem_reverse.mp hpushed)
          rw [← hleft, Expansion.left, List.append_assoc, List.drop_left]
          exact findGroup_count hfound text htext
      obtain ⟨turns, outcome, hturns⟩ := hends loop.result loop.retainedBytes
      exact ⟨turns + 1, outcome, by rw [expandLoop, hstep]; exact hturns⟩

/-- `expand_braces` ends. -/
theorem expands_ends (pattern : Bytes) : ∃ outcome, Expands pattern outcome := by
  have hnone : Ends [] := fun result retained => ⟨0, .ok result, rfl⟩
  obtain ⟨turns, outcome, h⟩ := hnone.cons ⟨pattern, 0⟩ [] pattern.length
  exact ⟨outcome, turns, h⟩

/-! ### Its outcome -/

theorem expandLoop_more {turns : Nat} {loop : Loop} {outcome : Except Error (List Bytes)}
    (h : expandLoop turns loop = some outcome) (more : Nat) :
    expandLoop (turns + more) loop = some outcome := by
  induction turns generalizing loop with
  | zero =>
    obtain ⟨_ | ⟨work, pending⟩, result, retained⟩ := loop
    · cases more <;> exact h
    · cases h
  | succ turns ih =>
    obtain ⟨_ | ⟨work, pending⟩, result, retained⟩ := loop
    · rw [Nat.add_right_comm]
      exact h
    · rw [Nat.add_right_comm]
      rw [expandLoop] at h ⊢
      cases hstep : step work ⟨pending, result, retained⟩ with
      | error error =>
        rw [hstep] at h
        exact h
      | ok loop =>
        rw [hstep] at h
        exact ih h

/-- `expand_braces` has one outcome. -/
theorem expands_unique {pattern : Bytes} {outcome outcome' : Except Error (List Bytes)}
    (h : Expands pattern outcome) (h' : Expands pattern outcome') : outcome = outcome' := by
  obtain ⟨turns, hturns⟩ := h
  obtain ⟨turns', hturns'⟩ := h'
  have hmore := expandLoop_more hturns turns'
  rw [Nat.add_comm, expandLoop_more hturns' turns] at hmore
  exact (Option.some.inj hmore).symm

theorem requireSourceSize_ok {size : Int} {checked : Unit} (h : requireSourceSize size = .ok checked) :
    size ≤ sourceLimit := by
  unfold requireSourceSize at h
  split_ifs at h with hlarge
  exact Int.not_lt.mp hlarge

theorem requireExpansionSize_ok {count : Int} {checked : Unit}
    (h : requireExpansionSize count = .ok checked) : count ≤ expansionLimit := by
  unfold requireExpansionSize at h
  split_ifs at h with hlarge
  exact Int.not_lt.mp hlarge

theorem requireDepth_ok {depth : Int} {checked : Unit} (h : requireDepth depth = .ok checked) :
    depth ≤ depthLimit := by
  unfold requireDepth at h
  split_ifs at h with hdeep
  exact Int.not_lt.mp hdeep

/-- The bytes of texts. -/
def total (texts : List Bytes) : Nat := texts.flatten.length

/-- What the loop retains is accounted for, and its results are within the limits. -/
structure Loop.Accounted (loop : Loop) : Prop where
  retained : loop.retainedBytes = total (loop.pending.map Expansion.text) + total loop.result
  bytes : total loop.result ≤ sourceLimit
  count : loop.result.length ≤ expansionLimit

theorem push_accounted {group : Group} {loop loop' : Loop} {text : Bytes}
    (h : push group loop text = .ok loop') (haccounted : loop.Accounted) : loop'.Accounted := by
  obtain ⟨-, -, h⟩ := bind_ok h
  obtain ⟨-, -, h⟩ := bind_ok h
  obtain rfl := Except.ok.inj h
  refine ⟨?_, haccounted.bytes, haccounted.count⟩
  have hretained := haccounted.retained
  simp only [total, List.map_cons, List.flatten_cons, List.length_append] at hretained ⊢
  omega

theorem foldlM_accounted {group : Group} {texts : List Bytes} {loop loop' : Loop}
    (h : texts.foldlM (push group) loop = .ok loop') (haccounted : loop.Accounted) :
    loop'.Accounted := by
  induction texts generalizing loop with
  | nil =>
    obtain rfl := Except.ok.inj h
    exact haccounted
  | cons text texts ih =>
    rw [List.foldlM_cons] at h
    obtain ⟨next, hnext, h⟩ := bind_ok h
    exact ih h (push_accounted hnext haccounted)

theorem step_accounted {work : Expansion} {loop loop' : Loop} (h : step work loop = .ok loop')
    (haccounted : ({ loop with pending := work :: loop.pending } : Loop).Accounted) :
    loop'.Accounted := by
  have hretained : loop.retainedBytes - work.text.length =
      total (loop.pending.map Expansion.text) + total loop.result := by
    have := haccounted.retained
    simp only [total, List.map_cons, List.flatten_cons, List.length_append] at this ⊢
    omega
  obtain ⟨found, -, h⟩ := bind_ok h
  cases found with
  | some group => exact foldlM_accounted h ⟨hretained, haccounted.bytes, haccounted.count⟩
  | none =>
    dsimp only at h
    split_ifs at h with hempty
    · obtain rfl := Except.ok.inj h
      exact ⟨hretained, haccounted.bytes, haccounted.count⟩
    · obtain ⟨_, hbytes, h⟩ := bind_ok h
      obtain ⟨_, hcount, h⟩ := bind_ok h
      obtain rfl := Except.ok.inj h
      have hbytes := requireSourceSize_ok hbytes
      have hcount := requireExpansionSize_ok hcount
      have htotal : total (loop.result ++ [work.text]) = total loop.result + work.text.length := by
        simp [total]
      refine ⟨?_, ?_, ?_⟩
      · dsimp only
        omega
      · dsimp only
        omega
      · dsimp only
        rw [List.length_append]
        exact hcount

theorem expandLoop_accounted {turns : Nat} {loop : Loop} {results : List Bytes}
    (h : expandLoop turns loop = some (.ok results)) (haccounted : loop.Accounted) :
    total results ≤ sourceLimit ∧ results.length ≤ expansionLimit := by
  induction turns generalizing loop with
  | zero =>
    obtain ⟨_ | ⟨work, pending⟩, result, retained⟩ := loop
    · obtain rfl := Except.ok.inj (Option.some.inj h)
      exact ⟨haccounted.bytes, haccounted.count⟩
    · cases h
  | succ turns ih =>
    obtain ⟨_ | ⟨work, pending⟩, result, retained⟩ := loop
    · obtain rfl := Except.ok.inj (Option.some.inj h)
      exact ⟨haccounted.bytes, haccounted.count⟩
    · rw [expandLoop] at h
      cases hstep : step work ⟨pending, result, retained⟩ with
      | error error =>
        rw [hstep] at h
        cases h
      | ok loop =>
        rw [hstep] at h
        exact ih h (step_accounted hstep haccounted)

/-- The texts it returns are within the limits. -/
theorem expands_limits {pattern : Bytes} {results : List Bytes} (h : Expands pattern (.ok results)) :
    total results ≤ sourceLimit ∧ results.length ≤ expansionLimit := by
  obtain ⟨turns, hturns⟩ := h
  refine expandLoop_accounted hturns ⟨?_, ?_, ?_⟩
  · simp [total]
  · show ((total [] : Nat) : Int) ≤ sourceLimit
    decide
  · show (([] : List Bytes).length : Int) ≤ expansionLimit
    decide

/-! ### Its depth -/

/-- Until the group is closed no brace is deeper than the limit. -/
def Shallow : Nat → Bytes → Prop
  | _, [] => True
  | depth, byte :: rest =>
    if byte = 123 then ((depth + 1 : Nat) : Int) ≤ depthLimit ∧ Shallow (depth + 1) rest
    else if byte = 125 then depth = 1 ∨ Shallow (depth - 1) rest
    else Shallow depth rest

set_option linter.unusedVariables false in
/-- Wherever `expand` looks for a group, no brace is deeper than the limit. -/
def WithinDepth (dollar : Bool) (text : Bytes) : Prop :=
  match text with
  | [] => True
  | byte :: rest =>
    (byte = 123 → dollar = false → Shallow 1 rest) ∧
      match h : opens dollar byte rest with
      | some (texts, suffix) =>
        ∀ text : { text // text ∈ texts }, WithinDepth dollar (text.1 ++ suffix)
      | none => WithinDepth (byte == 36) rest
termination_by (text.count 123, text.length)
decreasing_by
  · rw [List.count_append]
    exact Prod.Lex.left _ _ (opens_count h text.1 text.2)
  · exact tail_smaller byte rest

theorem withinDepth_nil (dollar : Bool) : WithinDepth dollar [] := by
  rw [WithinDepth]
  trivial

theorem withinDepth_group {dollar : Bool} {byte : UInt8} {rest suffix : Bytes} {texts : List Bytes}
    (h : opens dollar byte rest = some (texts, suffix)) :
    WithinDepth dollar (byte :: rest) ↔
      Shallow 1 rest ∧ ∀ text ∈ texts, WithinDepth dollar (text ++ suffix) := by
  obtain ⟨rfl, rfl, -⟩ := opens_cases h
  rw [WithinDepth]
  split
  · rename_i heq
    obtain ⟨rfl, rfl⟩ := Prod.mk.inj (Option.some.inj (heq.symm.trans h))
    rw [Subtype.forall]
    exact and_congr_left' ⟨fun hshallow => hshallow rfl rfl, fun hshallow _ _ => hshallow⟩
  · rename_i heq
    rw [h] at heq
    cases heq

theorem withinDepth_byte {dollar : Bool} {byte : UInt8} {rest : Bytes}
    (h : opens dollar byte rest = none) : WithinDepth dollar (byte :: rest) ↔
      (byte = 123 → dollar = false → Shallow 1 rest) ∧ WithinDepth (byte == 36) rest := by
  rw [WithinDepth]
  split
  · rename_i heq
    rw [h] at heq
    cases heq
  · rfl

theorem closing_shallow {rest : Bytes} {depth : Nat} {found : Option (Bytes × Bytes)}
    (h : closing depth rest = .ok found) : Shallow depth rest := by
  induction rest generalizing depth found with
  | nil => trivial
  | cons byte rest ih =>
    unfold closing at h
    unfold Shallow
    split_ifs at h ⊢ with hopen hclose hlast
    · obtain ⟨_, hdepth, h⟩ := bind_ok h
      obtain ⟨found, hfound, -⟩ := bind_ok h
      exact ⟨requireDepth_ok hdepth, ih hfound⟩
    · exact .inl hlast
    · obtain ⟨found, hfound, -⟩ := bind_ok h
      exact .inr (ih hfound)
    · obtain ⟨found, hfound, -⟩ := bind_ok h
      exact ih hfound

theorem groupAt_shallow {before rest : Bytes} {found : Option Group}
    (h : groupAt before rest = .ok found) : Shallow 1 rest := by
  obtain ⟨found', hfound, -⟩ := bind_ok h
  exact closing_shallow hfound

/-- The depth of a text scanned up to `rest`, from that of what its first group leaves. -/
theorem findGroup_withinDepth {before rest : Bytes} {found : Option Group}
    (h : findGroup before rest = .ok found)
    (hlater : ∀ group, found = some group → ∀ text ∈ group.alternatives,
      WithinDepth (group.before.getLast? == some 36) (text ++ group.suffix)) :
    WithinDepth (before.getLast? == some 36) rest := by
  induction rest generalizing before with
  | nil => exact withinDepth_nil _
  | cons byte rest ih =>
    have hnext : opens (before.getLast? == some 36) byte rest = none →
        (byte = 123 → (before.getLast? == some 36) = false → Shallow 1 rest) →
        findGroup (before ++ [byte]) rest = .ok found →
        WithinDepth (before.getLast? == some 36) (byte :: rest) := by
      intro hopens hshallow hfound
      have hrest := ih hfound
      rw [List.getLast?_concat] at hrest
      exact (withinDepth_byte hopens).mpr ⟨hshallow, hrest⟩
    unfold findGroup at h
    split_ifs at h with hskip
    · have hnot : ¬ (byte = 123 ∧ (before.getLast? == some 36) = false) := by
        rintro ⟨hbyte, hdollar⟩
        rcases hskip with hs | hs
        · exact hs hbyte
        · rw [hs] at hdollar
          cases hdollar
      exact hnext (if_neg hnot) (fun hbyte hdollar => absurd ⟨hbyte, hdollar⟩ hnot) h
    · simp only [not_or, not_not] at hskip
      obtain ⟨rfl, hdollar⟩ := hskip
      have hfalse : (before.getLast? == some 36) = false := by simpa using hdollar
      obtain ⟨group, hgroup, h⟩ := bind_ok h
      have hshallow := groupAt_shallow hgroup
      have hopens := groupAt_ok hgroup
      rw [← hfalse] at hopens
      cases hfound : opens (before.getLast? == some 36) 123 rest with
      | none =>
        rw [hfound] at hopens
        obtain rfl : group = none := hopens
        exact hnext hfound (fun _ _ => hshallow) h
      | some pair =>
        obtain ⟨texts, suffix⟩ := pair
        rw [hfound] at hopens
        obtain rfl : group = some ⟨before, texts, suffix⟩ := hopens
        obtain rfl := Except.ok.inj h
        exact (withinDepth_group hfound).mpr ⟨hshallow, hlater _ rfl⟩

def Expansion.WithinDepth (work : Expansion) : Prop :=
  Glob.WithinDepth ((work.text.take work.scan).getLast? == some 36) (work.text.drop work.scan)

theorem step_withinDepth {work : Expansion} {loop loop' : Loop} (h : step work loop = .ok loop')
    (hlater : ∀ later ∈ loop'.pending, later.WithinDepth) :
    ∀ other ∈ work :: loop.pending, other.WithinDepth := by
  obtain ⟨found, hfound, h⟩ := bind_ok h
  cases found with
  | some group =>
    rw [(foldlM_push h).2] at hlater
    intro other hother
    rcases List.mem_cons.mp hother with rfl | hother
    · refine findGroup_withinDepth hfound fun group' heq text htext => ?_
      obtain rfl := Option.some.inj heq
      have hpushed := hlater ⟨group.before ++ text ++ group.suffix, group.before.length⟩
        (List.mem_append_left _ (List.mem_reverse.mpr (List.mem_map.mpr ⟨text, htext, rfl⟩)))
      rwa [Expansion.WithinDepth, List.append_assoc, List.take_left, List.drop_left] at hpushed
    · exact hlater other (List.mem_append_right _ hother)
  | none =>
    have hpending : loop'.pending = loop.pending := by
      dsimp only at h
      split_ifs at h with hempty
      · obtain rfl := Except.ok.inj h
        rfl
      · obtain ⟨-, -, h⟩ := bind_ok h
        obtain ⟨-, -, h⟩ := bind_ok h
        obtain rfl := Except.ok.inj h
        rfl
    rw [hpending] at hlater
    intro other hother
    rcases List.mem_cons.mp hother with rfl | hother
    · exact findGroup_withinDepth hfound fun group heq => by cases heq
    · exact hlater other hother

theorem expandLoop_withinDepth {turns : Nat} {loop : Loop} {results : List Bytes}
    (h : expandLoop turns loop = some (.ok results)) :
    ∀ work ∈ loop.pending, work.WithinDepth := by
  induction turns generalizing loop with
  | zero =>
    obtain ⟨_ | ⟨work, pending⟩, result, retained⟩ := loop
    · exact fun work hwork => by cases hwork
    · cases h
  | succ turns ih =>
    obtain ⟨_ | ⟨work, pending⟩, result, retained⟩ := loop
    · exact fun work hwork => by cases hwork
    · rw [expandLoop] at h
      cases hstep : step work ⟨pending, result, retained⟩ with
      | error error =>
        rw [hstep] at h
        cases h
      | ok loop =>
        rw [hstep] at h
        exact step_withinDepth hstep (ih h)

/-- A pattern is not expanded past the depth limit. -/
theorem expands_withinDepth {pattern : Bytes} {results : List Bytes}
    (h : Expands pattern (.ok results)) : WithinDepth false pattern := by
  obtain ⟨turns, hturns⟩ := h
  exact expandLoop_withinDepth hturns ⟨pattern, 0⟩ List.mem_cons_self

end TsonicNode.Path.Glob
