import TsonicNode.Path.Glob.Braces

/-!
# The groups of a pattern

The brace groups of a pattern, without the limits of the source: where a group
is closed (`closes`), what it stands for (`alternatives`), and `opens`, which
puts both together. The functions with limits compute these wherever they do not
raise (`groupAt_ok`). The alternatives of a group are balanced texts
(`alternatives_balanced`), and what stands behind a closed text does not matter
to its groups (`closes_append`, `closes_of_level`).
-/

namespace TsonicNode.Path.Glob

open TsonicNode.Lib

/-! ## Groups without limits -/

/-- The value of an integer. -/
def integerValue (text : Bytes) : Int :=
  let value : Nat := (digits text).foldl (fun value byte => value * 10 + (byte.toNat - 48)) 0
  if isSigned text then -(value : Int) else value

namespace RangeBody

def boundValue (range : RangeBody) (text : Bytes) : Int :=
  if range.numeric then integerValue text else (text.headD 0).toNat

def strideValue (range : RangeBody) : Nat :=
  match range.steps with
  | [] => 1
  | step :: _ => max 1 (integerValue step).natAbs

end RangeBody

/-- The values of a range. -/
def rangeValues (body : Bytes) : Option (List Bytes) :=
  (rangeBody body).map fun range =>
    range.values (range.boundValue range.first) (range.boundValue range.last) range.strideValue

/-- The texts between the commas at depth 0. -/
def commaTexts : Int → Bytes → Bytes → List Bytes
  | _, current, [] => [current]
  | depth, current, byte :: rest =>
    if byte = 123 then commaTexts (depth + 1) (current ++ [byte]) rest
    else if byte = 125 then commaTexts (depth - 1) (current ++ [byte]) rest
    else if byte = 44 ∧ depth = 0 then current :: commaTexts depth [] rest
    else commaTexts depth (current ++ [byte]) rest

/-- What a group stands for: the texts between its commas, or the values of a range. -/
def alternatives (body : Bytes) : Option (List Bytes) :=
  if 1 < (commaTexts 0 [] body).length then some (commaTexts 0 [] body) else rangeValues body

/-- What stands in front of the brace that closes the group, and behind it. -/
def closes : Nat → Bytes → Option (Bytes × Bytes)
  | _, [] => none
  | depth, byte :: rest =>
    if byte = 123 then (closes (depth + 1) rest).map fun (body, suffix) => (byte :: body, suffix)
    else if byte = 125 then
      if depth = 1 then some ([], rest)
      else (closes (depth - 1) rest).map fun (body, suffix) => (byte :: body, suffix)
    else (closes depth rest).map fun (body, suffix) => (byte :: body, suffix)

/-- The alternatives of the group that opens here, and what stands behind it; a brace behind a `$`
opens none. -/
def opens (dollar : Bool) (byte : UInt8) (rest : Bytes) : Option (List Bytes × Bytes) :=
  if byte = 123 ∧ dollar = false then
    match closes 1 rest with
    | some (body, suffix) => (alternatives body).map fun texts => (texts, suffix)
    | none => none
  else none

/-! ### They are what the functions with limits compute -/

theorem bind_ok {α β ε : Type} {m : Except ε α} {f : α → Except ε β} {b : β}
    (h : (m >>= f) = .ok b) : ∃ a, m = .ok a ∧ f a = .ok b := by
  cases m with
  | error e => cases h
  | ok a => exact ⟨a, rfl, h⟩

theorem foldlM_addDigit {text : Bytes} {start value : Nat} (h : text.foldlM addDigit start = .ok value) :
    text.foldl (fun value byte => value * 10 + (byte.toNat - 48)) start = value := by
  induction text generalizing start with
  | nil => exact Except.ok.inj h
  | cons byte text ih =>
    rw [List.foldlM_cons] at h
    obtain ⟨next, hnext, h⟩ := bind_ok h
    unfold addDigit at hnext
    dsimp only at hnext
    split at hnext
    · cases hnext
    · obtain rfl := Except.ok.inj hnext
      exact ih h

theorem integer_ok {text : Bytes} {value : Int} (h : integer text = .ok value) :
    integerValue text = value := by
  obtain ⟨digits, hdigits, h⟩ := bind_ok h
  obtain rfl := Except.ok.inj h
  unfold integerValue
  rw [foldlM_addDigit hdigits]

theorem RangeBody.bound_ok {range : RangeBody} {text : Bytes} {value : Int}
    (h : range.bound text = .ok value) : range.boundValue text = value := by
  unfold bound at h
  unfold boundValue
  split at h
  · rename_i hnumeric
    rw [if_pos hnumeric]
    exact integer_ok h
  · rename_i hnumeric
    rw [if_neg hnumeric]
    exact Except.ok.inj h

theorem RangeBody.stride_ok {range : RangeBody} {value : Nat} (h : range.stride = .ok value) :
    range.strideValue = value := by
  unfold stride at h
  unfold strideValue
  cases hsteps : range.steps with
  | nil =>
    rw [hsteps] at h
    exact Except.ok.inj h
  | cons step steps =>
    rw [hsteps] at h
    obtain ⟨integer, hinteger, h⟩ := bind_ok h
    obtain rfl := Except.ok.inj h
    dsimp only
    rw [integer_ok hinteger]

theorem range_ok {body : Bytes} {values : Option (List Bytes)} (h : range body = .ok values) :
    rangeValues body = values := by
  unfold range at h
  unfold rangeValues
  cases hbody : rangeBody body with
  | none =>
    rw [hbody] at h
    exact Except.ok.inj h
  | some range =>
    rw [hbody] at h
    obtain ⟨start, hstart, h⟩ := bind_ok h
    obtain ⟨stop, hstop, h⟩ := bind_ok h
    obtain ⟨stride, hstride, h⟩ := bind_ok h
    obtain ⟨-, -, h⟩ := bind_ok h
    obtain rfl := Except.ok.inj h
    rw [Option.map_some, RangeBody.bound_ok hstart, RangeBody.bound_ok hstop,
      RangeBody.stride_ok hstride]

theorem choicesFrom_ok {body : Bytes} {depth : Int} {current : Bytes} {texts : List Bytes}
    (h : choicesFrom depth current body = .ok texts) : commaTexts depth current body = texts := by
  induction body generalizing depth current texts with
  | nil => exact Except.ok.inj h
  | cons byte body ih =>
    unfold choicesFrom at h
    unfold commaTexts
    split_ifs at h ⊢ with hopen hclose hcomma
    · obtain ⟨-, -, h⟩ := bind_ok h
      exact ih h
    · exact ih h
    · obtain ⟨rest, hrest, h⟩ := bind_ok h
      obtain rfl := Except.ok.inj h
      rw [ih hrest]
    · exact ih h

theorem choices_ok {body : Bytes} {texts : Option (List Bytes)} (h : choices body = .ok texts) :
    alternatives body = texts := by
  obtain ⟨found, hfound, h⟩ := bind_ok h
  unfold alternatives
  rw [choicesFrom_ok hfound]
  split_ifs at h ⊢ with hmany
  · obtain ⟨-, -, h⟩ := bind_ok h
    exact Except.ok.inj h
  · exact range_ok h

theorem closing_ok {rest : Bytes} {depth : Nat} {found : Option (Bytes × Bytes)}
    (h : closing depth rest = .ok found) : closes depth rest = found := by
  induction rest generalizing depth found with
  | nil => exact Except.ok.inj h
  | cons byte rest ih =>
    unfold closing at h
    unfold closes
    split_ifs at h ⊢ with hopen hclose hlast
    · obtain ⟨-, -, h⟩ := bind_ok h
      obtain ⟨found, hfound, h⟩ := bind_ok h
      obtain rfl := Except.ok.inj h
      rw [ih hfound]
    · exact Except.ok.inj h
    · obtain ⟨found, hfound, h⟩ := bind_ok h
      obtain rfl := Except.ok.inj h
      rw [ih hfound]
    · obtain ⟨found, hfound, h⟩ := bind_ok h
      obtain rfl := Except.ok.inj h
      rw [ih hfound]

theorem groupAt_ok {before rest : Bytes} {found : Option Group} (h : groupAt before rest = .ok found) :
    found = (opens false 123 rest).map fun (texts, suffix) => ⟨before, texts, suffix⟩ := by
  obtain ⟨found', hfound, h⟩ := bind_ok h
  unfold opens
  rw [if_pos ⟨rfl, rfl⟩, closing_ok hfound]
  cases found' with
  | none => exact (Except.ok.inj h).symm
  | some pair =>
    obtain ⟨body, suffix⟩ := pair
    obtain ⟨texts, htexts, h⟩ := bind_ok h
    dsimp only
    rw [choices_ok htexts]
    cases texts with
    | none => exact (Except.ok.inj h).symm
    | some texts => exact (Except.ok.inj h).symm

/-! ## Closed texts -/

/-- The depth behind a text that begins at this depth, if no brace closes more than was open. -/
def level : Nat → Bytes → Option Nat
  | depth, [] => some depth
  | depth, byte :: rest =>
    if byte = 123 then level (depth + 1) rest
    else if byte = 125 then
      match depth with
      | 0 => none
      | depth + 1 => level depth rest
    else level depth rest

theorem level_open (depth : Nat) (rest : Bytes) : level depth (123 :: rest) = level (depth + 1) rest :=
  rfl

theorem level_close (depth : Nat) (rest : Bytes) : level (depth + 1) (125 :: rest) = level depth rest :=
  rfl

theorem level_plain {byte : UInt8} (hopen : byte ≠ 123) (hclose : byte ≠ 125) (depth : Nat)
    (rest : Bytes) : level depth (byte :: rest) = level depth rest := by
  rw [level.eq_def]
  dsimp only
  rw [if_neg hopen, if_neg hclose]

/-- A text all of whose groups are closed in it. -/
def Closed (text : Bytes) : Prop := ∃ depth, level depth text = some 0

/-- A text whose braces close one another. -/
def Balanced (text : Bytes) : Prop := ∀ depth, level depth text = some depth

theorem level_append (depth : Nat) (text rest : Bytes) :
    level depth (text ++ rest) = (level depth text).bind fun depth => level depth rest := by
  induction text generalizing depth with
  | nil => rfl
  | cons byte text ih =>
    simp only [List.cons_append, level]
    split
    · exact ih _
    · split
      · cases depth with
        | zero => rfl
        | succ depth => exact ih depth
      · exact ih _

/-- Beginning deeper, a text ends deeper. -/
theorem level_add {depth depth' : Nat} {text : Bytes} (h : level depth text = some depth')
    (more : Nat) : level (depth + more) text = some (depth' + more) := by
  induction text generalizing depth with
  | nil =>
    obtain rfl := Option.some.inj h
    rfl
  | cons byte text ih =>
    simp only [level] at h ⊢
    split at h
    · rename_i hopen
      rw [if_pos hopen, Nat.add_right_comm]
      exact ih h
    · rename_i hopen
      rw [if_neg hopen]
      split at h
      · rename_i hclose
        rw [if_pos hclose]
        cases depth with
        | zero => cases h
        | succ depth =>
          rw [Nat.add_right_comm]
          exact ih h
      · rename_i hclose
        rw [if_neg hclose]
        exact ih h

theorem Balanced.of_level {text : Bytes} (h : level 0 text = some 0) : Balanced text := fun depth => by
  have := level_add h depth
  rwa [Nat.zero_add] at this

theorem Balanced.closed_append {text rest : Bytes} (h : Balanced text) (hrest : Closed rest) :
    Closed (text ++ rest) := by
  obtain ⟨depth, hdepth⟩ := hrest
  refine ⟨depth, ?_⟩
  rw [level_append, h depth]
  exact hdepth

theorem Balanced.closed {text : Bytes} (h : Balanced text) : Closed text := ⟨0, h 0⟩

/-- Without its first byte a closed text is closed. -/
theorem Closed.tail {byte : UInt8} {text : Bytes} (h : Closed (byte :: text)) : Closed text := by
  obtain ⟨depth, hdepth⟩ := h
  simp only [level] at hdepth
  split at hdepth
  · exact ⟨depth + 1, hdepth⟩
  · split at hdepth
    · cases depth with
      | zero => cases hdepth
      | succ depth => exact ⟨depth, hdepth⟩
    · exact ⟨depth, hdepth⟩

/-- No byte of a text is a brace. -/
theorem Balanced.of_plain {text : Bytes} (h : ∀ byte ∈ text, byte ≠ 123 ∧ byte ≠ 125) :
    Balanced text := by
  intro depth
  induction text with
  | nil => rfl
  | cons byte text ih =>
    obtain ⟨hopen, hclose⟩ := h byte List.mem_cons_self
    rw [level_plain hopen hclose]
    exact ih fun other hother => h other (List.mem_cons_of_mem _ hother)

/-! ### The end of a group -/

theorem closes_split {depth : Nat} {rest body suffix : Bytes}
    (h : closes (depth + 1) rest = some (body, suffix)) :
    rest = body ++ 125 :: suffix ∧ level depth body = some 0 := by
  induction rest generalizing depth body with
  | nil => cases h
  | cons byte rest ih =>
    unfold closes at h
    split_ifs at h with hopen hclose hlast
    · obtain ⟨⟨body, suffix⟩, hfound, heq⟩ := Option.map_eq_some_iff.mp h
      obtain ⟨rfl, rfl⟩ := Prod.mk.inj heq
      obtain ⟨rfl, hlevel⟩ := ih hfound
      refine ⟨rfl, ?_⟩
      rw [hopen, level_open]
      exact hlevel
    · obtain ⟨rfl, rfl⟩ := Prod.mk.inj (Option.some.inj h)
      obtain rfl : depth = 0 := by omega
      exact ⟨by rw [hclose]; rfl, rfl⟩
    · obtain ⟨⟨body, suffix⟩, hfound, heq⟩ := Option.map_eq_some_iff.mp h
      obtain ⟨rfl, rfl⟩ := Prod.mk.inj heq
      cases depth with
      | zero => exact absurd rfl hlast
      | succ depth =>
        obtain ⟨rfl, hlevel⟩ := ih hfound
        refine ⟨rfl, ?_⟩
        rw [hclose, level_close]
        exact hlevel
    · obtain ⟨⟨body, suffix⟩, hfound, heq⟩ := Option.map_eq_some_iff.mp h
      obtain ⟨rfl, rfl⟩ := Prod.mk.inj heq
      obtain ⟨rfl, hlevel⟩ := ih hfound
      refine ⟨rfl, ?_⟩
      rw [level_plain hopen hclose]
      exact hlevel

theorem closes_one {rest body suffix : Bytes} (h : closes 1 rest = some (body, suffix)) :
    rest = body ++ 125 :: suffix ∧ level 0 body = some 0 :=
  @closes_split 0 _ _ _ h

/-- What stands behind a closed group does not matter to it. -/
theorem closes_append {depth : Nat} {rest body suffix : Bytes}
    (h : closes depth rest = some (body, suffix)) (tail : Bytes) :
    closes depth (rest ++ tail) = some (body, suffix ++ tail) := by
  induction rest generalizing depth body with
  | nil => cases h
  | cons byte rest ih =>
    rw [List.cons_append]
    unfold closes at h ⊢
    split_ifs at h ⊢ with hopen hclose hlast
    · obtain ⟨⟨body, suffix⟩, hfound, heq⟩ := Option.map_eq_some_iff.mp h
      obtain ⟨rfl, rfl⟩ := Prod.mk.inj heq
      rw [ih hfound]
      rfl
    · obtain ⟨rfl, rfl⟩ := Prod.mk.inj (Option.some.inj h)
      rfl
    · obtain ⟨⟨body, suffix⟩, hfound, heq⟩ := Option.map_eq_some_iff.mp h
      obtain ⟨rfl, rfl⟩ := Prod.mk.inj heq
      rw [ih hfound]
      rfl
    · obtain ⟨⟨body, suffix⟩, hfound, heq⟩ := Option.map_eq_some_iff.mp h
      obtain ⟨rfl, rfl⟩ := Prod.mk.inj heq
      rw [ih hfound]
      rfl

/-- In a text that ends outside of it a group is closed. -/
theorem closes_of_level {depth more : Nat} {rest : Bytes}
    (h : level (more + (depth + 1)) rest = some 0) :
    ∃ body suffix, closes (depth + 1) rest = some (body, suffix) ∧ level more suffix = some 0 := by
  induction rest generalizing depth with
  | nil =>
    have := Option.some.inj h
    omega
  | cons byte rest ih =>
    unfold closes
    split_ifs with hopen hclose hlast
    · rw [hopen, level_open] at h
      obtain ⟨body, suffix, hfound, hlevel⟩ := ih h
      exact ⟨byte :: body, suffix, by rw [hfound]; rfl, hlevel⟩
    · obtain rfl : depth = 0 := by omega
      rw [hclose, ← Nat.add_assoc, level_close] at h
      exact ⟨[], rest, rfl, h⟩
    · cases depth with
      | zero => exact absurd rfl hlast
      | succ depth =>
        rw [hclose, ← Nat.add_assoc, level_close] at h
        obtain ⟨body, suffix, hfound, hlevel⟩ := ih h
        exact ⟨byte :: body, suffix, by rw [Nat.add_sub_cancel, hfound]; rfl, hlevel⟩
    · rw [level_plain hopen hclose] at h
      obtain ⟨body, suffix, hfound, hlevel⟩ := ih h
      exact ⟨byte :: body, suffix, by rw [hfound]; rfl, hlevel⟩

/-! ### Alternatives -/

/-- The texts between the commas of a balanced text are balanced; `current` is what has been read of
the first. -/
theorem commaTexts_balanced {body : Bytes} {depth : Nat} {current : Bytes}
    (hcurrent : level 0 current = some depth) (hbody : level depth body = some 0) :
    ∀ text ∈ commaTexts depth current body, level 0 text = some 0 := by
  induction body generalizing depth current with
  | nil =>
    obtain rfl : depth = 0 := Option.some.inj hbody
    intro text htext
    obtain rfl := List.mem_singleton.mp htext
    exact hcurrent
  | cons byte body ih =>
    have hnext : ∀ depth', level depth [byte] = some depth' → level 0 (current ++ [byte]) = some depth' := by
      intro depth' h
      rw [level_append, hcurrent]
      exact h
    unfold commaTexts
    split_ifs with hopen hclose hcomma
    · rw [hopen] at hbody hnext ⊢
      exact @ih (depth + 1) _ (hnext (depth + 1) rfl) hbody
    · cases depth with
      | zero =>
        rw [hclose] at hbody
        cases hbody
      | succ depth =>
        rw [hclose] at hbody hnext ⊢
        have hdepth : ((depth + 1 : Nat) : Int) - 1 = depth := by omega
        rw [hdepth]
        exact ih (hnext depth rfl) hbody
    · obtain rfl : depth = 0 := by omega
      intro text htext
      rcases List.mem_cons.mp htext with rfl | htext
      · exact hcurrent
      · rw [level_plain hopen hclose] at hbody
        exact ih rfl hbody text htext
    · rw [level_plain hopen hclose] at hbody
      refine ih (hnext depth ?_) hbody
      rw [level_plain hopen hclose]
      rfl

theorem commaTexts_count {body : Bytes} {depth : Int} {current : Bytes} :
    ∀ text ∈ commaTexts depth current body,
      text.count 123 ≤ current.count 123 + body.count 123 := by
  induction body generalizing depth current with
  | nil =>
    intro text htext
    obtain rfl := List.mem_singleton.mp htext
    exact Nat.le_refl _
  | cons byte body ih =>
    have hmore : ∀ depth, ∀ text ∈ commaTexts depth (current ++ [byte]) body,
        text.count 123 ≤ current.count 123 + (byte :: body).count 123 := by
      intro depth text htext
      have := ih text htext
      rw [List.count_append, List.count_singleton] at this
      rw [List.count_cons]
      omega
    unfold commaTexts
    split_ifs with hopen hclose hcomma
    · exact hmore _
    · exact hmore _
    · intro text htext
      rcases List.mem_cons.mp htext with rfl | htext
      · exact Nat.le_add_right ..
      · have := ih text htext
        rw [List.count_nil] at this
        rw [List.count_cons]
        omega
    · exact hmore _

/-- A byte that is no brace and no `$`. -/
def Plain (byte : UInt8) : Prop := byte ≠ 123 ∧ byte ≠ 125 ∧ byte ≠ 36

theorem plain_of_le {byte : UInt8} (hlow : 37 ≤ byte.toNat) (hhigh : byte.toNat ≤ 122) :
    Plain byte := by
  refine ⟨?_, ?_, ?_⟩ <;>
  · rintro rfl
    revert hlow hhigh
    decide

theorem decimal_plain {number : Nat} : ∀ byte ∈ decimal number, Plain byte := by
  intro byte hbyte
  obtain ⟨digit, hdigit, rfl⟩ := List.mem_map.mp hbyte
  have h := Nat.isDigit_of_mem_toDigits (by decide) (by decide) hdigit
  simp only [Char.isDigit, Bool.and_eq_true, decide_eq_true_eq] at h
  have hlow : 48 ≤ digit.toNat := h.1
  have hhigh : digit.toNat ≤ 57 := h.2
  have hsmall : digit.toNat.toUInt8.toNat = digit.toNat := by
    rw [Nat.toUInt8_eq, UInt8.toNat_ofNat']
    exact Nat.mod_eq_of_lt (by omega)
  exact plain_of_le (by omega) (by omega)

theorem padded_plain (number : Int) (width : Nat) : ∀ byte ∈ padded number width, Plain byte := by
  intro byte hbyte
  unfold padded at hbyte
  simp only [List.mem_append] at hbyte
  rcases hbyte with (hsign | hzero) | hdigit
  · split at hsign
    · obtain rfl := List.mem_singleton.mp hsign
      exact plain_of_le (by decide) (by decide)
    · cases hsign
  · obtain rfl := (List.mem_replicate.mp hzero).2
    exact plain_of_le (by decide) (by decide)
  · exact decimal_plain byte hdigit

theorem letter_bounds {text : Bytes} (h : isLetter text = true) :
    65 ≤ ((text.headD 0).toNat : Int) ∧ ((text.headD 0).toNat : Int) ≤ 122 := by
  match text, h with
  | [byte], h =>
    simp only [isLetter, Bool.or_eq_true, Bool.and_eq_true, decide_eq_true_eq] at h
    simp only [UInt8.le_iff_toNat_le] at h
    have h65 : (65 : UInt8).toNat = 65 := rfl
    have h90 : (90 : UInt8).toNat = 90 := rfl
    have h97 : (97 : UInt8).toNat = 97 := rfl
    have h122 : (122 : UInt8).toNat = 122 := rfl
    simp only [List.headD_cons]
    omega

/-- A range that is not one of numbers is one of letters. -/
theorem rangeBody_letters {body : Bytes} {range : RangeBody} (h : rangeBody body = some range)
    (hnumeric : range.numeric = false) :
    isLetter range.first = true ∧ isLetter range.last = true := by
  unfold rangeBody at h
  split at h
  · split_ifs at h with hsteps hint hletter
    · obtain rfl := Option.some.inj h
      cases hnumeric
    · obtain rfl := Option.some.inj h
      exact (Bool.and_eq_true_iff).mp hletter
  · cases h

/-- The values of a range are between its ends. -/
theorem between {start stop : Int} {stride index : Nat}
    (h : index < RangeBody.count start stop stride) :
    min start stop ≤ (start + if stop ≥ start then ((index * stride : Nat) : Int)
      else -((index * stride : Nat) : Int)) ∧
    (start + if stop ≥ start then ((index * stride : Nat) : Int)
      else -((index * stride : Nat) : Int)) ≤ max start stop := by
  have hindex : index * stride ≤ (stop - start).natAbs :=
    Nat.le_trans (Nat.mul_le_mul_right stride (Nat.le_of_lt_succ h)) (Nat.div_mul_le_self ..)
  split <;> omega

theorem rangeValues_plain {body : Bytes} {values : List Bytes} (h : rangeValues body = some values) :
    ∀ value ∈ values, ∀ byte ∈ value, Plain byte := by
  obtain ⟨range, hrange, rfl⟩ := Option.map_eq_some_iff.mp h
  intro value hvalue byte hbyte
  obtain ⟨index, hindex, rfl⟩ := List.mem_map.mp hvalue
  have hbetween := between (List.mem_range.mp hindex)
  unfold RangeBody.written at hbyte
  cases hnumeric : range.numeric with
  | true =>
    rw [hnumeric, if_pos rfl] at hbyte
    exact padded_plain _ _ byte hbyte
  | false =>
    obtain ⟨hfirst, hlast⟩ := rangeBody_letters hrange hnumeric
    have hf := letter_bounds hfirst
    have hl := letter_bounds hlast
    have hboundf : range.boundValue range.first = ((range.first.headD 0).toNat : Int) := by
      rw [RangeBody.boundValue, hnumeric, if_neg Bool.false_ne_true]
    have hboundl : range.boundValue range.last = ((range.last.headD 0).toNat : Int) := by
      rw [RangeBody.boundValue, hnumeric, if_neg Bool.false_ne_true]
    rw [← hboundf] at hf
    rw [← hboundl] at hl
    generalize (range.boundValue range.first + if range.boundValue range.last ≥
      range.boundValue range.first then ((index * range.strideValue : Nat) : Int)
      else -((index * range.strideValue : Nat) : Int)) = value at hbetween hbyte
    rw [hnumeric, if_neg Bool.false_ne_true] at hbyte
    split at hbyte
    · cases hbyte
    · obtain rfl := List.mem_singleton.mp hbyte
      have hsmall : value.toNat.toUInt8.toNat = value.toNat := by
        rw [Nat.toUInt8_eq, UInt8.toNat_ofNat']
        exact Nat.mod_eq_of_lt (by omega)
      exact plain_of_le (by omega) (by omega)

theorem alternatives_cases {body : Bytes} {texts : List Bytes} (h : alternatives body = some texts) :
    texts = commaTexts 0 [] body ∧ 1 < texts.length ∨ rangeValues body = some texts := by
  unfold alternatives at h
  split_ifs at h with hmany
  · obtain rfl := Option.some.inj h
    exact .inl ⟨rfl, hmany⟩
  · exact .inr h

/-- The alternatives of a balanced text are balanced, and have no more groups. -/
theorem alternatives_balanced {body : Bytes} {texts : List Bytes} (hbody : level 0 body = some 0)
    (h : alternatives body = some texts) :
    ∀ text ∈ texts, Balanced text ∧ text.count 123 ≤ body.count 123 := by
  rcases alternatives_cases h with ⟨rfl, -⟩ | hrange
  · intro text htext
    have hcount := commaTexts_count text htext
    rw [List.count_nil, Nat.zero_add] at hcount
    exact ⟨.of_level (@commaTexts_balanced _ 0 _ rfl hbody text htext), hcount⟩
  · intro text htext
    have hplain := rangeValues_plain hrange text htext
    refine ⟨.of_plain fun byte hbyte => ⟨(hplain byte hbyte).1, (hplain byte hbyte).2.1⟩, ?_⟩
    rw [List.count_eq_zero.mpr fun hmem => (hplain 123 hmem).1 rfl]
    exact Nat.zero_le _

end TsonicNode.Path.Glob
