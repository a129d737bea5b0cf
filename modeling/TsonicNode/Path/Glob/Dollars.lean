import TsonicNode.Path.Glob.Expansion
import TsonicNode.Lib.Weights
import Mathlib.Order.Filter.AtTopBot.Basic
import Mathlib.Order.Filter.Finite
import Mathlib.Tactic.Linarith

/-!
# Where the expansion is compositional

`expand_braces` looks for the `$` in front of a group in the text it has made so
far. An alternative that ends in `$` so takes the group right behind its own one
out of the expansion. `Separate` says that a pattern has no such place. Then
`expand` is `denote` (`expand_eq_denote`), and otherwise it is not: a text with
the literal brace weighs less than what its group denotes (`weigh_expand`).
-/

namespace TsonicNode.Path.Glob

open TsonicNode.Lib

/-- A text begins with a group. -/
def beginsGroup : Bytes → Bool
  | [] => false
  | byte :: rest => (opens false byte rest).isSome

set_option linter.unusedVariables false in
/-- No group stands right behind one that denotes a text with a `$` at its end. -/
def Separate (dollar : Bool) (text : Bytes) : Prop :=
  match text with
  | [] => True
  | byte :: rest =>
    match h : opens dollar byte rest with
    | some (texts, suffix) =>
      (∀ text : { text // text ∈ texts }, Separate false text.1) ∧ Separate false suffix ∧
        (beginsGroup suffix = true →
          ∀ text ∈ texts.flatMap (denote false), text.getLast? ≠ some 36)
    | none => Separate (byte == 36) rest
termination_by (text.count 123, text.length)
decreasing_by
  · exact Prod.Lex.left _ _ (Nat.lt_of_le_of_lt (Nat.le_add_right ..) (opens_count h text.1 text.2))
  · exact Prod.Lex.left _ _ (opens_suffix h)
  · exact tail_smaller byte rest

theorem separate_nil (dollar : Bool) : Separate dollar [] := by
  rw [Separate]
  trivial

theorem separate_group {dollar : Bool} {byte : UInt8} {rest suffix : Bytes} {texts : List Bytes}
    (h : opens dollar byte rest = some (texts, suffix)) :
    Separate dollar (byte :: rest) ↔ (∀ text ∈ texts, Separate false text) ∧ Separate false suffix ∧
      (beginsGroup suffix = true →
        ∀ text ∈ texts.flatMap (denote false), text.getLast? ≠ some 36) := by
  rw [Separate]
  split
  · rename_i heq
    obtain ⟨rfl, rfl⟩ := Prod.mk.inj (Option.some.inj (heq.symm.trans h))
    rw [Subtype.forall]
  · rename_i heq
    rw [h] at heq
    cases heq

theorem separate_byte {dollar : Bool} {byte : UInt8} {rest : Bytes} (h : opens dollar byte rest = none) :
    Separate dollar (byte :: rest) ↔ Separate (byte == 36) rest := by
  rw [Separate]
  split
  · rename_i heq
    rw [h] at heq
    cases heq
  · rfl

/-! ## Behind a text -/

theorem endsInDollar_concat (dollar : Bool) (text : Bytes) (byte : UInt8) :
    endsInDollar dollar (text ++ [byte]) = (byte == 36) := by
  induction text generalizing dollar with
  | nil => rfl
  | cons first text ih => exact ih _

theorem endsInDollar_iff (text : Bytes) :
    endsInDollar false text = true ↔ text.getLast? = some 36 := by
  rcases List.eq_nil_or_concat text with rfl | ⟨text, byte, rfl⟩
  · simp [endsInDollar]
  · rw [List.concat_eq_append, endsInDollar_concat, List.getLast?_concat]
    simp

/-- A text that begins with no group is the same behind a `$`. -/
theorem expand_dollar {text : Bytes} (h : beginsGroup text = false) (dollar : Bool) :
    expand dollar text = expand false text := by
  cases text with
  | nil => rw [expand_nil, expand_nil]
  | cons byte rest =>
    have hfalse : opens false byte rest = none := by simpa [beginsGroup] using h
    have hdollar : opens dollar byte rest = none := by
      cases dollar with
      | false => exact hfalse
      | true => simp [opens]
    rw [expand_byte hfalse, expand_byte hdollar]

/-- What the alternatives of a group are expanded to, each in front of what follows them. -/
theorem expand_group_append {dollar : Bool} {byte : UInt8} {rest suffix : Bytes} {texts : List Bytes}
    (h : opens dollar byte rest = some (texts, suffix)) :
    expand dollar (byte :: rest) = (texts.flatMap (expand false)).flatMap fun front =>
      (expand (endsInDollar false front) suffix).map (front ++ ·) := by
  obtain ⟨rfl, rfl, body, hcloses, halternatives⟩ := opens_cases h
  rw [expand_group h, List.flatMap_assoc]
  refine List.flatMap_congr fun text htext => ?_
  have hbalanced := (alternatives_balanced (closes_one hcloses).2 halternatives
    text htext).1
  exact expand_append hbalanced.closed false suffix

/-- The expansion of a pattern whose groups stand apart is what the pattern denotes. -/
theorem expand_eq_denote {dollar : Bool} {text : Bytes} (h : Separate dollar text) :
    expand dollar text = denote dollar text := by
  induction dollar, text using denote.induct with
  | case1 dollar => rw [expand_nil, denote_nil]
  | case2 dollar byte rest texts suffix hopens ihsuffix ihtexts =>
    obtain ⟨htexts, hsuffix, happart⟩ := (separate_group hopens).mp h
    have hfronts : texts.flatMap (expand false) = texts.flatMap (denote false) :=
      List.flatMap_congr fun text htext => ihtexts ⟨text, htext⟩ (htexts text htext)
    rw [expand_group_append hopens, denote_group hopens, hfronts]
    refine List.flatMap_congr fun front hfront => ?_
    rw [← ihsuffix hsuffix]
    cases hbegins : beginsGroup suffix with
    | false => rw [expand_dollar hbegins]
    | true =>
      have hlast := mt (endsInDollar_iff front).mp (happart hbegins front hfront)
      rw [Bool.not_eq_true] at hlast
      rw [hlast]
  | case3 dollar byte rest hopens ih =>
    rw [expand_byte hopens, denote_byte hopens, ih ((separate_byte hopens).mp h)]

/-! ## Elsewhere it is not -/

/-- A text without a brace is expanded to itself. -/
theorem expand_plain {text : Bytes} (h : 123 ∉ text) (dollar : Bool) : expand dollar text = [text] := by
  induction text generalizing dollar with
  | nil => exact expand_nil dollar
  | cons byte rest ih =>
    obtain ⟨hbyte, hrest⟩ := not_or.mp (mt List.mem_cons.mpr h)
    have hopens : opens dollar byte rest = none := by
      unfold opens
      exact if_neg fun hopen => hbyte hopen.1.symm
    rw [expand_byte hopens, ih hrest, List.map_singleton]

theorem alternatives_ne_nil {body : Bytes} {texts : List Bytes} (h : alternatives body = some texts) :
    texts ≠ [] := by
  rintro rfl
  rcases alternatives_cases h with ⟨-, hmany⟩ | hrange
  · cases hmany
  · obtain ⟨range, -, hvalues⟩ := Option.map_eq_some_iff.mp hrange
    rw [RangeBody.values, List.map_eq_nil_iff, List.range_eq_nil] at hvalues
    cases hvalues

theorem denote_ne_nil (dollar : Bool) (text : Bytes) : denote dollar text ≠ [] := by
  induction dollar, text using denote.induct with
  | case1 dollar => rw [denote_nil]; exact List.cons_ne_nil _ _
  | case2 dollar byte rest texts suffix hopens ihsuffix ihtexts =>
    obtain ⟨-, -, body, -, halternatives⟩ := opens_cases hopens
    obtain ⟨text, htext⟩ := List.exists_mem_of_ne_nil _ (alternatives_ne_nil halternatives)
    obtain ⟨front, hfront⟩ := List.exists_mem_of_ne_nil _ (ihtexts ⟨text, htext⟩)
    obtain ⟨tail, htail⟩ := List.exists_mem_of_ne_nil _ ihsuffix
    rw [denote_group hopens]
    refine List.ne_nil_of_mem (a := front ++ tail) (List.mem_flatMap.mpr ⟨front, ?_, ?_⟩)
    · exact List.mem_flatMap.mpr ⟨text, htext, hfront⟩
    · exact List.mem_map_of_mem htail
  | case3 dollar byte rest hopens ih =>
    rw [denote_byte hopens]
    exact fun h => ih (List.map_eq_nil_iff.mp h)

/-- The first of the texts between commas. -/
theorem commaTexts_head {depth : Int} {current body : Bytes}
    (h : 1 < (commaTexts depth current body).length) :
    ∃ front rest texts, body = front ++ 44 :: rest ∧
      commaTexts depth current body = (current ++ front) :: texts := by
  induction body generalizing depth current with
  | nil => cases h with | step h => cases h
  | cons byte body ih =>
    have hnext : ∀ depth, 1 < (commaTexts depth (current ++ [byte]) body).length →
        ∃ front rest texts, byte :: body = front ++ 44 :: rest ∧
          commaTexts depth (current ++ [byte]) body = (current ++ front) :: texts := by
      intro depth hmany
      obtain ⟨front, rest, texts, rfl, htexts⟩ := ih hmany
      exact ⟨byte :: front, rest, texts, rfl, by rw [htexts, List.append_assoc, List.singleton_append]⟩
    unfold commaTexts at h ⊢
    split_ifs at h ⊢ with hopen hclose hcomma
    · exact hnext _ h
    · exact hnext _ h
    · exact ⟨[], body, _, by rw [hcomma.1]; rfl, by rw [List.append_nil]⟩
    · exact hnext _ h

/-- A byte that opens nothing, in front of a text. -/
theorem weigh_expand_byte {byte : UInt8} (hopen : byte ≠ 123) (hdollar : byte ≠ 36) (base : ℚ)
    (dollar : Bool) (rest : Bytes) :
    weigh 123 base (expand dollar (byte :: rest)) = weigh 123 base (expand false rest) := by
  have hopens : opens dollar byte rest = none := by
    unfold opens
    exact if_neg fun h => hopen h.1
  have hbehind := @weigh_behind _ _ 123 base [byte] (expand false rest)
  rw [List.count_singleton, if_neg (by simpa using hopen), pow_zero, one_mul] at hbehind
  rw [expand_byte hopens, show (byte == 36) = false by simpa using hdollar]
  exact hbehind

/-- What stands between two closed texts. -/
theorem weigh_expand_between {byte : UInt8} (hopen : byte ≠ 123) (hdollar : byte ≠ 36) (base : ℚ)
    {text : Bytes} (h : Closed text) (rest : Bytes) :
    weigh 123 base (expand false (text ++ byte :: rest)) =
      weigh 123 base (expand false text) * weigh 123 base (expand false rest) := by
  rw [expand_append h, weigh_flatMap]
  simp only [weigh_behind, weigh_expand_byte hopen hdollar]
  rw [List.sum_map_mul_right]
  rfl

/-- The text of a group weighs at most a fixed multiple of what its alternatives are expanded to. -/
theorem weigh_body {body : Bytes} {texts : List Bytes} (hbody : level 0 body = some 0)
    (h : alternatives body = some texts) :
    ∃ bound : ℕ, ∀ base : ℚ, 1 ≤ base →
      weigh 123 base (expand false body) ≤ bound * weigh 123 base (texts.flatMap (expand false)) := by
  rcases alternatives_cases h with ⟨htexts, hmany⟩ | hrange
  · rw [htexts] at hmany
    obtain ⟨front, rest, more, rfl, hhead⟩ := commaTexts_head hmany
    rw [List.nil_append] at hhead
    have hfront : Balanced front :=
      (alternatives_balanced hbody h front (by rw [htexts, hhead]; exact List.mem_cons_self)).1
    refine ⟨(expand false rest).length, fun base hbase => ?_⟩
    have hpos : 0 < base := by linarith
    rw [weigh_expand_between (by decide) (by decide) base hfront.closed, htexts, hhead,
      List.flatMap_cons, weigh_append, mul_comm]
    have hmore := @weigh_nonneg _ _ 123 _ hpos (more.flatMap (expand false))
    exact mul_le_mul (weigh_le_length hbase _) (by linarith) (weigh_nonneg hpos _) (Nat.cast_nonneg _)
  · refine ⟨(expand false body).length, fun base hbase => ?_⟩
    have hpos : 0 < base := by linarith
    obtain ⟨value, values, rfl⟩ := List.exists_cons_of_ne_nil (alternatives_ne_nil h)
    have hplain : 123 ∉ value := fun hmem =>
      (rangeValues_plain hrange value List.mem_cons_self 123 hmem).1 rfl
    have hone : 1 ≤ weigh 123 base ((value :: values).flatMap (expand false)) := by
      rw [List.flatMap_cons, expand_plain hplain, weigh_append, weigh_cons, weigh_nil,
        List.count_eq_zero.mpr hplain, pow_zero]
      have hmore := @weigh_nonneg _ _ 123 _ hpos (values.flatMap (expand false))
      linarith
    exact (weigh_le_length hbase _).trans (le_mul_of_one_le_right (Nat.cast_nonneg _) hone)

/-- What a text is expanded to weighs no more than what it denotes, less where a group is taken out
of the expansion, and so does what the group it begins with is expanded to behind a `$`. -/
structure Outweighs (base : ℚ) (dollar : Bool) (text : Bytes) : Prop where
  le : weigh 123 base (expand dollar text) ≤ weigh 123 base (denote dollar text)
  lt : ¬ Separate dollar text →
    weigh 123 base (expand dollar text) < weigh 123 base (denote dollar text)
  behind : dollar = false → beginsGroup text = true →
    weigh 123 base (expand true text) < weigh 123 base (denote false text)

namespace Outweighs

variable {base : ℚ} {dollar : Bool} {rest suffix : Bytes} {texts : List Bytes}

theorem nil (base : ℚ) (dollar : Bool) : Outweighs base dollar [] where
  le := by rw [expand_nil, denote_nil]
  lt h := absurd (separate_nil dollar) h
  behind _ h := by cases h

theorem cons {byte : UInt8} (hbase : 0 < base) (hopens : opens dollar byte rest = none)
    (h : Outweighs base (byte == 36) rest) : Outweighs base dollar (byte :: rest) := by
  have hexpand := @weigh_behind _ _ 123 base [byte] (expand (byte == 36) rest)
  have hdenote := @weigh_behind _ _ 123 base [byte] (denote (byte == 36) rest)
  simp only [List.singleton_append] at hexpand hdenote
  constructor
  · rw [expand_byte hopens, denote_byte hopens, hexpand, hdenote]
    exact mul_le_mul_of_nonneg_left h.le (by positivity)
  · intro hnot
    rw [separate_byte hopens] at hnot
    rw [expand_byte hopens, denote_byte hopens, hexpand, hdenote]
    exact mul_lt_mul_of_pos_left (h.lt hnot) (by positivity)
  · rintro rfl hbegins
    rw [beginsGroup, hopens] at hbegins
    cases hbegins

/-- What follows a front, whether it ends in a `$` or not. -/
theorem follow (h : Outweighs base false suffix) (dollar : Bool) :
    weigh 123 base (expand dollar suffix) ≤ weigh 123 base (denote false suffix) := by
  cases hbegins : beginsGroup suffix with
  | false =>
    rw [expand_dollar hbegins]
    exact h.le
  | true =>
    cases dollar with
    | false => exact h.le
    | true => exact (h.behind rfl hbegins).le

/-- It weighs less when a group is taken out in it. -/
theorem follow_lt (h : Outweighs base false suffix) (hnot : ¬ Separate false suffix) (dollar : Bool) :
    weigh 123 base (expand dollar suffix) < weigh 123 base (denote false suffix) := by
  cases hbegins : beginsGroup suffix with
  | false =>
    rw [expand_dollar hbegins]
    exact h.lt hnot
  | true =>
    cases dollar with
    | false => exact h.lt hnot
    | true => exact h.behind rfl hbegins

/-- The alternatives of a group. -/
theorem fronts (h : ∀ text ∈ texts, Outweighs base false text) :
    weigh 123 base (texts.flatMap (expand false)) ≤ weigh 123 base (texts.flatMap (denote false)) := by
  rw [weigh_flatMap, weigh_flatMap]
  exact List.sum_le_sum fun text htext => (h text htext).le

theorem group_le {byte : UInt8} (hbase : 0 < base) (hopens : opens dollar byte rest = some (texts, suffix))
    (htexts : ∀ text ∈ texts, Outweighs base false text) (hsuffix : Outweighs base false suffix) :
    weigh 123 base (expand dollar (byte :: rest)) ≤ weigh 123 base (denote dollar (byte :: rest)) := by
  rw [expand_group_append hopens, denote_group hopens, weigh_product]
  refine (weigh_fronts_le hbase fun front _ => hsuffix.follow _).trans ?_
  exact mul_le_mul_of_nonneg_right (fronts htexts) (weigh_nonneg hbase _)

theorem group_lt {byte : UInt8} (hbase : 0 < base) (hopens : opens dollar byte rest = some (texts, suffix))
    (htexts : ∀ text ∈ texts, Outweighs base false text) (hsuffix : Outweighs base false suffix)
    (hnot : ¬ Separate dollar (byte :: rest)) :
    weigh 123 base (expand dollar (byte :: rest)) < weigh 123 base (denote dollar (byte :: rest)) := by
  rw [expand_group_append hopens, denote_group hopens, weigh_product]
  have hdenote : 0 < weigh 123 base (denote false suffix) := weigh_pos hbase (denote_ne_nil false suffix)
  by_cases hinside : ∀ text ∈ texts, Separate false text
  · have hfronts : texts.flatMap (expand false) = texts.flatMap (denote false) :=
      List.flatMap_congr fun text htext => expand_eq_denote (hinside text htext)
    rw [hfronts]
    refine weigh_fronts_lt hbase (fun front _ => hsuffix.follow _) ?_
    by_cases hbehind : Separate false suffix
    · -- a `$` stands in front of the group behind
      have happart : ¬ (beginsGroup suffix = true →
          ∀ text ∈ texts.flatMap (denote false), text.getLast? ≠ some 36) :=
        fun h => hnot ((separate_group hopens).mpr ⟨hinside, hbehind, h⟩)
      push Not at happart
      obtain ⟨hbegins, front, hfront, hlast⟩ := happart
      refine ⟨front, hfront, ?_⟩
      rw [(endsInDollar_iff front).mpr hlast]
      exact hsuffix.behind rfl hbegins
    · obtain ⟨-, -, body, -, halternatives⟩ := opens_cases hopens
      obtain ⟨text, htext⟩ := List.exists_mem_of_ne_nil _ (alternatives_ne_nil halternatives)
      obtain ⟨front, hfront⟩ := List.exists_mem_of_ne_nil _ (denote_ne_nil false text)
      exact ⟨front, List.mem_flatMap.mpr ⟨text, htext, hfront⟩, hsuffix.follow_lt hbehind _⟩
  · push Not at hinside
    obtain ⟨text, htext, hnot⟩ := hinside
    refine (weigh_fronts_le hbase fun front _ => hsuffix.follow _).trans_lt ?_
    refine mul_lt_mul_of_pos_right ?_ hdenote
    rw [weigh_flatMap, weigh_flatMap]
    exact List.sum_lt_sum _ _ (fun text htext => (htexts text htext).le)
      ⟨text, htext, (htexts text htext).lt hnot⟩

/-- Behind a `$` the brace of the group stays, and what stands in it weighs no more than `bound`
times what the group denotes. -/
theorem group_behind {bound : ℕ} {body : Bytes} (hbase : 0 < base) (hbound : bound < base)
    (hcloses : closes 1 rest = some (body, suffix))
    (hbody : weigh 123 base (expand false body) ≤ bound * weigh 123 base (texts.flatMap (expand false)))
    (hopens : opens false 123 rest = some (texts, suffix))
    (htexts : ∀ text ∈ texts, Outweighs base false text) (hsuffix : Outweighs base false suffix) :
    weigh 123 base (expand true (123 :: rest)) < weigh 123 base (denote false (123 :: rest)) := by
  obtain ⟨rfl, hlevel⟩ := closes_one hcloses
  have hliteral : opens true 123 (body ++ 125 :: suffix) = none := if_neg fun h => by cases h.2
  have hbrace := @weigh_behind _ _ 123 base [123] (expand false (body ++ 125 :: suffix))
  simp only [List.singleton_append, List.count_singleton_self, pow_one] at hbrace
  have hdenote : 0 < weigh 123 base (denote false suffix) := weigh_pos hbase (denote_ne_nil false suffix)
  have hfronts : 0 < weigh 123 base (texts.flatMap (denote false)) := by
    obtain ⟨-, -, body, -, halternatives⟩ := opens_cases hopens
    obtain ⟨text, htext⟩ := List.exists_mem_of_ne_nil _ (alternatives_ne_nil halternatives)
    obtain ⟨front, hfront⟩ := List.exists_mem_of_ne_nil _ (denote_ne_nil false text)
    exact weigh_pos hbase (List.ne_nil_of_mem (List.mem_flatMap.mpr ⟨text, htext, hfront⟩))
  rw [expand_byte hliteral, denote_group hopens, weigh_product]
  refine lt_of_eq_of_lt hbrace ?_
  rw [weigh_expand_between (by decide) (by decide) base ⟨0, hlevel⟩, inv_mul_lt_iff₀ hbase]
  have hless : weigh 123 base (expand false body) < base * weigh 123 base (texts.flatMap (denote false)) :=
    calc weigh 123 base (expand false body)
        ≤ bound * weigh 123 base (texts.flatMap (expand false)) := hbody
      _ ≤ bound * weigh 123 base (texts.flatMap (denote false)) :=
        mul_le_mul_of_nonneg_left (fronts htexts) (Nat.cast_nonneg _)
      _ < base * weigh 123 base (texts.flatMap (denote false)) :=
        mul_lt_mul_of_pos_right hbound hfronts
  calc weigh 123 base (expand false body) * weigh 123 base (expand false suffix)
      ≤ weigh 123 base (expand false body) * weigh 123 base (denote false suffix) :=
        mul_le_mul_of_nonneg_left hsuffix.le (weigh_nonneg hbase _)
    _ < base * weigh 123 base (texts.flatMap (denote false)) * weigh 123 base (denote false suffix) :=
        mul_lt_mul_of_pos_right hless hdenote
    _ = base * (weigh 123 base (texts.flatMap (denote false)) * weigh 123 base (denote false suffix)) :=
        mul_assoc ..

end Outweighs

/-- From some base on what a text is expanded to weighs no more than what it denotes, and it weighs
less unless the groups of the text stand apart. -/
theorem outweighs (dollar : Bool) (text : Bytes) : ∀ᶠ base in Filter.atTop, Outweighs base dollar text := by
  induction dollar, text using denote.induct with
  | case1 dollar => exact Filter.Eventually.of_forall fun base => .nil base dollar
  | case2 dollar byte rest texts suffix hopens ihsuffix ihtexts =>
    obtain ⟨rfl, rfl, body, hcloses, halternatives⟩ := opens_cases hopens
    obtain ⟨bound, hbound⟩ := weigh_body (closes_one hcloses).2 halternatives
    have htexts : ∀ᶠ base in Filter.atTop, ∀ text ∈ texts, Outweighs base false text :=
      (Filter.eventually_all_finite texts.finite_toSet).mpr fun text htext => ihtexts ⟨text, htext⟩
    filter_upwards [htexts, ihsuffix, Filter.eventually_ge_atTop 1, Filter.eventually_gt_atTop (bound : ℚ)]
      with base htexts hsuffix hone hlarge
    have hpos : 0 < base := by linarith
    exact ⟨Outweighs.group_le hpos hopens htexts hsuffix, Outweighs.group_lt hpos hopens htexts hsuffix,
      fun _ _ => Outweighs.group_behind hpos hlarge hcloses (hbound base hone) hopens htexts hsuffix⟩
  | case3 dollar byte rest hopens ih =>
    filter_upwards [ih, Filter.eventually_gt_atTop 0] with base h hpos
    exact h.cons hpos hopens

/-- The empty texts that fronts with texts of their own make. -/
theorem count_fronts (fronts : List Bytes) (texts : Bytes → List Bytes) :
    (fronts.flatMap fun front => (texts front).map (front ++ ·)).count [] =
      fronts.count [] * (texts []).count [] := by
  induction fronts with
  | nil => simp
  | cons front fronts ih =>
    rw [List.flatMap_cons, List.count_append, ih, List.count_cons, Nat.add_mul, Nat.add_comm]
    congr 1
    cases front with
    | nil => simp
    | cons byte front =>
      rw [List.count_eq_zero.mpr]
      · simp
      · intro hmem
        obtain ⟨text, -, h⟩ := List.mem_map.mp hmem
        cases h

/-- The empty text comes out as often as it is denoted. -/
theorem expand_count_nil (dollar : Bool) (text : Bytes) :
    (expand dollar text).count [] = (denote dollar text).count [] := by
  induction dollar, text using denote.induct with
  | case1 dollar => rw [expand_nil, denote_nil]
  | case2 dollar byte rest texts suffix hopens ihsuffix ihtexts =>
    have hfronts : (texts.flatMap (expand false)).count [] = (texts.flatMap (denote false)).count [] := by
      rw [List.count_flatMap, List.count_flatMap]
      exact congrArg List.sum (List.map_congr_left fun text htext => ihtexts ⟨text, htext⟩)
    rw [expand_group_append hopens, denote_group hopens, count_fronts, count_fronts, hfronts]
    exact congrArg _ ihsuffix
  | case3 dollar byte rest hopens ih =>
    have hnone : ∀ texts : List Bytes, (texts.map (byte :: ·)).count [] = 0 := by
      intro texts
      refine List.count_eq_zero.mpr fun hmem => ?_
      obtain ⟨text, -, h⟩ := List.mem_map.mp hmem
      cases h
    rw [expand_byte hopens, denote_byte hopens, hnone, hnone]

/-- Without the empty texts. -/
theorem weigh_filter (base : ℚ) (texts : List Bytes) :
    weigh 123 base (texts.filter (· ≠ [])) + texts.count [] = weigh 123 base texts := by
  induction texts with
  | nil => simp [weigh_nil]
  | cons text texts ih =>
    cases text with
    | nil =>
      rw [List.filter_cons_of_neg (by simp), List.count_cons_self, weigh_cons, ← ih]
      simp
      ring
    | cons byte text =>
      rw [List.filter_cons_of_pos (by simp), List.count_cons_of_ne (by simp), weigh_cons, weigh_cons, ← ih]
      ring

/-- A pattern is expanded to the texts it denotes if and only if its groups stand apart. -/
theorem expand_perm (pattern : Bytes) :
    ((expand false pattern).filter (· ≠ [])).Perm ((denote false pattern).filter (· ≠ [])) ↔
      Separate false pattern := by
  constructor
  · intro hperm
    by_contra hnot
    obtain ⟨base, h⟩ := (outweighs false pattern).exists
    have hexpand := weigh_filter base (expand false pattern)
    have hdenote := weigh_filter base (denote false pattern)
    have hless := h.lt hnot
    rw [weigh_perm hperm, expand_count_nil, hdenote] at hexpand
    exact absurd hexpand hless.ne'
  · intro h
    rw [expand_eq_denote h]

/-- `expand_braces` ends, with one outcome. When it does not raise no limit was exceeded, and it
returns what the pattern denotes if and only if the groups of the pattern stand apart. -/
theorem expand_braces_compositional (pattern : Bytes) :
    ∃ outcome, Expands pattern outcome ∧ (∀ other, Expands pattern other → other = outcome) ∧
      ∀ results, outcome = .ok results →
        total results ≤ sourceLimit ∧ results.length ≤ expansionLimit ∧ WithinDepth false pattern ∧
        (results.Perm ((denote false pattern).filter (· ≠ [])) ↔ Separate false pattern) := by
  obtain ⟨outcome, houtcome⟩ := expands_ends pattern
  refine ⟨outcome, houtcome, fun other hother => expands_unique hother houtcome, ?_⟩
  rintro results rfl
  obtain ⟨hbytes, hcount⟩ := expands_limits houtcome
  refine ⟨hbytes, hcount, expands_withinDepth houtcome, ?_⟩
  rw [← expand_perm pattern]
  have hexpand := expands_expand houtcome
  exact ⟨fun h => hexpand.symm.trans h, fun h => hexpand.trans h⟩

/-- `{a$,b}{c,d}`: the second group stays behind `a$`. -/
theorem expand_braces_dollar :
    ¬ ∀ pattern results, Expands pattern (.ok results) →
      results.Perm ((denote false pattern).filter (· ≠ [])) := by
  intro h
  have hexpands : Expands [123, 97, 36, 44, 98, 125, 123, 99, 44, 100, 125]
      (.ok [[98, 100], [98, 99], [97, 36, 123, 99, 44, 100, 125]]) := ⟨5, rfl⟩
  have hseparate := (expand_perm _).mp ((expands_expand hexpands).symm.trans (h _ _ hexpands))
  have hgroup : opens false 123 [97, 36, 44, 98, 125, 123, 99, 44, 100, 125] =
      some ([[97, 36], [98]], [123, 99, 44, 100, 125]) := rfl
  have hfirst : denote false [97, 36] = [[97, 36]] := by
    rw [denote_byte rfl, denote_byte rfl, denote_nil]
    rfl
  obtain ⟨-, -, happart⟩ := (separate_group hgroup).mp hseparate
  refine happart rfl [97, 36] ?_ rfl
  rw [List.flatMap_cons, hfirst]
  exact List.mem_cons_self

end TsonicNode.Path.Glob
