import Mathlib.Data.List.TakeWhile
import TsonicNode.Path.Win32

/-!
# Reading Windows paths

What the parser makes of a path. `parts_normalTail` reads the tail of a
normalized path back, `rooted` lists the kinds of root there are, and the
`windowsRoot_` lemmas find the root of a path put together from its pieces.
-/

namespace TsonicNode.Path.Win32

open TsonicNode.Lib

/-! ## Parts -/

theorem parts_eq (path : Bytes) (allowParent : Bool) :
    parts path allowParent = Segments.resolve dotDot isIdle allowParent (split path) := rfl

/-- Nothing in it separates. -/
abbrev Joint (value : Bytes) : Prop := Segments.Joint isSeparator value

/-- What `parts` returns. -/
structure Clean (allowParent : Bool) (cs : List Bytes) : Prop where
  settled : Segments.Settled dotDot isIdle allowParent cs
  idle : ∀ c ∈ cs, isIdle c = false
  joint : ∀ c ∈ cs, Joint c

theorem split_cons_sep {b : UInt8} (h : isSeparator b = true) (x y : Bytes) :
    split (x ++ b :: y) = split x ++ split y :=
  List.splitOnP_append_cons x y h

theorem split_joint_append {x : Bytes} (h : Joint x) {b : UInt8} (hb : isSeparator b = true)
    (y : Bytes) : split (x ++ b :: y) = x :: split y :=
  Segments.splitOnP_joint_append h hb y

theorem joint_split (path : Bytes) : ∀ c ∈ split path, Joint c := Segments.joint_splitOnP path

theorem parts_clean (path : Bytes) (allowParent : Bool) : Clean allowParent (parts path allowParent) where
  settled := Segments.resolve_settled isIdle_dotDot (split path)
  idle _ hc := (Segments.mem_resolve hc).2
  joint c hc := joint_split path c (Segments.mem_resolve hc).1

theorem mem_parts {path : Bytes} {allowParent : Bool} {c : Bytes} (h : c ∈ parts path allowParent) :
    c ∈ split path :=
  (Segments.mem_resolve h).1

theorem Clean.ne_nil {allowParent : Bool} {cs : List Bytes} (h : Clean allowParent cs) :
    ∀ c ∈ cs, c ≠ [] := by
  rintro _ hc rfl
  exact Bool.noConfusion (h.idle [] hc)

/-! ## The tail -/

theorem joinParts_cons {c : Bytes} (hc : c ≠ []) (cs : List Bytes) :
    joinParts (c :: cs) = c ++ cs.flatMap fun d => 92 :: d := by
  have hrun : ∀ (cs : List Bytes) (output : Bytes), output ≠ [] →
      cs.foldl (fun output part => (if output = [] then output else output ++ separator) ++ part) output =
        output ++ cs.flatMap fun d => 92 :: d := by
    intro cs
    induction cs with
    | nil => simp
    | cons d cs ih =>
      intro output houtput
      rw [List.foldl_cons, if_neg houtput, ih _ (by simp [separator])]
      simp [separator]
  rw [joinParts, List.foldl_cons, if_pos rfl, List.nil_append]
  exact hrun cs c hc

theorem split_joined {c : Bytes} {cs : List Bytes} (hc : Joint c) (hcs : ∀ d ∈ cs, Joint d) :
    split (c ++ cs.flatMap fun d => 92 :: d) = c :: cs :=
  Segments.splitOnP_joined (by decide) hc hcs

/-- Behind the parts, a separator or nothing. -/
def trailer (separated : Bool) : Bytes := if separated then separator else []

theorem normalTail_nil_absolute (separated : Bool) : normalTail [] true separated = [] := by
  cases separated <;> rfl

theorem normalTail_nil (separated : Bool) : normalTail [] false separated = dot ++ trailer separated := by
  cases separated <;> rfl

theorem normalTail_cons {c : Bytes} (hc : c ≠ []) (cs : List Bytes) (absolute separated : Bool) :
    normalTail (c :: cs) absolute separated =
      c ++ (cs.flatMap fun d => 92 :: d) ++ trailer separated := by
  have hne : joinParts (c :: cs) ≠ [] := by
    rw [joinParts_cons hc]
    exact fun h => hc (List.append_eq_nil_iff.mp h).1
  rw [normalTail]
  simp only [hne, false_and, if_false, ne_eq, not_false_eq_true, true_and]
  rw [joinParts_cons hc, trailer]
  split_ifs <;> simp

theorem parts_append_trailer (path : Bytes) (allowParent separated : Bool) :
    parts (path ++ trailer separated) allowParent = parts path allowParent := by
  cases separated with
  | false => rw [trailer, if_neg Bool.false_ne_true, List.append_nil]
  | true =>
    rw [trailer, if_pos rfl, separator, parts_eq, split_cons_sep (by decide)]
    exact Segments.resolve_append_idle _ (by decide)

/-- Reading the tail gives the parts again. -/
theorem parts_normalTail {absolute : Bool} {cs : List Bytes} (h : Clean (!absolute) cs)
    (separated : Bool) : parts (normalTail cs absolute separated) (!absolute) = cs := by
  cases cs with
  | nil =>
    cases absolute with
    | true => rw [normalTail_nil_absolute]; rfl
    | false =>
      rw [normalTail_nil, parts_append_trailer]
      decide
  | cons c cs =>
    have hjoint := h.joint c List.mem_cons_self
    rw [normalTail_cons (h.ne_nil c List.mem_cons_self), parts_append_trailer, parts_eq,
      split_joined hjoint fun d hd => h.joint d (List.mem_cons_of_mem c hd)]
    exact Segments.resolve_of_settled isIdle_dotDot h.settled

/-- A separator in front of a path that may not climb is nothing. -/
theorem parts_sep_cons {b : UInt8} (hb : isSeparator b = true) (path : Bytes) (allowParent : Bool) :
    parts (b :: path) allowParent = parts path allowParent := by
  rw [← List.nil_append (b :: path), parts_eq,
    split_joint_append (fun _ h => absurd h List.not_mem_nil) hb]
  exact Segments.resolve_idle_cons rfl _

/-! ## Reserved names -/

/-- The bytes a name has none of: separators, colons and dots. -/
def isMark (b : UInt8) : Bool := isSeparator b || b == 58 || b == 46

theorem upper_mark {b : UInt8} (h : isMark b = true) : upper b = b := by
  simp only [isMark, isSeparator, Bool.or_eq_true, beq_iff_eq] at h
  rcases h with ((rfl | rfl) | rfl) | rfl <;> rfl

theorem port_marks {value : Bytes} (h : value ∈ ports) :
    value.length = 3 ∧ ∀ v ∈ value, isMark v = false := by
  simp only [ports, List.mem_cons, List.not_mem_nil, or_false] at h
  rcases h with rfl | rfl <;> simp [isMark, isSeparator]

theorem device_marks {value : Bytes} (h : value ∈ devices) :
    value.length = 3 ∧ ∀ v ∈ value, isMark v = false := by
  simp only [devices, List.mem_cons, List.not_mem_nil, or_false] at h
  rcases h with rfl | rfl | rfl | rfl <;> simp [isMark, isSeparator]

theorem superscript_marks {suffix : Bytes} (h : suffix ∈ superscripts) :
    ∀ v ∈ suffix, isMark v = false := by
  simp only [superscripts, List.mem_cons, List.not_mem_nil, or_false] at h
  rcases h with rfl | rfl | rfl <;> simp [isMark, isSeparator]

theorem digit_mark {digit : UInt8} (h : (49 ≤ digit && digit ≤ 57) = true) : isMark digit = false := by
  simp only [Bool.and_eq_true, decide_eq_true_eq, UInt8.le_iff_toNat_le] at h
  simp only [isMark, isSeparator, Bool.or_eq_false_iff, beq_eq_false_iff_ne, ne_eq,
    ← UInt8.toNat_inj]
  have h47 : (47 : UInt8).toNat = 47 := rfl
  have h92 : (92 : UInt8).toNat = 92 := rfl
  have h58 : (58 : UInt8).toNat = 58 := rfl
  have h46 : (46 : UInt8).toNat = 46 := rfl
  have h49 : (49 : UInt8).toNat = 49 := rfl
  have h57 : (57 : UInt8).toNat = 57 := rfl
  omega

/-- A reserved name has three bytes at least and no mark in it. -/
theorem reservedDevice_spec {name : Bytes} (h : reservedDevice name = true) :
    3 ≤ name.length ∧ ∀ b ∈ name, isMark b = false := by
  have hvalue : 3 ≤ (name.map upper).length ∧ ∀ v ∈ name.map upper, isMark v = false := by
    unfold reservedDevice at h
    generalize name.map upper = value at h
    dsimp only at h
    split_ifs at h with hdevice hport hsuper
    · exact ⟨Nat.le_of_eq (device_marks hdevice).1.symm, (device_marks hdevice).2⟩
    · have hlen := (port_marks hport).1
      rw [List.length_take] at hlen
      refine ⟨by omega, fun v hv => ?_⟩
      rw [← List.take_append_drop 3 value, List.mem_append] at hv
      exact hv.elim ((port_marks hport).2 v) (superscript_marks hsuper v)
    · have hlen := (port_marks hport).1
      rw [List.length_take] at hlen
      rw [Bool.and_eq_true, List.all_eq_true] at h
      refine ⟨by omega, fun v hv => ?_⟩
      rw [← List.take_append_drop 3 value, List.mem_append] at hv
      exact hv.elim ((port_marks hport).2 v) fun hv => digit_mark (h.2 v hv)
  refine ⟨by simpa using hvalue.1, fun b hb => ?_⟩
  by_contra hmark
  rw [Bool.not_eq_false] at hmark
  have hupper := hvalue.2 _ (List.mem_map_of_mem hb)
  rw [upper_mark hmark, hmark] at hupper
  exact Bool.noConfusion hupper

/-! ## Colons -/

theorem colon_append {name : Bytes} (h : 58 ∉ name) (rest : Bytes) :
    colon (name ++ 58 :: rest) = some name.length := by
  have hname : ∀ b ∈ name, (b == 58) = false := fun b hb =>
    beq_eq_false_iff_ne.mpr fun hb' => h (hb' ▸ hb)
  rw [colon, List.findIdx?_append, List.findIdx?_eq_none_iff.mpr hname, List.findIdx?_cons]
  simp

theorem colon_none {text : Bytes} : colon text = none ↔ 58 ∉ text := by
  rw [colon, List.findIdx?_eq_none_iff]
  constructor
  · exact fun h hmem => Bool.noConfusion (h 58 hmem)
  · exact fun h b hb => beq_eq_false_iff_ne.mpr fun hb' => h (hb' ▸ hb)

/-- A text with a colon, cut at the first. -/
theorem colon_cut {text : Bytes} (h : 58 ∈ text) :
    ∃ name rest, text = name ++ 58 :: rest ∧ 58 ∉ name := by
  obtain ⟨name, rest, rfl, hname⟩ := List.eq_append_cons_of_mem h
  exact ⟨name, rest, rfl, hname⟩

theorem reservedColon_none {text : Bytes} (h : 58 ∉ text) : reservedColon text = none := by
  rw [reservedColon, colon_none.mpr h]

theorem reservedColon_append {name : Bytes} (h : 58 ∉ name) (rest : Bytes) :
    reservedColon (name ++ 58 :: rest) =
      if reservedDevice name then some name.length else none := by
  rw [reservedColon, colon_append h]
  dsimp only
  rw [List.take_left' rfl]
  cases hname : reservedDevice name with
  | false => simp
  | true =>
    have := (reservedDevice_spec hname).1
    rw [if_pos ⟨by omega, rfl⟩, if_pos rfl]

theorem reservedColon_spec {text : Bytes} {k : Nat} (h : reservedColon text = some k) :
    ∃ name rest, text = name ++ 58 :: rest ∧ 58 ∉ name ∧ reservedDevice name = true ∧
      k = name.length := by
  by_cases hcolon : 58 ∈ text
  · obtain ⟨name, rest, rfl, hname⟩ := colon_cut hcolon
    rw [reservedColon_append hname] at h
    split_ifs at h with hreserved
    exact ⟨name, rest, rfl, hname, hreserved, (Option.some.inj h).symm⟩
  · rw [reservedColon_none hcolon] at h
    cases h

/-- A reserved name does not reach over a separator. -/
theorem reservedColon_behind {c : Bytes} (hc : Joint c) {b : UInt8} (hb : isSeparator b = true)
    (more : Bytes) : reservedColon (c ++ b :: more) = reservedColon c := by
  by_cases hcolon : 58 ∈ c
  · obtain ⟨name, rest, rfl, hname⟩ := colon_cut hcolon
    rw [List.append_assoc, List.cons_append, reservedColon_append hname, reservedColon_append hname]
  · rw [reservedColon_none hcolon]
    cases hreserved : reservedColon (c ++ b :: more) with
    | none => rfl
    | some k =>
      obtain ⟨name, rest, heq, hname, hdevice, rfl⟩ := reservedColon_spec hreserved
      exfalso
      have hmark : isMark b = true := by rw [isMark, hb]; rfl
      -- the separator stands in front of the first colon
      obtain ⟨more', rfl⟩ : ∃ more', name = c ++ b :: more' := by
        rcases List.append_eq_append_iff.mp heq with ⟨as, hn, has⟩ | ⟨bs, hc', hbs⟩
        · cases as with
          | nil =>
            rw [List.nil_append, List.cons.injEq] at has
            rw [has.1] at hb
            exact absurd hb (by decide)
          | cons a as =>
            rw [List.cons_append, List.cons.injEq] at has
            exact ⟨as, by rw [hn, has.1]⟩
        · cases bs with
          | nil =>
            rw [List.nil_append, List.cons.injEq] at hbs
            rw [← hbs.1] at hb
            exact absurd hb (by decide)
          | cons a bs =>
            rw [List.cons_append, List.cons.injEq] at hbs
            exact absurd (hc' ▸ by simp [← hbs.1]) hcolon
      have := (reservedDevice_spec hdevice).2 b (by simp)
      rw [hmark] at this
      exact Bool.noConfusion this

/-! ## Where a path ends -/

/-- A separator comes next, or nothing. -/
def Bound (rest : Bytes) : Prop := rest.head?.all isSeparator = true

theorem bound_nil : Bound [] := rfl

theorem bound_cons {b : UInt8} (h : isSeparator b = true) (rest : Bytes) : Bound (b :: rest) := h

theorem endsSeparated_joint {x c : Bytes} (hne : c ≠ []) (hc : Joint c) :
    endsSeparated (x ++ c) = false := by
  rw [endsSeparated, List.getLast?_append_of_ne_nil x hne, List.getLast?_eq_some_getLast hne]
  exact hc _ (List.getLast_mem hne)

theorem endsSeparated_trailer {x : Bytes} (h : endsSeparated x = false) (separated : Bool) :
    endsSeparated (x ++ trailer separated) = separated := by
  cases separated with
  | false => rwa [trailer, if_neg Bool.false_ne_true, List.append_nil]
  | true => simp [trailer, separator, endsSeparated, isSeparator]

theorem joint_dot : Joint dot := by
  intro b hb
  rw [List.mem_singleton.mp hb]
  rfl

theorem endsSeparated_joined {c : Bytes} (hne : c ≠ []) (hc : Joint c) {cs : List Bytes}
    (hnes : ∀ d ∈ cs, d ≠ []) (hcs : ∀ d ∈ cs, Joint d) (x : Bytes) :
    endsSeparated (x ++ (c ++ cs.flatMap fun d => 92 :: d)) = false := by
  induction cs generalizing c x with
  | nil =>
    rw [List.flatMap_nil, List.append_nil]
    exact endsSeparated_joint hne hc
  | cons d cs ih =>
    have hd := ih (hnes d List.mem_cons_self) (hcs d List.mem_cons_self)
      (fun e he => hnes e (List.mem_cons_of_mem d he)) (fun e he => hcs e (List.mem_cons_of_mem d he))
      (x ++ c ++ [92])
    simpa using hd

/-- Its end says of a normalized path whether the path was separated. -/
theorem normalTail_ends {absolute : Bool} {cs : List Bytes} (h : Clean (!absolute) cs)
    (separated : Bool) (x : Bytes) :
    normalTail cs absolute (endsSeparated (x ++ normalTail cs absolute separated)) =
      normalTail cs absolute separated := by
  cases cs with
  | nil =>
    cases absolute with
    | true => rw [normalTail_nil_absolute, normalTail_nil_absolute]
    | false =>
      rw [normalTail_nil, normalTail_nil, ← List.append_assoc,
        endsSeparated_trailer (endsSeparated_joint (by decide) joint_dot)]
  | cons c cs =>
    have hne := h.ne_nil c List.mem_cons_self
    rw [normalTail_cons hne, normalTail_cons hne, ← List.append_assoc x,
      endsSeparated_trailer (endsSeparated_joined hne (h.joint c List.mem_cons_self)
        (fun d hd => h.ne_nil d (List.mem_cons_of_mem c hd))
        (fun d hd => h.joint d (List.mem_cons_of_mem c hd)) x)]

/-! ## Roots -/

/-- What normalization reads of a root. -/
structure WindowsRoot.Is (root : WindowsRoot) (device : Bytes) (tailStart : Nat)
    (absolute reserved : Bool) : Prop where
  device : root.device = device
  tailStart : root.tailStart = tailStart
  absolute : root.absolute = absolute
  reserved : root.reserved = reserved

theorem root_slash {b : UInt8} (hb : isSeparator b = true) {rest : Bytes}
    (h : rest.head?.any isSeparator = false) {normalization : Bool} :
    (windowsRoot (b :: rest) normalization).Is [] 1 true false := by
  simp only [windowsRoot, hb, h, if_true, Bool.false_eq_true, if_false]
  exact ⟨rfl, rfl, rfl, rfl⟩

/-- A loop over the bytes that stand there stops behind them. -/
theorem scan_over {p : UInt8 → Bool} {x y rest : Bytes} {start : Nat} (hstart : x.length = start)
    (hy : ∀ b ∈ y, p b = true) (hrest : rest.head?.all (fun b => !p b) = true) :
    scan p (x ++ (y ++ rest)) start = start + y.length := by
  rw [scan, List.drop_left' hstart, List.takeWhile_append_of_pos hy]
  cases rest with
  | nil => simp
  | cons b rest =>
    rw [List.takeWhile_cons_of_neg (by simpa using hrest), List.append_nil]

theorem slice_over {x y rest : Bytes} {start stop : Nat} (hstart : x.length = start)
    (hstop : start + y.length = stop) : slice (x ++ (y ++ rest)) start stop = y := by
  rw [slice, List.drop_left' hstart, List.take_left' (by omega)]

section Shared

variable {host share after : Bytes} (hhost : Joint host) (hshare : Joint share)
  (hne : host ≠ []) (hsne : share ≠ []) (hafter : Bound after)

include hhost hshare hne hsne hafter in
/-- The root of a path that names a share, whatever separates. -/
theorem windowsRoot_spread {front gap : Bytes} (hfront : front.length = 2)
    (hfronts : ∀ b ∈ front, isSeparator b = true) (hgap : ∀ b ∈ gap, isSeparator b = true)
    (hgne : gap ≠ []) (normalization : Bool) :
    windowsRoot (front ++ (host ++ (gap ++ (share ++ after)))) normalization =
      namedRoot host share (2 + host.length + gap.length) (2 + host.length + gap.length + share.length)
        (if after = [] then 2 + host.length + gap.length + share.length
          else 2 + host.length + gap.length + share.length + 1)
        normalization := by
  have hpos := List.length_pos_of_ne_nil hne
  have hspos := List.length_pos_of_ne_nil hsne
  have hgpos := List.length_pos_of_ne_nil hgne
  have hroot : windowsRoot (front ++ (host ++ (gap ++ (share ++ after)))) normalization =
      sharedRoot (front ++ (host ++ (gap ++ (share ++ after)))) normalization := by
    match front, hfront with
    | [a, b], _ =>
      have ha : isSeparator a = true := hfronts a (by simp)
      have hb : isSeparator b = true := hfronts b (by simp)
      simp only [windowsRoot, List.cons_append, ha, List.head?_cons, Option.any_some, hb, if_true]
  have hhead : ∀ {text rest : Bytes}, Joint text → text ≠ [] →
      (text ++ rest).head?.all (fun b => !isSeparator b) = true := by
    intro text rest hjoint hne
    obtain ⟨b, text, rfl⟩ := List.exists_cons_of_ne_nil hne
    simpa using hjoint b List.mem_cons_self
  have hhostEnd : scan (!isSeparator ·) (front ++ (host ++ (gap ++ (share ++ after)))) 2 = 2 + host.length := by
    apply scan_over hfront (fun b hb => by simp [hhost b hb])
    obtain ⟨g, gap, rfl⟩ := List.exists_cons_of_ne_nil hgne
    simpa using hgap g List.mem_cons_self
  have hshareStart : scan isSeparator (front ++ (host ++ (gap ++ (share ++ after)))) (2 + host.length) =
      2 + host.length + gap.length := by
    rw [← List.append_assoc]
    exact scan_over (by rw [List.length_append, hfront]) hgap (hhead hshare hsne)
  have hshareEnd : scan (!isSeparator ·) (front ++ (host ++ (gap ++ (share ++ after))))
      (2 + host.length + gap.length) = 2 + host.length + gap.length + share.length := by
    rw [← List.append_assoc, ← List.append_assoc]
    apply scan_over (by rw [List.length_append, List.length_append, hfront])
      (fun b hb => by simp [hshare b hb])
    cases after with
    | nil => rfl
    | cons b after => simpa [Bound] using hafter
  have hhostSlice : slice (front ++ (host ++ (gap ++ (share ++ after)))) 2 (2 + host.length) = host :=
    slice_over hfront rfl
  have hshareSlice : slice (front ++ (host ++ (gap ++ (share ++ after)))) (2 + host.length + gap.length)
      (2 + host.length + gap.length + share.length) = share := by
    rw [← List.append_assoc, ← List.append_assoc]
    exact slice_over (by rw [List.length_append, List.length_append, hfront]) rfl
  have hlength : (front ++ (host ++ (gap ++ (share ++ after)))).length =
      2 + host.length + gap.length + share.length + after.length := by
    simp only [List.length_append, hfront]
    omega
  rw [hroot, sharedRoot]
  dsimp only
  rw [hhostEnd, hlength, if_neg (by omega), hshareStart, hshareEnd, if_neg (by omega), hhostSlice,
    hshareSlice]
  congr 1
  cases after with
  | nil => simp
  | cons b after => simp

def sharedPath (host share after : Bytes) : Bytes := 92 :: 92 :: (host ++ 92 :: (share ++ after))

theorem drop_share : (sharedPath host share after).drop (3 + host.length) = share ++ after := by
  rw [show sharedPath host share after = 92 :: 92 :: (host ++ [92]) ++ (share ++ after) by simp [sharedPath]]
  exact List.drop_left' (by simp; omega)

theorem drop_after :
    (sharedPath host share after).drop (3 + host.length + share.length) = after := by
  rw [← List.drop_drop, drop_share, List.drop_left' rfl]

include hhost hshare hne hsne hafter in
/-- The root of a path that names a share. -/
theorem windowsRoot_named (normalization : Bool) :
    ∃ displayEnd, windowsRoot (sharedPath host share after) normalization =
      namedRoot host share (3 + host.length) (3 + host.length + share.length) displayEnd
        normalization := by
  have hsep : isSeparator 92 = true := rfl
  have hspread := @windowsRoot_spread host share after hhost hshare hne hsne hafter [92, 92] [92] rfl
    (by simp [hsep]) (by simp [hsep]) (List.cons_ne_nil _ _) normalization
  rw [show 2 + host.length + [(92 : UInt8)].length = 3 + host.length by
    simp only [List.length_singleton]; omega] at hspread
  exact ⟨_, hspread⟩

include hhost hshare hne hsne hafter in
theorem windowsRoot_shared :
    ∃ displayEnd, windowsRoot (sharedPath host share after) true =
      namedRoot host share (3 + host.length) (3 + host.length + share.length) displayEnd true :=
  windowsRoot_named hhost hshare hne hsne hafter true

end Shared

section Named

variable {host share : Bytes} {shareStart shareEnd displayEnd : Nat}

theorem namedRoot_share (h : ¬ (host = [63] ∨ host = [46])) :
    (namedRoot host share shareStart shareEnd displayEnd true).Is
      ([92, 92] ++ host ++ [92] ++ share) shareEnd true false := by
  rw [namedRoot, if_neg fun h' => h h'.2]
  exact ⟨rfl, rfl, rfl, rfl⟩

theorem namedRoot_space (h : host = [63] ∨ host = [46]) (hshare : reservedColon share = none) :
    (namedRoot host share shareStart shareEnd displayEnd true).Is ([92, 92] ++ host) 4 true false := by
  rw [namedRoot, if_pos ⟨rfl, h⟩, hshare]
  exact ⟨rfl, rfl, rfl, rfl⟩

theorem namedRoot_port (h : host = [63] ∨ host = [46]) {colon : Nat}
    (hshare : reservedColon share = some colon) :
    (namedRoot host share shareStart shareEnd displayEnd true).Is
      ([92, 92, 63, 92] ++ share.take (colon + 1)) (shareStart + colon + 1) true false := by
  rw [namedRoot, if_pos ⟨rfl, h⟩, hshare]
  exact ⟨rfl, rfl, rfl, rfl⟩

end Named

theorem isSeparator_drive {letter : UInt8} (h : isDrive letter = true) :
    isSeparator letter = false := by
  cases hsep : isSeparator letter with
  | false => rfl
  | true =>
    simp only [isSeparator, Bool.or_eq_true, beq_iff_eq] at hsep
    rcases hsep with rfl | rfl <;> exact absurd h (by decide)

/-- The root of a drive, with or without normalization. -/
theorem windowsRoot_drive {letter : UInt8} (hletter : isDrive letter = true) (rest : Bytes) (normalization : Bool) :
    (windowsRoot (letter :: 58 :: rest) normalization).Is [letter, 58]
      (if rest.head?.any isSeparator then 3 else 2) (rest.head?.any isSeparator) false := by
  have hlike : driveLike (letter :: 58 :: rest) = true := hletter
  simp only [windowsRoot, isSeparator_drive hletter, hlike, Bool.false_eq_true, if_false, if_true,
    List.drop_succ_cons, List.drop_zero]
  split_ifs with hsep
  · exact ⟨rfl, rfl, hsep.symm, rfl⟩
  · exact ⟨rfl, rfl, (Bool.not_eq_true _ ▸ hsep).symm, rfl⟩

theorem driveLike_spec {path : Bytes} (h : driveLike path = true) :
    ∃ letter rest, path = letter :: 58 :: rest ∧ isDrive letter = true := by
  unfold driveLike at h
  split at h
  next letter rest => exact ⟨letter, rest, rfl, h⟩
  next => cases h

/-- Neither a separator nor a drive in front. -/
def Loose (path : Bytes) : Prop := path.head?.any isSeparator = false ∧ driveLike path = false

theorem windowsRoot_plain {path : Bytes} (h : Loose path) (hreserved : reservedColon path = none) :
    (windowsRoot path true).Is [] 0 false false := by
  cases path with
  | nil => exact ⟨rfl, rfl, rfl, rfl⟩
  | cons first rest =>
    have hfirst : isSeparator first = false := h.1
    simp only [windowsRoot, hfirst, h.2, Bool.false_eq_true, if_false, if_true, hreserved]
    exact ⟨rfl, rfl, rfl, rfl⟩

theorem windowsRoot_reserved {path : Bytes} (h : Loose path) {colon : Nat}
    (hreserved : reservedColon path = some colon) :
    (windowsRoot path true).Is (path.take (colon + 1)) (colon + 1) false true := by
  cases path with
  | nil => cases hreserved
  | cons first rest =>
    have hfirst : isSeparator first = false := h.1
    simp only [windowsRoot, hfirst, h.2, Bool.false_eq_true, if_false, if_true, hreserved]
    exact ⟨rfl, rfl, rfl, rfl⟩

/-- The kinds of root a path has. -/
inductive Rooted (path : Bytes) : Prop where
  | slash (h : (windowsRoot path true).Is [] 1 true false)
  | share (host share : Bytes) (tailStart : Nat) (hhost : Joint host) (hshare : Joint share)
      (hne : host ≠ []) (hsne : share ≠ []) (hname : ¬ (host = [63] ∨ host = [46]))
      (h : (windowsRoot path true).Is ([92, 92] ++ host ++ [92] ++ share) tailStart true false)
  | space (host : Bytes) (hhost : host = [63] ∨ host = [46])
      (h : (windowsRoot path true).Is ([92, 92] ++ host) 4 true false)
  | port (name : Bytes) (tailStart : Nat) (hcolon : 58 ∉ name) (hname : reservedDevice name = true)
      (h : (windowsRoot path true).Is ([92, 92, 63, 92] ++ (name ++ [58])) tailStart true false)
  | drive (letter : UInt8) (tailStart : Nat) (absolute : Bool) (hletter : isDrive letter = true)
      (h : (windowsRoot path true).Is [letter, 58] tailStart absolute false)
      (hrest : absolute = false → (path.drop tailStart).head?.any isSeparator = false)
  | reserved (name rest : Bytes) (heq : path = name ++ 58 :: rest) (hloose : Loose path)
      (hcolon : 58 ∉ name) (hname : reservedDevice name = true)
      (h : (windowsRoot path true).Is (name ++ [58]) (name.length + 1) false true)
  | plain (hloose : Loose path) (hname : reservedColon path = none)
      (h : (windowsRoot path true).Is [] 0 false false)

theorem joint_takeWhile (path : Bytes) : Joint (path.takeWhile (!isSeparator ·)) := by
  intro b hb
  have := List.mem_takeWhile_imp hb
  simpa using this

theorem rooted_named {path host share : Bytes} {shareStart shareEnd displayEnd : Nat}
    (hroot : windowsRoot path true = namedRoot host share shareStart shareEnd displayEnd true)
    (hhost : Joint host) (hshare : Joint share) (hne : host ≠ []) (hsne : share ≠ []) :
    Rooted path := by
  by_cases hspace : host = [63] ∨ host = [46]
  · cases hcolon : reservedColon share with
    | none => exact .space host hspace (hroot ▸ namedRoot_space hspace hcolon)
    | some colon =>
      obtain ⟨name, rest, rfl, hname, hdevice, rfl⟩ := reservedColon_spec hcolon
      have h := hroot ▸ namedRoot_port hspace hcolon
      rw [List.append_cons, List.take_left' (by simp)] at h
      exact .port name _ hname hdevice h
  · exact .share host share shareEnd hhost hshare hne hsne hspace (hroot ▸ namedRoot_share hspace)

/-- Behind two separators: nothing but the separators, or a share. -/
theorem sharedRoot_cases (path : Bytes) (normalization : Bool) :
    (sharedRoot path normalization).Is [] 1 true false ∨
      ∃ host share shareStart shareEnd displayEnd, Joint host ∧ Joint share ∧ host ≠ [] ∧ share ≠ [] ∧
        sharedRoot path normalization =
          namedRoot host share shareStart shareEnd displayEnd normalization := by
  by_cases hhost : scan (!isSeparator ·) path 2 = 2 ∨ scan (!isSeparator ·) path 2 = path.length
  · rw [sharedRoot, if_pos hhost]
    exact .inl ⟨rfl, rfl, rfl, rfl⟩
  · by_cases hshare : scan (!isSeparator ·) path (scan isSeparator path (scan (!isSeparator ·) path 2)) =
        scan isSeparator path (scan (!isSeparator ·) path 2)
    · rw [sharedRoot, if_neg hhost, if_pos hshare]
      exact .inl ⟨rfl, rfl, rfl, rfl⟩
    · have hslice : ∀ start, slice path start (scan (!isSeparator ·) path start) =
          (path.drop start).takeWhile (!isSeparator ·) := by
        intro start
        rw [slice, scan, Nat.add_sub_cancel_left]
        exact (List.prefix_iff_eq_take.mp (List.takeWhile_prefix _)).symm
      have hne : ∀ start, scan (!isSeparator ·) path start ≠ start →
          (path.drop start).takeWhile (!isSeparator ·) ≠ [] := by
        intro start hstart hnil
        rw [scan, hnil] at hstart
        exact hstart rfl
      rw [sharedRoot, if_neg hhost, if_neg hshare]
      refine .inr ⟨_, _, _, _, _, ?_, ?_, ?_, ?_, rfl⟩
      · rw [hslice]
        exact joint_takeWhile _
      · rw [hslice]
        exact joint_takeWhile _
      · rw [hslice]
        exact hne 2 fun h => hhost (Or.inl h)
      · rw [hslice]
        exact hne _ hshare

/-- Behind two separators: a share, or nothing but the separators. -/
theorem rooted_shared {path : Bytes} (hroot : windowsRoot path true = sharedRoot path true) :
    Rooted path := by
  rcases sharedRoot_cases path true with hslash | ⟨_, _, _, _, _, hhost, hshare, hne, hsne, hnamed⟩
  · exact .slash (hroot ▸ hslash)
  · exact rooted_named (hroot.trans hnamed) hhost hshare hne hsne

theorem rooted (path : Bytes) : Rooted path := by
  cases hfirst : path.head?.any isSeparator with
  | true =>
    cases path with
    | nil => cases hfirst
    | cons first rest =>
      cases hsecond : rest.head?.any isSeparator with
      | false => exact .slash (root_slash hfirst hsecond)
      | true =>
        apply rooted_shared
        have hsep : isSeparator first = true := hfirst
        simp only [windowsRoot, hsep, hsecond, if_true]
  | false =>
    cases hdrive : driveLike path with
    | true =>
      obtain ⟨letter, rest, rfl, hletter⟩ := driveLike_spec hdrive
      refine .drive letter _ _ hletter (windowsRoot_drive hletter rest true) fun habs => ?_
      rw [habs, if_neg Bool.false_ne_true]
      exact habs
    | false =>
      have hloose : Loose path := ⟨hfirst, hdrive⟩
      cases hreserved : reservedColon path with
      | none => exact .plain hloose hreserved (windowsRoot_plain hloose hreserved)
      | some colon =>
        have h := windowsRoot_reserved hloose hreserved
        obtain ⟨name, rest, rfl, hcolon, hname, rfl⟩ := reservedColon_spec hreserved
        rw [List.append_cons, List.take_left' (by simp)] at h
        rw [← List.append_cons] at h
        exact .reserved name rest rfl hloose hcolon hname h

end TsonicNode.Path.Win32
