import Mathlib.Logic.Function.Iterate
import TsonicNode.Path.Roots

/-!
# Normalizing a normalized Windows path

`Settles` is the condition under which a normalized path is left as it is, and a
relative path stays relative. One lemma for each kind of root says what the
second normalization does, and `normalize_settles` puts them together.
-/

namespace TsonicNode.Path.Win32

open TsonicNode.Lib

/-! ## What normalization makes of a root -/

section Normal

variable {path device : Bytes} {tailStart : Nat} {absolute reserved : Bool}

/-- The tail of the normalized path. -/
def tailOf (path : Bytes) (tailStart : Nat) (absolute : Bool) : Bytes :=
  normalTail (parts (path.drop tailStart) (!absolute)) absolute (endsSeparated path)

theorem normalize_eq (hlen : 2 ≤ path.length)
    (h : (windowsRoot path true).Is device tailStart absolute reserved) :
    normalize path =
      if !absolute ∧ device = [] ∧ (colon path).isSome ∧
          (driveLike (tailOf path tailStart absolute) || colonEnds path) then
        dot ++ separator ++ tailOf path tailStart absolute
      else
        (if reserved then dot ++ separator ++ (device ++ if absolute then separator else [])
          else device ++ if absolute then separator else []) ++ tailOf path tailStart absolute := by
  have hne : path ≠ [] := by
    rintro rfl
    exact absurd hlen (by decide)
  rw [normalize, if_neg hne, if_neg (by omega)]
  simp only [h.device, h.tailStart, h.absolute, h.reserved]
  rfl

/-- A path under a device, or an absolute one. -/
theorem normalize_rooted (hlen : 2 ≤ path.length)
    (h : (windowsRoot path true).Is device tailStart absolute false)
    (hroot : absolute = true ∨ device ≠ []) :
    normalize path = device ++ (if absolute then separator else []) ++
      tailOf path tailStart absolute := by
  rw [normalize_eq hlen h, if_neg, if_neg Bool.false_ne_true]
  rintro ⟨habsolute, hdevice, _⟩
  rcases hroot with rfl | hroot
  · exact Bool.false_ne_true habsolute
  · exact hroot hdevice

theorem normalize_reserved (hlen : 2 ≤ path.length)
    (h : (windowsRoot path true).Is device tailStart false true) (hdevice : device ≠ []) :
    normalize path = dot ++ separator ++ device ++ tailOf path tailStart false := by
  rw [normalize_eq hlen h, if_neg fun h => hdevice h.2.1, if_pos rfl, if_neg Bool.false_ne_true]
  simp

end Normal

/-! ## Colons in a tail -/

theorem split_cons_joint {b : UInt8} (hb : isSeparator b = false) (path : Bytes) :
    ∃ first rest, split path = first :: rest ∧ split (b :: path) = (b :: first) :: rest :=
  Segments.splitOnP_joint_cons hb path

theorem mem_split {path c : Bytes} (hc : c ∈ split path) {b : UInt8} (hb : b ∈ c) : b ∈ path :=
  Segments.mem_of_mem_splitOnP hc hb

/-- A part with a colon at its end. -/
def EndsColon (c : Bytes) : Prop := c.getLast? = some 58

instance (c : Bytes) : Decidable (EndsColon c) := inferInstanceAs (Decidable (_ = _))

theorem mem_endsColon {c : Bytes} (h : EndsColon c) : 58 ∈ c := List.mem_of_getLast? h

/-- What `split` begins with is empty before a separator and at the end. -/
theorem split_bound {path first : Bytes} {rest : List Bytes} (h : split path = first :: rest) :
    first = [] ↔ Bound path := by
  cases path with
  | nil =>
    rw [split, List.splitOnP_nil, List.cons.injEq] at h
    exact ⟨fun _ => bound_nil, fun _ => h.1.symm⟩
  | cons b path =>
    cases hb : isSeparator b with
    | true =>
      rw [← List.nil_append (b :: path),
        split_joint_append (fun _ h => absurd h List.not_mem_nil) hb, List.cons.injEq] at h
      exact ⟨fun _ => hb, fun _ => h.1.symm⟩
    | false =>
      obtain ⟨first', rest', -, hcons⟩ := split_cons_joint hb path
      rw [hcons, List.cons.injEq] at h
      constructor
      · rintro rfl
        exact absurd h.1 (List.cons_ne_nil b first')
      · intro hbound
        exact absurd (hb.symm.trans hbound) Bool.false_ne_true

theorem colonEnds_split (path : Bytes) :
    colonEnds path = true ↔ ∃ c ∈ split path, EndsColon c := by
  induction path with
  | nil => simp [colonEnds, split, List.splitOnP_nil, EndsColon]
  | cons b path ih =>
    rw [colonEnds, Bool.or_eq_true, ih]
    cases hb : isSeparator b with
    | true =>
      have hne : (b == 58) = false := by
        rw [beq_eq_false_iff_ne]
        rintro rfl
        exact absurd hb (by decide)
      rw [← List.nil_append (b :: path),
        split_joint_append (fun _ h => absurd h List.not_mem_nil) hb, hne]
      simp [EndsColon]
    | false =>
      obtain ⟨first, rest, hsplit, hcons⟩ := split_cons_joint hb path
      rw [hsplit, hcons]
      have hfirst : EndsColon (b :: first) ↔ (b = 58 ∧ Bound path) ∨ EndsColon first := by
        rw [← split_bound hsplit]
        unfold EndsColon
        cases first with
        | nil => simp
        | cons d first => simp [List.getLast?_cons_cons]
      simp only [List.mem_cons, exists_eq_or_imp, hfirst, Bool.and_eq_true, beq_iff_eq]
      exact or_assoc.symm

theorem colonEnds_dot (path : Bytes) : colonEnds (dot ++ separator ++ path) = colonEnds path := by
  rfl

/-- The first part and what bounds it. -/
theorem normalTail_bound {c : Bytes} (hc : c ≠ []) (cs : List Bytes) (absolute separated : Bool) :
    ∃ more, Bound more ∧ normalTail (c :: cs) absolute separated = c ++ more := by
  refine ⟨(cs.flatMap fun d => 92 :: d) ++ trailer separated, ?_, ?_⟩
  · cases cs with
    | cons d cs => exact bound_cons (by decide) _
    | nil => cases separated <;> rfl
  · rw [normalTail_cons hc, List.append_assoc]

theorem colonEnds_normalTail {absolute : Bool} {cs : List Bytes} (h : Clean (!absolute) cs)
    (separated : Bool) :
    colonEnds (normalTail cs absolute separated) = true ↔ ∃ c ∈ cs, EndsColon c := by
  have htrailer : ∀ path, colonEnds (path ++ trailer separated) = true ↔ colonEnds path = true := by
    intro path
    cases separated with
    | false => rw [trailer, if_neg Bool.false_ne_true, List.append_nil]
    | true =>
      rw [trailer, if_pos rfl, separator, colonEnds_split, split_cons_sep (by decide), colonEnds_split]
      simp [split, List.splitOnP_nil, EndsColon]
  cases cs with
  | nil =>
    cases absolute with
    | true => simp [normalTail_nil_absolute, colonEnds]
    | false =>
      rw [normalTail_nil, htrailer]
      simp [dot, colonEnds]
  | cons c cs =>
    rw [normalTail_cons (h.ne_nil c List.mem_cons_self), htrailer, colonEnds_split,
      split_joined (h.joint c List.mem_cons_self) fun d hd => h.joint d (List.mem_cons_of_mem c hd)]

theorem driveLike_append {c : Bytes} (hc : c ≠ []) {more : Bytes} (h : Bound more) :
    driveLike (c ++ more) = driveLike c := by
  match c, hc with
  | [letter], _ =>
    cases more with
    | nil => rfl
    | cons b more =>
      have hb : b ≠ 58 := by
        rintro rfl
        exact Bool.false_ne_true h
      simp [driveLike, hb]
  | letter :: b :: c, _ =>
    by_cases hb : b = 58
    · subst hb
      rfl
    · simp [driveLike, hb]

theorem driveLike_normalTail {cs : List Bytes} (h : Clean (!false) cs) (separated : Bool) :
    driveLike (normalTail cs false separated) = driveLike (cs.headD []) := by
  cases cs with
  | nil => cases separated <;> rfl
  | cons c cs =>
    have hne := h.ne_nil c List.mem_cons_self
    obtain ⟨more, hmore, heq⟩ := normalTail_bound hne cs false separated
    rw [heq, driveLike_append hne hmore, List.headD_cons]

theorem reservedColon_bound {c : Bytes} (hc : Joint c) {more : Bytes} (h : Bound more) :
    reservedColon (c ++ more) = reservedColon c := by
  cases more with
  | nil => rw [List.append_nil]
  | cons b more => exact reservedColon_behind hc h more

theorem reservedColon_normalTail {cs : List Bytes} (h : Clean (!false) cs) (separated : Bool) :
    reservedColon (normalTail cs false separated) = reservedColon (cs.headD []) := by
  cases cs with
  | nil => cases separated <;> rfl
  | cons c cs =>
    obtain ⟨more, hmore, heq⟩ := normalTail_bound (h.ne_nil c List.mem_cons_self) cs false separated
    rw [heq, reservedColon_bound (h.joint c List.mem_cons_self) hmore, List.headD_cons]

/-! ## Roots that settle -/

section Fixed

variable {device : Bytes} {tailStart : Nat} {absolute : Bool} {cs : List Bytes}

/-- A normalized path whose parts are read back is left as it is. -/
theorem normalize_fixed {path : Bytes} (hclean : Clean (!absolute) cs) (separated : Bool)
    (hroot : (windowsRoot path true).Is device tailStart absolute false)
    (hrooted : absolute = true ∨ device ≠ []) (hlen : 2 ≤ path.length)
    (hpath : path = device ++ (if absolute then separator else []) ++ normalTail cs absolute separated)
    (hparts : parts (path.drop tailStart) (!absolute) = cs) : normalize path = path := by
  rw [normalize_rooted hlen hroot hrooted, tailOf, hparts]
  conv => rhs; rw [hpath]
  rw [hpath, normalTail_ends hclean]

end Fixed

/-- No separator begins a tail. -/
theorem head_normalTail {absolute : Bool} {cs : List Bytes} (h : Clean (!absolute) cs)
    (separated : Bool) : (normalTail cs absolute separated).head?.any isSeparator = false := by
  cases cs with
  | nil =>
    cases absolute with
    | true => rw [normalTail_nil_absolute]; rfl
    | false => cases separated <;> rfl
  | cons c cs =>
    have hne := h.ne_nil c List.mem_cons_self
    obtain ⟨more, -, heq⟩ := normalTail_bound hne cs absolute separated
    obtain ⟨b, c, rfl⟩ := List.exists_cons_of_ne_nil hne
    rw [heq]
    exact h.joint (b :: c) List.mem_cons_self b List.mem_cons_self

theorem normalize_slash {cs : List Bytes} (h : Clean (!true) cs) (separated : Bool) :
    normalize (separator ++ normalTail cs true separated) =
      separator ++ normalTail cs true separated := by
  cases cs with
  | nil => rw [normalTail_nil_absolute]; rfl
  | cons c cs =>
    have hne := h.ne_nil c List.mem_cons_self
    obtain ⟨more, -, heq⟩ := normalTail_bound hne cs true separated
    refine normalize_fixed h separated (root_slash (by decide) (head_normalTail h separated)) (Or.inl rfl) ?_ rfl
      (parts_normalTail h separated)
    have := List.length_pos_of_ne_nil hne
    rw [heq]
    simp only [separator, List.length_append, List.length_cons, List.length_nil]
    omega

theorem normalize_share {host share : Bytes} (hhost : Joint host) (hshare : Joint share)
    (hne : host ≠ []) (hsne : share ≠ []) (hname : ¬ (host = [63] ∨ host = [46]))
    {cs : List Bytes} (h : Clean (!true) cs) (separated : Bool) :
    normalize ([92, 92] ++ host ++ [92] ++ share ++ separator ++ normalTail cs true separated) =
      [92, 92] ++ host ++ [92] ++ share ++ separator ++ normalTail cs true separated := by
  have hpath : [92, 92] ++ host ++ [92] ++ share ++ separator ++ normalTail cs true separated =
      sharedPath host share (92 :: normalTail cs true separated) := by
    simp [sharedPath, separator]
  obtain ⟨displayEnd, hroot⟩ := windowsRoot_shared hhost hshare hne hsne
    (bound_cons (b := 92) (by decide) (normalTail cs true separated))
  rw [hpath]
  refine normalize_fixed h separated (hroot ▸ namedRoot_share hname) (Or.inl rfl) ?_
    hpath.symm ?_
  · rw [← hpath]
    simp only [List.length_append, List.length_cons]
    omega
  · rw [drop_after, parts_sep_cons (by decide)]
    exact parts_normalTail h separated

theorem joint_name {name : Bytes} (h : reservedDevice name = true) : Joint name := by
  intro b hb
  have := (reservedDevice_spec h).2 b hb
  simp only [isMark, Bool.or_eq_false_iff] at this
  exact this.1.1

theorem joint_append {c d : Bytes} (hc : Joint c) (hd : Joint d) : Joint (c ++ d) := by
  intro b hb
  exact (List.mem_append.mp hb).elim (hc b) (hd b)

theorem joint_colon : Joint [58] := by
  intro b hb
  rw [List.mem_singleton.mp hb]
  rfl

theorem normalize_port {name : Bytes} (hcolon : 58 ∉ name) (hname : reservedDevice name = true)
    {cs : List Bytes} (h : Clean (!true) cs) (separated : Bool) :
    normalize ([92, 92, 63, 92] ++ (name ++ [58]) ++ separator ++ normalTail cs true separated) =
      [92, 92, 63, 92] ++ (name ++ [58]) ++ separator ++ normalTail cs true separated := by
  have hpath : [92, 92, 63, 92] ++ (name ++ [58]) ++ separator ++ normalTail cs true separated =
      sharedPath [63] (name ++ [58]) (92 :: normalTail cs true separated) := by
    simp [sharedPath, separator]
  have hhost : Joint [63] := by
    intro b hb
    rw [List.mem_singleton.mp hb]
    rfl
  obtain ⟨displayEnd, hroot⟩ := windowsRoot_shared hhost
    (joint_append (joint_name hname) joint_colon) (by simp) (by simp)
    (bound_cons (b := 92) (by decide) (normalTail cs true separated))
  have hreserved : reservedColon (name ++ [58]) = some name.length := by
    rw [reservedColon_append hcolon, if_pos hname]
  have his : (windowsRoot (sharedPath [63] (name ++ [58]) (92 :: normalTail cs true separated))
      true).Is ([92, 92, 63, 92] ++ (name ++ [58])) (4 + name.length + 1) true false := by
    have his := hroot ▸ namedRoot_port (Or.inl rfl) hreserved
    rwa [List.take_of_length_le (by simp)] at his
  rw [hpath]
  refine normalize_fixed h separated his (Or.inl rfl) ?_ hpath.symm ?_
  · rw [← hpath]
    simp only [List.length_append, List.length_cons]
    omega
  · have hafter : (sharedPath [63] (name ++ [58]) (92 :: normalTail cs true separated)).drop
        (3 + [(63 : UInt8)].length + (name ++ [58]).length) = 92 :: normalTail cs true separated :=
      drop_after
    rw [List.length_append, ← Nat.add_assoc] at hafter
    rw [show 4 + name.length + 1 =
      3 + [(63 : UInt8)].length + name.length + [(58 : UInt8)].length from rfl, hafter,
      parts_sep_cons (by decide)]
    exact parts_normalTail h separated

theorem normalize_drive {letter : UInt8} (hletter : isDrive letter = true) {absolute : Bool}
    {cs : List Bytes} (h : Clean (!absolute) cs) (separated : Bool) :
    normalize ([letter, 58] ++ (if absolute then separator else []) ++ normalTail cs absolute separated) =
      [letter, 58] ++ (if absolute then separator else []) ++ normalTail cs absolute separated := by
  have hroot := windowsRoot_drive hletter
    ((if absolute then separator else []) ++ normalTail cs absolute separated) true
  have hhead : ((if absolute then separator else []) ++
      normalTail cs absolute separated).head?.any isSeparator = absolute := by
    cases absolute with
    | true => rfl
    | false => exact head_normalTail h separated
  rw [hhead] at hroot
  refine normalize_fixed h separated (by simpa using hroot)
    (Or.inr (List.cons_ne_nil _ _)) ?_ rfl ?_
  · simp only [List.length_append, List.length_cons]
    omega
  · cases absolute with
    | true => exact parts_normalTail h separated
    | false => exact parts_normalTail h separated

/-! ## A device namespace -/

/-- What follows the first part of a tail, as a tail behind a separator. -/
theorem more_normalTail {c : Bytes} {cs : List Bytes} (h : Clean (!true) (c :: cs)) (separated : Bool) :
    ∃ more, Bound more ∧ normalTail (c :: cs) true separated = c ++ more ∧
      (more = 92 :: normalTail cs true separated ↔ cs ≠ [] ∨ separated = true) ∧
      (more = [] ↔ cs = [] ∧ separated = false) := by
  have hne := h.ne_nil c List.mem_cons_self
  refine ⟨(cs.flatMap fun d => 92 :: d) ++ trailer separated, ?_, ?_, ?_, ?_⟩
  · cases cs with
    | cons d cs => exact bound_cons (by decide) _
    | nil => cases separated <;> rfl
  · rw [normalTail_cons hne, List.append_assoc]
  · cases cs with
    | nil => cases separated <;> simp [normalTail_nil_absolute, trailer, separator]
    | cons d cs =>
      have hd := h.ne_nil d (List.mem_cons_of_mem c List.mem_cons_self)
      rw [normalTail_cons hd]
      simp
  · cases cs with
    | nil => cases separated <;> simp [trailer, separator]
    | cons d cs => simp

theorem Clean.tail {c : Bytes} {cs : List Bytes} (h : Clean (!true) (c :: cs)) : Clean (!true) cs where
  settled := ⟨0, cs, rfl, fun _ => rfl, fun d hd =>
    Segments.Settled.stays h.settled d (List.mem_cons_of_mem c hd)⟩
  idle d hd := h.idle d (List.mem_cons_of_mem c hd)
  joint d hd := h.joint d (List.mem_cons_of_mem c hd)

/-- Nothing left behind the host: the namespace is lost. -/
theorem normalize_space_nil {host : Bytes} (hhost : host = [63] ∨ host = [46]) :
    normalize ([92, 92] ++ host ++ separator) ≠ [92, 92] ++ host ++ separator := by
  rcases hhost with rfl | rfl <;> decide

theorem joint_space {host : Bytes} (hhost : host = [63] ∨ host = [46]) : Joint host ∧ host.length = 1 := by
  rcases hhost with rfl | rfl <;>
    · refine ⟨fun b hb => ?_, rfl⟩
      rw [List.mem_singleton.mp hb]
      rfl

theorem normalize_space {host : Bytes} (hhost : host = [63] ∨ host = [46]) {c : Bytes}
    {cs : List Bytes} (h : Clean (!true) (c :: cs)) (separated : Bool)
    (hc : reservedColon c = none) :
    normalize ([92, 92] ++ host ++ separator ++ normalTail (c :: cs) true separated) =
      [92, 92] ++ host ++ separator ++ normalTail (c :: cs) true separated := by
  obtain ⟨more, hmore, heq, -⟩ := more_normalTail h separated
  have hpath : [92, 92] ++ host ++ separator ++ normalTail (c :: cs) true separated =
      sharedPath host c more := by
    rw [heq]
    simp [sharedPath, separator]
  obtain ⟨displayEnd, hroot⟩ := windowsRoot_shared (joint_space hhost).1 (h.joint c List.mem_cons_self)
    (by rcases hhost with rfl | rfl <;> decide) (h.ne_nil c List.mem_cons_self) hmore
  rw [hpath]
  refine normalize_fixed h separated (hroot ▸ namedRoot_space hhost hc) (Or.inl rfl) ?_ hpath.symm ?_
  · rw [← hpath]
    simp only [List.length_append, List.length_cons]
    omega
  · have hdrop : (sharedPath host c more).drop (3 + host.length) = c ++ more := drop_share
    rw [(joint_space hhost).2] at hdrop
    rw [hdrop, ← heq]
    exact parts_normalTail h separated

/-- A reserved device comes first: it becomes the device of the path. -/
theorem normalize_space_port {host : Bytes} (hhost : host = [63] ∨ host = [46]) {c : Bytes}
    {cs : List Bytes} (h : Clean (!true) (c :: cs)) (separated : Bool) {colon : Nat}
    (hc : reservedColon c = some colon) :
    normalize ([92, 92] ++ host ++ separator ++ normalTail (c :: cs) true separated) =
        [92, 92] ++ host ++ separator ++ normalTail (c :: cs) true separated ↔
      host = [63] ∧ colon + 1 = c.length ∧ (cs ≠ [] ∨ separated = true) := by
  obtain ⟨more, hmore, heq, hmore_tail, hmore_nil⟩ := more_normalTail h separated
  obtain ⟨name, rest, rfl, hcolon, hname, rfl⟩ := reservedColon_spec hc
  have hjoint := h.joint _ List.mem_cons_self
  have hpath : [92, 92] ++ host ++ separator ++ normalTail ((name ++ 58 :: rest) :: cs) true separated =
      sharedPath host (name ++ 58 :: rest) more := by
    rw [heq]
    simp [sharedPath, separator]
  obtain ⟨displayEnd, hroot⟩ := windowsRoot_shared (joint_space hhost).1 hjoint
    (by rcases hhost with rfl | rfl <;> decide) (by simp) hmore
  have his : (windowsRoot (sharedPath host (name ++ 58 :: rest) more) true).Is
      ([92, 92, 63, 92] ++ (name ++ [58])) (4 + name.length + 1) true false := by
    have his := hroot ▸ namedRoot_port hhost hc
    rw [(joint_space hhost).2, List.append_cons, List.take_left' (by simp)] at his
    rwa [List.append_cons]
  have hdrop : (sharedPath host (name ++ 58 :: rest) more).drop (4 + name.length + 1) = rest ++ more := by
    have hshare : (sharedPath host (name ++ 58 :: rest) more).drop (3 + host.length) =
        (name ++ 58 :: rest) ++ more := drop_share
    rw [(joint_space hhost).2] at hshare
    rw [Nat.add_assoc, ← List.drop_drop, hshare, List.append_cons, List.append_assoc,
      List.drop_left' (by simp)]
  have hlen : 2 ≤ (sharedPath host (name ++ 58 :: rest) more).length := by
    simp only [sharedPath, List.length_cons]
    omega
  rw [hpath, normalize_rooted hlen his (Or.inl rfl), tailOf, hdrop]
  have hcancel : [92, 92, 63, 92] ++ (name ++ [58]) ++ (if true then separator else []) ++
        normalTail (parts (rest ++ more) (!true)) true
          (endsSeparated (sharedPath host (name ++ 58 :: rest) more)) =
        sharedPath host (name ++ 58 :: rest) more ↔
      host = [63] ∧ 92 :: normalTail (parts (rest ++ more) (!true)) true
          (endsSeparated (sharedPath host (name ++ 58 :: rest) more)) = rest ++ more := by
    rcases hhost with rfl | rfl <;> simp [sharedPath, separator]
  rw [hcancel]
  refine and_congr_right fun hhost' => ?_
  have hrest : name.length + 1 = (name ++ 58 :: rest).length ↔ rest = [] := by
    simp [← List.length_eq_zero_iff]
  rw [hrest]
  constructor
  · intro htail
    have hnil : rest = [] := by
      cases rest with
      | nil => rfl
      | cons b rest =>
        rw [List.cons_append, List.cons.injEq] at htail
        have := hjoint b (by simp)
        rw [← htail.1] at this
        exact absurd this (by decide)
    subst hnil
    refine ⟨rfl, ?_⟩
    by_contra hnone
    rw [not_or, not_not, Bool.not_eq_true] at hnone
    rw [hmore_nil.mpr hnone] at htail
    cases htail
  · rintro ⟨rfl, hsep⟩
    have hmore' := hmore_tail.mpr hsep
    rw [List.nil_append, hmore', parts_sep_cons (by decide), parts_normalTail h.tail]
    have hq : sharedPath host (name ++ [58]) (92 :: normalTail cs true separated) =
        (92 :: 92 :: (host ++ 92 :: (name ++ [58] ++ [92]))) ++ normalTail cs true separated := by
      simp [sharedPath]
    rw [hq, normalTail_ends h.tail]

/-! ## Relative paths -/

theorem clean_head_ne {cs : List Bytes} (h : Clean (!false) cs) (separated : Bool) :
    normalTail cs false separated ≠ [] := by
  cases cs with
  | nil => cases separated <;> decide
  | cons c cs =>
    rw [normalTail_cons (h.ne_nil c List.mem_cons_self)]
    simp [h.ne_nil c List.mem_cons_self]

/-- A guard needs a colon in the path. -/
theorem mem_of_guard {path : Bytes} (separated : Bool)
    (h : (driveLike (normalTail (parts path true) false separated) || colonEnds path) = true) :
    58 ∈ path := by
  rw [Bool.or_eq_true, driveLike_normalTail (parts_clean path true)] at h
  rcases h with hdrive | hends
  · obtain ⟨letter, rest, hhead, -⟩ := driveLike_spec hdrive
    cases hparts : parts path true with
    | nil =>
      rw [hparts] at hhead
      cases hhead
    | cons c cs =>
      rw [hparts, List.headD_cons] at hhead
      have hc : c ∈ parts path true := hparts ▸ List.mem_cons_self
      exact mem_split (mem_parts hc) (hhead ▸ by simp)
  · obtain ⟨c, hc, hends⟩ := (colonEnds_split path).mp hends
    exact mem_split hc (mem_endsColon hends)

theorem normalize_plain {path : Bytes} (hlen : 2 ≤ path.length)
    (h : (windowsRoot path true).Is [] 0 false false) :
    normalize path =
      if driveLike (tailOf path 0 false) || colonEnds path then
        dot ++ separator ++ tailOf path 0 false
      else tailOf path 0 false := by
  rw [normalize_eq hlen h]
  by_cases hguard : (driveLike (tailOf path 0 false) || colonEnds path) = true
  · have hcolon : (colon path).isSome = true := by
      rw [Option.isSome_iff_ne_none, ne_eq, colon_none, not_not]
      exact mem_of_guard _ hguard
    rw [if_pos ⟨rfl, rfl, hcolon, hguard⟩, if_pos hguard]
  · rw [if_neg fun h => hguard h.2.2.2, if_neg hguard]
    rfl

theorem loose_dot (path : Bytes) : Loose (dot ++ separator ++ path) := ⟨rfl, rfl⟩

theorem reservedColon_dot (path : Bytes) : reservedColon (dot ++ separator ++ path) = none := by
  have h : reservedColon (dot ++ 92 :: path) = reservedColon dot :=
    reservedColon_behind joint_dot (by decide) path
  exact h.trans rfl

theorem parts_dot (path : Bytes) (allowParent : Bool) :
    parts (dot ++ separator ++ path) allowParent = parts path allowParent := by
  rw [parts_eq, separator, List.append_assoc, List.singleton_append,
    split_joint_append joint_dot (by decide)]
  exact Segments.resolve_idle_cons (by decide) _

/-- A guarded tail keeps its guard as long as it needs it. -/
theorem normalize_guarded {cs : List Bytes} (h : Clean (!false) cs) (separated : Bool) :
    normalize (dot ++ separator ++ normalTail cs false separated) =
      if driveLike (cs.headD []) || decide (∃ c ∈ cs, EndsColon c) then
        dot ++ separator ++ normalTail cs false separated
      else normalTail cs false separated := by
  have htail : tailOf (dot ++ separator ++ normalTail cs false separated) 0 false =
      normalTail cs false separated := by
    rw [tailOf, List.drop_zero, parts_dot, parts_normalTail h, normalTail_ends h]
  have hends : colonEnds (normalTail cs false separated) = decide (∃ c ∈ cs, EndsColon c) := by
    rw [Bool.eq_iff_iff, decide_eq_true_iff]
    exact colonEnds_normalTail h separated
  rw [normalize_plain (by simp [dot, separator])
    (windowsRoot_plain (loose_dot _) (reservedColon_dot _)), htail, driveLike_normalTail h,
    colonEnds_dot, hends]

/-- A tail that looks like nothing else is left as it is. -/
theorem normalize_tail {cs : List Bytes} (h : Clean (!false) cs) (separated : Bool)
    (hdrive : driveLike (cs.headD []) = false) (hreserved : reservedColon (cs.headD []) = none)
    (hends : ¬ ∃ c ∈ cs, EndsColon c) :
    normalize (normalTail cs false separated) = normalTail cs false separated := by
  have hcolon : colonEnds (normalTail cs false separated) = false := by
    rw [← Bool.not_eq_true, colonEnds_normalTail h]
    exact hends
  have hloose : Loose (normalTail cs false separated) :=
    ⟨head_normalTail h separated, by rw [driveLike_normalTail h, hdrive]⟩
  have hroot := windowsRoot_plain hloose (by rw [reservedColon_normalTail h, hreserved])
  have htail : tailOf (normalTail cs false separated) 0 false = normalTail cs false separated := by
    have := normalTail_ends h separated []
    rw [List.nil_append] at this
    rw [tailOf, List.drop_zero, parts_normalTail h, this]
  by_cases hlen : 2 ≤ (normalTail cs false separated).length
  · rw [normalize_plain hlen hroot, htail, driveLike_normalTail h, hdrive, hcolon]
    rfl
  · have hone : (normalTail cs false separated).length = 1 := by
      have := List.length_pos_of_ne_nil (clean_head_ne h separated)
      omega
    rw [normalize, if_neg (clean_head_ne h separated), if_pos hone, if_neg]
    intro heq
    have := head_normalTail h separated
    rw [heq] at this
    exact Bool.noConfusion this

/-! ## A reserved device in front -/

theorem endsColon_name (name : Bytes) {c : Bytes} (hc : c ≠ []) :
    EndsColon (name ++ 58 :: c) ↔ EndsColon c := by
  obtain ⟨b, c, rfl⟩ := List.exists_cons_of_ne_nil hc
  rw [EndsColon, EndsColon, List.getLast?_append_of_ne_nil name (List.cons_ne_nil _ _),
    List.getLast?_cons_cons]

/-- Two climbs in front, or none behind the first part. -/
theorem Clean.climbs {c : Bytes} {cs : List Bytes} (h : Clean (!false) (c :: cs)) :
    (∃ rest, c = dotDot ∧ cs = dotDot :: rest ∧ Clean (!false) rest) ∨
      (¬ [dotDot, dotDot] <+: c :: cs ∧ ∀ d ∈ cs, Segments.Stays dotDot isIdle d) := by
  obtain ⟨n, rest, heq, -, hrest⟩ := h.settled
  match n with
  | 0 =>
    rw [List.replicate_zero, List.nil_append] at heq
    refine Or.inr ⟨?_, fun d hd => hrest d (heq ▸ List.mem_cons_of_mem c hd)⟩
    rintro ⟨more, hmore⟩
    exact (hrest dotDot (heq ▸ hmore ▸ by simp)).2 rfl
  | 1 =>
    rw [List.replicate_one, List.singleton_append, List.cons.injEq] at heq
    refine Or.inr ⟨?_, fun d hd => hrest d (heq.2 ▸ hd)⟩
    rintro ⟨more, hmore⟩
    rw [List.cons_append, List.cons.injEq] at hmore
    exact (hrest dotDot (heq.2 ▸ hmore.2 ▸ by simp)).2 rfl
  | n + 2 =>
    rw [List.replicate_succ, List.replicate_succ, List.cons_append, List.cons_append,
      List.cons.injEq] at heq
    refine Or.inl ⟨_, heq.1, heq.2, ⟨n, rest, rfl, fun h => absurd h (by decide), hrest⟩,
      fun d hd => h.idle d ?_, fun d hd => h.joint d ?_⟩ <;>
    · rw [heq.2]
      exact List.mem_cons_of_mem c (List.mem_cons_of_mem dotDot hd)

theorem joint_dotDot : Joint dotDot := by
  intro b hb
  simp only [dotDot, List.mem_cons, List.not_mem_nil, or_false, or_self] at hb
  rw [hb]
  rfl

theorem length_trailer (separated : Bool) : (trailer separated).length ≤ 1 := by
  cases separated <;> decide

/-- The climbs of a tail are bytes of it. -/
theorem length_normalTail_climbs {cs : List Bytes} (hcs : Clean (!false) cs) (separated : Bool)
    (separated' : Bool) :
    (normalTail cs false separated).length <
      (normalTail (dotDot :: dotDot :: cs) false separated').length := by
  have htrailer := length_trailer separated
  rw [normalTail_cons (by decide)]
  cases cs with
  | nil =>
    rw [normalTail_nil]
    simp only [dot, dotDot, List.flatMap_cons, List.length_append, List.length_cons]
    omega
  | cons c cs =>
    rw [normalTail_cons (hcs.ne_nil c List.mem_cons_self)]
    simp only [List.flatMap_cons, List.length_append, List.length_cons]
    omega

section Reserved

variable {name : Bytes} (hname : reservedDevice name = true)

include hname in
theorem driveLike_name (rest : Bytes) : driveLike (name ++ rest) = false := by
  obtain ⟨hlen, hmark⟩ := reservedDevice_spec hname
  match name, hlen with
  | a :: b :: name, _ =>
    have hb : b ≠ 58 := by
      rintro rfl
      exact absurd (hmark 58 (by simp)) (by decide)
    simp [driveLike, hb]

include hname in
/-- A part behind the device stands where it is. -/
theorem stays_device (c : Bytes) : Segments.Stays dotDot isIdle (name ++ 58 :: c) := by
  obtain ⟨hlen, -⟩ := reservedDevice_spec hname
  have hlong : ∀ d : Bytes, d.length ≤ 2 → name ++ 58 :: c ≠ d := by
    rintro d hd rfl
    rw [List.length_append] at hd
    omega
  refine ⟨?_, hlong dotDot (by decide)⟩
  rw [isIdle, Bool.or_eq_false_iff, beq_eq_false_iff_ne, beq_eq_false_iff_ne]
  exact ⟨hlong [] (by decide), hlong dot (by decide)⟩

include hname in
theorem joint_device {c : Bytes} (hc : Joint c) : Joint (name ++ 58 :: c) := by
  rw [List.append_cons]
  exact joint_append (joint_append (joint_name hname) joint_colon) hc

include hname in
theorem clean_device {c : Bytes} (hc : Joint c) {cs : List Bytes}
    (hstays : ∀ d ∈ cs, Segments.Stays dotDot isIdle d) (hcs : ∀ d ∈ cs, Joint d) :
    Clean (!false) ((name ++ 58 :: c) :: cs) := by
  have hall : ∀ d ∈ (name ++ 58 :: c) :: cs, Segments.Stays dotDot isIdle d := by
    intro d hd
    rcases List.mem_cons.mp hd with rfl | hd
    · exact stays_device hname c
    · exact hstays d hd
  refine ⟨⟨0, _, rfl, fun _ => rfl, hall⟩, fun d hd => (hall d hd).1, fun d hd => ?_⟩
  rcases List.mem_cons.mp hd with rfl | hd
  · exact joint_device hname hc
  · exact hcs d hd

include hname in
/-- Two climbs behind the device take it away. -/
theorem parts_reserved_climbs {cs : List Bytes} (hcs : Clean (!false) cs) (separated : Bool) :
    parts (dot ++ separator ++ (name ++ 58 :: normalTail (dotDot :: dotDot :: cs) false separated))
      (!false) = cs := by
  have hjoint : ∀ d ∈ dotDot :: cs, Joint d := by
    intro d hd
    rcases List.mem_cons.mp hd with rfl | hd
    · exact joint_dotDot
    · exact hcs.joint d hd
  have htail : name ++ 58 :: normalTail (dotDot :: dotDot :: cs) false separated =
      (name ++ 58 :: dotDot) ++ ((dotDot :: cs).flatMap fun d => 92 :: d) ++ trailer separated := by
    rw [normalTail_cons (by decide)]
    simp
  rw [parts_dot, htail, parts_append_trailer, parts_eq,
    split_joined (joint_device hname joint_dotDot) hjoint, Segments.resolve, List.foldl_cons,
    List.foldl_cons, Segments.walk_stays (stays_device hname dotDot),
    Segments.walk_back isIdle_dotDot (stays_device hname dotDot).2]
  exact Segments.resolve_of_settled isIdle_dotDot hcs.settled

include hname in
theorem normalize_reserved_climbs {cs : List Bytes} (hcs : Clean (!false) cs) (separated : Bool) :
    normalize (dot ++ separator ++ (name ++ 58 :: normalTail (dotDot :: dotDot :: cs) false separated)) ≠
      dot ++ separator ++ (name ++ 58 :: normalTail (dotDot :: dotDot :: cs) false separated) := by
  have htail : tailOf (dot ++ separator ++
      (name ++ 58 :: normalTail (dotDot :: dotDot :: cs) false separated)) 0 false =
        normalTail cs false (endsSeparated (dot ++ separator ++
          (name ++ 58 :: normalTail (dotDot :: dotDot :: cs) false separated))) := by
    rw [tailOf, List.drop_zero, parts_reserved_climbs hname hcs]
  rw [normalize_plain (by simp [dot, separator])
    (windowsRoot_plain (loose_dot _) (reservedColon_dot _)), htail]
  have hlen := fun ended => length_normalTail_climbs hcs ended separated
  intro heq
  have := congrArg List.length heq
  split_ifs at this <;>
    · specialize hlen (endsSeparated (dot ++ separator ++
        (name ++ 58 :: normalTail (dotDot :: dotDot :: cs) false separated)))
      simp only [List.length_append, List.length_cons] at this
      omega

include hname in
theorem normalize_reserved_again {cs : List Bytes} (h : Clean (!false) cs) (separated : Bool) :
    normalize (dot ++ separator ++ (name ++ 58 :: normalTail cs false separated)) =
        dot ++ separator ++ (name ++ 58 :: normalTail cs false separated) ↔
      (∃ c ∈ cs, EndsColon c) ∧ ¬ [dotDot, dotDot] <+: cs := by
  have hne : ∀ x : Bytes, x ≠ dot ++ separator ++ x := by
    intro x hx
    have := congrArg List.length hx
    simp only [dot, separator, List.length_append, List.length_cons, List.length_nil] at this
    omega
  cases cs with
  | nil =>
    have hclean := clean_device hname joint_dot (by simp) (by simp : ∀ d ∈ ([] : List Bytes), Joint d)
    have htail : name ++ 58 :: normalTail [] false separated =
        normalTail [name ++ 58 :: dot] false separated := by
      rw [normalTail_nil, normalTail_cons (hclean.ne_nil _ List.mem_cons_self)]
      simp
    have hends : ¬ EndsColon (name ++ 58 :: dot) := by
      rw [endsColon_name name (by decide)]
      decide
    rw [htail, normalize_guarded hclean, List.headD_cons, driveLike_name hname, if_neg (by simp [hends])]
    exact iff_of_false (hne _) (by simp)
  | cons c cs =>
    rcases h.climbs with ⟨rest, rfl, rfl, hrest⟩ | ⟨hclimbs, hstays⟩
    · refine iff_of_false (normalize_reserved_climbs hname hrest separated) ?_
      rintro ⟨-, hclimbs⟩
      exact hclimbs (List.prefix_append [dotDot, dotDot] rest)
    · have hc := h.ne_nil c List.mem_cons_self
      have hclean := clean_device hname (h.joint c List.mem_cons_self) hstays
        fun d hd => h.joint d (List.mem_cons_of_mem c hd)
      have htail : name ++ 58 :: normalTail (c :: cs) false separated =
          normalTail ((name ++ 58 :: c) :: cs) false separated := by
        rw [normalTail_cons hc, normalTail_cons (hclean.ne_nil _ List.mem_cons_self)]
        simp
      have hends : (∃ d ∈ (name ++ 58 :: c) :: cs, EndsColon d) ↔ ∃ d ∈ c :: cs, EndsColon d := by
        simp only [List.mem_cons, exists_eq_or_imp, endsColon_name name hc]
      rw [htail, normalize_guarded hclean, List.headD_cons, driveLike_name hname, Bool.false_or]
      by_cases hcolon : ∃ d ∈ c :: cs, EndsColon d
      · rw [if_pos (decide_eq_true (hends.mpr hcolon))]
        exact iff_of_true rfl ⟨hcolon, hclimbs⟩
      · rw [if_neg fun h => hcolon (hends.mp (of_decide_eq_true h))]
        exact iff_of_false (hne _) fun h => hcolon h.1

end Reserved

/-! ## When normalization settles -/

/-- Neither absolute nor drive-qualified. -/
def Relative (path : Bytes) : Prop := isAbsolute path = false ∧ driveLike path = false

/-- A relative path that names no device. -/
structure Harmless (path : Bytes) : Prop where
  relative : Relative path
  reserved : (windowsRoot path true).reserved = false

theorem namedRoot_absolute (host share : Bytes) (shareStart shareEnd displayEnd : Nat)
    (normalization : Bool) :
    (namedRoot host share shareStart shareEnd displayEnd normalization).absolute = true := by
  unfold namedRoot
  split_ifs
  · cases reservedColon share <;> rfl
  · rfl

theorem sharedRoot_absolute (path : Bytes) (normalization : Bool) :
    (sharedRoot path normalization).absolute = true := by
  unfold sharedRoot
  dsimp only
  split_ifs
  · rfl
  · rfl
  all_goals exact namedRoot_absolute _ _ _ _ _ _

theorem relative_iff {path : Bytes} : Relative path ↔ Loose path := by
  unfold Relative Loose isAbsolute
  refine and_congr_left fun hdrive => ?_
  cases path with
  | nil => exact Iff.rfl
  | cons first rest =>
    cases hfirst : isSeparator first with
    | false => simp [windowsRoot, hfirst, hdrive]
    | true =>
      refine iff_of_false (fun h => ?_) (fun h => ?_)
      · have habs : (windowsRoot (first :: rest)).absolute = true := by
          simp only [windowsRoot, hfirst, if_true]
          split_ifs
          · exact sharedRoot_absolute (first :: rest) false
          · rfl
        rw [habs] at h
        cases h
      · exact absurd (hfirst.symm.trans h) (by decide)

theorem harmless_of_loose {path : Bytes} (h : Loose path) (hreserved : reservedColon path = none) :
    Harmless path :=
  ⟨relative_iff.mpr h, (windowsRoot_plain h hreserved).reserved⟩

/-- When the second normalization changes nothing. In front of a relative path the guard stands
for a colon that is still there; a reserved device behind a namespace has its separator. -/
def Settles (path : Bytes) : Prop :=
  let root := windowsRoot path true
  let cs := parts (path.drop root.tailStart) (!root.absolute)
  path.length ≤ 1 ∨
    if root.reserved then (∃ c ∈ cs, EndsColon c) ∧ ¬ [dotDot, dotDot] <+: cs
    else if root.device = [92, 92, 63] ∨ root.device = [92, 92, 46] then
      cs ≠ [] ∧ ∀ colon, reservedColon (cs.headD []) = some colon →
        root.device = [92, 92, 63] ∧ colon + 1 = (cs.headD []).length ∧
          (cs.tail ≠ [] ∨ endsSeparated path = true)
    else if root.absolute = false ∧ root.device = [] then
      ((∃ c ∈ split path, EndsColon c) →
          driveLike (cs.headD []) = true ∨ ∃ c ∈ cs, EndsColon c) ∧
        ((reservedColon (cs.headD [])).isSome → ∃ c ∈ cs, EndsColon c)
    else True

/-- What a normal form promises: the second normalization changes nothing, and what is relative
stays so. -/
def Keeps (path : Bytes) : Prop :=
  normalize (normalize path) = normalize path ∧
    (Relative path → ∀ n, Harmless (normalize^[n + 1] path))

theorem iterate_settled {path : Bytes} (h : normalize (normalize path) = normalize path) (n : Nat) :
    normalize^[n + 1] path = normalize path := by
  rw [Function.iterate_succ_apply]
  exact Function.iterate_fixed h n

/-- A path that is not relative. -/
theorem keeps_rooted {path : Bytes} (h : ¬ Relative path) :
    Keeps path ↔ normalize (normalize path) = normalize path :=
  ⟨fun hkeeps => hkeeps.1, fun hsettled => ⟨hsettled, fun hrelative => absurd hrelative h⟩⟩

theorem keeps_of_harmless {path : Bytes} (h : Harmless (normalize path)) :
    Keeps path ↔ normalize (normalize path) = normalize path :=
  ⟨fun hkeeps => hkeeps.1, fun hsettled =>
    ⟨hsettled, fun _ n => by rwa [iterate_settled hsettled]⟩⟩

theorem settles_iff {path device : Bytes} {tailStart : Nat} {absolute reserved : Bool}
    (hlen : 2 ≤ path.length) (h : (windowsRoot path true).Is device tailStart absolute reserved) :
    Settles path ↔
      if reserved then
        (∃ c ∈ parts (path.drop tailStart) (!absolute), EndsColon c) ∧
          ¬ [dotDot, dotDot] <+: parts (path.drop tailStart) (!absolute)
      else if device = [92, 92, 63] ∨ device = [92, 92, 46] then
        parts (path.drop tailStart) (!absolute) ≠ [] ∧
          ∀ colon, reservedColon ((parts (path.drop tailStart) (!absolute)).headD []) = some colon →
            device = [92, 92, 63] ∧
              colon + 1 = ((parts (path.drop tailStart) (!absolute)).headD []).length ∧
              ((parts (path.drop tailStart) (!absolute)).tail ≠ [] ∨ endsSeparated path = true)
      else if absolute = false ∧ device = [] then
        ((∃ c ∈ split path, EndsColon c) →
            driveLike ((parts (path.drop tailStart) (!absolute)).headD []) = true ∨
              ∃ c ∈ parts (path.drop tailStart) (!absolute), EndsColon c) ∧
          ((reservedColon ((parts (path.drop tailStart) (!absolute)).headD [])).isSome →
            ∃ c ∈ parts (path.drop tailStart) (!absolute), EndsColon c)
      else True := by
  rw [Settles, h.device, h.tailStart, h.absolute, h.reserved, or_iff_right (by omega)]

/-- An absolute path, or one behind a drive, that normalization puts in its final form. -/
theorem keeps_fixed {path device : Bytes} {tailStart : Nat} {absolute : Bool}
    (hlen : 2 ≤ path.length) (h : (windowsRoot path true).Is device tailStart absolute false)
    (hrooted : absolute = true ∨ device ≠ []) (hrelative : ¬ Relative path)
    (hspace : ¬ (device = [92, 92, 63] ∨ device = [92, 92, 46]))
    (hfixed : normalize (device ++ (if absolute then separator else []) ++ tailOf path tailStart absolute) =
      device ++ (if absolute then separator else []) ++ tailOf path tailStart absolute) :
    Keeps path ↔ Settles path := by
  have hplain : ¬ (absolute = false ∧ device = []) := by
    rintro ⟨rfl, rfl⟩
    exact hrooted.elim Bool.false_ne_true fun h => h rfl
  rw [keeps_rooted hrelative, normalize_rooted hlen h hrooted, settles_iff hlen h,
    if_neg Bool.false_ne_true, if_neg hspace, if_neg hplain]
  exact iff_of_true hfixed trivial

theorem not_relative {path device : Bytes} {tailStart : Nat} {absolute : Bool}
    (h : (windowsRoot path true).Is device tailStart absolute false)
    (hrooted : absolute = true ∨ device ≠ []) : ¬ Relative path := by
  rw [relative_iff]
  intro hloose
  cases hreserved : reservedColon path with
  | none =>
    have hplain := windowsRoot_plain hloose hreserved
    rcases hrooted with rfl | hdevice
    · exact Bool.false_ne_true (hplain.absolute.symm.trans h.absolute)
    · exact hdevice (h.device.symm.trans hplain.device)
  | some colon =>
    have hdevice := windowsRoot_reserved hloose hreserved
    exact Bool.false_ne_true (h.reserved.symm.trans hdevice.reserved)

theorem keeps_space {path host : Bytes} (hlen : 2 ≤ path.length) (hhost : host = [63] ∨ host = [46])
    (h : (windowsRoot path true).Is ([92, 92] ++ host) 4 true false) :
    Keeps path ↔ Settles path := by
  have hdevice : [92, 92] ++ host = [92, 92, 63] ∨ [92, 92] ++ host = [92, 92, 46] := by
    rcases hhost with rfl | rfl <;> simp
  have hfirst : [92, 92] ++ host = [92, 92, 63] ↔ host = [63] := by simp
  have hclean := parts_clean (path.drop 4) (!true)
  rw [keeps_rooted (not_relative h (Or.inl rfl)), normalize_rooted hlen h (Or.inl rfl),
    settles_iff hlen h, if_neg Bool.false_ne_true, if_pos hdevice, hfirst, tailOf, if_pos rfl]
  generalize parts (path.drop 4) (!true) = cs at hclean
  cases cs with
  | nil =>
    rw [normalTail_nil_absolute, List.append_nil]
    exact iff_of_false (normalize_space_nil hhost) fun h => h.1 rfl
  | cons c cs =>
    rw [List.headD_cons, List.tail_cons]
    cases hreserved : reservedColon c with
    | none =>
      refine iff_of_true (normalize_space hhost hclean _ hreserved) ⟨List.cons_ne_nil c cs, ?_⟩
      intro colon hcolon
      cases hcolon
    | some colon =>
      rw [normalize_space_port hhost hclean _ hreserved]
      constructor
      · rintro hport
        refine ⟨List.cons_ne_nil c cs, fun colon' hcolon => ?_⟩
        rwa [← Option.some.inj hcolon]
      · exact fun hport => hport.2 colon rfl

theorem keeps_reserved {path name : Bytes} (hlen : 2 ≤ path.length) (hname : reservedDevice name = true)
    (h : (windowsRoot path true).Is (name ++ [58]) (name.length + 1) false true) :
    Keeps path ↔ Settles path := by
  have hclean := parts_clean (path.drop (name.length + 1)) (!false)
  have hnormal : normalize path =
      dot ++ separator ++ (name ++ 58 :: tailOf path (name.length + 1) false) := by
    rw [normalize_reserved hlen h (by simp)]
    simp
  have hharmless : Harmless (normalize path) := by
    rw [hnormal]
    exact harmless_of_loose (loose_dot _) (reservedColon_dot _)
  rw [keeps_of_harmless hharmless, hnormal, settles_iff hlen h, if_pos rfl, tailOf]
  exact normalize_reserved_again hname hclean _

theorem not_driveLike {c : Bytes} {colon : Nat} (h : reservedColon c = some colon) :
    driveLike c = false := by
  obtain ⟨name, rest, rfl, -, hname, -⟩ := reservedColon_spec h
  exact driveLike_name hname _

theorem keeps_plain {path : Bytes} (hlen : 2 ≤ path.length) (hloose : Loose path)
    (h : (windowsRoot path true).Is [] 0 false false) : Keeps path ↔ Settles path := by
  have hclean := parts_clean (path.drop 0) (!false)
  have hends : colonEnds path = true ↔ ∃ c ∈ split path, EndsColon c := colonEnds_split path
  rw [settles_iff hlen h, if_neg Bool.false_ne_true, if_neg (by decide), if_pos ⟨rfl, rfl⟩, ← hends]
  have hnormal := normalize_plain hlen h
  rw [tailOf, driveLike_normalTail hclean] at hnormal
  generalize hcs : parts (path.drop 0) (!false) = cs at hclean hnormal
  have hmem : (∃ c ∈ cs, EndsColon c) → colonEnds path = true := by
    rintro ⟨c, hc, hcolon⟩
    exact hends.mpr ⟨c, mem_parts (hcs ▸ hc), hcolon⟩
  by_cases hguard : (driveLike (cs.headD []) || colonEnds path) = true
  · rw [if_pos hguard] at hnormal
    have hharmless : Harmless (normalize path) := by
      rw [hnormal]
      exact harmless_of_loose (loose_dot _) (reservedColon_dot _)
    rw [keeps_of_harmless hharmless, hnormal, normalize_guarded hclean]
    by_cases hkept : driveLike (cs.headD []) = true ∨ ∃ c ∈ cs, EndsColon c
    · rw [if_pos (by simpa using hkept)]
      refine iff_of_true rfl ⟨fun _ => hkept, fun hreserved => ?_⟩
      obtain ⟨colon, hcolon⟩ := Option.isSome_iff_exists.mp hreserved
      exact hkept.resolve_left fun hdrive => Bool.false_ne_true ((not_driveLike hcolon).symm.trans hdrive)
    · rw [if_neg (by simpa using hkept)]
      refine iff_of_false (fun heq => ?_) fun hsettles => ?_
      · have := congrArg List.length heq
        simp only [dot, separator, List.length_append, List.length_cons, List.length_nil] at this
        omega
      · rw [Bool.or_eq_true] at hguard
        exact hkept (hsettles.1 (hguard.resolve_left fun hdrive => hkept (Or.inl hdrive)))
  · rw [if_neg hguard] at hnormal
    rw [Bool.or_eq_true, not_or, Bool.not_eq_true] at hguard
    have hnone : ¬ ∃ c ∈ cs, EndsColon c := fun hcolon => hguard.2 (hmem hcolon)
    cases hreserved : reservedColon (cs.headD []) with
    | none =>
      have hharmless : Harmless (normalize path) := by
        rw [hnormal]
        exact harmless_of_loose
          ⟨head_normalTail hclean _, by rw [driveLike_normalTail hclean, hguard.1]⟩
          (by rw [reservedColon_normalTail hclean, hreserved])
      rw [keeps_of_harmless hharmless, hnormal]
      exact iff_of_true (normalize_tail hclean _ hguard.1 hreserved hnone)
        ⟨fun hcolon => absurd hcolon hguard.2, fun hsome => Bool.noConfusion hsome⟩
    | some colon =>
      refine iff_of_false (fun hkeeps => ?_) fun hsettles => hnone (hsettles.2 rfl)
      -- the result itself names the device
      have hharmless := (hkeeps.2 (relative_iff.mpr hloose) 0).reserved
      rw [Function.iterate_one, hnormal] at hharmless
      have hdevice := windowsRoot_reserved
        ⟨head_normalTail hclean (endsSeparated path), by rw [driveLike_normalTail hclean, hguard.1]⟩
        ((reservedColon_normalTail hclean _).trans hreserved)
      exact Bool.false_ne_true (hharmless.symm.trans hdevice.reserved)

theorem reservedColon_short {path : Bytes} (h : path.length ≤ 1) : reservedColon path = none := by
  cases hreserved : reservedColon path with
  | none => rfl
  | some colon =>
    obtain ⟨name, rest, rfl, -, hname, -⟩ := reservedColon_spec hreserved
    have := (reservedDevice_spec hname).1
    rw [List.length_append] at h
    omega

theorem keeps_short {path : Bytes} (hlen : path.length ≤ 1) : Keeps path := by
  match path, hlen with
  | [], _ =>
    have hharmless : Harmless (normalize []) := ⟨⟨rfl, rfl⟩, rfl⟩
    exact (keeps_of_harmless hharmless).mpr rfl
  | [b], hlen =>
    by_cases hslash : b = 47
    · subst hslash
      exact (keeps_rooted (by rintro ⟨habs, -⟩; cases habs)).mpr rfl
    · have hnormal : normalize [b] = [b] := by
        have hone : [b].length = 1 := rfl
        rw [normalize, if_neg (List.cons_ne_nil b []), if_pos hone, if_neg (by simpa using hslash)]
      refine ⟨by rw [hnormal, hnormal], fun hrelative n => ?_⟩
      rw [iterate_settled (by rw [hnormal, hnormal]), hnormal]
      exact harmless_of_loose (relative_iff.mp hrelative) (reservedColon_short hlen)

/-- The second normalization changes nothing, and a relative path stays relative and names no
device, exactly of the paths that settle. -/
theorem normalize_settles (path : Bytes) : Keeps path ↔ Settles path := by
  by_cases hlen : 2 ≤ path.length
  · have hclean := fun n absolute => parts_clean (path.drop n) (!absolute)
    cases rooted path with
    | slash h =>
      exact keeps_fixed hlen h (Or.inl rfl) (not_relative h (Or.inl rfl)) (by simp)
        (normalize_slash (hclean 1 true) _)
    | share host share tailStart hhost hshare hne hsne hname h =>
      have hlong : ∀ x : UInt8, [92, 92] ++ host ++ [92] ++ share ≠ [92, 92, x] := by
        intro x hx
        have := congrArg List.length hx
        have := List.length_pos_of_ne_nil hne
        have := List.length_pos_of_ne_nil hsne
        simp only [List.length_append, List.length_cons, List.length_nil] at *
        omega
      exact keeps_fixed hlen h (Or.inl rfl) (not_relative h (Or.inl rfl))
        (fun hspace => hspace.elim (hlong 63) (hlong 46))
        (normalize_share hhost hshare hne hsne hname (hclean tailStart true) _)
    | space host hhost h => exact keeps_space hlen hhost h
    | port name tailStart hcolon hname h =>
      exact keeps_fixed hlen h (Or.inl rfl) (not_relative h (Or.inl rfl)) (by simp)
        (normalize_port hcolon hname (hclean tailStart true) _)
    | drive letter tailStart absolute hletter h =>
      have hdevice : [letter, 58] ≠ [] := List.cons_ne_nil _ _
      exact keeps_fixed hlen h (Or.inr hdevice) (not_relative h (Or.inr hdevice)) (by simp)
        (normalize_drive hletter (hclean tailStart absolute) _)
    | reserved name rest heq hloose hcolon hname h => exact keeps_reserved hlen hname h
    | plain hloose hname h => exact keeps_plain hlen hloose h
  · exact iff_of_true (keeps_short (by omega)) (Or.inl (by omega))

/-- `COM1:` becomes `.\COM1:.`, and that becomes `COM1:.`, a device again. -/
theorem device_returns :
    normalize (normalize [67, 79, 77, 49, 58]) ≠ normalize [67, 79, 77, 49, 58] ∧
      Relative [67, 79, 77, 49, 58] ∧
      (windowsRoot (normalize (normalize [67, 79, 77, 49, 58])) true).reserved = true := by
  refine ⟨by decide, ⟨rfl, rfl⟩, by decide⟩

end TsonicNode.Path.Win32
