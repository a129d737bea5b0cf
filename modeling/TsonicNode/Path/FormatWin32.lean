import TsonicNode.Path.Format

/-!
# Taking a Windows path apart

The root `parse` shows is found by looking at the bytes in front of it and the
one behind (`Shown` lists the cases), so the path that is put together has the
same root and the same words behind it. One kind of path is treated otherwise: a
colon and separators is guarded by `normalize`, the colon alone is not.
-/

namespace TsonicNode.Path.Win32

open TsonicNode.Lib

def parse (path : Bytes) : PathParts :=
  let root := windowsRoot path
  let stop := backWhile isSeparator path root.displayEnd path.length
  let start := backWhile (!isSeparator ·) path root.displayEnd stop
  let rootText := path.take root.displayEnd
  let directory := if start > root.displayEnd then path.take (start - 1) else rootText
  let base := slice path start stop
  let extension := Posix.extname base
  let name := base.take (base.length - extension.length)
  { root := rootText, directory, base, name, extension }

/-- What `parse` takes apart and `format_path` puts together. -/
def rejoin (path : Bytes) : Bytes := formatPath separator (parse path)

/-! ## What is put together -/

section
variable {root front last s : Bytes} (hlast : Joint last) (hs : ∀ b ∈ s, isSeparator b = true)
  (hnil : last = [] → front = [])
  (hfront : front = [] ∨ ∃ rest b, front = rest ++ [b] ∧ isSeparator b = true)
  (hroot : (windowsRoot (root ++ (front ++ (last ++ s)))).displayEnd = root.length)

/-- What stands behind the root: without the separators at the end, and with one separator in front
of the last part, or with none if it stood at the beginning. -/
def behind (front last : Bytes) : Bytes :=
  if front.length ≤ 1 then last else front.dropLast ++ 92 :: last

include hlast hs hnil hfront hroot in
theorem rejoin_eq (hloose : root = [] → front.length ≠ 1) :
    rejoin (root ++ (front ++ (last ++ s))) = root ++ behind front last := by
  have hstop : backWhile isSeparator (root ++ (front ++ (last ++ s))) root.length
      (root ++ (front ++ (last ++ s))).length = (root ++ (front ++ last)).length := by
    apply backWhile_eq (v := s) (w := []) (by simp) (by simp only [List.length_append]; omega) (by simp) hs
    by_cases hempty : last = []
    · left
      rw [hempty, hnil hempty, List.append_nil, List.append_nil]
    · right
      intro b hb
      rw [← List.append_assoc, List.getLast?_append_of_ne_nil _ hempty] at hb
      exact hlast b (List.mem_of_getLast? hb)
  have hstart : backWhile (!isSeparator ·) (root ++ (front ++ (last ++ s))) root.length
      (root ++ (front ++ last)).length = (root ++ front).length := by
    apply backWhile_eq (v := last) (w := s) (by simp) (by simp only [List.length_append]; omega) (by simp)
      fun b hb => by rw [hlast b hb]; rfl
    rcases hfront with rfl | ⟨rest, b, rfl, hb⟩
    · left
      rw [List.append_nil]
    · right
      intro c hc
      rw [← List.append_assoc, List.getLast?_concat, Option.some.injEq] at hc
      rw [← hc, hb]
      rfl
  have hbase : slice (root ++ (front ++ (last ++ s))) (root ++ front).length
      (root ++ (front ++ last)).length = last := by
    rw [← List.append_assoc]
    exact slice_over rfl (by simp only [List.length_append]; omega)
  rw [rejoin, formatPath_base]
  · simp only [parse, hroot, hstop, hstart, hbase, List.take_left' rfl]
    rcases hfront with rfl | ⟨rest, b, rfl, hb⟩
    · rw [List.append_nil, if_neg (Nat.lt_irrefl _)]
      cases root with
      | nil => rfl
      | cons r root => simp [behind]
    · have hlong : (root ++ (rest ++ [b])).length > root.length := by
        simp only [List.length_append, List.length_singleton]
        omega
      have htake : (root ++ (rest ++ [b] ++ (last ++ s))).take ((root ++ (rest ++ [b])).length - 1) =
          root ++ rest := by
        rw [show root ++ (rest ++ [b] ++ (last ++ s)) = root ++ rest ++ ([b] ++ (last ++ s)) by simp]
        apply List.take_left'
        simp only [List.length_append, List.length_singleton]
        omega
      rw [if_pos hlong, htake, behind, List.dropLast_concat, List.length_append, List.length_singleton]
      by_cases hrest : rest = []
      · subst hrest
        have hne : root ≠ [] := fun h => hloose h rfl
        simp [hne]
      · have hpos := List.length_pos_of_ne_nil hrest
        have hne : root ++ rest ≠ [] := List.append_ne_nil_of_right_ne_nil root hrest
        have hother : root ++ rest ≠ root := by simpa using hrest
        simp only [ne_eq, hne, not_false_eq_true, if_true, if_false, hother]
        rw [if_neg (by omega)]
        simp [separator]
  · simp only [parse, hroot, hstop, hstart, hbase]
    rintro rfl
    exact ⟨rfl, rfl⟩

include hs hfront in
/-- The words stay, behind the end of a root in particular. -/
theorem words_behind {z : Bytes} (hz : z = [] ∨ endsSeparated z = true ∨ front.length ≠ 1) :
    Segments.words isSeparator (z ++ (front ++ (last ++ s))) =
      Segments.words isSeparator (z ++ behind front last) := by
  rw [← List.append_assoc, ← List.append_assoc, Segments.words_append_seps hs]
  rcases hfront with rfl | ⟨rest, b, rfl, hb⟩
  · rw [List.append_nil]
    rfl
  · rw [behind, List.dropLast_concat, List.length_append, List.length_singleton]
    have hbyte : isSeparator 92 = true := rfl
    by_cases hrest : rest = []
    · subst hrest
      rw [if_pos (by simp), List.nil_append, List.append_assoc, List.singleton_append,
        Segments.words_sep hb]
      rcases hz with rfl | hz | hz
      · rfl
      · obtain ⟨z, c, rfl⟩ := (List.eq_nil_or_concat z).resolve_left (by rintro rfl; cases hz)
        have hc : isSeparator c = true := by simpa [endsSeparated] using hz
        rw [List.concat_eq_append, List.append_assoc z [c] last, List.singleton_append,
          Segments.words_sep hc, Segments.words_sep hc]
        simp [Segments.words]
      · exact absurd rfl hz
    · have hpos := List.length_pos_of_ne_nil hrest
      rw [if_neg (by omega), List.append_assoc, List.append_assoc, List.singleton_append,
        ← List.append_assoc, ← List.append_assoc, Segments.words_sep hb, Segments.words_sep hbyte]

include hlast hs hnil in
/-- What is put together ends with a separator only where the path does. -/
theorem ends_behind (h : endsSeparated (root ++ behind front last) = true) :
    endsSeparated (root ++ (front ++ (last ++ s))) = true := by
  by_cases hempty : last = []
  · subst hempty
    obtain rfl := hnil rfl
    rcases List.eq_nil_or_concat s with rfl | ⟨rest, c, rfl⟩
    · exact h
    · have hc := hs c (by simp)
      simp [endsSeparated, hc]
  · have hends : endsSeparated (root ++ behind front last) = false := by
      unfold behind
      split
      · exact endsSeparated_joint hempty hlast
      · rw [← List.singleton_append (x := 92), ← List.append_assoc, ← List.append_assoc]
        exact endsSeparated_joint hempty hlast
    exact absurd (hends.symm.trans h) Bool.false_ne_true

end

/-! ## Up to a separator -/

/-- The first is the second, or has a separator more at its end. -/
def Near (path path' : Bytes) : Prop := path = path' ∨ path = path' ++ separator

theorem Near.append {path path' : Bytes} (h : Near path path') (front : Bytes) :
    Near (front ++ path) (front ++ path') := by
  rcases h with rfl | rfl
  · exact .inl rfl
  · exact .inr (List.append_assoc _ _ _).symm

theorem parts_words (path : Bytes) (allowParent : Bool) :
    parts path allowParent =
      Segments.resolve dotDot isIdle allowParent (Segments.words isSeparator path) :=
  (Segments.resolve_filter (fun c hc => by
    rw [Bool.not_eq_false', List.isEmpty_iff] at hc
    rw [hc]
    rfl) (split path)).symm

theorem near_normalTail (cs : List Bytes) (absolute : Bool) {separated separated' : Bool}
    (h : separated' = true → separated = true) :
    Near (normalTail cs absolute separated) (normalTail cs absolute separated') := by
  cases separated with
  | false =>
    cases separated' with
    | false => exact .inl rfl
    | true => exact absurd (h rfl) Bool.false_ne_true
  | true =>
    cases separated' with
    | true => exact .inl rfl
    | false =>
      simp only [normalTail, Bool.false_eq_true, and_false, if_false, and_true]
      generalize (if joinParts cs = [] ∧ (!absolute) = true then dot else joinParts cs) = tail
      by_cases htail : tail = []
      · rw [if_neg (not_not_intro htail)]
        exact .inl rfl
      · rw [if_pos htail]
        exact .inr rfl

section
variable {path path' device : Bytes} {tailStart tailStart' : Nat} {absolute : Bool}
  (hwords : Segments.words isSeparator (path.drop tailStart) =
    Segments.words isSeparator (path'.drop tailStart'))
  (hends : endsSeparated path' = true → endsSeparated path = true)

include hwords hends in
theorem near_tailOf (absolute : Bool) : Near (tailOf path tailStart absolute) (tailOf path' tailStart' absolute) := by
  rw [tailOf, tailOf, parts_words, parts_words, hwords]
  exact near_normalTail _ _ hends

include hwords hends in
theorem near_rooted (hlen : 2 ≤ path.length) (hlen' : 2 ≤ path'.length)
    (h : (windowsRoot path true).Is device tailStart absolute false)
    (h' : (windowsRoot path' true).Is device tailStart' absolute false)
    (hrooted : absolute = true ∨ device ≠ []) : Near (normalize path) (normalize path') := by
  rw [normalize_rooted hlen h hrooted, normalize_rooted hlen' h' hrooted]
  exact (near_tailOf hwords hends absolute).append _

end

/-! ## The root that is shown -/

/-- Behind a separator: what makes no share of it. -/
inductive Lone : Bytes → Prop where
  | plain (rest : Bytes) (h : rest.head?.any isSeparator = false) : Lone rest
  | again (b : UInt8) (rest : Bytes) (hb : isSeparator b = true) (h : Bound rest) : Lone (b :: rest)
  | host (b : UInt8) (host gap : Bytes) (hb : isSeparator b = true) (hhost : Joint host)
      (hne : host ≠ []) (hgap : ∀ g ∈ gap, isSeparator g = true) : Lone (b :: (host ++ gap))

theorem windowsRoot_lone {b : UInt8} (hb : isSeparator b = true) {rest : Bytes} (h : Lone rest)
    (normalization : Bool) :
    windowsRoot (b :: rest) normalization = { absolute := true, tailStart := 1, displayEnd := 1 } := by
  cases h with
  | plain rest h => simp [windowsRoot, hb, h]
  | again c rest hc h =>
    have hend : scan (!isSeparator ·) (b :: c :: rest) 2 = 2 := by
      refine @scan_over _ [b, c] [] rest 2 rfl (fun d hd => absurd hd List.not_mem_nil) ?_
      cases rest with
      | nil => rfl
      | cons d rest => simpa [Bound] using h
    simp only [windowsRoot, hb, hc, List.head?_cons, Option.any_some, if_true, sharedRoot, hend,
      true_or]
  | host c host gap hc hhost hne hgap =>
    have hhead : ∀ rest : Bytes, (∀ g ∈ rest, isSeparator g = true) →
        rest.head?.all (fun d => !(!isSeparator d)) = true := by
      intro rest hrest
      cases rest with
      | nil => rfl
      | cons g rest => simpa using hrest g List.mem_cons_self
    have hend : scan (!isSeparator ·) (b :: c :: (host ++ gap)) 2 = 2 + host.length :=
      @scan_over _ [b, c] host gap 2 rfl (fun d hd => by simp [hhost d hd]) (hhead gap hgap)
    have hgapEnd : scan isSeparator (b :: c :: (host ++ gap)) (2 + host.length) =
        2 + host.length + gap.length := by
      have hscan := @scan_over isSeparator (b :: c :: host) gap [] (2 + host.length)
        (by simp only [List.length_cons]; omega) hgap rfl
      simpa using hscan
    have hshareEnd : scan (!isSeparator ·) (b :: c :: (host ++ gap)) (2 + host.length + gap.length) =
        2 + host.length + gap.length := by
      have hscan := @scan_over (!isSeparator ·) (b :: c :: (host ++ gap)) [] [] (2 + host.length + gap.length)
        (by simp only [List.length_cons, List.length_append]; omega)
        (fun d hd => absurd hd List.not_mem_nil) rfl
      simpa using hscan
    simp only [windowsRoot, hb, hc, List.head?_cons, Option.any_some, if_true, sharedRoot, hend,
      hgapEnd, hshareEnd, ite_self]

/-- What `windows_root` looks at when it does not normalize. -/
inductive Shown : Bytes → Prop where
  | slash (b : UInt8) (rest : Bytes) (hb : isSeparator b = true) (h : Lone rest) : Shown (b :: rest)
  | share (front host gap share after : Bytes) (hfront : front.length = 2)
      (hfronts : ∀ b ∈ front, isSeparator b = true) (hhost : Joint host) (hne : host ≠ [])
      (hgap : ∀ b ∈ gap, isSeparator b = true) (hgne : gap ≠ []) (hshare : Joint share)
      (hsne : share ≠ []) (hafter : Bound after) : Shown (front ++ (host ++ (gap ++ (share ++ after))))
  | drive (letter : UInt8) (rest : Bytes) (h : isDrive letter = true) : Shown (letter :: 58 :: rest)
  | loose (path : Bytes) (h : Loose path) : Shown path

/-- A text up to where the kind of its bytes changes. -/
theorem exists_run (p : UInt8 → Bool) (text : Bytes) :
    ∃ run rest, text = run ++ rest ∧ (∀ b ∈ run, p b = true) ∧ rest.head?.all (fun b => !p b) = true ∧
      (run = [] → text.head?.all (fun b => !p b) = true) := by
  refine ⟨text.takeWhile p, text.dropWhile p, List.takeWhile_append_dropWhile.symm,
    fun b hb => List.mem_takeWhile_imp hb, ?_, fun hnil => ?_⟩
  · cases hrest : text.dropWhile p with
    | nil => rfl
    | cons b rest =>
      have := List.head_dropWhile_not p (l := text) (by rw [hrest]; exact List.cons_ne_nil b rest)
      simp only [hrest, List.head_cons] at this
      simpa using this
  · cases text with
    | nil => rfl
    | cons b text =>
      cases hb : p b with
      | true =>
        rw [List.takeWhile_cons_of_pos hb] at hnil
        cases hnil
      | false => simp [hb]

theorem shown (path : Bytes) : Shown path := by
  cases hfirst : path.head?.any isSeparator with
  | false =>
    cases hdrive : driveLike path with
    | false => exact .loose path ⟨hfirst, hdrive⟩
    | true =>
      obtain ⟨letter, rest, rfl, hletter⟩ := driveLike_spec hdrive
      exact .drive letter rest hletter
  | true =>
    match path, hfirst with
    | b :: rest, hb =>
      cases hsecond : rest.head?.any isSeparator with
      | false => exact .slash b rest hb (.plain rest hsecond)
      | true =>
        match rest, hsecond with
        | c :: more, hc =>
          obtain ⟨host, behindHost, rfl, hhost, hhostEnd, hnone⟩ := exists_run (!isSeparator ·) more
          have hhost : Joint host := fun d hd => by simpa using hhost d hd
          by_cases hne : host = []
          · refine .slash b _ hb (.again c _ hc ?_)
            simpa [Bound] using hnone hne
          obtain ⟨gap, behindGap, rfl, hgap, hgapEnd, hnogap⟩ := exists_run isSeparator behindHost
          by_cases hshare : behindGap = []
          · rw [hshare, List.append_nil]
            exact .slash b _ hb (.host c host gap hc hhost hne hgap)
          obtain ⟨d, rest, rfl⟩ := List.exists_cons_of_ne_nil hshare
          have hd : isSeparator d = false := by simpa using hgapEnd
          have hgne : gap ≠ [] := by
            rintro rfl
            simp [hd] at hhostEnd
          obtain ⟨share, after, heq, hshare, hafter, hnoshare⟩ := exists_run (!isSeparator ·) (d :: rest)
          rw [heq]
          refine .share [b, c] host gap share after rfl ?_ hhost hne hgap hgne
            (fun e he => by simpa using hshare e he) ?_ ?_
          · intro e he
            rcases List.mem_cons.mp he with rfl | he
            · exact hb
            · rw [List.mem_singleton.mp he]
              exact hc
          · intro hnil
            have hsep := hnoshare hnil
            simp [hd] at hsep
          · simpa [Bound] using hafter

/-! ## One kind of root after the other -/

section
variable {front last s : Bytes} (hlast : Joint last) (hs : ∀ b ∈ s, isSeparator b = true)
  (hnil : last = [] → front = [])
  (hfront : front = [] ∨ ∃ rest b, front = rest ++ [b] ∧ isSeparator b = true)

theorem length_behind (root : Bytes) :
    (root ++ behind front last).length ≤ (root ++ (front ++ (last ++ s))).length := by
  unfold behind
  split
  · simp only [List.length_append]
    omega
  · simp only [List.length_append, List.length_cons, List.length_dropLast]
    omega

include hlast hs hnil hfront in
/-- A root that reads the same before what is behind it. -/
theorem near_closed {root device : Bytes} {tailStart : Nat} {absolute : Bool}
    (hshown : (windowsRoot (root ++ (front ++ (last ++ s)))).displayEnd = root.length)
    (hloose : root = [] → front.length ≠ 1) (hlen : 2 ≤ (root ++ behind front last).length)
    (h : (windowsRoot (root ++ (front ++ (last ++ s))) true).Is device tailStart absolute false)
    (h' : (windowsRoot (root ++ behind front last) true).Is device tailStart absolute false)
    (hrooted : absolute = true ∨ device ≠ []) (htail : tailStart ≤ root.length)
    (hz : root.drop tailStart = [] ∨ endsSeparated (root.drop tailStart) = true ∨ front.length ≠ 1) :
    Near (normalize (root ++ (front ++ (last ++ s))))
      (normalize (rejoin (root ++ (front ++ (last ++ s))))) := by
  rw [rejoin_eq hlast hs hnil hfront hshown hloose]
  apply near_rooted _ (ends_behind hlast hs hnil) (Nat.le_trans hlen (length_behind root)) hlen h h' hrooted
  rw [List.drop_append_of_le_length htail, List.drop_append_of_le_length htail]
  exact words_behind hs hfront hz

theorem plain_joint {text : Bytes} (h : Joint text) : Lone text := by
  refine .plain text ?_
  cases text with
  | nil => rfl
  | cons b text => exact h b List.mem_cons_self

include hlast hnil hfront in
theorem lone_behind (h : Lone (front ++ (last ++ s))) : Lone (behind front last) := by
  unfold behind
  split
  · exact plain_joint hlast
  rename_i hlong
  rcases hfront with rfl | ⟨rest, b, rfl, hb⟩
  · exact absurd (Nat.zero_le 1) hlong
  have hne : last ≠ [] := fun hempty => absurd (hnil hempty) (by simp)
  obtain ⟨d, more, rfl⟩ := List.exists_cons_of_ne_nil hne
  have hd : isSeparator d = false := hlast d List.mem_cons_self
  rw [List.dropLast_concat]
  cases rest with
  | nil => exact absurd (Nat.le_refl 1) hlong
  | cons c rest =>
    rw [List.append_assoc, List.cons_append] at h
    generalize htext : c :: (rest ++ ([b] ++ (d :: more ++ s))) = text at h
    cases h with
    | plain _ h =>
      rw [← htext] at h
      exact .plain _ h
    | again c' text hc h =>
      rw [List.cons.injEq] at htext
      obtain ⟨rfl, rfl⟩ := htext
      refine .again c _ hc ?_
      cases rest with
      | nil => rfl
      | cons e rest => exact h
    | host c' host gap hc hhost hne hgap =>
      rw [List.cons.injEq] at htext
      obtain ⟨rfl, htext⟩ := htext
      -- the last part stands behind a separator, where only separators are left
      exfalso
      have hgapped : ∀ xs : Bytes, gap = xs ++ d :: more ++ s → False := by
        rintro xs rfl
        exact Bool.false_ne_true (hd.symm.trans (hgap d (by simp)))
      rcases List.append_eq_append_iff.mp htext with ⟨as, rfl, has⟩ | ⟨bs, rfl, hbs⟩
      · cases as with
        | nil => exact hgapped [b] (by simpa using has.symm)
        | cons a as =>
          simp only [List.cons_append, List.cons.injEq] at has
          have hab : isSeparator a = false := hhost a (by simp)
          rw [← has.1, hb] at hab
          cases hab
      · exact hgapped (bs ++ [b]) (by simpa using hbs)

include hlast hs hnil hfront in
theorem near_slash {b : UInt8} (hb : isSeparator b = true) (h : Lone (front ++ (last ++ s))) :
    Near (normalize (b :: (front ++ (last ++ s)))) (normalize (rejoin (b :: (front ++ (last ++ s))))) := by
  have hroot := windowsRoot_lone hb h false
  have hnormal := windowsRoot_lone hb h true
  have hbehind := windowsRoot_lone hb (lone_behind hlast hnil hfront h) true
  by_cases hlen : 2 ≤ ([b] ++ behind front last).length
  · exact @near_closed front last s hlast hs hnil hfront [b] [] 1 true (by
      show (windowsRoot (b :: (front ++ (last ++ s))) false).displayEnd = 1
      rw [hroot]) (fun h => absurd h (List.cons_ne_nil b [])) hlen
      (by
        show (windowsRoot (b :: (front ++ (last ++ s))) true).Is [] 1 true false
        rw [hnormal]
        exact ⟨rfl, rfl, rfl, rfl⟩)
      (by
        show (windowsRoot (b :: behind front last) true).Is [] 1 true false
        rw [hbehind]
        exact ⟨rfl, rfl, rfl, rfl⟩)
      (Or.inl rfl) (Nat.le_refl 1) (Or.inl rfl)
  · -- nothing but separators
    have hempty : last = [] := by
      by_contra hne
      have hpos := List.length_pos_of_ne_nil hne
      apply hlen
      unfold behind
      split <;> simp only [List.length_append, List.length_cons, List.length_nil] <;> omega
    obtain rfl := hnil hempty
    subst hempty
    have hrejoin : rejoin (b :: ([] ++ ([] ++ s))) = [b] := by
      have heq := @rejoin_eq [b] [] [] s hlast hs hnil hfront (by
        show (windowsRoot (b :: ([] ++ ([] ++ s))) false).displayEnd = 1
        rw [hroot]) (fun h => absurd h (List.cons_ne_nil b []))
      exact heq
    rw [hrejoin, List.nil_append, List.nil_append]
    have hone : normalize [b] = separator := by
      simp only [isSeparator, Bool.or_eq_true, beq_iff_eq] at hb
      rcases hb with rfl | rfl <;> rfl
    cases s with
    | nil => exact .inl rfl
    | cons c s =>
      have his : (windowsRoot (b :: c :: s) true).Is [] 1 true false := by
        rw [show b :: c :: s = b :: ([] ++ ([] ++ c :: s)) from rfl, hnormal]
        exact ⟨rfl, rfl, rfl, rfl⟩
      rw [normalize_rooted (by simp) his (Or.inl rfl), tailOf, parts_words, List.drop_succ_cons,
        List.drop_zero, Segments.words_seps hs, hone]
      left
      exact congrArg (separator ++ ·) (normalTail_nil_absolute _)

include hfront hlast in
/-- It begins as the path does, where the path begins with no separator. -/
theorem head_behind (h : (front ++ (last ++ s)).head?.any isSeparator = false) :
    (behind front last).head?.any isSeparator = false := by
  rcases hfront with rfl | ⟨rest, b, rfl, hb⟩
  · cases last with
    | nil => rfl
    | cons d last => exact hlast d List.mem_cons_self
  · cases rest with
    | nil => exact absurd (hb.symm.trans h) (by decide)
    | cons c rest =>
      unfold behind
      rw [if_neg (by simp), List.dropLast_concat]
      exact h

theorem windowsRoot_letter_shown {letter : UInt8} (h : isDrive letter = true) (rest : Bytes) :
    (windowsRoot (letter :: 58 :: rest)).displayEnd = if rest.head?.any isSeparator then 3 else 2 := by
  have hlike : driveLike (letter :: 58 :: rest) = true := h
  simp only [windowsRoot, isSeparator_drive h, hlike, Bool.false_eq_true, if_false, if_true,
    List.drop_succ_cons, List.drop_zero]
  split_ifs <;> rfl

include hlast hs hnil hfront in
theorem near_drive {letter : UInt8} (h : isDrive letter = true)
    (hrest : (front ++ (last ++ s)).head?.any isSeparator = false) :
    Near (normalize (letter :: 58 :: (front ++ (last ++ s))))
      (normalize (rejoin (letter :: 58 :: (front ++ (last ++ s))))) := by
  have hbehind := head_behind hlast hfront hrest
  have hshown := windowsRoot_letter_shown h (front ++ (last ++ s))
  have his := windowsRoot_drive h (front ++ (last ++ s)) true
  have his' := windowsRoot_drive h (behind front last) true
  rw [hrest, if_neg Bool.false_ne_true] at hshown his
  rw [hbehind, if_neg Bool.false_ne_true] at his'
  exact @near_closed front last s hlast hs hnil hfront [letter, 58] _ 2 false hshown
    (fun h => absurd h (List.cons_ne_nil _ _)) (by simp) his his' (Or.inr (List.cons_ne_nil _ _))
    (Nat.le_refl 2) (Or.inl rfl)

include hlast hs hnil hfront in
theorem near_drive_absolute {letter c : UInt8} (h : isDrive letter = true) (hc : isSeparator c = true) :
    Near (normalize (letter :: 58 :: c :: (front ++ (last ++ s))))
      (normalize (rejoin (letter :: 58 :: c :: (front ++ (last ++ s))))) := by
  have hhead : ∀ rest : Bytes, (c :: rest).head?.any isSeparator = true := fun _ => hc
  have hshown := windowsRoot_letter_shown h (c :: (front ++ (last ++ s)))
  have his := windowsRoot_drive h (c :: (front ++ (last ++ s))) true
  have his' := windowsRoot_drive h (c :: behind front last) true
  rw [hhead, if_pos rfl] at hshown his his'
  exact @near_closed front last s hlast hs hnil hfront [letter, 58, c] _ 3 true hshown
    (fun h => absurd h (List.cons_ne_nil _ _)) (by simp) his his' (Or.inl rfl) (Nat.le_refl 3) (Or.inl rfl)

/-- The start of the tail behind a share, wherever the path ends. -/
theorem namedRoot_is (host share : Bytes) (shareStart shareEnd : Nat) (hhost : 4 ≤ shareStart) :
    ∃ device tailStart, tailStart ≤ max shareEnd (shareStart + share.length) ∧ ∀ displayEnd,
      (namedRoot host share shareStart shareEnd displayEnd true).Is device tailStart true false := by
  by_cases hspace : host = [63] ∨ host = [46]
  · cases hreserved : reservedColon share with
    | none => exact ⟨_, 4, by omega, fun _ => namedRoot_space hspace hreserved⟩
    | some colon =>
      refine ⟨_, shareStart + colon + 1, ?_, fun _ => namedRoot_port hspace hreserved⟩
      obtain ⟨name, rest, rfl, -, -, rfl⟩ := reservedColon_spec hreserved
      simp only [List.length_append, List.length_cons]
      omega
  · exact ⟨_, shareEnd, by omega, fun _ => namedRoot_share hspace⟩

include hlast hs hnil hfront in
theorem near_share {start host gap share : Bytes} {c : UInt8} (hstart : start.length = 2)
    (hstarts : ∀ b ∈ start, isSeparator b = true) (hhost : Joint host) (hne : host ≠ [])
    (hgap : ∀ b ∈ gap, isSeparator b = true) (hgne : gap ≠ []) (hshare : Joint share)
    (hsne : share ≠ []) (hc : isSeparator c = true) :
    Near (normalize (start ++ (host ++ (gap ++ (share ++ c :: (front ++ (last ++ s)))))))
      (normalize (rejoin (start ++ (host ++ (gap ++ (share ++ c :: (front ++ (last ++ s)))))))) := by
  have hroots := fun (rest : Bytes) (normalization : Bool) =>
    @windowsRoot_spread host share (c :: rest) hhost hshare hne hsne (bound_cons hc rest) start gap hstart
      hstarts hgap hgne normalization
  have hpath : ∀ rest : Bytes, start ++ (host ++ (gap ++ (share ++ c :: rest))) =
      start ++ (host ++ (gap ++ (share ++ [c]))) ++ rest := fun rest => by simp
  have hpos := List.length_pos_of_ne_nil hne
  have hgpos := List.length_pos_of_ne_nil hgne
  have hlength : (start ++ (host ++ (gap ++ (share ++ [c])))).length =
      2 + host.length + gap.length + share.length + 1 := by
    simp only [List.length_append, List.length_singleton, hstart]
    omega
  obtain ⟨device, tailStart, htail, his⟩ := namedRoot_is host share (2 + host.length + gap.length)
    (2 + host.length + gap.length + share.length) (by omega)
  have hshown : (windowsRoot (start ++ (host ++ (gap ++ (share ++ [c]))) ++ (front ++ (last ++ s)))).displayEnd =
      (start ++ (host ++ (gap ++ (share ++ [c])))).length := by
    rw [← hpath, hroots, hlength, if_neg (List.cons_ne_nil c _), namedRoot, if_neg (by simp)]
  have hsame : ∀ rest, (windowsRoot (start ++ (host ++ (gap ++ (share ++ [c]))) ++ rest) true).Is device
      tailStart true false := fun rest => by
    rw [← hpath, hroots]
    exact his _
  have hloose : start ++ (host ++ (gap ++ (share ++ [c]))) ≠ [] := by
    intro h
    rw [h] at hlength
    simp only [List.length_nil] at hlength
    omega
  have hend : endsSeparated ((start ++ (host ++ (gap ++ (share ++ [c])))).drop tailStart) = true := by
    rw [← List.append_assoc, ← List.append_assoc, ← List.append_assoc, List.drop_append_of_le_length (by
      simp only [List.length_append, hstart]
      omega)]
    simp [endsSeparated, hc]
  have hlen : 2 ≤ (start ++ (host ++ (gap ++ (share ++ [c]))) ++ behind front last).length := by
    rw [List.length_append, hlength]
    omega
  rw [hpath]
  exact near_closed hlast hs hnil hfront hshown (fun h => absurd h hloose) hlen (hsame _) (hsame _)
    (Or.inl rfl) (by omega) (Or.inr (Or.inl hend))

end

/-! ## No root -/

theorem colonEnds_words (path : Bytes) :
    colonEnds path = true ↔ ∃ c ∈ Segments.words isSeparator path, EndsColon c := by
  rw [colonEnds_split]
  constructor
  · rintro ⟨c, hc, hends⟩
    refine ⟨c, List.mem_filter.mpr ⟨hc, ?_⟩, hends⟩
    cases c with
    | nil => cases hends
    | cons b c => rfl
  · rintro ⟨c, hc, hends⟩
    exact ⟨c, (List.mem_filter.mp hc).1, hends⟩

theorem windowsRoot_loose_shown {path : Bytes} (h : Loose path) : (windowsRoot path).displayEnd = 0 := by
  cases path with
  | nil => rfl
  | cons first rest =>
    have hfirst : isSeparator first = false := h.1
    simp only [windowsRoot, hfirst, h.2, Bool.false_eq_true, if_false]

/-- Two paths without a root that begin with the same part and have the same words from any place in
it on. -/
theorem near_parts {c more more' : Bytes} (hc : Joint c) (hne : c ≠ []) (hmore : Bound more)
    (hmore' : Bound more') (hloose : Loose (c ++ more)) (hlen : 2 ≤ (c ++ more).length)
    (hlen' : 2 ≤ (c ++ more').length)
    (hends : endsSeparated (c ++ more') = true → endsSeparated (c ++ more) = true)
    (hwords : ∀ n ≤ c.length, Segments.words isSeparator ((c ++ more).drop n) =
      Segments.words isSeparator ((c ++ more').drop n)) :
    Near (normalize (c ++ more)) (normalize (c ++ more')) := by
  have hhead : ∀ rest : Bytes, (c ++ rest).head? = c.head? := fun rest => by
    cases c with
    | nil => exact absurd rfl hne
    | cons b c => rfl
  have hloose' : Loose (c ++ more') := by
    obtain ⟨hfirst, hdrive⟩ := hloose
    refine ⟨?_, ?_⟩
    · rw [hhead] at hfirst ⊢
      exact hfirst
    · rw [driveLike_append hne hmore'] at *
      rw [← hdrive, driveLike_append hne hmore]
  have hreserved := reservedColon_bound hc hmore
  have hreserved' := reservedColon_bound hc hmore'
  cases hcolon : reservedColon c with
  | none =>
    rw [hcolon] at hreserved hreserved'
    have hzero := hwords 0 (Nat.zero_le _)
    have hparts : parts ((c ++ more).drop 0) true = parts ((c ++ more').drop 0) true := by
      rw [parts_words, parts_words, hzero]
    have hguard : (driveLike (tailOf (c ++ more) 0 false) || colonEnds (c ++ more)) =
        (driveLike (tailOf (c ++ more') 0 false) || colonEnds (c ++ more')) := by
      have hcolons : colonEnds (c ++ more) = colonEnds (c ++ more') := by
        rw [Bool.eq_iff_iff, colonEnds_words, colonEnds_words]
        rw [List.drop_zero, List.drop_zero] at hzero
        rw [hzero]
      rw [tailOf, tailOf, driveLike_normalTail (parts_clean _ _), driveLike_normalTail (parts_clean _ _),
        hcolons]
      rw [show (!false) = true from rfl, hparts]
    rw [normalize_plain hlen (windowsRoot_plain hloose hreserved),
      normalize_plain hlen' (windowsRoot_plain hloose' hreserved'), hguard]
    split
    · exact (near_tailOf hzero hends false).append _
    · exact near_tailOf hzero hends false
  | some colon =>
    rw [hcolon] at hreserved hreserved'
    obtain ⟨name, rest, hname, -, -, hlength⟩ := reservedColon_spec hcolon
    have hle : colon + 1 ≤ c.length := by
      rw [hname, hlength, List.length_append, List.length_cons]
      omega
    have hdevice : ∀ rest : Bytes, (c ++ rest).take (colon + 1) = c.take (colon + 1) := fun rest =>
      List.take_append_of_le_length hle
    have hroot := windowsRoot_reserved hloose hreserved
    have hroot' := windowsRoot_reserved hloose' hreserved'
    rw [hdevice] at hroot hroot'
    have hdevne : c.take (colon + 1) ≠ [] := by
      intro hnil
      have := congrArg List.length hnil
      rw [List.length_take, List.length_nil] at this
      omega
    rw [normalize_reserved hlen hroot hdevne, normalize_reserved hlen' hroot' hdevne]
    exact (near_tailOf (hwords _ hle) hends false).append _

/-- A colon and separators. -/
def ColonOnly (path : Bytes) : Prop := ∃ s, s ≠ [] ∧ (∀ b ∈ s, isSeparator b = true) ∧ path = 58 :: s

theorem bound_seps {s : Bytes} (hs : ∀ b ∈ s, isSeparator b = true) : Bound s := by
  cases s with
  | nil => rfl
  | cons b s => exact hs b List.mem_cons_self

/-- One byte and separators. -/
theorem normalize_single {b : UInt8} {s : Bytes} (hb : isSeparator b = false) (hne : s ≠ [])
    (hs : ∀ c ∈ s, isSeparator c = true) :
    normalize (b :: s) = if b = 58 then [46, 92, 58, 92] else [b, 92] := by
  obtain ⟨c, s, rfl⟩ := List.exists_cons_of_ne_nil hne
  have hc : isSeparator c = true := hs c List.mem_cons_self
  have hjoint : Joint [b] := fun d hd => by rw [List.mem_singleton.mp hd]; exact hb
  have hloose : Loose (b :: c :: s) := by
    refine ⟨hb, ?_⟩
    have hbound := driveLike_append (List.cons_ne_nil b []) (bound_cons hc s)
    exact hbound
  have hreserved : reservedColon (b :: c :: s) = none := by
    have hbound := reservedColon_bound hjoint (bound_cons hc s)
    rw [reservedColon_short (show [b].length ≤ 1 from Nat.le_refl 1)] at hbound
    exact hbound
  have hwords : Segments.words isSeparator (b :: c :: s) = [[b]] := by
    have happend := Segments.words_append_seps hs [b]
    rw [show [b] ++ c :: s = b :: c :: s from rfl] at happend
    rw [happend, Segments.words, List.splitOnP_eq_singleton hjoint]
    rfl
  have hends : endsSeparated (b :: c :: s) = true := by
    obtain ⟨rest, d, heq⟩ := (List.eq_nil_or_concat (c :: s)).resolve_left hne
    have hd : isSeparator d = true := hs d (by rw [heq]; simp)
    rw [heq, List.concat_eq_append, ← List.cons_append, endsSeparated, List.getLast?_concat]
    exact hd
  have hcolon : colonEnds (b :: c :: s) = decide (b = 58) := by
    rw [Bool.eq_iff_iff, colonEnds_words, hwords]
    simp [EndsColon]
  rw [normalize_plain (by simp) (windowsRoot_plain hloose hreserved), tailOf, List.drop_zero,
    parts_words, hwords, hends, hcolon]
  by_cases hdot : b = 46
  · subst hdot
    rfl
  · have hstays : Segments.Stays dotDot isIdle [b] := by
      constructor
      · simp [isIdle, dot, hdot]
      · simp [dotDot]
    have hresolve : Segments.resolve dotDot isIdle true [[b]] = [[b]] := by
      rw [Segments.resolve, List.foldl_cons, Segments.walk_stays hstays]
      rfl
    rw [show (!false) = true from rfl, hresolve]
    have htail : normalTail [[b]] false true = [b, 92] := by
      rw [normalTail_cons (List.cons_ne_nil b [])]
      rfl
    have hdrive : driveLike [b, 92] = false := rfl
    rw [htail, hdrive, Bool.false_or]
    by_cases hb : b = 58
    · subst hb
      rfl
    · simp [hb]

theorem normalize_one {b : UInt8} (hb : isSeparator b = false) : normalize [b] = [b] := by
  rw [normalize, if_neg (List.cons_ne_nil b []), if_pos (show [b].length = 1 from rfl), if_neg]
  intro heq
  rw [List.cons.injEq] at heq
  rw [heq.1] at hb
  cases hb

theorem not_colonOnly {b d : UInt8} {rest : Bytes} (hd : isSeparator d = false) (hmem : d ∈ rest) :
    ¬ ColonOnly (b :: rest) := by
  rintro ⟨s, -, hs, heq⟩
  rw [List.cons.injEq] at heq
  exact Bool.false_ne_true (hd.symm.trans (hs d (heq.2 ▸ hmem)))

section
variable {front last s : Bytes} (hlast : Joint last) (hs : ∀ b ∈ s, isSeparator b = true)
  (hnil : last = [] → front = [])
  (hfront : front = [] ∨ ∃ rest b, front = rest ++ [b] ∧ isSeparator b = true)

include hlast hs in
/-- The path is its last part. -/
theorem near_last (hne : last ≠ []) (h : Loose (last ++ s)) :
    Near (normalize (last ++ s)) (normalize last) ↔ ¬ ColonOnly (last ++ s) := by
  match last, hne with
  | [b], _ =>
    have hb : isSeparator b = false := hlast b List.mem_cons_self
    by_cases hempty : s = []
    · subst hempty
      refine iff_of_true (.inl rfl) ?_
      rintro ⟨s, hne, -, heq⟩
      rw [List.append_nil, List.cons.injEq] at heq
      exact hne heq.2.symm
    · rw [List.singleton_append, normalize_single hb hempty hs, normalize_one hb]
      by_cases hcolon : b = 58
      · subst hcolon
        refine iff_of_false (by simp [Near, separator]) (not_not_intro ⟨s, hempty, hs, rfl⟩)
      · rw [if_neg hcolon]
        refine iff_of_true (.inr rfl) ?_
        rintro ⟨s, -, -, heq⟩
        rw [List.cons.injEq] at heq
        exact hcolon heq.1
  | b :: d :: last, hne =>
    have hd : isSeparator d = false := hlast d (by simp)
    refine iff_of_true ?_ (not_colonOnly hd (by simp))
    have hnear := @near_parts (b :: d :: last) s [] hlast hne (bound_seps hs) bound_nil h (by simp) (by simp)
      (fun hends => by
        rw [List.append_nil] at hends
        have hjoint := @endsSeparated_joint [] _ hne hlast
        exact absurd (hjoint.symm.trans hends) Bool.false_ne_true)
      (fun n hn => by
        rw [List.append_nil, List.drop_append_of_le_length hn, Segments.words_append_seps hs])
    rwa [List.append_nil] at hnear

include hlast hs hnil hfront in
theorem near_loose (h : Loose (front ++ (last ++ s))) :
    Near (normalize (front ++ (last ++ s))) (normalize (rejoin (front ++ (last ++ s)))) ↔
      ¬ ColonOnly (front ++ (last ++ s)) := by
  have hbegins : front.length ≠ 1 := by
    intro hone
    rcases hfront with rfl | ⟨rest, b, rfl, hb⟩
    · cases hone
    · rw [List.length_append, List.length_singleton] at hone
      obtain rfl : rest = [] := List.eq_nil_of_length_eq_zero (by omega)
      exact Bool.false_ne_true (h.1.symm.trans hb)
  have hrejoin : rejoin (front ++ (last ++ s)) = behind front last :=
    @rejoin_eq [] front last s hlast hs hnil hfront (windowsRoot_loose_shown h) fun _ => hbegins
  rw [hrejoin]
  by_cases hempty : last = []
  · obtain rfl := hnil hempty
    subst hempty
    cases s with
    | nil =>
      refine iff_of_true (.inl rfl) ?_
      rintro ⟨s, -, -, heq⟩
      cases heq
    | cons b s => exact absurd (h.1.symm.trans (hs b List.mem_cons_self)) Bool.false_ne_true
  obtain ⟨d, more, hd⟩ := List.exists_cons_of_ne_nil hempty
  have hdsep : isSeparator d = false := hlast d (by rw [hd]; exact List.mem_cons_self)
  rcases hfront with rfl | ⟨rest, b, rfl, hb⟩
  · exact near_last hlast hs hempty h
  · obtain ⟨first, rest, rfl⟩ := List.exists_cons_of_ne_nil (show rest ≠ [] from fun h => hbegins (by rw [h]; rfl))
    have hfirst : isSeparator first = false := h.1
    refine iff_of_true ?_ (not_colonOnly hdsep (by simp [hd]))
    have hbehind : behind (first :: rest ++ [b]) last = first :: rest ++ 92 :: last := by
      unfold behind
      rw [if_neg (by simp), List.dropLast_concat]
    obtain ⟨c, after, hrest, hc, hafter, hnone⟩ := exists_run (!isSeparator ·) (first :: rest)
    have hjoint : Joint c := fun e he => by simpa using hc e he
    have hne : c ≠ [] := fun hempty => by
      have := hnone hempty
      simp [hfirst] at this
    have hbound : ∀ (e : UInt8) (text : Bytes), isSeparator e = true → Bound (after ++ e :: text) := by
      intro e text he
      cases after with
      | nil => exact he
      | cons a after => simpa [Bound] using hafter
    have hpath : first :: rest ++ [b] ++ (last ++ s) = c ++ (after ++ b :: (last ++ s)) := by
      rw [hrest]
      simp
    have hpath' : first :: rest ++ 92 :: last = c ++ (after ++ 92 :: last) := by
      rw [hrest]
      simp
    have hcpos := List.length_pos_of_ne_nil hne
    rw [hbehind, hpath']
    rw [hpath] at h ⊢
    apply near_parts hjoint hne (hbound b _ hb) (hbound 92 _ rfl) h
    · simp only [List.length_append, List.length_cons]
      omega
    · simp only [List.length_append, List.length_cons]
      omega
    · intro hends
      rw [← List.append_assoc, ← List.singleton_append, ← List.append_assoc,
        endsSeparated_joint hempty hlast] at hends
      cases hends
    · intro n hn
      rw [List.drop_append_of_le_length hn, List.drop_append_of_le_length hn, ← List.append_assoc,
        ← List.append_assoc, Segments.words_sep hb, Segments.words_sep (show isSeparator 92 = true from rfl),
        Segments.words_append_seps hs]

end

/-- **Taking apart and putting together keeps what a path is normalized to**, up to a separator at
the end, of every path but a colon and separators. -/
theorem normalize_rejoin (path : Bytes) :
    Near (normalize path) (normalize (rejoin path)) ↔ ¬ ColonOnly path := by
  have hhead : ∀ {b : UInt8} {rest : Bytes}, b ≠ 58 → ¬ ColonOnly (b :: rest) := by
    rintro b rest hb ⟨s, -, -, heq⟩
    rw [List.cons.injEq] at heq
    exact hb heq.1
  have hsep : ∀ {b : UInt8}, isSeparator b = true → b ≠ 58 := by
    rintro b hb rfl
    cases hb
  cases shown path with
  | slash b rest hb h =>
    obtain ⟨front, last, s, rfl, hlast, hs, hnil, hfront⟩ := Segments.exists_last isSeparator rest
    exact iff_of_true (near_slash hlast hs hnil hfront hb h) (hhead (hsep hb))
  | share start host gap share after hstart hstarts hhost hne hgap hgne hshare hsne hafter =>
    have hnot : ¬ ColonOnly (start ++ (host ++ (gap ++ (share ++ after)))) := by
      obtain ⟨a, b, rfl⟩ := List.length_eq_two.mp hstart
      exact hhead (hsep (hstarts a (by simp)))
    cases after with
    | nil =>
      -- the root is the whole path
      have hroot := @windowsRoot_spread host share [] hhost hshare hne hsne hafter start gap hstart hstarts
        hgap hgne false
      simp only [List.append_nil, if_true] at hroot hnot ⊢
      have hshown : (windowsRoot (start ++ (host ++ (gap ++ share)) ++ ([] ++ ([] ++ [])))).displayEnd =
          (start ++ (host ++ (gap ++ share))).length := by
        rw [List.append_nil, List.append_nil, List.append_nil, hroot, namedRoot, if_neg (by simp)]
        simp only [List.length_append, hstart]
        omega
      have hself := @rejoin_eq _ [] [] [] (fun _ h => absurd h List.not_mem_nil)
        (fun _ h => absurd h List.not_mem_nil) (fun _ => rfl) (.inl rfl) hshown (fun _ => by decide)
      simp only [List.append_nil] at hself
      rw [hself]
      exact iff_of_true (.inl (by rw [behind, if_pos (by decide), List.append_nil])) hnot
    | cons c after =>
      obtain ⟨front, last, s, rfl, hlast, hs, hnil, hfront⟩ := Segments.exists_last isSeparator after
      exact iff_of_true (near_share hlast hs hnil hfront hstart hstarts hhost hne hgap hgne hshare hsne
        hafter) hnot
  | drive letter rest h =>
    have hnot : ¬ ColonOnly (letter :: 58 :: rest) := not_colonOnly (show isSeparator 58 = false from rfl) (by simp)
    cases hrest : rest.head?.any isSeparator with
    | false =>
      obtain ⟨front, last, s, rfl, hlast, hs, hnil, hfront⟩ := Segments.exists_last isSeparator rest
      exact iff_of_true (near_drive hlast hs hnil hfront h hrest) hnot
    | true =>
      obtain ⟨c, rest, rfl⟩ := List.exists_cons_of_ne_nil (show rest ≠ [] by rintro rfl; cases hrest)
      obtain ⟨front, last, s, rfl, hlast, hs, hnil, hfront⟩ := Segments.exists_last isSeparator rest
      exact iff_of_true (near_drive_absolute hlast hs hnil hfront h hrest) hnot
  | loose path h =>
    obtain ⟨front, last, s, rfl, hlast, hs, hnil, hfront⟩ := Segments.exists_last isSeparator path
    exact near_loose hlast hs hnil hfront h

end TsonicNode.Path.Win32

namespace TsonicNode.Path

/-- **On both platforms** a path taken apart and put together is normalized to what the path is, up to
a separator at the end; only a colon and separators is guarded and the colon alone is not. -/
theorem format_parse_normalized (path : Bytes) :
    (Posix.normalize path = Posix.normalize (formatPath Posix.slash (Posix.parse path)) ∨
      Posix.normalize path = Posix.normalize (formatPath Posix.slash (Posix.parse path)) ++ Posix.slash) ∧
    (Win32.Near (Win32.normalize path)
        (Win32.normalize (formatPath Win32.separator (Win32.parse path))) ↔
      ¬ Win32.ColonOnly path) :=
  ⟨Posix.normalize_formatPath path, Win32.normalize_rejoin path⟩

/-- A colon and a slash become `.\:\`, the colon alone stays. -/
theorem format_parse_colon : ¬ ∀ path : Bytes,
    Win32.Near (Win32.normalize path) (Win32.normalize (formatPath Win32.separator (Win32.parse path))) := by
  intro hall
  have hcolon := hall [58, 47]
  have hslash : ∀ b ∈ [(47 : UInt8)], Win32.isSeparator b = true := fun b hb => by
    rw [List.mem_singleton.mp hb]
    rfl
  rw [show formatPath Win32.separator (Win32.parse [58, 47]) = [58] by decide,
    Win32.normalize_one rfl, Win32.normalize_single rfl (List.cons_ne_nil 47 []) hslash] at hcolon
  rcases hcolon with heq | heq <;> cases heq

end TsonicNode.Path
