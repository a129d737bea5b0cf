import Mathlib.Data.List.Basic
import Mathlib.Data.List.Induction

/-!
# Segments of a path

A path as its segments. `walk` takes one more segment: an idle one changes
nothing, `up` takes the last segment back, and where there is none to take back
it stays if the path may climb. `Settled` is what no more walking changes
(`resolve_of_settled`), and walking settles (`resolve_settled`). `visit` walks
from a place, and from every place the segments left lead where all of them did
(`visit_resolve`). A text falls into its segments at its separators, and segments
joined fall apart again (`splitOnP_joined`).
-/

namespace TsonicNode.Lib.Segments

variable {α : Type*} [DecidableEq α]

def walk (up : α) (idle : α → Bool) (climbs : Bool) (trail : List α) (segment : α) : List α :=
  if idle segment then trail
  else if segment = up then
    if trail ≠ [] ∧ trail.getLast? ≠ some up then trail.dropLast
    else if climbs then trail ++ [segment]
    else trail
  else trail ++ [segment]

def resolve (up : α) (idle : α → Bool) (climbs : Bool) (segments : List α) : List α :=
  segments.foldl (walk up idle climbs) []

/-- A segment that stays where it is. -/
def Stays (up : α) (idle : α → Bool) (segment : α) : Prop :=
  idle segment = false ∧ segment ≠ up

/-- Climbs, where the path may climb, and then segments that stay. -/
def Settled (up : α) (idle : α → Bool) (climbs : Bool) (segments : List α) : Prop :=
  ∃ n rest, segments = List.replicate n up ++ rest ∧ (climbs = false → n = 0) ∧
    ∀ c ∈ rest, Stays up idle c

variable {up : α} {idle : α → Bool} {climbs : Bool}

theorem walk_idle {segment : α} (h : idle segment = true) (trail : List α) :
    walk up idle climbs trail segment = trail := by
  simp [walk, h]

theorem walk_stays {segment : α} (h : Stays up idle segment) (trail : List α) :
    walk up idle climbs trail segment = trail ++ [segment] := by
  simp [walk, h.1, h.2]

theorem foldl_stays {rest : List α} (h : ∀ c ∈ rest, Stays up idle c) (trail : List α) :
    rest.foldl (walk up idle climbs) trail = trail ++ rest := by
  induction rest generalizing trail with
  | nil => simp
  | cons c rest ih =>
    have hc := h c List.mem_cons_self
    rw [List.foldl_cons, walk_stays hc, ih fun d hd => h d (List.mem_cons_of_mem c hd)]
    simp

theorem foldl_idle {rest : List α} (h : ∀ c ∈ rest, idle c = true) (trail : List α) :
    rest.foldl (walk up idle climbs) trail = trail := by
  induction rest with
  | nil => rfl
  | cons c rest ih =>
    rw [List.foldl_cons, walk_idle (h c List.mem_cons_self)]
    exact ih fun d hd => h d (List.mem_cons_of_mem c hd)

/-- A climb on climbs is one more. -/
theorem walk_up (hup : idle up = false) (n : Nat) :
    walk up idle true (List.replicate n up) up = List.replicate (n + 1) up := by
  have hlast : ¬ (List.replicate n up ≠ [] ∧ (List.replicate n up).getLast? ≠ some up) := by
    rintro ⟨hne, hlast⟩
    apply hlast
    cases n with
    | zero => exact absurd rfl hne
    | succ n => simp [List.getLast?_replicate]
  rw [walk, if_neg (by simp [hup]), if_pos rfl, if_neg hlast, if_pos rfl,
    List.replicate_succ']

/-- A climb behind a segment that stays takes it back. -/
theorem walk_back (hup : idle up = false) {c : α} (hc : c ≠ up) (trail : List α) :
    walk up idle climbs (trail ++ [c]) up = trail := by
  simp [walk, hup, hc]

theorem walk_settled (hup : idle up = false) {trail : List α} (h : Settled up idle climbs trail)
    (segment : α) : Settled up idle climbs (walk up idle climbs trail segment) := by
  obtain ⟨n, rest, rfl, hn, hrest⟩ := h
  cases hidle : idle segment with
  | true =>
    rw [walk_idle hidle]
    exact ⟨n, rest, rfl, hn, hrest⟩
  | false =>
    by_cases hsegment : segment = up
    · subst hsegment
      obtain rfl | ⟨front, c, rfl⟩ := List.eq_nil_or_concat' rest
      · cases climbs with
        | true =>
          rw [List.append_nil, walk_up hup]
          exact ⟨n + 1, [], by simp, by simp, by simp⟩
        | false =>
          obtain rfl := hn rfl
          exact ⟨0, [], by simp [walk], by simp, by simp⟩
      · have hc := hrest c (by simp)
        rw [← List.append_assoc, walk_back hup hc.2]
        exact ⟨n, front, rfl, hn, fun d hd => hrest d (by simp [hd])⟩
    · have hstays : Stays up idle segment := ⟨hidle, hsegment⟩
      rw [walk_stays hstays]
      refine ⟨n, rest ++ [segment], by simp, hn, fun d hd => ?_⟩
      rcases List.mem_append.mp hd with hd | hd
      · exact hrest d hd
      · rwa [List.mem_singleton.mp hd]

theorem resolve_settled (hup : idle up = false) (segments : List α) :
    Settled up idle climbs (resolve up idle climbs segments) := by
  have hrun : ∀ (segments trail : List α), Settled up idle climbs trail →
      Settled up idle climbs (segments.foldl (walk up idle climbs) trail) := by
    intro segments
    induction segments with
    | nil => exact fun trail h => h
    | cons c segments ih => exact fun trail h => ih _ (walk_settled hup h c)
  exact hrun segments [] ⟨0, [], rfl, fun _ => rfl, by simp⟩

theorem resolve_of_settled (hup : idle up = false) {segments : List α}
    (h : Settled up idle climbs segments) : resolve up idle climbs segments = segments := by
  obtain ⟨n, rest, rfl, hn, hrest⟩ := h
  have hclimbs : (List.replicate n up).foldl (walk up idle climbs) [] = List.replicate n up := by
    cases climbs with
    | false => simp [hn rfl]
    | true =>
      induction n with
      | zero => rfl
      | succ n ih =>
        rw [List.replicate_succ', List.foldl_append, ih (by simp), List.foldl_cons,
          walk_up hup, List.foldl_nil, List.replicate_succ']
  rw [resolve, List.foldl_append, hclimbs, foldl_stays hrest]

/-- Idle segments behind the others are nothing. -/
theorem resolve_append_idle (segments : List α) {rest : List α} (h : ∀ c ∈ rest, idle c = true) :
    resolve up idle climbs (segments ++ rest) = resolve up idle climbs segments := by
  rw [resolve, List.foldl_append, foldl_idle h, resolve]

/-- Idle segments in front are nothing. -/
theorem resolve_idle_cons {c : α} (h : idle c = true) (segments : List α) :
    resolve up idle climbs (c :: segments) = resolve up idle climbs segments := by
  rw [resolve, List.foldl_cons, walk_idle h, resolve]

theorem resolve_filter {keep : α → Bool} (h : ∀ c, keep c = false → idle c = true) (segments : List α) :
    resolve up idle climbs (segments.filter keep) = resolve up idle climbs segments := by
  have hrun : ∀ trail, (segments.filter keep).foldl (walk up idle climbs) trail =
      segments.foldl (walk up idle climbs) trail := by
    induction segments with
    | nil => exact fun _ => rfl
    | cons c segments ih =>
      intro trail
      cases hc : keep c with
      | true => rw [List.filter_cons_of_pos hc, List.foldl_cons, List.foldl_cons, ih]
      | false =>
        rw [List.filter_cons_of_neg (by rw [hc]; exact Bool.false_ne_true), List.foldl_cons,
          walk_idle (h c hc), ih]
  exact hrun []

/-! ## Walking on -/

/-- Where a trail leads from a start, one segment more leads one segment further. -/
theorem walks_walk (hup : idle up = false) {trail : List α} (h : Settled up idle true trail)
    (start : List α) (segment : α) :
    (walk up idle true trail segment).foldl (walk up idle true) start =
      walk up idle true (trail.foldl (walk up idle true) start) segment := by
  obtain ⟨n, rest, rfl, -, hrest⟩ := h
  cases hidle : idle segment with
  | true => rw [walk_idle hidle, walk_idle hidle]
  | false =>
    by_cases hsegment : segment = up
    · subst hsegment
      obtain rfl | ⟨front, c, rfl⟩ := List.eq_nil_or_concat' rest
      · rw [List.append_nil, walk_up hup, List.replicate_succ', List.foldl_append]
        rfl
      · have hc := hrest c (by simp)
        have hlast : ((List.replicate n segment ++ front) ++ [c]).foldl (walk segment idle true) start =
            (List.replicate n segment ++ front).foldl (walk segment idle true) start ++ [c] := by
          rw [List.foldl_append, List.foldl_cons, walk_stays hc, List.foldl_nil]
        rw [← List.append_assoc, walk_back hup hc.2, hlast, walk_back hup hc.2]
    · rw [walk_stays ⟨hidle, hsegment⟩, List.foldl_append]
      rfl

/-- The segments left lead on where all of them did. -/
theorem walks_resolve (hup : idle up = false) (start segments : List α) :
    (resolve up idle true segments).foldl (walk up idle true) start =
      segments.foldl (walk up idle true) start := by
  induction segments using List.reverseRecOn with
  | nil => rfl
  | append_singleton segments c ih =>
    have hresolve : resolve up idle true (segments ++ [c]) =
        walk up idle true (resolve up idle true segments) c := by
      rw [resolve, List.foldl_append]
      rfl
    rw [hresolve, walks_walk hup (resolve_settled hup segments), ih, List.foldl_append]
    rfl

section Front

variable {segments rest : List α} {n : Nat} (hup : idle up = false)
  (h : resolve up idle true segments = List.replicate n up ++ rest) (hrest : ∀ c ∈ rest, Stays up idle c)

include hup h hrest

/-- A climb in front is one climb more. -/
theorem resolve_up_cons : resolve up idle true (up :: segments) = List.replicate (n + 1) up ++ rest := by
  have hwalk : walk up idle true [] up = [up] := walk_up hup 0
  have hsettled : Settled up idle true (List.replicate (n + 1) up ++ rest) := ⟨n + 1, rest, rfl, by simp, hrest⟩
  rw [resolve, List.foldl_cons, hwalk, ← walks_resolve hup, h]
  rw [← resolve_of_settled hup hsettled, resolve, List.replicate_succ, List.cons_append, List.foldl_cons, hwalk]

/-- A segment in front stays where no climb takes it back. -/
theorem resolve_stays_cons {c : α} (hc : Stays up idle c) :
    resolve up idle true (c :: segments) = if n = 0 then c :: rest else List.replicate (n - 1) up ++ rest := by
  have hwalk : walk up idle true [] c = [c] := walk_stays hc []
  rw [resolve, List.foldl_cons, hwalk, ← walks_resolve hup, h]
  cases n with
  | zero => exact foldl_stays hrest [c]
  | succ n =>
    have hback : walk up idle true [c] up = [] := walk_back hup hc.2 []
    have hsettled : Settled up idle true (List.replicate n up ++ rest) := ⟨n, rest, rfl, by simp, hrest⟩
    rw [List.replicate_succ, List.cons_append, List.foldl_cons, hback]
    exact resolve_of_settled hup hsettled

end Front

theorem mem_walk {trail : List α} {segment d : α} (h : d ∈ walk up idle climbs trail segment) :
    d ∈ trail ∨ d = segment ∧ idle segment = false := by
  unfold walk at h
  split_ifs at h with hidle _ hback hclimbs
  · exact Or.inl h
  · exact Or.inl (List.dropLast_subset trail h)
  · rcases List.mem_append.mp h with h | h
    · exact Or.inl h
    · exact Or.inr ⟨List.mem_singleton.mp h, by simpa using hidle⟩
  · exact Or.inl h
  · rcases List.mem_append.mp h with h | h
    · exact Or.inl h
    · exact Or.inr ⟨List.mem_singleton.mp h, by simpa using hidle⟩

/-- Every segment left is one of the path's. -/
theorem mem_resolve {segments : List α} {d : α} (h : d ∈ resolve up idle climbs segments) :
    d ∈ segments ∧ idle d = false := by
  have hrun : ∀ (segments trail : List α), d ∈ segments.foldl (walk up idle climbs) trail →
      d ∈ trail ∨ d ∈ segments ∧ idle d = false := by
    intro segments
    induction segments with
    | nil => exact fun trail h => Or.inl h
    | cons c segments ih =>
      intro trail h
      rcases ih _ h with h | ⟨h, hidle⟩
      · rcases mem_walk h with h | ⟨rfl, hidle⟩
        · exact Or.inl h
        · exact Or.inr ⟨List.mem_cons_self, hidle⟩
      · exact Or.inr ⟨List.mem_cons_of_mem c h, hidle⟩
  rcases hrun segments [] h with h | h
  · exact absurd h List.not_mem_nil
  · exact h

omit [DecidableEq α] in
theorem Settled.stays {segments : List α} (h : Settled up idle false segments) :
    ∀ c ∈ segments, Stays up idle c := by
  obtain ⟨n, rest, rfl, hn, hrest⟩ := h
  obtain rfl := hn rfl
  simpa using hrest

/-! ## Places -/

/-- From a place, the next segment. -/
def visit (up : α) (idle : α → Bool) (place : List α) (segment : α) : List α :=
  if idle segment then place
  else if segment = up then place.dropLast
  else place ++ [segment]

theorem visit_idle {segment : α} (h : idle segment = true) (place : List α) :
    visit up idle place segment = place := by
  simp [visit, h]

theorem visit_up (hup : idle up = false) (place : List α) :
    visit up idle place up = place.dropLast := by
  simp [visit, hup]

theorem visit_stays {segment : α} (h : Stays up idle segment) (place : List α) :
    visit up idle place segment = place ++ [segment] := by
  simp [visit, h.1, h.2]

theorem visits_stays {segments : List α} (h : ∀ c ∈ segments, Stays up idle c) (place : List α) :
    segments.foldl (visit up idle) place = place ++ segments := by
  induction segments generalizing place with
  | nil => simp
  | cons c segments ih =>
    have hc := h c List.mem_cons_self
    rw [List.foldl_cons, visit_stays hc, ih fun d hd => h d (List.mem_cons_of_mem c hd)]
    simp

/-- Back from a place as often as it has segments to take back. -/
theorem visits_up (hup : idle up = false) (place : List α) (back : List α) :
    (List.replicate back.length up).foldl (visit up idle) (place ++ back) = place := by
  induction back using List.reverseRecOn with
  | nil => simp
  | append_singleton back c ih =>
    rw [List.length_append, List.length_singleton, List.replicate_succ, List.foldl_cons,
      visit_up hup, ← List.append_assoc, List.dropLast_concat, ih]

/-- Where the path may not climb, it is walked from the root. -/
theorem visit_walk (hup : idle up = false) {trail : List α} (h : Settled up idle climbs trail)
    {start : List α} (hstart : climbs = false → start = []) (segment : α) :
    (walk up idle climbs trail segment).foldl (visit up idle) start =
      visit up idle (trail.foldl (visit up idle) start) segment := by
  obtain ⟨n, rest, rfl, hn, hrest⟩ := h
  cases hidle : idle segment with
  | true => rw [walk_idle hidle, visit_idle hidle]
  | false =>
    by_cases hsegment : segment = up
    · subst hsegment
      obtain rfl | ⟨front, c, rfl⟩ := List.eq_nil_or_concat' rest
      · cases climbs with
        | true =>
          rw [List.append_nil, walk_up hup, List.replicate_succ', List.foldl_append]
          rfl
        | false =>
          obtain rfl := hn rfl
          simp [walk, visit, hup, hstart rfl]
      · have hc := hrest c (by simp)
        have hplace : ((List.replicate n segment ++ front) ++ [c]).foldl (visit segment idle) start =
            visit segment idle ((List.replicate n segment ++ front).foldl (visit segment idle) start) c := by
          rw [List.foldl_append]
          rfl
        rw [← List.append_assoc, walk_back hup hc.2, hplace, visit_stays hc, visit_up hup,
          List.dropLast_concat]
    · rw [walk_stays ⟨hidle, hsegment⟩, List.foldl_append]
      rfl

/-- The segments left lead where all of them did. -/
theorem visit_resolve (hup : idle up = false) {start : List α} (hstart : climbs = false → start = [])
    (segments : List α) :
    (resolve up idle climbs segments).foldl (visit up idle) start =
      segments.foldl (visit up idle) start := by
  induction segments using List.reverseRecOn with
  | nil => rfl
  | append_singleton segments c ih =>
    have hresolve : resolve up idle climbs (segments ++ [c]) =
        walk up idle climbs (resolve up idle climbs segments) c := by
      rw [resolve, List.foldl_append]
      rfl
    rw [hresolve, visit_walk hup (resolve_settled hup segments) hstart, ih, List.foldl_append]
    rfl

/-- A path that may not climb resolves to the place it leads to from the root. -/
theorem resolve_eq_visit (hup : idle up = false) (segments : List α) :
    resolve up idle false segments = segments.foldl (visit up idle) [] := by
  have hsettled : Settled up idle false (resolve up idle false segments) := resolve_settled hup segments
  have hstays := Settled.stays hsettled
  have hplace := visits_stays hstays []
  rw [← visit_resolve hup (fun _ => rfl) segments, hplace, List.nil_append]

theorem mem_visits {segments place : List α} {d : α} (h : d ∈ segments.foldl (visit up idle) place) :
    d ∈ place ∨ d ∈ segments := by
  induction segments generalizing place with
  | nil => exact .inl h
  | cons c segments ih =>
    rcases ih h with hplace | hsegments
    · unfold visit at hplace
      split_ifs at hplace
      · exact .inl hplace
      · exact .inl (List.dropLast_subset _ hplace)
      · rcases List.mem_append.mp hplace with hplace | hlast
        · exact .inl hplace
        · exact .inr (List.mem_singleton.mp hlast ▸ List.mem_cons_self)
    · exact .inr (List.mem_cons_of_mem c hsegments)

/-! ## Text -/

section Text

variable {β : Type*} {sep : β → Bool}

/-- No separator in it. -/
def Joint (sep : β → Bool) (text : List β) : Prop := ∀ b ∈ text, sep b = false

theorem splitOnP_joint_append {x : List β} (h : Joint sep x) {b : β} (hb : sep b = true) (y : List β) :
    (x ++ b :: y).splitOnP sep = x :: y.splitOnP sep := by
  rw [List.splitOnP_append_cons x y hb, List.splitOnP_eq_singleton h, List.singleton_append]

theorem splitOnP_sep_cons {b : β} (hb : sep b = true) (y : List β) :
    (b :: y).splitOnP sep = [] :: y.splitOnP sep := by
  rw [← List.nil_append (b :: y)]
  exact splitOnP_joint_append (fun _ h => absurd h List.not_mem_nil) hb y

theorem splitOnP_joint_cons {b : β} (hb : sep b = false) (y : List β) :
    ∃ first rest, y.splitOnP sep = first :: rest ∧ (b :: y).splitOnP sep = (b :: first) :: rest := by
  obtain ⟨first, rest, hsplit⟩ := List.exists_cons_of_ne_nil (List.splitOnP_ne_nil sep y)
  refine ⟨first, rest, hsplit, ?_⟩
  rw [List.splitOnP_cons_eq_if_modifyHead, hsplit, if_neg (by simp [hb]), List.modifyHead_cons]

theorem joint_splitOnP (text : List β) : ∀ c ∈ text.splitOnP sep, Joint sep c := by
  induction text with
  | nil =>
    intro c hc
    rw [List.splitOnP_nil, List.mem_singleton] at hc
    subst hc
    exact fun b hb => absurd hb List.not_mem_nil
  | cons b text ih =>
    intro c hc
    cases hb : sep b with
    | true =>
      rw [splitOnP_sep_cons hb] at hc
      rcases List.mem_cons.mp hc with rfl | hc
      · exact fun b hb => absurd hb List.not_mem_nil
      · exact ih c hc
    | false =>
      obtain ⟨first, rest, hsplit, hcons⟩ := splitOnP_joint_cons hb text
      rw [hcons] at hc
      rw [hsplit] at ih
      rcases List.mem_cons.mp hc with rfl | hc
      · intro d hd
        rcases List.mem_cons.mp hd with rfl | hd
        · exact hb
        · exact ih first List.mem_cons_self d hd
      · exact ih c (List.mem_cons_of_mem first hc)

theorem mem_of_mem_splitOnP {text c : List β} (hc : c ∈ text.splitOnP sep) {b : β} (hb : b ∈ c) :
    b ∈ text := by
  induction text generalizing c with
  | nil =>
    rw [List.splitOnP_nil, List.mem_singleton] at hc
    rwa [hc] at hb
  | cons d text ih =>
    cases hd : sep d with
    | true =>
      rw [splitOnP_sep_cons hd] at hc
      rcases List.mem_cons.mp hc with rfl | hc
      · exact absurd hb List.not_mem_nil
      · exact List.mem_cons_of_mem d (ih hc hb)
    | false =>
      obtain ⟨first, rest, hsplit, hcons⟩ := splitOnP_joint_cons hd text
      rw [hcons] at hc
      rw [hsplit] at ih
      rcases List.mem_cons.mp hc with rfl | hc
      · rcases List.mem_cons.mp hb with rfl | hb
        · exact List.mem_cons_self
        · exact List.mem_cons_of_mem d (ih List.mem_cons_self hb)
      · exact List.mem_cons_of_mem d (ih (List.mem_cons_of_mem first hc) hb)

/-- The segments that are not empty. -/
def words (sep : β → Bool) (text : List β) : List (List β) :=
  (text.splitOnP sep).filter fun segment => !segment.isEmpty

theorem words_sep {b : β} (hb : sep b = true) (x y : List β) :
    words sep (x ++ b :: y) = words sep x ++ words sep y := by
  rw [words, List.splitOnP_append_cons x y hb, List.filter_append]
  rfl

theorem words_cons {b : β} (hb : sep b = true) (y : List β) : words sep (b :: y) = words sep y :=
  words_sep hb [] y

theorem words_seps {s : List β} (h : ∀ b ∈ s, sep b = true) : words sep s = [] := by
  induction s with
  | nil => rfl
  | cons b s ih =>
    rw [words_cons (h b List.mem_cons_self)]
    exact ih fun c hc => h c (List.mem_cons_of_mem b hc)

/-- Separators at the end are nothing. -/
theorem words_append_seps {s : List β} (h : ∀ b ∈ s, sep b = true) (x : List β) :
    words sep (x ++ s) = words sep x := by
  cases s with
  | nil => rw [List.append_nil]
  | cons b s =>
    rw [words_sep (h b List.mem_cons_self), words_seps fun c hc => h c (List.mem_cons_of_mem b hc),
      List.append_nil]

/-- A text as what is in front of its last segment, the segment and the separators at its end. -/
theorem exists_last (sep : β → Bool) (text : List β) :
    ∃ front last s, text = front ++ (last ++ s) ∧ Joint sep last ∧ (∀ b ∈ s, sep b = true) ∧
      (last = [] → front = []) ∧
      (front = [] ∨ ∃ rest b, front = rest ++ [b] ∧ sep b = true) := by
  induction text using List.reverseRecOn with
  | nil =>
    exact ⟨[], [], [], rfl, fun _ h => absurd h List.not_mem_nil, fun _ h => absurd h List.not_mem_nil,
      fun _ => rfl, .inl rfl⟩
  | append_singleton text b ih =>
    obtain ⟨front, last, s, rfl, hlast, hs, hnil, hfront⟩ := ih
    cases hb : sep b with
    | true =>
      refine ⟨front, last, s ++ [b], by simp, hlast, fun c hc => ?_, hnil, hfront⟩
      rcases List.mem_append.mp hc with hc | hc
      · exact hs c hc
      · rw [List.mem_singleton.mp hc]
        exact hb
    | false =>
      have hone : Joint sep [b] := fun c hc => by
        rw [List.mem_singleton.mp hc]
        exact hb
      rcases List.eq_nil_or_concat s with rfl | ⟨rest, c, rfl⟩
      · refine ⟨front, last ++ [b], [], by simp, fun c hc => ?_, fun _ h => absurd h List.not_mem_nil,
          fun h => absurd h (by simp), hfront⟩
        rcases List.mem_append.mp hc with hc | hc
        · exact hlast c hc
        · exact hone c hc
      · refine ⟨front ++ last ++ rest ++ [c], [b], [], by simp, hone,
          fun _ h => absurd h List.not_mem_nil, fun h => absurd h (by simp), .inr ⟨_, c, rfl, ?_⟩⟩
        exact hs c (by simp)

/-- Segments with a separator between them. -/
def joined (b : β) : List (List β) → List β
  | [] => []
  | c :: cs => c ++ cs.flatMap fun d => b :: d

theorem splitOnP_joined {b : β} (hb : sep b = true) {c : List β} {cs : List (List β)}
    (hc : Joint sep c) (hcs : ∀ d ∈ cs, Joint sep d) :
    (c ++ cs.flatMap fun d => b :: d).splitOnP sep = c :: cs := by
  induction cs generalizing c with
  | nil => simp [List.splitOnP_eq_singleton hc]
  | cons d cs ih =>
    rw [List.flatMap_cons, List.cons_append, splitOnP_joint_append hc hb,
      ih (hcs d List.mem_cons_self) fun e he => hcs e (List.mem_cons_of_mem d he)]

/-- What holds no separator goes in front of the first segment. -/
theorem splitOnP_joint_prefix {x : List β} (h : Joint sep x) (y : List β) :
    (x ++ y).splitOnP sep = (y.splitOnP sep).modifyHead (x ++ ·) := by
  induction x with
  | nil =>
    obtain ⟨first, rest, hsplit⟩ := List.exists_cons_of_ne_nil (List.splitOnP_ne_nil sep y)
    rw [List.nil_append, hsplit]
    rfl
  | cons b x ih =>
    have hb := h b List.mem_cons_self
    rw [List.cons_append, List.splitOnP_cons_eq_if_modifyHead, if_neg (by simp [hb]),
      ih fun c hc => h c (List.mem_cons_of_mem b hc), List.modifyHead_modifyHead]
    rfl

/-- The separators put back in front of the segments. -/
theorem flatMap_splitOnP {b : β} (hb : ∀ c, sep c = true → c = b) (text : List β) :
    ((text.splitOnP sep).flatMap fun segment => b :: segment) = b :: text := by
  induction text with
  | nil => rfl
  | cons c text ih =>
    cases hc : sep c with
    | true =>
      rw [splitOnP_sep_cons hc, List.flatMap_cons, ih, hb c hc]
      rfl
    | false =>
      obtain ⟨first, rest, hsplit, hcons⟩ := splitOnP_joint_cons hc text
      rw [hsplit, List.flatMap_cons, List.cons_append] at ih
      rw [hcons, List.flatMap_cons, List.cons_append, List.cons_append, List.tail_eq_of_cons_eq ih]

end Text

end TsonicNode.Lib.Segments
