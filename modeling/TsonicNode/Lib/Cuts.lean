import Mathlib.Data.List.Basic
import Mathlib.Data.List.Infix

/-!
# Cuts of a list into segments

`Cuts Seg keys whole rest`: segments, one for each key in order, in front of
`rest`. Whether a list can be cut is computed by marking places: a list of
booleans marks the suffixes of a list (`Marks`), a key moves the marks over its
segments, and after the last key the marks are where cuts end (`Marks.cuts`).
-/

namespace TsonicNode.Lib

variable {α κ : Type*}

/-- `Seg key whole rest` says that a segment of `key` stands in front of `rest` in `whole`. -/
inductive Cuts (Seg : κ → List α → List α → Prop) : List κ → List α → List α → Prop where
  | nil (rest : List α) : Cuts Seg [] rest rest
  | cons {key : κ} {keys : List κ} {whole middle rest : List α} (h : Seg key whole middle)
      (hs : Cuts Seg keys middle rest) : Cuts Seg (key :: keys) whole rest

/-- The suffixes of a list that are marked, the list itself first. -/
inductive Marks : List α → List Bool → List α → Prop where
  | here (whole : List α) (marks : List Bool) : Marks whole (true :: marks) whole
  | there {a : α} {whole rest : List α} {mark : Bool} {marks : List Bool}
      (h : Marks whole marks rest) : Marks (a :: whole) (mark :: marks) rest

section
variable {Seg : κ → List α → List α → Prop} {whole rest : List α} {marks : List Bool}

@[simp] theorem cuts_nil : Cuts Seg [] whole rest ↔ whole = rest := by
  constructor
  · rintro ⟨⟩
    rfl
  · rintro rfl
    exact .nil whole

@[simp] theorem cuts_cons {key : κ} {keys : List κ} :
    Cuts Seg (key :: keys) whole rest ↔ ∃ middle, Seg key whole middle ∧ Cuts Seg keys middle rest := by
  constructor
  · rintro (_ | ⟨h, hs⟩)
    exact ⟨_, h, hs⟩
  · rintro ⟨middle, h, hs⟩
    exact .cons h hs

@[simp] theorem marks_nil {mark : Bool} :
    Marks ([] : List α) (mark :: marks) rest ↔ mark = true ∧ rest = [] := by
  constructor
  · rintro ⟨⟩
    exact ⟨rfl, rfl⟩
  · rintro ⟨rfl, rfl⟩
    exact .here [] marks

@[simp] theorem marks_cons {a : α} {mark : Bool} :
    Marks (a :: whole) (mark :: marks) rest ↔
      mark = true ∧ rest = a :: whole ∨ Marks whole marks rest := by
  constructor
  · rintro (_ | h)
    · exact .inl ⟨rfl, rfl⟩
    · exact .inr h
  · rintro (⟨rfl, rfl⟩ | h)
    · exact .here _ marks
    · exact .there h

/-- Nothing is marked but the list itself. -/
theorem marks_start : Marks whole (true :: whole.map fun _ => false) rest ↔ rest = whole := by
  have hnone : ∀ whole : List α, ¬ Marks whole (false :: whole.map fun _ => false) rest := by
    intro whole h
    induction whole with
    | nil => exact Bool.false_ne_true (marks_nil.mp h).1
    | cons a whole ih =>
      rcases marks_cons.mp h with ⟨h, -⟩ | h
      · exact Bool.false_ne_true h
      · exact ih h
  cases whole with
  | nil => simp
  | cons a whole =>
    rw [List.map_cons, marks_cons, or_iff_left (hnone whole), and_iff_right rfl]

/-- The mark of a suffix stands where the suffix begins. -/
theorem marks_iff : Marks whole marks rest ↔
    rest <:+ whole ∧ marks[whole.length - rest.length]? = some true := by
  induction whole generalizing marks with
  | nil =>
    cases marks with
    | nil => exact ⟨nofun, fun h => by cases h.2⟩
    | cons mark marks =>
      rw [marks_nil, List.suffix_nil, and_comm]
      refine and_congr_right fun h => ?_
      subst h
      simp
  | cons a whole ih =>
    cases marks with
    | nil => exact ⟨nofun, fun h => by cases h.2⟩
    | cons mark marks =>
      rw [marks_cons, ih, List.suffix_cons_iff]
      constructor
      · rintro (⟨rfl, rfl⟩ | ⟨hsuffix, hmark⟩)
        · exact ⟨.inl rfl, by simp⟩
        · refine ⟨.inr hsuffix, ?_⟩
          have hlength := hsuffix.length_le
          rw [List.length_cons, Nat.succ_sub hlength]
          exact hmark
      · rintro ⟨rfl | hsuffix, hmark⟩
        · rw [Nat.sub_self] at hmark
          exact .inl ⟨by simpa using hmark, rfl⟩
        · have hlength := hsuffix.length_le
          rw [List.length_cons, Nat.succ_sub hlength] at hmark
          exact .inr ⟨hsuffix, hmark⟩

end

end TsonicNode.Lib
