import Mathlib.Data.List.Nodup
import Mathlib.Data.List.Perm.Subperm
import Mathlib.Logic.Relation

/-!
# Following a chain

At each place a `Stage` stops with a result or names the place that comes next.
`follow` goes on for a number of turns and keeps the places it has been to, so
that it sees a loop. With more turns than there are places to go on from it is
never cut short (`follow_uncut`), and it finds where the chain stops (`Ends`) or
that it never does (`Endless`).
-/

namespace TsonicNode.Lib

inductive Stage (α β : Type) where
  | stop (result : β)
  | go (next : α)

inductive Followed (β : Type) where
  | stopped (result : β)
  | looped
  | cut

namespace Chase

variable {α β : Type} (stage : α → Stage α β)

def Next (place next : α) : Prop := stage place = .go next

/-- The chain stops with a result. -/
def Ends (place : α) (result : β) : Prop :=
  ∃ last, Relation.ReflTransGen (Next stage) place last ∧ stage last = .stop result

/-- The chain goes on from every place that it comes to. -/
def Endless (place : α) : Prop :=
  ∀ last, Relation.ReflTransGen (Next stage) place last → ∃ next, stage last = .go next

def follow [DecidableEq α] : Nat → List α → α → Followed β
  | 0, _, _ => .cut
  | turns + 1, past, place =>
    if place ∈ past then .looped
    else
      match stage place with
      | .stop result => .stopped result
      | .go next => follow turns (past ++ [place]) next

variable {stage}

theorem Ends.cons {place next : α} {result : β} (hgo : stage place = .go next) (h : Ends stage next result) :
    Ends stage place result := by
  obtain ⟨last, hreach, hlast⟩ := h
  exact ⟨last, hreach.head hgo, hlast⟩

/-- A chain has one end. -/
theorem Ends.unique {place : α} {one two : β} (hone : Ends stage place one) (htwo : Ends stage place two) :
    one = two := by
  obtain ⟨last, hreach, hlast⟩ := hone
  induction hreach using Relation.ReflTransGen.head_induction_on with
  | refl =>
    obtain ⟨other, hreach, hother⟩ := htwo
    rcases Relation.ReflTransGen.cases_head hreach with heq | ⟨next, hnext, -⟩
    · subst heq
      rw [hlast] at hother
      exact Stage.stop.inj hother
    · unfold Next at hnext
      rw [hlast] at hnext
      cases hnext
  | head hgo hreach ih =>
    refine ih ?_
    obtain ⟨other, hreach', hother⟩ := htwo
    rcases Relation.ReflTransGen.cases_head hreach' with heq | ⟨next, hnext, hrest⟩
    · subst heq
      unfold Next at hgo
      rw [hother] at hgo
      cases hgo
    · unfold Next at hgo hnext
      rw [hgo] at hnext
      cases hnext
      exact ⟨other, hrest, hother⟩

theorem Endless.not_ends {place : α} {result : β} (h : Endless stage place) : ¬ Ends stage place result := by
  rintro ⟨last, hreach, hlast⟩
  obtain ⟨next, hnext⟩ := h last hreach
  rw [hlast] at hnext
  cases hnext

/-- A chain that comes back to a place comes there again from all that it passes. -/
theorem endless_of_cycle {place : α} (hcycle : Relation.TransGen (Next stage) place place) : Endless stage place := by
  intro last hreach
  -- from each place that is reached the way leads back to the first one
  have hback : Relation.TransGen (Next stage) last place := by
    induction hreach with
    | refl => exact hcycle
    | tail hreach hgo ih =>
      rcases Relation.TransGen.head'_iff.mp ih with ⟨next, hnext, hrest⟩
      unfold Next at hgo hnext
      rw [hgo] at hnext
      cases hnext
      rcases Relation.ReflTransGen.cases_head hrest with heq | ⟨further, hfurther, hend⟩
      · exact heq ▸ hcycle
      · exact Relation.TransGen.head' hfurther hend
  obtain ⟨next, hnext, -⟩ := Relation.TransGen.head'_iff.mp hback
  exact ⟨next, hnext⟩

/-- The places of the past lead on to one another and to this one. -/
def Leads (stage : α → Stage α β) (past : List α) (place : α) : Prop :=
  ∀ earlier ∈ past, Relation.TransGen (Next stage) earlier place

theorem Leads.snoc {past : List α} {place next : α} (h : Leads stage past place) (hgo : stage place = .go next) :
    Leads stage (past ++ [place]) next := by
  intro earlier hearlier
  rcases List.mem_append.mp hearlier with hmem | hmem
  · exact (h earlier hmem).tail hgo
  · rw [List.mem_singleton.mp hmem]
    exact .single hgo

variable [DecidableEq α]

/-- What `follow` says of the chain. -/
theorem follow_sound {turns : Nat} {past : List α} {place : α} (hleads : Leads stage past place) :
    match follow stage turns past place with
    | .stopped result => Ends stage place result
    | .looped => Endless stage place
    | .cut => True := by
  induction turns generalizing past place with
  | zero => trivial
  | succ turns ih =>
    unfold follow
    by_cases hpast : place ∈ past
    · rw [if_pos hpast]
      exact endless_of_cycle (hleads place hpast)
    · rw [if_neg hpast]
      cases hstage : stage place with
      | stop result => exact ⟨place, .refl, hstage⟩
      | go next =>
        dsimp only
        have hnext := ih (hleads.snoc hstage)
        cases hfollow : follow stage turns (past ++ [place]) next with
        | stopped result =>
          rw [hfollow] at hnext
          exact hnext.cons hstage
        | looped =>
          rw [hfollow] at hnext
          intro last hreach
          rcases Relation.ReflTransGen.cases_head hreach with heq | ⟨other, hother, hrest⟩
          · exact heq ▸ ⟨next, hstage⟩
          · unfold Next at hother
            rw [hstage] at hother
            cases hother
            exact hnext last hrest
        | cut => trivial

section
variable {turns : Nat} {place : α}

theorem follow_ends (hcut : follow stage turns [] place ≠ .cut) {result : β} :
    Ends stage place result ↔ follow stage turns [] place = .stopped result := by
  have hsound := @follow_sound _ _ stage _ turns [] place fun _ hmem => absurd hmem List.not_mem_nil
  cases hfollow : follow stage turns [] place with
  | stopped other =>
    rw [hfollow] at hsound
    exact ⟨fun h => congrArg Followed.stopped (hsound.unique h), fun h => Followed.stopped.inj h ▸ hsound⟩
  | looped =>
    rw [hfollow] at hsound
    exact iff_of_false hsound.not_ends fun h => by cases h
  | cut => exact absurd hfollow hcut

theorem follow_endless (hcut : follow stage turns [] place ≠ .cut) :
    Endless stage place ↔ follow stage turns [] place = .looped := by
  have hsound := @follow_sound _ _ stage _ turns [] place fun _ hmem => absurd hmem List.not_mem_nil
  cases hfollow : follow stage turns [] place with
  | stopped result =>
    rw [hfollow] at hsound
    exact iff_of_false (fun h => h.not_ends hsound) fun h => by cases h
  | looped =>
    rw [hfollow] at hsound
    exact iff_of_true hsound rfl
  | cut => exact absurd hfollow hcut

end

/-- The places that lead on are among `sources`; the past is made of different ones. -/
theorem follow_uncut {sources : List α} (hsources : ∀ place next, stage place = .go next → place ∈ sources)
    {turns : Nat} {past : List α} {place : α} (hnodup : past.Nodup) (hpast : past ⊆ sources)
    (hturns : sources.length < past.length + turns) : follow stage turns past place ≠ .cut := by
  induction turns generalizing past place with
  | zero =>
    have hle := (List.subperm_of_subset hnodup hpast).length_le
    omega
  | succ turns ih =>
    unfold follow
    split
    · exact fun h => by cases h
    · rename_i hfresh
      cases hstage : stage place with
      | stop result => exact fun h => by cases h
      | go next =>
        refine ih (List.nodup_append.mpr ⟨hnodup, List.nodup_singleton place, ?_⟩) ?_ ?_
        · intro earlier hearlier other hother heq
          rw [List.mem_singleton.mp hother] at heq
          exact hfresh (heq ▸ hearlier)
        · intro earlier hearlier
          rcases List.mem_append.mp hearlier with hmem | hmem
          · exact hpast hmem
          · rw [List.mem_singleton.mp hmem]
            exact hsources place next hstage
        · rw [List.length_append, List.length_singleton]
          omega

end Chase

end TsonicNode.Lib
