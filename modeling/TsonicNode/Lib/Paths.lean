import Mathlib.Data.Fintype.Card
import Mathlib.Logic.Function.Basic
import Mathlib.Logic.Relation

/-!
# Marks along a path

A traversal of a finite graph that marks the nodes of its path by their
addresses. `unmarked` counts the addresses left, which bounds the length of the
path; `Leads` says that what is marked is on a path to the node at hand, so that
a node without cycles below it never meets its own mark.
-/

namespace TsonicNode.Lib

variable {Node Address Mark : Type}

section Count

variable [Fintype Address]

/-- The addresses without a mark. -/
def unmarked (marks : Address → Option Mark) : Nat :=
  (Finset.univ.filter fun address => (marks address).isNone).card

theorem unmarked_le (marks : Address → Option Mark) : unmarked marks ≤ Fintype.card Address :=
  Finset.card_filter_le _ _

/-- A new mark leaves fewer addresses without one. -/
theorem unmarked_update [DecidableEq Address] {marks : Address → Option Mark} {address : Address}
    (h : marks address = none) (mark : Mark) :
    unmarked (Function.update marks address (some mark)) < unmarked marks := by
  apply Finset.card_lt_card
  refine Finset.ssubset_iff_subset_ne.mpr ⟨fun other hother => ?_, fun heq => ?_⟩
  · rw [Finset.mem_filter] at hother ⊢
    refine ⟨hother.1, ?_⟩
    by_cases hsame : other = address
    · rw [hsame, h]
      rfl
    · simpa only [Function.update_of_ne hsame] using hother.2
  · have hmem : address ∈ Finset.univ.filter fun address => (marks address).isNone := by
      rw [Finset.mem_filter, h]
      exact ⟨Finset.mem_univ _, rfl⟩
    rw [← heq, Finset.mem_filter, Function.update_self] at hmem
    cases hmem.2

end Count

/-- A mark taken away again leaves what was there. -/
theorem update_none [DecidableEq Address] {marks : Address → Option Mark} {address : Address}
    (h : marks address = none) (mark : Mark) :
    Function.update (Function.update marks address (some mark)) address none = marks := by
  rw [Function.update_idem, ← h, Function.update_eq_self]

section Descent

variable {child : Node → Node → Prop} {address : Node → Address} {held : Node → Prop}
  {marks : Address → Option Mark} {node below : Node}

/-- No cycle lies at or below the node. -/
def Acyclic (child : Node → Node → Prop) (node : Node) : Prop :=
  ∀ below, Relation.ReflTransGen child node below → ¬ Relation.TransGen child below below

theorem Acyclic.descend (h : Acyclic child node) (hchild : child node below) : Acyclic child below :=
  fun other hother => h other (hother.head hchild)

/-- What is marked lies above the node. -/
def Leads (child : Node → Node → Prop) (address : Node → Address) (held : Node → Prop)
    (marks : Address → Option Mark) (node : Node) : Prop :=
  ∀ above, held above → marks (address above) ≠ none → Relation.TransGen child above node

theorem leads_none (node : Node) : Leads child address held (fun _ => (none : Option Mark)) node :=
  fun _ _ hmark => absurd rfl hmark

/-- Without a cycle the node itself is not marked. -/
theorem Leads.unmarked (h : Leads child address held marks node) (hacyclic : Acyclic child node)
    (hheld : held node) : marks (address node) = none := by
  by_contra hmark
  exact hacyclic node .refl (h node hheld hmark)

theorem Leads.descend [DecidableEq Address] (h : Leads child address held marks node)
    (hinjective : ∀ a b, held a → held b → address a = address b → a = b) (hheld : held node)
    (hchild : child node below) (mark : Mark) :
    Leads child address held (Function.update marks (address node) (some mark)) below := by
  intro above habove hmark
  by_cases hsame : address above = address node
  · rw [hinjective above node habove hheld hsame]
    exact .single hchild
  · rw [Function.update_of_ne hsame] at hmark
    exact (h above habove hmark).tail hchild

end Descent

end TsonicNode.Lib
