import Mathlib.Tactic.Common

/-!
# Decoding in chunks

A decoder turns a list of input symbols into output, or fails. Fed in chunks it
holds a suffix of what it has back and decodes the part in front of it. A place
is a `SafeCut` when the decoding of every continuation splits there; a decoder
that always cuts at safe places gives, over any split of the input, what it
gives on the whole (`feed_eq`).
-/

namespace TsonicNode.Lib

variable {β γ : Type}

/-- One output after the other; a failure of either is a failure. -/
def andThen (a b : Option (List γ)) : Option (List γ) := do
  let x ← a
  let y ← b
  return x ++ y

@[simp] theorem andThen_none (b : Option (List γ)) : andThen none b = none := rfl

@[simp] theorem andThen_some (x y : List γ) : andThen (some x) (some y) = some (x ++ y) := rfl

@[simp] theorem none_andThen (a : Option (List γ)) : andThen a none = none := by
  cases a <;> rfl

@[simp] theorem some_nil_andThen (b : Option (List γ)) : andThen (some []) b = b := by
  cases b <;> rfl

theorem andThen_assoc (a b c : Option (List γ)) :
    andThen (andThen a b) c = andThen a (andThen b c) := by
  cases a <;> cases b <;> cases c <;> simp

theorem andThen_map (f : List γ → List γ) (hf : ∀ x y, f (x ++ y) = f x ++ y)
    (a b : Option (List γ)) : (andThen a b).map f = andThen (a.map f) b := by
  cases a <;> cases b <;> simp [hf]

/-- However the input goes on after `front ++ back`, decoding splits between the two. -/
def SafeCut (decode : List β → Option (List γ)) (front back : List β) : Prop :=
  ∀ tail, decode (front ++ (back ++ tail)) = andThen (decode front) (decode (back ++ tail))

/-- Decode chunk after chunk, holding back what stands behind `boundary`. -/
def feed (decode : List β → Option (List γ)) (boundary : List β → Nat) :
    List β → List (List β) → Option (List γ)
  | pending, [] => decode pending
  | pending, chunk :: chunks =>
    andThen (decode ((pending ++ chunk).take (boundary (pending ++ chunk))))
      (feed decode boundary ((pending ++ chunk).drop (boundary (pending ++ chunk))) chunks)

/-- Decoding chunk after chunk is decoding the whole. -/
theorem feed_eq {decode : List β → Option (List γ)} {boundary : List β → Nat}
    (h : ∀ bs : List β, SafeCut decode (bs.take (boundary bs)) (bs.drop (boundary bs)))
    (pending : List β) (chunks : List (List β)) :
    feed decode boundary pending chunks = decode (pending ++ chunks.flatten) := by
  induction chunks generalizing pending with
  | nil => simp [feed]
  | cons chunk chunks ih =>
    have hcut := h (pending ++ chunk) chunks.flatten
    rw [feed, ih, ← hcut, ← List.append_assoc, List.take_append_drop, List.flatten_cons,
      List.append_assoc]

/-- Decoders without memory are cut safely everywhere. -/
theorem safeCut_of_append {decode : List β → List γ}
    (h : ∀ xs ys, decode (xs ++ ys) = decode xs ++ decode ys) (front back : List β) :
    SafeCut (fun bs => some (decode bs)) front back := by
  intro tail
  simp only [h front, andThen_some]

end TsonicNode.Lib
