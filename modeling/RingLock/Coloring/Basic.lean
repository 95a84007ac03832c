import RingLock.Hand

/-!
# Colorings

A coloring assigns a color to every hole of a ring. Two representations share this interface. A
step is `none` when it would shift by a word's whole width or touch a hole that is not there.
-/
namespace RingLock

class Coloring (C : Type) where
  /-- The colors for a full hand. -/
  Recoloring : Type
  /-- Every coloring of `holes` holes over `colors` colors. -/
  all : (holes colors : Nat) → List C
  /-- Every recoloring of a hand of `size` holes over `colors` colors. -/
  recolorings : (size colors : Nat) → List Recoloring
  /-- The color of hole `i` moves to hole `(i + amount) % holes`. -/
  rotate? : C → (amount holes : Nat) → Option C
  /-- Color `i` of the recoloring goes to hole `i` of the hand. Other holes keep their color. -/
  recolor? : C → Hand → Recoloring → Option C
  /-- Whether all holes show one color. -/
  isUniform : C → (holes : Nat) → Bool

/-- Whether each entry equals the next one. The last is not compared with the first: where all
neighbours agree, it agrees with the first already. -/
def neighboursAgree : List UInt8 → Bool
  | a :: b :: rest => a == b && neighboursAgree (b :: rest)
  | _ => true

@[simp] theorem neighboursAgree_nil : neighboursAgree [] = true := rfl

@[simp] theorem neighboursAgree_singleton (a : UInt8) : neighboursAgree [a] = true := rfl

@[simp] theorem neighboursAgree_cons_cons (a b : UInt8) (rest : List UInt8) :
    neighboursAgree (a :: b :: rest) = (a == b && neighboursAgree (b :: rest)) := rfl

/-- Neighbours agree exactly when every entry equals the first. -/
theorem neighboursAgree_cons (a : UInt8) (rest : List UInt8) :
    neighboursAgree (a :: rest) ↔ ∀ b ∈ rest, b = a := by
  induction rest generalizing a with
  | nil => simp
  | cons b rest ih =>
    simp only [neighboursAgree_cons_cons, Bool.and_eq_true, beq_iff_eq, ih, List.mem_cons,
      forall_eq_or_imp]
    constructor
    · rintro ⟨rfl, h⟩; exact ⟨rfl, h⟩
    · rintro ⟨rfl, h⟩; exact ⟨rfl, h⟩

end RingLock
