import RingLock.Fault
import RingLock.Position
import RingLock.Random.Generator

/-!
# Live rings

The colors that a ring shows, together with the size of its palette. A sound ring has a palette of
at least one color, and every color lies inside it. `of` reduces colors to the palette, and `check`
refuses what is not sound. Steps that would leave the range of a byte are `none`; a sound ring has
no such step.
-/
namespace RingLock

structure Ring where
  colors : List UInt8
  palette : UInt8
  deriving DecidableEq

namespace Ring

/-- The palette holds a color, and every color shown lies inside it. -/
def Sound (r : Ring) : Prop := 0 < r.palette ∧ ∀ c ∈ r.colors, c < r.palette

instance (r : Ring) : Decidable r.Sound := inferInstanceAs (Decidable (_ ∧ _))

/-- The ring with the given colors, reduced to the palette. An empty palette counts as one color. -/
def of (colors : List UInt8) (palette : UInt8) : Ring :=
  let palette := max palette 1
  ⟨colors.map (· % palette), palette⟩

/-- A ring of uniform colors, in the order of their draws. -/
def random? (holes : Nat) (palette : UInt8) (g : Generator) : Option (Ring × Generator) :=
  let palette := max palette 1
  (g.colors? palette holes).map fun (colors, g) => (⟨colors, palette⟩, g)

/-- Accepts a sound ring. An empty palette is reported before any color, and of several colors
outside the palette the first. -/
def check (r : Ring) : Except Fault Ring :=
  if r.palette = 0 then .error .emptyPalette
  else match r.colors.find? (r.palette ≤ ·) with
    | some color => .error (.colorOutside color r.palette)
    | none => .ok r

/-- The number of holes. -/
def size (r : Ring) : Nat := r.colors.length

def color? (r : Ring) (hole : Nat) : Option UInt8 := r.colors[hole]?

/-- The color of hole `i` moves to hole `(i + amount) % size`. -/
def rotate (r : Ring) (amount : Nat) : Ring :=
  let kept := r.size - amount % r.size
  { r with colors := r.colors.drop kept ++ r.colors.take kept }

/-- The color after `color` in a palette, and the first one after the last. -/
def successor? (palette color : UInt8) : Option UInt8 :=
  if color.toNat + 1 < 256 ∧ palette ≠ 0 then some ((color + 1) % palette) else none

/-- A color reduced to a palette. -/
def reduce? (palette color : UInt8) : Option UInt8 :=
  if palette = 0 then none else some (color % palette)

/-- Advances one hole to the next color. Holes outside the ring change nothing. -/
def cycle? (r : Ring) (hole : Nat) : Option Ring :=
  match r.colors[hole]? with
  | none => some r
  | some color => (successor? r.palette color).map fun c => { r with colors := r.colors.set hole c }

/-- Writes one hole, reduced to the palette. Holes outside the ring change nothing. -/
def write? (r : Ring) (hole : Nat) (color : UInt8) : Option Ring :=
  if hole < r.size then
    (reduce? r.palette color).map fun c => { r with colors := r.colors.set hole c }
  else some r

/-- Color `i` of the list goes to hole `i` of the hand, as far as both reach. -/
def recolor? (r : Ring) (hand : Hand) (recoloring : List UInt8) : Option Ring :=
  (hand.holes.zip recoloring).foldlM (fun r cell => r.write? cell.1.toNat cell.2) r

/-- All holes show one color. -/
def isWon (r : Ring) : Bool := neighboursAgree r.colors

/-- The coloring alone. -/
def toListed (r : Ring) : Listed := ⟨r.colors⟩

/-- The position between two turns: nothing awaits recoloring. -/
def toPosition (r : Ring) : Position Listed := ⟨r.toListed, .empty⟩

@[simp] theorem size_rotate (r : Ring) (amount : Nat) : (r.rotate amount).size = r.size := by
  simp [rotate, size]

@[simp] theorem palette_rotate (r : Ring) (amount : Nat) : (r.rotate amount).palette = r.palette :=
  rfl

@[simp] theorem mem_colors_rotate (r : Ring) (amount : Nat) (c : UInt8) :
    c ∈ (r.rotate amount).colors ↔ c ∈ r.colors := by
  simp only [rotate, List.mem_append, Or.comm (a := c ∈ List.drop _ _)]
  rw [← List.mem_append, List.take_append_drop]

/-- The check lets through exactly the sound rings, unchanged. -/
theorem check_eq_ok_iff (r s : Ring) : r.check = .ok s ↔ r.Sound ∧ s = r := by
  have positive : 0 < r.palette ↔ r.palette ≠ 0 := by
    simp [UInt8.lt_iff_toNat_lt, ← UInt8.toNat_inj]; omega
  simp only [check, Sound, positive]
  split
  · simp_all
  · cases found : r.colors.find? (r.palette ≤ ·) with
    | none =>
      have inside : ∀ c ∈ r.colors, c < r.palette := by simpa using found
      simp_all [eq_comm]
    | some color =>
      have bad := List.find?_some found
      have present := List.mem_of_find?_eq_some found
      simp only [reduceCtorEq, false_iff, not_and]
      intro sound
      exact absurd (sound.2 color present) (by simpa using bad)

end Ring

end RingLock
