import RingLock.Proofs.Ring
import RingLock.Proofs.Traversal

/-!
# Steps of live rings

A live ring is turned, cycled and recolored with any arguments: holes outside the ring, hands and
lists of colors of any length, colors outside the palette. A sound ring takes every such step and is
again a sound ring with as many holes and the same palette. So it is after any number of steps.
-/
namespace RingLock.Ring

/-- What can be done with a live ring. -/
inductive Act where
  | rotate (amount : ℕ)
  | cycle (hole : ℕ)
  | recolor (hand : Hand) (recoloring : List UInt8)

def act? (r : Ring) : Act → Option Ring
  | .rotate amount => some (r.rotate amount)
  | .cycle hole => r.cycle? hole
  | .recolor hand recoloring => r.recolor? hand recoloring

/-- One act after the other. -/
def acts? (r : Ring) (acts : List Act) : Option Ring := acts.foldlM act? r

/-- A sound ring with the holes and the palette of another. -/
structure KeptBy (r q : Ring) : Prop where
  sound : q.Sound
  size : q.size = r.size
  palette : q.palette = r.palette

variable {r : Ring}

theorem KeptBy.refl (sound : r.Sound) : r.KeptBy r := ⟨sound, rfl, rfl⟩

theorem KeptBy.trans {q p : Ring} (first : r.KeptBy q) (next : q.KeptBy p) : r.KeptBy p where
  sound := next.sound
  size := next.size.trans first.size
  palette := next.palette.trans first.palette

/-- A hole of a sound ring can take any color of the palette. -/
theorem KeptBy.set (sound : r.Sound) (hole : ℕ) {color : UInt8} (proper : color < r.palette) :
    r.KeptBy { r with colors := r.colors.set hole color } := by
  refine ⟨⟨sound.1, fun c member => ?_⟩, List.length_set, rfl⟩
  rcases List.mem_or_eq_of_mem_set member with old | rfl
  · exact sound.2 c old
  · exact proper

theorem Sound.rotate_kept (sound : r.Sound) (amount : ℕ) : r.KeptBy (r.rotate amount) :=
  ⟨sound.rotate amount, size_rotate r amount, palette_rotate r amount⟩

theorem Sound.cycle?_kept (sound : r.Sound) (hole : ℕ) :
    ∃ q, r.cycle? hole = some q ∧ r.KeptBy q := by
  by_cases inside : hole < r.size
  · obtain ⟨q, cycles, proper, advanced⟩ := sound.cycle?_eq_some inside
    exact ⟨q, cycles, proper, advanced.size, advanced.palette⟩
  · have beyond : r.colors[hole]? = none := List.getElem?_eq_none (Nat.not_lt.1 inside)
    exact ⟨r, by rw [cycle?, beyond], .refl sound⟩

theorem Sound.write?_kept (sound : r.Sound) (hole : ℕ) (color : UInt8) :
    ∃ q, r.write? hole color = some q ∧ r.KeptBy q := by
  by_cases inside : hole < r.size
  · have reduces : reduce? r.palette color = some (color % r.palette) :=
      if_neg (UInt8.ne_of_lt sound.1).symm
    refine ⟨_, ?_, .set sound hole (UInt8.mod_lt color sound.1)⟩
    rw [write?, if_pos inside, reduces, Option.map_some]
  · exact ⟨r, if_neg inside, .refl sound⟩

theorem Sound.recolor?_kept (sound : r.Sound) (hand : Hand) (recoloring : List UInt8) :
    ∃ q, r.recolor? hand recoloring = some q ∧ r.KeptBy q := by
  refine Traversal.exists_foldlM (fun q kept cell _ => ?_) (.refl sound)
  obtain ⟨p, writes, next⟩ := kept.sound.write?_kept cell.1.toNat cell.2
  exact ⟨p, writes, kept.trans next⟩

/-- Every act of a sound ring succeeds and leaves it sound. -/
theorem Sound.act?_kept (sound : r.Sound) (act : Act) :
    ∃ q, r.act? act = some q ∧ r.KeptBy q := by
  cases act with
  | rotate amount => exact ⟨_, rfl, sound.rotate_kept amount⟩
  | cycle hole => exact sound.cycle?_kept hole
  | recolor hand recoloring => exact sound.recolor?_kept hand recoloring

theorem Sound.acts?_kept (sound : r.Sound) (acts : List Act) :
    ∃ q, r.acts? acts = some q ∧ r.KeptBy q := by
  refine Traversal.exists_foldlM (fun q kept act _ => ?_) (.refl sound)
  obtain ⟨p, succeeds, next⟩ := kept.sound.act?_kept act
  exact ⟨p, succeeds, kept.trans next⟩

end RingLock.Ring
