import RingLock.Proofs.Coloring.Listed
import RingLock.Proofs.Random.Draw
import RingLock.Ring

/-!
# Live rings

Rings that are reduced to their palette or drawn are sound, and turns and cycles keep them sound. A
turn carries every color to the hole that the amount leads to. A cycle advances the color of one
hole by one, and at the end of the palette it begins again. No step of a sound ring leaves the range
of a byte.
-/
namespace RingLock.Ring

/-- The color of every hole has moved on by the amount, around the ring. -/
structure Turned (r : Ring) (amount : ℕ) (next : Ring) : Prop where
  palette : next.palette = r.palette
  size : next.size = r.size
  moved : ∀ i < r.size, next.color? ((i + amount) % r.size) = r.color? i

/-- The color of one hole has advanced by one in the palette, and no other hole has changed. -/
structure Advanced (r : Ring) (hole : ℕ) (next : Ring) : Prop where
  palette : next.palette = r.palette
  size : next.size = r.size
  advanced : ∃ color ∈ r.color? hole, ∃ later ∈ next.color? hole,
    later.toNat = (color.toNat + 1) % r.palette.toNat
  kept : ∀ i, i ≠ hole → next.color? i = r.color? i

theorem toNat_max_one (palette : UInt8) : (max palette 1).toNat = max palette.toNat 1 := by
  rw [show max palette 1 = if palette ≤ 1 then 1 else palette from rfl]
  split
  case isTrue small =>
    have value := UInt8.le_iff_toNat_le.1 small
    simp only [UInt8.toNat_one] at value ⊢
    omega
  case isFalse large =>
    have value := mt UInt8.le_iff_toNat_le.2 large
    simp only [UInt8.toNat_one] at value
    omega

theorem palette_pos (palette : UInt8) : 0 < max palette 1 := by
  rw [UInt8.lt_iff_toNat_lt, toNat_max_one]
  exact Nat.lt_of_lt_of_le Nat.one_pos (Nat.le_max_right ..)

theorem sound_of (colors : List UInt8) (palette : UInt8) : (of colors palette).Sound := by
  refine ⟨palette_pos palette, fun c member => ?_⟩
  obtain ⟨color, -, rfl⟩ := List.mem_map.1 member
  exact UInt8.mod_lt color (palette_pos palette)

/-- A drawn ring is sound and has the holes and the palette that were asked for. -/
theorem random?_eq_some {holes : ℕ} {palette : UInt8} {g h : Generator} {r : Ring}
    (drawn : random? holes palette g = some (r, h)) :
    r.Sound ∧ r.size = holes ∧ r.palette = max palette 1 := by
  obtain ⟨⟨colors, rest⟩, draws, same⟩ := Option.map_eq_some_iff.1 drawn
  obtain ⟨rfl, -⟩ := Prod.mk.inj same
  obtain ⟨length, inside⟩ := Generator.colors?_eq_some draws
  exact ⟨⟨palette_pos palette, inside⟩, length, rfl⟩

theorem Sound.rotate {r : Ring} (sound : r.Sound) (amount : ℕ) : (r.rotate amount).Sound :=
  ⟨sound.1, fun c member => sound.2 c ((mem_colors_rotate r amount c).1 member)⟩

theorem rotate_eq_carry (r : Ring) (amount : ℕ) :
    r.rotate amount = ⟨Listed.carry r.size amount r.colors, r.palette⟩ := by
  have short : r.size - amount % r.size ≤ r.colors.length := Nat.sub_le ..
  rw [Listed.carry, List.rotate_eq_drop_append_take short]
  rfl

/-- A turn of a ring is the turn of its coloring. -/
theorem toListed_rotate (r : Ring) (amount : ℕ) :
    r.toListed.rotate? amount r.size = some (r.rotate amount).toListed := by
  rw [rotate_eq_carry]
  exact Listed.rotate?_eq_carry rfl amount

/-- After a turn a hole shows the color that lay before it by the amount. -/
theorem color?_rotate {r : Ring} {amount i : ℕ} (bounded : amount < r.size) (inside : i < r.size) :
    (r.rotate amount).color? i = r.color? ((i + (r.size - amount)) % r.size) := by
  have brings := Listed.getElem?_carry (show r.colors.length = r.size from rfl) amount inside
  rw [Nat.mod_eq_of_lt bounded] at brings
  rw [rotate_eq_carry]
  exact brings

theorem turned_rotate (r : Ring) (amount : ℕ) : r.Turned amount (r.rotate amount) := by
  refine ⟨palette_rotate r amount, size_rotate r amount, fun i inside => ?_⟩
  rw [rotate_eq_carry]
  exact Listed.getElem?_carry_forth rfl amount inside

/-- A color of the palette has a next one in it. -/
theorem successor?_eq_some {palette color : UInt8} (inside : color < palette) :
    ∃ later < palette, successor? palette color = some later ∧
      later.toNat = (color.toNat + 1) % palette.toNat := by
  have less := UInt8.lt_iff_toNat_lt.1 inside
  have small : color.toNat + 1 < 256 := Nat.lt_of_le_of_lt less (UInt8.toNat_lt_size palette)
  have positive : 0 < palette := UInt8.lt_iff_toNat_lt.2 (Nat.zero_lt_of_lt less)
  refine ⟨(color + 1) % palette, UInt8.mod_lt _ positive, ?_, ?_⟩
  · exact if_pos ⟨small, (UInt8.ne_of_lt positive).symm⟩
  · rw [UInt8.toNat_mod, UInt8.toNat_add, UInt8.toNat_one, Nat.mod_eq_of_lt small]

/-- A hole of a sound ring can be cycled, and the ring stays sound. -/
theorem Sound.cycle?_eq_some {r : Ring} (sound : r.Sound) {hole : ℕ} (inside : hole < r.size) :
    ∃ next, r.cycle? hole = some next ∧ next.Sound ∧ r.Advanced hole next := by
  have shown : r.colors[hole]? = some r.colors[hole] := List.getElem?_eq_getElem inside
  obtain ⟨later, proper, advances, value⟩ :=
    successor?_eq_some (sound.2 _ (List.getElem_mem inside))
  refine ⟨{ r with colors := r.colors.set hole later }, ?_, ⟨sound.1, fun c member => ?_⟩, ?_⟩
  · rw [cycle?, shown]
    exact congrArg (Option.map _) advances
  · rcases List.mem_or_eq_of_mem_set member with old | rfl
    · exact sound.2 c old
    · exact proper
  · constructor
    case palette => rfl
    case size => exact List.length_set
    case advanced =>
      exact ⟨r.colors[hole], shown, later, List.getElem?_set_self inside, value⟩
    case kept => exact fun i other => List.getElem?_set_ne (Ne.symm other)

end RingLock.Ring
