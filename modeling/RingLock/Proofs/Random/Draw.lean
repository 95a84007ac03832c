import RingLock.Random.Generator

/-!
# Draws

A bounded draw that ends lies in its range. So an element drawn from a list is one of its elements,
and drawn colors lie inside their palette. Whether a number of draws end, one after the other, is a
condition on the generator.
-/
namespace RingLock.Generator

theorem sample?_lt {size : Nat} {next : Generator → Nat × Generator}
    (word_lt : ∀ g, (next g).1 < size) {range zone tries n : Nat} (positive : 0 < range)
    {g h : Generator}
    (drawn : sample? size next range zone tries g = some (n, h)) : n < range := by
  induction tries generalizing g with
  | zero => contradiction
  | succ tries ih =>
    have low := word_lt g
    simp only [sample?] at drawn
    split at drawn
    · obtain ⟨rfl, -⟩ := Prod.mk.inj (Option.some.inj drawn)
      exact Nat.div_lt_of_lt_mul (Nat.mul_lt_mul_of_pos_right low positive)
    · exact ih drawn

theorem below32?_lt {range n : Nat} {g h : Generator} (drawn : below32? range g = some (n, h)) :
    n < range := by
  unfold below32? at drawn
  split at drawn
  · contradiction
  · exact sample?_lt word32_lt (by omega) drawn

theorem below64?_lt {range n : Nat} {g h : Generator} (drawn : below64? range g = some (n, h)) :
    n < range := by
  unfold below64? at drawn
  split at drawn
  · contradiction
  · exact sample?_lt word64_lt (by omega) drawn

/-- A choice from a list with elements is the draw of a place in the list. -/
theorem choose?_eq {α : Type} {xs : List α} (nonempty : xs ≠ []) (g : Generator) :
    choose? xs g = (if xs.length < UInt32.size then g.below32? xs.length
      else g.below64? xs.length).map fun drawn => (xs[drawn.1]?, drawn.2) := by
  have some_left : xs.isEmpty = false := by simpa using nonempty
  simp only [choose?, some_left, Bool.false_eq_true, if_false]

/-- What is drawn from a list with elements is one of them. -/
theorem exists_of_choose? {α : Type} {xs : List α} (nonempty : xs ≠ []) {g h : Generator}
    {drawn : Option α} (chosen : choose? xs g = some (drawn, h)) : ∃ x ∈ xs, drawn = some x := by
  rw [choose?_eq nonempty] at chosen
  obtain ⟨⟨n, rest⟩, draws, same⟩ := Option.map_eq_some_iff.1 chosen
  obtain ⟨rfl, -⟩ := Prod.mk.inj same
  have inside : n < xs.length := by
    split at draws
    · exact below32?_lt draws
    · exact below64?_lt draws
  exact ⟨xs[n], List.getElem_mem inside, List.getElem?_eq_getElem inside⟩

theorem color?_lt {palette color : UInt8} {g h : Generator}
    (drawn : color? palette g = some (color, h)) : color < palette := by
  unfold color? at drawn
  split at drawn
  case isTrue => contradiction
  case isFalse some_color =>
    obtain ⟨⟨n, rest⟩, draws, same⟩ := Option.map_eq_some_iff.1 drawn
    obtain ⟨rfl, -⟩ := Prod.mk.inj same
    have positive : 0 < palette.toNat := by
      rw [← UInt8.toNat_inj] at some_color
      exact Nat.pos_of_ne_zero some_color
    have below := sample?_lt word32_lt positive draws
    have byte := UInt8.toNat_lt_size palette
    rw [UInt8.lt_iff_toNat_lt, UInt8.toNat_ofNat_of_lt' (Nat.lt_trans below byte)]
    exact below

/-- As many colors are drawn as were asked for, all of the palette. -/
theorem colors?_eq_some {palette : UInt8} {count : Nat} {colors : List UInt8} {g h : Generator}
    (drawn : colors? palette count g = some (colors, h)) :
    colors.length = count ∧ ∀ c ∈ colors, c < palette := by
  induction count generalizing colors g h with
  | zero =>
    obtain ⟨rfl, -⟩ := Prod.mk.inj (Option.some.inj drawn)
    simp
  | succ count ih =>
    obtain ⟨⟨color, mid⟩, first, drawn⟩ := Option.bind_eq_some_iff.1 drawn
    obtain ⟨⟨others, last⟩, rest, drawn⟩ := Option.bind_eq_some_iff.1 drawn
    obtain ⟨rfl, -⟩ := Prod.mk.inj (Option.some.inj drawn)
    obtain ⟨length, inside⟩ := ih rest
    exact ⟨by rw [List.length_cons, length], List.forall_mem_cons.2 ⟨color?_lt first, inside⟩⟩

section Yields

variable {α : Type} (draw : Generator → Option (α × Generator))

/-- The next so many draws end. -/
def Yields : Nat → Generator → Prop
  | 0, _ => True
  | count + 1, g => ∃ drawn ∈ draw g, Yields count drawn.2

/-- Whether draws end can be tried out. -/
instance decidableYields : (count : Nat) → (g : Generator) → Decidable (Yields draw count g)
  | 0, _ => inferInstanceAs (Decidable True)
  | count + 1, g =>
    have (h : Generator) : Decidable (Yields draw count h) := decidableYields count h
    inferInstanceAs (Decidable (∃ drawn ∈ draw g, Yields draw count drawn.2))

end Yields

/-- Colors are drawn if each of the draws ends. -/
theorem exists_colors? {palette : UInt8} {count : Nat} {g : Generator}
    (yields : g.Yields (color? palette) count) :
    ∃ colors h, colors? palette count g = some (colors, h) := by
  induction count generalizing g with
  | zero => exact ⟨[], g, rfl⟩
  | succ count ih =>
    obtain ⟨⟨color, mid⟩, first, later⟩ := yields
    obtain ⟨colors, h, rest⟩ := ih later
    refine ⟨color :: colors, h, ?_⟩
    rw [colors?, Option.mem_def.1 first]
    change (colors? palette count mid).bind _ = _
    rw [rest]
    rfl

end RingLock.Generator
