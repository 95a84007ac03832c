import Mathlib.Data.Nat.Dist
import Mathlib.Tactic.GCongr
import RingLock.Decimal.Shortest

/-!
# The shortest decimal

What is found for a float lies in its span, no coarser grid has a point there, and no other point of
its own grid is as near to the float, unless two are and the even one is taken. Something is found
for every positive float, for the steps of the last grid are smaller than any span.
-/
namespace RingLock.Decimal

namespace Span

/-- The span reaches to both sides of the float. -/
structure Proper (s : Span) : Prop where
  low_lt : s.low < s.value
  lt_high : s.value < s.high
  unit_pos : 0 < s.unit

section

variable (s : Span) (step parts : ℕ)

/-- The last point of a grid that is not above the float. -/
def below : ℕ := s.value * parts / (step * s.unit)

/-- How far the float is above that point. -/
def excess : ℕ := s.value * parts % (step * s.unit)

/-- How far a point of a grid is from the float. -/
def distance (n : ℕ) : ℕ := Nat.dist (n * (step * s.unit)) (s.value * parts)

/-- A point of a grid lies in the span and is nearer to the float than all others there. It may
share its distance with one of them if it is even. -/
structure Nearest (n : ℕ) : Prop where
  contains : s.Contains (n * step) parts
  nearest : ∀ m, s.Contains (m * step) parts → m = n ∨
    s.distance step parts n < s.distance step parts m ∨
    s.distance step parts n = s.distance step parts m ∧ n % 2 = 0

end

variable {s : Span} {step parts m n : ℕ}

/-- With a point below the float the span contains all points between the two. -/
theorem Proper.contains_below (proper : s.Proper) (some_part : 0 < parts)
    (h : s.Contains (m * step) parts) (le : m ≤ n)
    (reaches : n * (step * s.unit) ≤ s.value * parts) : s.Contains (n * step) parts := by
  have near : m * step * s.unit ≤ n * step * s.unit := by gcongr
  have far : n * step * s.unit < s.high * parts := by
    rw [Nat.mul_assoc]
    exact reaches.trans_lt (Nat.mul_lt_mul_of_pos_right proper.lt_high some_part)
  unfold Contains at h ⊢
  split at h
  case isTrue closed => exact if_pos closed ▸ ⟨h.1.trans near, far.le⟩
  case isFalse strict => exact if_neg strict ▸ ⟨h.1.trans_le near, far⟩

/-- With a point above the float the span contains all points between the two. -/
theorem Proper.contains_above (proper : s.Proper) (some_part : 0 < parts)
    (h : s.Contains (m * step) parts) (le : n ≤ m)
    (reaches : s.value * parts ≤ n * (step * s.unit)) : s.Contains (n * step) parts := by
  have near : n * step * s.unit ≤ m * step * s.unit := by gcongr
  have far : s.low * parts < n * step * s.unit := by
    rw [Nat.mul_assoc]
    exact (Nat.mul_lt_mul_of_pos_right proper.low_lt some_part).trans_le reaches
  unfold Contains at h ⊢
  split at h
  case isTrue closed => exact if_pos closed ▸ ⟨far.le, near.trans h.2⟩
  case isFalse strict => exact if_neg strict ▸ ⟨far, near.trans_lt h.2⟩

variable (s step parts) in
theorem below_add_excess :
    s.below step parts * (step * s.unit) + s.excess step parts = s.value * parts :=
  Nat.div_add_mod' ..

variable (parts) in
theorem excess_lt (wide : 0 < step * s.unit) : s.excess step parts < step * s.unit :=
  Nat.mod_lt _ wide

/-- If a grid has a point in the span, one of the two neighbours of the float is there as well. -/
theorem Proper.neighbour (proper : s.Proper) (some_part : 0 < parts) (wide : 0 < step * s.unit)
    (h : s.Contains (m * step) parts) :
    m ≤ s.below step parts ∧ s.Contains (s.below step parts * step) parts ∨
      s.below step parts < m ∧ s.Contains ((s.below step parts + 1) * step) parts := by
  have place := s.below_add_excess step parts
  have excess := excess_lt parts wide
  rcases Nat.lt_or_ge (s.below step parts) m with above | le
  · exact .inr ⟨above, proper.contains_above some_part h above (by rw [Nat.succ_mul]; omega)⟩
  · exact .inl ⟨le, proper.contains_below some_part h le (by omega)⟩

variable (parts) in
/-- The distances of all points. -/
theorem distance_cases (wide : 0 < step * s.unit) (m : ℕ) :
    m = s.below step parts ∧ s.distance step parts m = s.excess step parts ∨
    m = s.below step parts + 1 ∧
      s.distance step parts m = step * s.unit - s.excess step parts ∨
    m < s.below step parts ∧ s.excess step parts < s.distance step parts m ∨
    s.below step parts + 1 < m ∧
      step * s.unit - s.excess step parts < s.distance step parts m := by
  have place := s.below_add_excess step parts
  have excess := excess_lt parts wide
  unfold distance Nat.dist
  rcases lt_trichotomy m (s.below step parts) with less | same | more
  · have apart := Nat.mul_le_mul_right (step * s.unit) (Nat.succ_le_of_lt less)
    rw [Nat.succ_mul] at apart
    omega
  · subst same
    omega
  · rcases Nat.eq_or_lt_of_le (Nat.succ_le_of_lt more) with same | more
    · subst same
      rw [Nat.succ_mul]
      omega
    · have apart := Nat.mul_le_mul_right (step * s.unit) (Nat.succ_le_of_lt more)
      rw [Nat.succ_mul, Nat.succ_mul] at apart
      omega

/-- Nothing is found only on grids without a point in the span. -/
theorem nearest?_eq_none (proper : s.Proper) (some_part : 0 < parts) (some_step : 0 < step)
    (h : s.nearest? step parts = none) (m : ℕ) : ¬s.Contains (m * step) parts := by
  intro there
  have wide := Nat.mul_pos some_step proper.unit_pos
  simp only [nearest?] at h
  split at h
  case isTrue => split at h <;> contradiction
  case isFalse =>
    split at h
    case isTrue => contradiction
    case isFalse no_lower =>
      split at h
      case isTrue => contradiction
      case isFalse no_upper =>
        rcases proper.neighbour some_part wide there with ⟨-, lower⟩ | ⟨-, upper⟩
        · exact no_lower lower
        · exact no_upper upper

/-- The neighbour below the float is the nearest unless the one above is in the span and nearer. -/
theorem Proper.nearest_below (proper : s.Proper) (some_part : 0 < parts)
    (wide : 0 < step * s.unit) (lower : s.Contains (s.below step parts * step) parts)
    (nearer : s.Contains ((s.below step parts + 1) * step) parts →
      2 * s.excess step parts < step * s.unit ∨
      2 * s.excess step parts = step * s.unit ∧ s.below step parts % 2 = 0) :
    s.Nearest step parts (s.below step parts) := by
  refine ⟨lower, fun m there => ?_⟩
  have here := distance_cases parts wide (s.below step parts)
  have away := distance_cases parts wide m
  rcases proper.neighbour some_part wide there with ⟨le, -⟩ | ⟨above, upper⟩
  · omega
  · have less := nearer upper
    omega

/-- The neighbour above the float is the nearest unless the one below is in the span and nearer. -/
theorem Proper.nearest_above (proper : s.Proper) (some_part : 0 < parts)
    (wide : 0 < step * s.unit) (upper : s.Contains ((s.below step parts + 1) * step) parts)
    (nearer : s.Contains (s.below step parts * step) parts →
      step * s.unit < 2 * s.excess step parts ∨
      2 * s.excess step parts = step * s.unit ∧ s.below step parts % 2 ≠ 0) :
    s.Nearest step parts (s.below step parts + 1) := by
  refine ⟨upper, fun m there => ?_⟩
  have here := distance_cases parts wide (s.below step parts + 1)
  have away := distance_cases parts wide m
  rcases proper.neighbour some_part wide there with ⟨le, lower⟩ | ⟨above, -⟩
  · have less := nearer lower
    omega
  · omega

/-- What is found on a grid is the nearest of its points in the span. -/
theorem nearest_of_nearest? (proper : s.Proper) (some_part : 0 < parts) (some_step : 0 < step)
    (h : s.nearest? step parts = some n) : s.Nearest step parts n := by
  have wide := Nat.mul_pos some_step proper.unit_pos
  simp only [nearest?] at h
  split at h
  case isTrue both =>
    split at h
    case h_1 order =>
      obtain rfl : s.below step parts = n := Option.some.inj h
      exact proper.nearest_below some_part wide both.1 fun _ => .inl (Nat.compare_eq_lt.1 order)
    case h_2 order =>
      obtain rfl : s.below step parts + 1 = n := Option.some.inj h
      exact proper.nearest_above some_part wide both.2 fun _ => .inl (Nat.compare_eq_gt.1 order)
    case h_3 order =>
      have tie : 2 * s.excess step parts = step * s.unit := Nat.compare_eq_eq.1 order
      obtain rfl := Option.some.inj h
      split
      case isTrue even => exact proper.nearest_below some_part wide both.1 fun _ => .inr ⟨tie, even⟩
      case isFalse odd => exact proper.nearest_above some_part wide both.2 fun _ => .inr ⟨tie, odd⟩
  case isFalse one_side =>
    split at h
    case isTrue lower =>
      obtain rfl : s.below step parts = n := Option.some.inj h
      exact proper.nearest_below some_part wide lower fun upper => absurd ⟨lower, upper⟩ one_side
    case isFalse no_lower =>
      split at h
      case isFalse => contradiction
      case isTrue upper =>
        obtain rfl : s.below step parts + 1 = n := Option.some.inj h
        exact proper.nearest_above some_part wide upper fun lower => absurd lower no_lower

/-- A decimal of a span is the shortest if no coarser grid that is tried has a point in the span and
it is the nearest on its own grid. -/
structure Shortest (s : Span) (n : ℕ) (grid : ℤ) : Prop where
  listed : grid ∈ grids
  nearest : s.Nearest (10 ^ grid.toNat) (10 ^ (-grid).toNat) n
  coarsest : ∀ coarser ∈ grids, grid < coarser →
    ∀ m, ¬s.Contains (m * 10 ^ coarser.toNat) (10 ^ (-coarser).toNat)

theorem mem_grids {grid : ℤ} : grid ∈ grids ↔ -324 ≤ grid ∧ grid ≤ 309 := by
  simp only [grids, List.mem_map, List.mem_range]
  constructor
  · rintro ⟨i, inside, rfl⟩
    simp only [Int.ofNat_eq_natCast]
    omega
  · rintro ⟨least, greatest⟩
    exact ⟨(309 - grid).toNat, by omega, by simp only [Int.ofNat_eq_natCast]; omega⟩

theorem pairwise_grids : grids.Pairwise (· > ·) := by
  rw [grids, List.pairwise_map]
  refine List.pairwise_lt_range.imp fun less => ?_
  simp only [Int.ofNat_eq_natCast]
  omega

/-- What is found is found on the first grid with a point in the span. -/
theorem shortest_of_shortest? (proper : s.Proper) {grid : ℤ}
    (h : s.shortest? = some (n, grid)) : s.Shortest n grid := by
  obtain ⟨coarser, tried, finer, split, found, none_found⟩ := List.findSome?_eq_some_iff.1 h
  obtain ⟨k, nearest, same⟩ := Option.map_eq_some_iff.1 found
  obtain ⟨rfl, rfl⟩ := Prod.mk.inj same
  have power (k : ℕ) : 0 < 10 ^ k := Nat.pow_pos (by decide)
  refine ⟨by simp [split], nearest_of_nearest? proper (power _) (power _) nearest, ?_⟩
  intro other listed less m
  have order := pairwise_grids
  rw [split] at order listed
  have before : other ∈ coarser := by
    rcases List.mem_append.1 listed with before | after
    · exact before
    · obtain ⟨smaller, -⟩ := List.pairwise_cons.1 (List.pairwise_append.1 order).2.1
      rcases List.mem_cons.1 after with rfl | after
      · exact absurd less (lt_irrefl _)
      · exact absurd less (smaller other after).not_gt
  have nothing := Option.map_eq_none_iff.1 (none_found other before)
  exact nearest?_eq_none proper (power _) (power _) nothing m

/-- A grid has a point in the span if its step is no wider than the part of the span below the
float. -/
theorem Proper.contains_of_fine (proper : s.Proper) (some_part : 0 < parts) (some_step : 0 < step)
    (fine : step * s.unit ≤ (s.value - s.low) * parts) :
    s.Contains (s.below step parts * step) parts := by
  have place := s.below_add_excess step parts
  have excess := excess_lt parts (Nat.mul_pos some_step proper.unit_pos)
  have above : s.low * parts < s.below step parts * step * s.unit := by
    have within : s.low * parts ≤ s.value * parts := Nat.mul_le_mul_right parts proper.low_lt.le
    rw [Nat.sub_mul] at fine
    rw [Nat.mul_assoc]
    omega
  have beneath : s.below step parts * step * s.unit < s.high * parts := by
    rw [Nat.mul_assoc]
    calc s.below step parts * (step * s.unit) ≤ s.value * parts := by omega
      _ < s.high * parts := Nat.mul_lt_mul_of_pos_right proper.lt_high some_part
  unfold Contains
  split
  · exact ⟨above.le, beneath.le⟩
  · exact ⟨above, beneath⟩

section

variable {fraction field : ℕ}

theorem proper_ofFields (positive : field ≠ 0 ∨ fraction ≠ 0) :
    (ofFields fraction field).Proper := by
  have scale (k : ℕ) : 0 < 1 <<< k := by
    rw [Nat.shiftLeft_eq, Nat.one_mul]
    exact Nat.two_pow_pos k
  have some_quarters : 0 < 4 * ((if field = 0 then 0 else 1 <<< 52) + fraction) := by
    split
    case isTrue => omega
    case isFalse =>
      have implicit := scale 52
      omega
  constructor
  case low_lt =>
    refine Nat.mul_lt_mul_of_pos_right (Nat.sub_lt some_quarters ?_) (scale _)
    split <;> decide
  case lt_high => exact Nat.mul_lt_mul_of_pos_right (Nat.lt_add_of_pos_right (by decide)) (scale _)
  case unit_pos => exact scale _

/-- A grid from the last one on is fine enough for every float. -/
theorem fine_ofFields (positive : field ≠ 0 ∨ fraction ≠ 0) {digits : ℕ} (enough : 324 ≤ digits) :
    1 * (ofFields fraction field).unit ≤
      ((ofFields fraction field).value - (ofFields fraction field).low) * 10 ^ digits := by
  have apart := Nat.sub_pos_of_lt (proper_ofFields positive).low_lt
  calc 1 * (ofFields fraction field).unit = 2 ^ (1077 - max field 1) :=
        (Nat.one_mul _).trans (Nat.one_shiftLeft _)
    _ ≤ 2 ^ 1076 := Nat.pow_le_pow_right (by decide) (by omega)
    _ ≤ 10 ^ 324 := by decide +kernel
    _ ≤ 10 ^ digits := pow_le_pow_right₀ (by decide) enough
    _ ≤ _ := Nat.le_mul_of_pos_left _ apart

theorem nearest?_ofFields_ne_none (positive : field ≠ 0 ∨ fraction ≠ 0) {grid : ℤ}
    (fine : grid ≤ -324) : (ofFields fraction field).nearest? (Nat.pow 10 grid.toNat)
      (Nat.pow 10 (-grid).toNat) ≠ none := by
  intro nothing
  have proper := proper_ofFields positive
  have some_part : 0 < 10 ^ (-grid).toNat := Nat.pow_pos (by decide)
  rw [Int.toNat_of_nonpos (by omega)] at nothing
  exact nearest?_eq_none proper some_part (by decide) nothing _
    (proper.contains_of_fine some_part (by decide) (fine_ofFields positive (by omega)))

/-- Every positive float has a decimal, and what is found for it is the shortest. -/
theorem shortest_ofFields (positive : field ≠ 0 ∨ fraction ≠ 0) : ∃ n grid,
    (ofFields fraction field).shortest? = some (n, grid) ∧
      (ofFields fraction field).Shortest n grid := by
  have proper := proper_ofFields positive
  cases found : (ofFields fraction field).shortest? with
  | some decimal => exact ⟨_, _, rfl, shortest_of_shortest? proper found⟩
  | none =>
    have last := List.findSome?_eq_none_iff.1 found (-324) (mem_grids.2 (by decide))
    have fine := nearest?_ofFields_ne_none positive (le_refl (-324))
    exact absurd (Option.map_eq_none_iff.1 last) fine

end

end Span

/-- The decimal of a finite float that is not zero is the shortest in its span. -/
theorem exists_ofFloat? {x : Float} {fraction field : ℕ}
    (of_field : ((x.toBits >>> 52) &&& 0x7ff).toNat = field)
    (of_fraction : (x.toBits &&& 0xfffffffffffff).toNat = fraction) (finite : field ≠ 0x7ff)
    (positive : field ≠ 0 ∨ fraction ≠ 0) : ∃ d, ofFloat? x = some d ∧
      (Span.ofFields fraction field).Shortest d.digits d.exponent := by
  obtain ⟨n, grid, found, shortest⟩ := Span.shortest_ofFields positive
  refine ⟨⟨x.toBits >>> 63 == 1, n, grid⟩, ?_, shortest⟩
  simp only [ofFloat?, of_field, of_fraction]
  rw [if_neg finite, if_neg (by omega), found]
  rfl

end RingLock.Decimal
