import RingLock.Proofs.Hand

/-!
# Wheels

Colors on a ring are kept in several forms. A wheel is what all of them have for rings of one size:
the color of a hole, turns, recolorings, and the test for a single color. Turns are a cyclic action
that carries the holes along, also those of a hand that awaits recoloring. A form inherits this from
another one in which it can be seen, if what it shows there tells its rings apart. As turns only move
the colors, none of them changes what the test says.
-/
namespace RingLock

namespace Hand

/-- Every hole moved on around the ring, at its place in the hand. -/
def advance (hand : Hand) (holes amount : ℕ) : Hand :=
  ⟨hand.holes.map fun x => UInt8.ofNat ((x.toNat + amount) % holes)⟩

@[simp] theorem size_advance (hand : Hand) (holes amount : ℕ) :
    (hand.advance holes amount).size = hand.size := List.length_map ..

/-- All holes of a hand can be moved on around the ring: their new places are bytes again. -/
def CanAdvance (hand : Hand) (holes amount : ℕ) : Prop :=
  ∀ x ∈ hand.holes, (x.toNat + amount) % holes < 256

instance (hand : Hand) (holes amount : ℕ) : Decidable (hand.CanAdvance holes amount) :=
  List.decidableBAll ..

/-- On a ring whose holes are bytes every hand can be moved on. -/
theorem Inside.canAdvance {hand : Hand} {holes : ℕ} (inside : hand.Inside holes)
    (small : holes ≤ 256) (amount : ℕ) : hand.CanAdvance holes amount := by
  intro x held
  exact Nat.lt_of_lt_of_le (Nat.mod_lt _ (Nat.zero_lt_of_lt (inside x held))) small

theorem Inside.advance {hand : Hand} {holes amount : ℕ} (inside : hand.Inside holes)
    (bytes : hand.CanAdvance holes amount) : (hand.advance holes amount).Inside holes := by
  intro y held
  obtain ⟨x, member, rfl⟩ := List.mem_map.1 held
  rw [UInt8.toNat_ofNat_of_lt' (bytes x member)]
  exact Nat.mod_lt _ (Nat.zero_lt_of_lt (inside x member))

end Hand

/-- Rings of one size in one form. Turns and recolorings may fail, and hands of some sizes may not
fit. -/
structure Wheel (Form Paint : Type) where
  holes : ℕ
  IsRing : Form → Prop
  color? : Form → ℕ → Option UInt8
  rotate? : Form → (amount : ℕ) → Option Form
  recolor? : Form → Hand → Paint → Option Form
  Fits : (size : ℕ) → Prop
  isUniform : Form → Bool

namespace Wheel

variable {Form Paint Form' Paint' : Type}

/-- Turns are a cyclic action: they succeed and carry every color along, amounts add up around the
ring, and a recoloring can be made before the turn, or after it in the places that its holes have
come to. -/
structure Turns (w : Wheel Form Paint) : Prop where
  carries : ∀ c, w.IsRing c → ∀ amount, ∃ d, w.rotate? c amount = some d ∧ w.IsRing d ∧
    ∀ hole < w.holes, w.color? d ((hole + amount) % w.holes) = w.color? c hole
  adds : ∀ c, w.IsRing c → ∀ a b, (w.rotate? c a).bind (w.rotate? · b) =
    w.rotate? c ((a % w.holes + b % w.holes) % w.holes)
  recolors : ∀ c, w.IsRing c → ∀ hand, hand.Inside w.holes → w.Fits hand.size → ∀ paint,
    ∃ d, w.recolor? c hand paint = some d ∧ w.IsRing d
  commutes : ∀ c, w.IsRing c → ∀ hand, hand.Inside w.holes → ∀ amount,
    hand.CanAdvance w.holes amount → ∀ paint,
      (w.recolor? c hand paint).bind (w.rotate? · amount) =
        (w.rotate? c amount).bind (w.recolor? · (hand.advance w.holes amount) paint)

/-- The test tells whether all holes show one color. It could as well compare each hole with the
next one all around the ring, and it says the same after every turn. -/
structure Tests (w : Wheel Form Paint) : Prop where
  same : ∀ c, w.IsRing c →
    (w.isUniform c ↔ ∀ i < w.holes, ∀ j < w.holes, w.color? c i = w.color? c j)
  around : ∀ c, w.IsRing c →
    (w.isUniform c ↔ ∀ i < w.holes, w.color? c i = w.color? c ((i + 1) % w.holes))
  turned : ∀ c, w.IsRing c → ∀ amount, ∃ d, w.rotate? c amount = some d ∧
    w.isUniform d = w.isUniform c

/-- A form whose rings are told apart by what they are in another form, and do there what they do
in their own. Hands that do not fit cannot be recolored. -/
structure SeenAs (w : Wheel Form Paint) (v : Wheel Form' Paint') (view : Form → Form')
    (dye : (size : ℕ) → Paint → Paint') : Prop where
  holes : v.holes = w.holes
  ring : ∀ c, w.IsRing c → v.IsRing (view c)
  injective : ∀ c d, w.IsRing c → w.IsRing d → view c = view d → c = d
  color : ∀ c, w.IsRing c → ∀ i < w.holes, v.color? (view c) i = w.color? c i
  rotate : ∀ c, w.IsRing c → ∀ amount, ∃ d, w.rotate? c amount = some d ∧ w.IsRing d ∧
    v.rotate? (view c) amount = some (view d)
  recolor : ∀ c, w.IsRing c → ∀ hand, hand.Inside w.holes → w.Fits hand.size → ∀ paint,
    ∃ d, w.recolor? c hand paint = some d ∧ w.IsRing d ∧
      v.recolor? (view c) hand (dye hand.size paint) = some (view d)
  refuses : ∀ c hand paint, ¬w.Fits hand.size → w.recolor? c hand paint = none

/-- A hole that was carried on by an amount comes back by what the amount lacks of a full turn. -/
theorem forth_back {holes hole : ℕ} (inside : hole < holes) (amount : ℕ) :
    ((hole + amount) % holes + (holes - amount % holes)) % holes = hole := by
  have parts := Nat.div_add_mod amount holes
  have below := Nat.mod_lt amount (show 0 < holes by omega)
  have full : hole + amount + (holes - amount % holes) = hole + holes * (amount / holes + 1) := by
    rw [Nat.mul_succ]
    omega
  rw [Nat.mod_add_mod, full, Nat.add_mul_mod_self_left, Nat.mod_eq_of_lt inside]

theorem back_forth {holes hole : ℕ} (inside : hole < holes) (amount : ℕ) :
    ((hole + (holes - amount % holes)) % holes + amount) % holes = hole := by
  have swapped := forth_back inside amount
  rwa [Nat.mod_add_mod, Nat.add_right_comm, ← Nat.mod_add_mod]

/-- Where each hole shows the color of the next one, all holes show the color of the first. -/
theorem same_of_around {color? : ℕ → Option UInt8} {holes : ℕ}
    (around : ∀ i < holes, color? i = color? ((i + 1) % holes)) {i : ℕ} (inside : i < holes) :
    color? i = color? 0 := by
  induction i with
  | zero => rfl
  | succ i ih =>
    rw [← ih (by omega), around i (by omega), Nat.mod_eq_of_lt inside]

section

variable {w : Wheel Form Paint} {v : Wheel Form' Paint'} {view : Form → Form'}
  {dye : ℕ → Paint → Paint'}

/-- What turns are in one form they are in every form that is seen in it. -/
theorem Turns.of_seenAs (turns : v.Turns) (seen : w.SeenAs v view dye) : w.Turns where
  carries c ring amount := by
    obtain ⟨d, turned, ring', turned'⟩ := seen.rotate c ring amount
    obtain ⟨_, same, -, carried⟩ := turns.carries (view c) (seen.ring c ring) amount
    obtain rfl := Option.some.inj (turned'.symm.trans same)
    refine ⟨d, turned, ring', fun hole inside => ?_⟩
    have there : (hole + amount) % w.holes < w.holes := Nat.mod_lt _ (by omega)
    rw [← seen.color d ring' _ there, ← seen.color c ring hole inside, ← seen.holes]
    exact carried hole (seen.holes ▸ inside)
  adds c ring a b := by
    obtain ⟨d, first, ring', first'⟩ := seen.rotate c ring a
    obtain ⟨e, second, ring₂, second'⟩ := seen.rotate d ring' b
    obtain ⟨f, once, ring₁, once'⟩ := seen.rotate c ring ((a % w.holes + b % w.holes) % w.holes)
    have sum := turns.adds (view c) (seen.ring c ring) a b
    rw [first', Option.bind_some, second', seen.holes, once', Option.some.injEq] at sum
    rw [first, Option.bind_some, second, once, seen.injective e f ring₂ ring₁ sum]
  recolors c ring hand inside fits paint := by
    obtain ⟨d, run, ring', -⟩ := seen.recolor c ring hand inside fits paint
    exact ⟨d, run, ring'⟩
  commutes c ring hand inside amount bytes paint := by
    obtain ⟨d, turned, ring', turned'⟩ := seen.rotate c ring amount
    by_cases fits : w.Fits hand.size
    case neg =>
      rw [seen.refuses c hand paint fits, turned, Option.bind_none, Option.bind_some,
        seen.refuses d _ paint (by rwa [Hand.size_advance])]
    case pos =>
      obtain ⟨e, run, ring₁, run'⟩ := seen.recolor c ring hand inside fits paint
      obtain ⟨f, last, ring₂, last'⟩ := seen.rotate e ring₁ amount
      obtain ⟨g, late, ring₃, late'⟩ := seen.recolor d ring' (hand.advance w.holes amount)
        (inside.advance bytes) (by rwa [Hand.size_advance]) paint
      have both := turns.commutes (view c) (seen.ring c ring) hand (seen.holes ▸ inside) amount
        (seen.holes ▸ bytes) (dye hand.size paint)
      rw [Hand.size_advance] at late'
      rw [run', Option.bind_some, last', turned', Option.bind_some, seen.holes, late',
        Option.some.injEq] at both
      rw [run, Option.bind_some, last, turned, Option.bind_some, late,
        seen.injective f g ring₂ ring₃ both]

/-- A test for one color is untouched by turns, since they only move the colors. -/
theorem Turns.tests (turns : w.Turns) (same : ∀ c, w.IsRing c →
    (w.isUniform c ↔ ∀ i < w.holes, ∀ j < w.holes, w.color? c i = w.color? c j)) : w.Tests where
  same := same
  around c ring := by
    rw [same c ring]
    constructor
    · exact fun agree i hi => agree i hi _ (Nat.mod_lt _ (by omega))
    · intro around i hi j hj
      rw [same_of_around around hi, same_of_around around hj]
  turned c ring amount := by
    obtain ⟨d, turned, ring', carried⟩ := turns.carries c ring amount
    refine ⟨d, turned, ?_⟩
    rw [Bool.eq_iff_iff, same d ring', same c ring]
    constructor
    · intro agree i hi j hj
      rw [← carried i hi, ← carried j hj]
      exact agree _ (Nat.mod_lt _ (by omega)) _ (Nat.mod_lt _ (by omega))
    · intro agree i hi j hj
      rw [← back_forth hi amount, ← back_forth hj amount, carried _ (Nat.mod_lt _ (by omega)),
        carried _ (Nat.mod_lt _ (by omega))]
      exact agree _ (Nat.mod_lt _ (by omega)) _ (Nat.mod_lt _ (by omega))

end

end Wheel

end RingLock
