import RingLock.Proofs.Random.Draw
import RingLock.Ring

/-!
# Children of generators

Draws move a generator along its stream. They keep its seed, and the number of its children neither
matters to them nor changes. So the next child does not tell what has been drawn before.
-/
namespace RingLock.Generator

universe u v

/-- A generator with another number of children. -/
def withForks (g : Generator) (forks : UInt64) : Generator := { g with forks }

@[simp] theorem withForks_seed (g : Generator) (n : UInt64) : (g.withForks n).seed = g.seed := rfl

@[simp] theorem withForks_forks (g : Generator) (n : UInt64) : (g.withForks n).forks = n := rfl

@[simp] theorem withForks_self (g : Generator) : g.withForks g.forks = g := rfl

@[simp] theorem withForks_withForks (g : Generator) (m n : UInt64) :
    (g.withForks m).withForks n = g.withForks n := rfl

/-- A draw keeps the seed, and it neither reads nor changes the number of children. -/
structure IsDraw {α : Type u} (draw : Generator → Option (α × Generator)) : Prop where
  seed : ∀ {g x h}, draw g = some (x, h) → h.seed = g.seed
  withForks : ∀ g n, draw (g.withForks n) = (draw g).map fun (x, h) => (x, h.withForks n)

namespace IsDraw

variable {α : Type u} {β : Type v} {draw : Generator → Option (α × Generator)}

/-- The number of children is the same after a draw. -/
theorem forks (isDraw : IsDraw draw) {g h : Generator} {x : α} (drawn : draw g = some (x, h)) :
    h.forks = g.forks := by
  -- A draw after the number is set to what it already is.
  have same := isDraw.withForks g g.forks
  rw [withForks_self, drawn, Option.map_some, Option.some.injEq, Prod.mk.injEq] at same
  rw [same.2, withForks_forks]

theorem pure (x : α) : IsDraw fun g => some (x, g) where
  seed drawn := by
    obtain ⟨-, rfl⟩ := Prod.mk.inj (Option.some.inj drawn)
    rfl
  withForks _ _ := rfl

theorem fail : IsDraw fun _ => (none : Option (α × Generator)) where
  seed := nofun
  withForks _ _ := rfl

theorem bind (isDraw : IsDraw draw) {next : α → Generator → Option (β × Generator)}
    (each : ∀ x, IsDraw (next x)) : IsDraw fun g => (draw g).bind fun (x, h) => next x h where
  seed drawn := by
    obtain ⟨⟨x, mid⟩, first, later⟩ := Option.bind_eq_some_iff.1 drawn
    exact ((each x).seed later).trans (isDraw.seed first)
  withForks g n := by
    rw [isDraw.withForks]
    cases draw g with
    | none => rfl
    | some drawn => exact (each drawn.1).withForks drawn.2 n

theorem map (isDraw : IsDraw draw) (f : α → β) :
    IsDraw fun g => (draw g).map fun (x, h) => (f x, h) where
  seed drawn := by
    obtain ⟨⟨x, mid⟩, first, same⟩ := Option.map_eq_some_iff.1 drawn
    obtain ⟨-, rfl⟩ := Prod.mk.inj same
    exact isDraw.seed first
  withForks g n := by
    rw [isDraw.withForks]
    cases draw g <;> rfl

theorem ite {p : Prop} [Decidable p] {other : Generator → Option (α × Generator)}
    (isDraw : IsDraw draw) (isDraw' : IsDraw other) :
    IsDraw fun g => if p then draw g else other g := by
  by_cases h : p <;> simpa only [h, if_true, if_false]

end IsDraw

theorem isDraw_sample? {size : Nat} {next : Generator → Nat × Generator}
    (word : IsDraw fun g => some (next g)) (range zone tries : Nat) :
    IsDraw (sample? size next range zone tries) := by
  induction tries with
  | zero => exact .fail
  | succ tries ih =>
    -- A word is either taken, which costs nothing more, or passed over.
    have taken (n : Nat) : IsDraw fun h => if n * range % size ≤ zone then
        some (n * range / size, h) else sample? size next range zone tries h :=
      .ite (.pure _) ih
    exact word.bind taken

theorem isDraw_word32 : IsDraw fun g => some g.word32 where
  seed drawn := by
    obtain ⟨-, rfl⟩ := Prod.mk.inj (Option.some.inj drawn)
    rfl
  withForks _ _ := rfl

theorem isDraw_word64 : IsDraw fun g => some g.word64 :=
  isDraw_word32.bind fun low => isDraw_word32.map fun high => low + UInt32.size * high

theorem isDraw_below32? (range : Nat) : IsDraw (below32? range) :=
  .ite .fail (isDraw_sample? isDraw_word32 ..)

theorem isDraw_below64? (range : Nat) : IsDraw (below64? range) :=
  .ite .fail (isDraw_sample? isDraw_word64 ..)

theorem isDraw_between? (low high : UInt64) : IsDraw (between? low high) :=
  .ite ((isDraw_below64? _).map fun n => low + UInt64.ofNat n) .fail

theorem isDraw_color? (palette : UInt8) : IsDraw (color? palette) :=
  .ite .fail ((isDraw_sample? isDraw_word32 ..).map _)

theorem isDraw_choose? {α : Type} (xs : List α) : IsDraw (choose? xs) :=
  .ite (.pure none) ((IsDraw.ite (isDraw_below32? _) (isDraw_below64? _)).map _)

theorem isDraw_colors? (palette : UInt8) (count : Nat) : IsDraw (colors? palette count) := by
  induction count with
  | zero => exact .pure []
  | succ count ih =>
    have rest (color : UInt8) := ih.bind fun colors => IsDraw.pure (color :: colors)
    exact (isDraw_color? palette).bind rest

/-- Two generators of one seed with as many children. -/
structure Akin (g h : Generator) : Prop where
  seed : h.seed = g.seed
  forks : h.forks = g.forks

variable {g h : Generator}

theorem IsDraw.akin {α : Type u} {draw : Generator → Option (α × Generator)}
    (isDraw : IsDraw draw) {x : α} (drawn : draw g = some (x, h)) : g.Akin h :=
  ⟨isDraw.seed drawn, isDraw.forks drawn⟩

/-- The first child of a generator, whatever has been drawn since its seed was set. -/
theorem Akin.fork? {seed : UInt64} (akin : (ofSeed seed).Akin g) :
    ∃ parent, g.fork? = some (ofSeed (seed + forkStride), parent) := by
  have same : g.seed = seed := akin.seed
  have childless : g.forks = 0 := akin.forks
  have room : (0 : UInt64).toNat + 1 < UInt64.size := by decide
  refine ⟨{ g with forks := 1 }, ?_⟩
  rw [Generator.fork?, childless, if_pos room, ← same]
  rfl

end RingLock.Generator

namespace RingLock.Ring

theorem random?_akin {holes : Nat} {palette : UInt8} {g h : Generator} {r : Ring}
    (draws : random? holes palette g = some (r, h)) : g.Akin h := by
  have colored : Generator.IsDraw (random? holes palette) :=
    (Generator.isDraw_colors? _ holes).map fun colors => (⟨colors, max palette 1⟩ : Ring)
  exact colored.akin draws

end RingLock.Ring
