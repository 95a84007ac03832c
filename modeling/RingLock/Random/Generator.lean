import RingLock.Random.KeyStream

/-!
# Generators

A generator is a place in the key stream of its seed, with the number of children it has had. Draws
move along the stream and a fork does not, so a child depends on the seed and on its rank alone. A
checkpoint keeps a generator in the width of its written form.

A bounded draw multiplies a stream word by the size of the range and keeps the upper half. Words
whose lower half exceeds the zone are passed over, so that every value is equally likely.
-/
namespace RingLock

structure Generator where
  seed : UInt64
  position : BitVec 68
  forks : UInt64
  deriving DecidableEq

/-- A generator as it is written down. -/
structure Checkpoint where
  seed : UInt64
  wordPos : BitVec 128
  forks : UInt64
  deriving DecidableEq

namespace Generator

/-- The generator at the start of a seed's stream. -/
def ofSeed (seed : UInt64) : Generator := ⟨seed, 0, 0⟩

/-- The factor between a child's rank and the distance of its seed. It is odd, so no two ranks below
`2 ^ 64` give one seed. -/
def forkStride : UInt64 := 0x9e3779b97f4a7c15

/-- A child at the start of its own stream, and the parent with one more child. A parent that has
had `2 ^ 64 - 1` children has no more. -/
def fork? (g : Generator) : Option (Generator × Generator) :=
  if g.forks.toNat + 1 < UInt64.size then
    let forks := g.forks + 1
    some (ofSeed (g.seed + forks * forkStride), { g with forks })
  else none

/-- Writes a generator down. -/
def checkpoint (g : Generator) : Checkpoint := ⟨g.seed, g.position.setWidth 128, g.forks⟩

/-- The generator that a checkpoint stands for. Positions count modulo the period. -/
def resume (c : Checkpoint) : Generator := ⟨c.seed, c.wordPos.setWidth 68, c.forks⟩

/-- The next stream word. -/
def word32 (g : Generator) : Nat × Generator :=
  ((KeyStream.word g.seed g.position).toNat, { g with position := g.position + 1 })

/-- The next two stream words, the lower half first. -/
def word64 (g : Generator) : Nat × Generator :=
  let (low, g) := g.word32
  let (high, g) := g.word32
  (low + UInt32.size * high, g)

/-- The number of stream words after which a stream repeats. -/
def period : Nat := 1 <<< 68

/-- The first accepted value among `tries` words below `size`. -/
def sample? (size : Nat) (next : Generator → Nat × Generator) (range zone : Nat) :
    (tries : Nat) → Generator → Option (Nat × Generator)
  | 0, _ => none
  | tries + 1, g =>
    let (word, g) := next g
    if word * range % size ≤ zone then some (word * range / size, g)
    else sample? size next range zone tries g

/-- A zone that needs no division: the range shifted to the top of a word of `width` bits. -/
def shiftedZone (width range : Nat) : Nat := range <<< (width - 1 - range.log2) - 1

/-- The largest zone of a range: the last multiple of it that fits into 32 bits. -/
def exactZone (range : Nat) : Nat := UInt32.size - 1 - UInt32.size % range

/-- A draw below `range` from words of 64 bits. There is none below 0. A draw that has passed over a
whole period would never end. -/
def below64? (range : Nat) (g : Generator) : Option (Nat × Generator) :=
  if range = 0 then none else sample? UInt64.size word64 range (shiftedZone 64 range) period g

/-- A draw below `range` from words of 32 bits. -/
def below32? (range : Nat) (g : Generator) : Option (Nat × Generator) :=
  if range = 0 then none else sample? UInt32.size word32 range (shiftedZone 32 range) period g

/-- A uniform draw of `low ≤ n < high`. There is none from an empty range. -/
def between? (low high : UInt64) (g : Generator) : Option (UInt64 × Generator) :=
  if low < high then
    (below64? (high.toNat - low.toNat) g).map fun (n, g) => (low + UInt64.ofNat n, g)
  else none

/-- A uniform color of a palette. There is none in the empty palette. -/
def color? (palette : UInt8) (g : Generator) : Option (UInt8 × Generator) :=
  if palette = 0 then none
  else (sample? UInt32.size word32 palette.toNat (exactZone palette.toNat) period g).map
    fun (n, g) => (UInt8.ofNat n, g)

/-- Several colors, in the order of their draws. -/
def colors? (palette : UInt8) : (count : Nat) → Generator → Option (List UInt8 × Generator)
  | 0, g => some ([], g)
  | count + 1, g => do
    let (color, g) ← color? palette g
    let (colors, g) ← colors? palette count g
    return (color :: colors, g)

/-- A uniform element of a list. The empty list has none and costs no draw. Lists of `2 ^ 32`
elements or more take words of 64 bits. -/
def choose? {α : Type} (xs : List α) (g : Generator) : Option (Option α × Generator) :=
  if xs.isEmpty then some (none, g)
  else
    let drawn := if xs.length < UInt32.size then below32? xs.length g else below64? xs.length g
    drawn.map fun (n, g) => (xs[n]?, g)

/-- Saving and resuming loses nothing. -/
@[simp] theorem resume_checkpoint (g : Generator) : resume g.checkpoint = g := by
  cases g; simp [resume, checkpoint, BitVec.setWidth_setWidth_of_le]

@[simp] theorem word32_seed (g : Generator) : g.word32.2.seed = g.seed := rfl

@[simp] theorem word32_forks (g : Generator) : g.word32.2.forks = g.forks := rfl

@[simp] theorem word64_seed (g : Generator) : g.word64.2.seed = g.seed := rfl

@[simp] theorem word64_forks (g : Generator) : g.word64.2.forks = g.forks := rfl

theorem word32_lt (g : Generator) : g.word32.1 < UInt32.size := UInt32.toNat_lt_size _

theorem word64_lt (g : Generator) : g.word64.1 < UInt64.size := by
  have low := g.word32_lt
  have high := g.word32.2.word32_lt
  simp only [word64, UInt32.size, UInt64.size] at *
  omega

@[simp] theorem choose?_nil {α : Type} (g : Generator) :
    choose? ([] : List α) g = some (none, g) := rfl

end Generator

end RingLock
