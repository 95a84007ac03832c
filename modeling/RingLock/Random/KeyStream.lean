/-!
# The key stream

An endless sequence of 32-bit words fixed by a 64-bit seed. The seed is spread over a key of eight
words by a permuted congruential generator. The words are the outputs of a ChaCha block function
with eight rounds, whose block counter has 64 bits, so the sequence repeats after `2 ^ 68` words.
-/
namespace RingLock.KeyStream

/-- A turn of a word to the left. -/
def turnLeft (word places : UInt32) : UInt32 := (word <<< places) ||| (word >>> (32 - places))

/-- A turn of a word to the right. -/
def turnRight (word places : UInt32) : UInt32 := (word >>> places) ||| (word <<< (32 - places))

/-- One step of the congruential generator that spreads the seed. -/
def spread (state : UInt64) : UInt64 := state * 6364136223846793005 + 11634580027462260723

/-- What a state of the congruential generator contributes to the key. -/
def permute (state : UInt64) : UInt32 :=
  turnRight (((state >>> 18) ^^^ state) >>> 27).toUInt32 (state >>> 59).toUInt32

/-- The key of a seed: the next eight states, permuted. -/
def key (seed : UInt64) : Vector UInt32 8 :=
  Vector.ofFn fun i => permute (Nat.repeat spread (i.val + 1) seed)

/-- The working state of a block. -/
abbrev Cells := Vector UInt32 16

/-- Mixes four cells. -/
def quarter (s : Cells) (a b c d : Fin 16) : Cells :=
  let s := s.set a (s[a] + s[b])
  let s := s.set d (turnLeft (s[d] ^^^ s[a]) 16)
  let s := s.set c (s[c] + s[d])
  let s := s.set b (turnLeft (s[b] ^^^ s[c]) 12)
  let s := s.set a (s[a] + s[b])
  let s := s.set d (turnLeft (s[d] ^^^ s[a]) 8)
  let s := s.set c (s[c] + s[d])
  s.set b (turnLeft (s[b] ^^^ s[c]) 7)

/-- A round over the columns and a round over the diagonals. -/
def doubleRound (s : Cells) : Cells :=
  let s := quarter s 0 4 8 12
  let s := quarter s 1 5 9 13
  let s := quarter s 2 6 10 14
  let s := quarter s 3 7 11 15
  let s := quarter s 0 5 10 15
  let s := quarter s 1 6 11 12
  let s := quarter s 2 7 8 13
  quarter s 3 4 9 14

/-- The four constants at the head of every block. -/
def constants : Vector UInt32 4 := #v[0x61707865, 0x3320646e, 0x79622d32, 0x6b206574]

/-- The state before the first round: constants, key, counter, and a nonce of zero. -/
def start (key : Vector UInt32 8) (counter : UInt64) : Cells :=
  constants ++ key ++ #v[counter.toUInt32, (counter >>> 32).toUInt32, 0, 0]

/-- Eight rounds, added to the start. -/
def block (key : Vector UInt32 8) (counter : UInt64) : Cells :=
  let s := start key counter
  Vector.zipWith (· + ·) s (Nat.repeat doubleRound 4 s)

/-- The word of a stream at a position. -/
def word (seed : UInt64) (position : BitVec 68) : UInt32 :=
  (block (key seed) (UInt64.ofNat (position.toNat / 16))).get ⟨position.toNat % 16, by omega⟩

end RingLock.KeyStream
