import RingLock.Arena.Region
import RingLock.Encoding.Binary
import RingLock.Safety.Stats
import RingLock.Session

/-!
# Binary forms of the puzzle's values

Every value that is stored or sent. Nothing is checked on reading but what a type cannot hold, with
one exception: a live ring is refused unless it is sound. In particular a region is read with
whatever number of members is written beside its flags.
-/
namespace RingLock.Binary

instance : Binary Config where
  encode c := encode c.holes ++ encode c.hand ++ encode c.colors ++ encode c.seed
  decode := do
    let holes ← decode
    let hand ← decode
    let colors ← decode
    let seed ← decode
    return { holes, hand, colors, seed }

instance : Binary Checkpoint where
  encode c := encode c.seed ++ encode c.wordPos ++ encode c.forks
  decode := do
    let seed ← decode
    let wordPos ← decode
    let forks ← decode
    return { seed, wordPos, forks }

instance : Binary Stats where
  encode s := encode s.iterations ++ encode s.predecessorCalls ++ encode s.initialSize ++
    encode s.finalSize ++ encode s.micros
  decode := do
    let iterations ← decode
    let predecessorCalls ← decode
    let initialSize ← decode
    let finalSize ← decode
    let micros ← decode
    return { iterations, predecessorCalls, initialSize, finalSize, micros }

/-- The place of a phase in the order of a turn. -/
def phaseIndex : Phase → UInt32
  | .select => 0
  | .modify => 1
  | .adversary => 2
  | .victory => 3

instance : Binary Phase where
  encode p := encode (phaseIndex p)
  decode := do
    let index : UInt32 ← decode
    match Phase.all[index.toNat]? with
    | some p => return p
    | none => fail (.variant index Phase.all.length)

instance : Binary Hand where
  encode h := encode h.holes
  decode := Hand.mk <$> decodeRoomy

instance : Binary Packed where
  encode c := encode c.bits
  decode := Packed.mk <$> decode

instance : Binary Listed where
  encode c := encode c.colors
  decode := Listed.mk <$> decodeRoomy

instance {C : Type} [Binary C] : Binary (Position C) where
  encode p := encode p.coloring ++ encode p.hand
  decode := do
    let coloring ← decode
    let hand ← decode
    return { coloring, hand }

instance : Binary Ring where
  encode r := encode r.colors ++ encode r.palette
  decode := do
    let colors ← decodeReserved
    let palette ← decode
    match (Ring.mk colors palette).check with
    | .ok r => return r
    | .error fault => fail (.refused fault)

instance : Binary Region where
  encode r := encode r.members.toList ++ encode r.count
  decode := do
    let members : List Bool ← decode
    let count ← decode
    return { members := members.toArray, count }

instance : Binary LocId where
  encode id := encode id.number
  decode := LocId.mk <$> decode

instance : Binary Action where
  encode a := encode a.number
  decode := Action.mk <$> decode

instance : Binary ObservationClass where
  encode c := encode c.number
  decode := ObservationClass.mk <$> decode

end RingLock.Binary
