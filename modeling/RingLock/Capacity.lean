/-!
# Capacity

How long a list can be that is stored in one piece. Its places lie within half of a 64-bit address
range, of which memory is behind 47 bits. Where room is made for a list before it is read, there is
room for a power of two of places.
-/
namespace RingLock

/-- A stored list has fewer places than this. -/
def capacity : Nat := 0x8000000000000000

/-- One piece of memory has fewer bytes than this. -/
def memory : Nat := 0x800000000000

/-- The places that are made for a list of known length. -/
def room (length : Nat) : Nat := length.nextPowerOfTwo

end RingLock
