/-! Amounts of storage.

The variables of a script live in two places: numbers, booleans and pointers as bytes
of primitive memory, and strings in a table with one slot each. -/
namespace HostScript

structure Storage where
  bytes : Nat
  slots : Nat
  deriving DecidableEq, Repr

namespace Storage

def none : Storage := ⟨0, 0⟩

def add (s t : Storage) : Storage := ⟨s.bytes + t.bytes, s.slots + t.slots⟩

instance : Add Storage := ⟨add⟩

/-- Enough for both. -/
def max (s t : Storage) : Storage := ⟨Nat.max s.bytes t.bytes, Nat.max s.slots t.slots⟩

/-- The most that words of 16 bits can address. -/
def limit : Nat := 65535

end Storage

end HostScript
