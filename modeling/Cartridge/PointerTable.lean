import Cartridge.Address
import Cartridge.Bytes

/-!
# Pointer tables

A table of pointers stands right before the data that they lead to, so it ends where the target of
its first pointer starts.
-/

namespace Cartridge.PointerTable

/-- The pointers of the table at an address: the first one, and as many more as fit before its
target. -/
def read (image : ByteArray) (a : Address) : Except Fault (List Nat) := do
  let start ← Bytes.position a.flat
  let first ← Bytes.wordAt image start
  let more := ((first : Int) - a.offset) / 2 - 1
  return first :: (← Bytes.wordsAt image (start + 2) more.toNat)

end Cartridge.PointerTable
