import Cartridge.Link

/-!
# Linking dialog

The offsets of a file of dialog texts become addresses, the lengths are dropped and the texts
follow.
-/

namespace Cartridge.Dialog

/-- The address of an offset: the texts stand after `n` pointers in the section. -/
def addressIn (place : Section) (n : Nat) (offset : Nat) : Int := offset + 2 * n + place.base

def link (data : ByteArray) (place : Section) : Except Fault ByteArray := do
  let count ← Bytes.wordAt data 0
  let offsets := Link.offsetsOf (← Bytes.wordsAt data 2 (2 * count))
  let table ← Bytes.words (offsets.map (addressIn place count))
  return ⟨table.toArray⟩ ++ Bytes.rest data (2 + 4 * count)

def format : Link.Format := ⟨id, link⟩

end Cartridge.Dialog
