import Cartridge.Link

/-!
# Linking pointer lists

The offsets of a built pointer list become addresses.  The pointers of the entries come first, then
those of the empty slots, then the entries.  An offset from `0x7FFF` on is an address already.
-/

namespace Cartridge.PointerList

/-- The address of an offset in the section; `lead` bytes of pointers stand in front. -/
def addressIn (place : Section) (lead : Nat) (offset : Nat) : Int :=
  if offset < 0x7FFF then offset + place.base + lead else offset

def link (data : ByteArray) (place : Section) : Except Fault ByteArray := do
  discard (Bytes.byteAt data 0)
  let slots ← Bytes.wordAt data 1
  let empty ← Bytes.wordAt data 3
  let count ← Bytes.wordAt data 5
  let offsets := Link.offsetsOf (← Bytes.wordsAt data 7 (2 * count))
  let free := (List.replicate (slots - count) (Bytes.wordBytes empty)).flatten
  let table ← Bytes.words (offsets.map (addressIn place (2 * count + free.length)))
  return ⟨(table ++ free).toArray⟩ ++ Bytes.rest data (7 + 4 * count)

def format : Link.Format := ⟨("Pointer List - " ++ ·), link⟩

end Cartridge.PointerList
