import Cartridge.Fault

/-!
# Tilesets

The stored form of a tileset: a flag, the size as a little-endian word, and the data.  With the
flag zero the data follows as it is.  Otherwise it is a stream of tokens in groups of up to
sixteen, each group after a word of flags, the lowest bit first: a clear bit announces a literal
byte and a set bit a match, a word with the distance in its low eleven bits and the length in the
other five.
-/

namespace Cartridge.Tileset

inductive DecodeError where
  | truncated
  | beforeStart
  deriving DecidableEq, Repr

def DecodeError.fault : DecodeError → Fault
  | truncated => .plain .field
  | beforeStart => Fault.notAReport

/-- The sixteen flags of a word, the lowest bit first. -/
def flagsOf (word : Nat) : List Bool := (List.range 16).map fun i => word.testBit i

/-- Copies `n` bytes that start at position `start` of the data to its end, one at a time, so that
the bytes just written can be copied again. -/
def copyFrom (start : Nat) : Nat → Array UInt8 → Array UInt8
  | 0, data => data
  | n + 1, data => copyFrom (start + 1) n (data.push (data.getD start 0))

/-- The tokens of a packed tileset from position `pos` on, the flags of the current group and the
data so far being given: the data, and the position after the last token. -/
def tokens (image : ByteArray) (total : Nat) (pos : Nat) (flags : List Bool)
    (data : Array UInt8) : Except DecodeError (Array UInt8 × Nat) :=
  match flags with
  | [] =>
    if data.size < total then
      if h : pos + 1 < image.size then
        let word := image[pos].toNat + 0x100 * image[pos + 1].toNat
        tokens image total (pos + 2) (flagsOf word) data
      else .error .truncated
    else .ok (data, pos)
  | false :: flags =>
    if h : pos < image.size then
      let data := data.push image[pos]
      tokens image total (pos + 1) (if data.size = total then [] else flags) data
    else .error .truncated
  | true :: flags =>
    if h : pos + 1 < image.size then
      let word := image[pos].toNat + 0x100 * image[pos + 1].toNat
      let distance := word % 0x800 + 1
      let length := word / 0x800 + 3
      if data.size < distance then .error .beforeStart
      else
        let data := copyFrom (data.size - distance) length data
        tokens image total (pos + 2) (if data.size = total then [] else flags) data
    else .error .truncated
termination_by image.size - pos

structure Decoded where
  data : Array UInt8
  stored : ByteArray

def decode (image : ByteArray) (start : Nat) : Except DecodeError Decoded :=
  if h : start + 2 < image.size then
    let total := image[start + 1].toNat + 0x100 * image[start + 2].toNat
    if image[start] = 0 then
      if start + 3 + total ≤ image.size then
        .ok ⟨(image.extract (start + 3) (start + 3 + total)).data,
          image.extract start (start + 3 + total)⟩
      else .error .truncated
    else do
      let (data, stop) ← tokens image total (start + 3) [] #[]
      return ⟨data, image.extract start stop⟩
  else .error .truncated

/-- Stores data as it is.  The size has to fit a word. -/
def encode (data : ByteArray) : Except Fault ByteArray :=
  if 0xFFFF < data.size then .error (.plain .overflow)
  else
    let size := data.size
    .ok (ByteArray.mk #[0, (size % 0x100).toUInt8, (size / 0x100).toUInt8] ++ data)

end Cartridge.Tileset
