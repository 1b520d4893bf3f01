import Cartridge.Checksum.Adler32
import Cartridge.Tile.Arrange

/-!
# Writing compressed streams

Bytes are compressed into blocks that store them as they are.  They may come in parts: `deflate`
gives what each of them adds to the stream, and the last one adds the end of the stream too.
-/

namespace Cartridge.Deflate

def blockSize : Nat := 0xFFFF

def streamHead : List UInt8 := [0x78, 0x01]

def wordBytes (n : Nat) : List UInt8 := [(n % 0x100).toUInt8, (n / 0x100 % 0x100).toUInt8]

def storedBlock (last : Bool) (bytes : List UInt8) : List UInt8 :=
  (if last then 1 else 0) :: (wordBytes bytes.length ++ wordBytes (0xFFFF - bytes.length) ++ bytes)

def storedBlocks (part : List UInt8) : List UInt8 :=
  (Tile.chunks (blockSize - 1) part).flatMap (storedBlock false)

def sumBytes (sum : Nat) : List UInt8 :=
  [(sum / 0x1000000).toUInt8, (sum / 0x10000 % 0x100).toUInt8, (sum / 0x100 % 0x100).toUInt8,
    (sum % 0x100).toUInt8]

/-- The end of a stream: an empty last block and the checksum of all bytes. -/
def streamEnd (bytes : List UInt8) : List UInt8 :=
  storedBlock true [] ++ sumBytes (Checksum.adler32 bytes.toArray)

/-- What the parts add to a stream that starts with `head`, `all` being the bytes of the whole
stream. -/
def deflateParts (all head : List UInt8) : List (List UInt8) → List (List UInt8)
  | [] => [head ++ streamEnd all]
  | [part] => [head ++ storedBlocks part ++ streamEnd all]
  | part :: rest => (head ++ storedBlocks part) :: deflateParts all [] rest

def deflate (parts : List (List UInt8)) : List (List UInt8) :=
  deflateParts parts.flatten streamHead parts

end Cartridge.Deflate
