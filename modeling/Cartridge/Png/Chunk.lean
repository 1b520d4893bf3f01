import Cartridge.Checksum.Crc32
import Cartridge.Fault

/-!
# Image chunks

An image file is a signature followed by chunks.  A chunk is stored as the length of its data, its
four-byte tag, the data, and the check of tag and data.  Chunks are written by `Chunk.encode` and
whole files by `encodeFile`.
-/

namespace Cartridge.Png

/-! ### Faults -/

def imageFault (text : String) : Fault := .noted .image ("Error: " ++ text)

def formatFault (text : String) : Fault := .noted .imageFormat ("FormatError: " ++ text)

def chunkFault (text : String) : Fault := .noted .imageChunk ("ChunkError: " ++ text)

/-! ### Bytes -/

/-- The bytes of a number, the most significant first. -/
def bigEndian : Nat → Nat → List UInt8
  | 0, _ => []
  | n + 1, x => (x / Nat.pow 0x100 n % 0x100).toUInt8 :: bigEndian n x

def ofBigEndian (bytes : List UInt8) : Nat := bytes.foldl (fun n b => n * 0x100 + b.toNat) 0

/-! ### Chunks -/

structure Chunk where
  tag : List UInt8
  data : List UInt8
  deriving DecidableEq, Repr, Inhabited

def signature : List UInt8 := [137, 80, 78, 71, 13, 10, 26, 10]

/-- The most bytes of data that a chunk may have. -/
def longestData : Nat := 0x7FFFFFFF

def tagOf (name : String) : List UInt8 := name.toUTF8.data.toList

def checkOf (tag data : List UInt8) : UInt32 := Checksum.crc32 ⟨(tag ++ data).toArray⟩

namespace Chunk

def named (name : String) (data : List UInt8) : Chunk := ⟨tagOf name, data⟩

def encode (c : Chunk) : List UInt8 :=
  bigEndian 4 c.data.length ++ c.tag ++ c.data ++ bigEndian 4 (checkOf c.tag c.data).toNat

end Chunk

def encodeFile (chunks : List Chunk) : ByteArray :=
  ⟨(signature ++ chunks.flatMap Chunk.encode).toArray⟩

end Cartridge.Png
