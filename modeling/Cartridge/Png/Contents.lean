import Cartridge.Deflate.Inflate
import Cartridge.Png.Chunk

/-!
# Contents of image files

`Contents.ofFile` takes an image file apart: its signature and its chunks, with the parts of the
image data joined where the first of them stands and taken out of their compression.
-/

namespace Cartridge.Png

/-- The chunks that stand one after the other; bytes that are too few for a chunk are left out. -/
def chunksOf (bytes : List UInt8) : List Chunk :=
  let size := ofBigEndian (bytes.take 4)
  if h : size + 12 ≤ bytes.length then
    ⟨(bytes.drop 4).take 4, (bytes.drop 8).take size⟩ :: chunksOf (bytes.drop (size + 12))
  else []
termination_by bytes.length
decreasing_by simp only [List.length_drop]; omega

def dataOf (tag : List UInt8) (chunks : List Chunk) : List UInt8 :=
  (chunks.filter (·.tag == tag)).flatMap (·.data)

/-- Puts `data` in the place of the first chunk with a tag and drops the others. -/
def mergeData (tag data : List UInt8) : List Chunk → List Chunk
  | [] => []
  | c :: rest =>
    if c.tag == tag then ⟨tag, data⟩ :: rest.filter (·.tag != tag)
    else c :: mergeData tag data rest

structure Contents where
  signature : List UInt8
  chunks : List Chunk
  deriving DecidableEq, Repr

def Contents.ofFile (file : ByteArray) : Contents :=
  let bytes := file.data.toList
  let chunks := chunksOf (bytes.drop 8)
  let tag := tagOf "IDAT"
  let data := (Deflate.inflate ⟨(dataOf tag chunks).toArray⟩).output.toList
  ⟨bytes.take 8, mergeData tag data chunks⟩

end Cartridge.Png
