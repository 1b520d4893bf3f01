import Cartridge.Png.Chunk
import Cartridge.Signed
import Cartridge.Tile.Arrange

/-!
# Samples and bytes

Samples of 16 bits take two bytes each, and samples of less than eight bits share bytes, the first
in the highest bits.  `packSamples` fills the last byte of a line with zeros, `unpackSamples` gives
all samples of bytes, and `unpackLines` those of lines of a given width.
-/

namespace Cartridge.Png

/-- The number that samples of `depth` bits form in a byte.  Samples that are too large spill over
into their neighbours. -/
def packGroup (depth : Nat) (samples : List Nat) : Nat :=
  samples.foldl (fun x y => x * Nat.pow 2 depth + y) 0

def perByte (depth : Nat) : Nat := 8 / depth

def packSamples (depth : Nat) (samples : List Nat) : List Nat :=
  let n := perByte depth
  let short := samples.length % n
  let padded := samples ++ List.replicate (if short = 0 then 0 else n - short) 0
  (Tile.chunks (n - 1) padded).map (packGroup depth)

def samplesOf (depth : Nat) (b : UInt8) : List Nat :=
  let n := perByte depth
  (List.range n).map fun i => b.toNat / Nat.pow 2 (depth * (n - 1 - i)) % Nat.pow 2 depth

def unpackSamples (depth : Nat) (bytes : List UInt8) : List Nat := bytes.flatMap (samplesOf depth)

/-- The words of bytes.  There has to be a whole number of them. -/
def unpackWords : List UInt8 → Except Fault (List Nat)
  | [] => .ok []
  | [_] => .error (.plain .field)
  | a :: b :: rest => ((a.toNat * 0x100 + b.toNat) :: ·) <$> unpackWords rest

/-- The samples of lines that are `width` samples wide and start at a byte each; `left` samples of
the current line are to come. -/
def takeLines (depth : Nat) (width left : Int) : List UInt8 → List Nat
  | [] => []
  | b :: rest =>
    let next := left - perByte depth
    Signed.take (samplesOf depth b) left ++
      takeLines depth width (if next ≤ 0 then width else next) rest

def unpackLines (depth : Int) (width : Int) (bytes : List UInt8) : Except Fault (List Nat) :=
  if depth = 8 then .ok (bytes.map UInt8.toNat)
  else if depth = 16 then unpackWords bytes
  else if 8 ≤ depth then .error .unmet
  else if depth = 0 then .error (.plain .zeroDivision)
  else if depth < 0 then .ok []
  else .ok (takeLines depth.toNat width width bytes)

def unpackLine (depth width : Nat) (bytes : List UInt8) : Except Fault (List Nat) :=
  if depth = 8 then .ok (bytes.map UInt8.toNat)
  else if depth = 16 then unpackWords bytes
  else if 8 ≤ depth then .error .unmet
  else if depth = 0 then .error (.plain .zeroDivision)
  else .ok ((unpackSamples depth bytes).take width)

end Cartridge.Png
