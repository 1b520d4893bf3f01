/-!
# Adler-32

The checksum at the end of a compressed stream: the sum of the bytes and the sum of these sums,
both modulo 65521.
-/

namespace Cartridge.Checksum

def adlerModulus : Nat := 65521

def adler32 (bytes : Array UInt8) : Nat :=
  let sums := bytes.foldl (fun (a, b) x =>
    let a := (a + x.toNat) % adlerModulus
    (a, (b + a) % adlerModulus)) (1, 0)
  sums.2 * 0x10000 + sums.1

end Cartridge.Checksum
