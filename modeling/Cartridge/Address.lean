import Cartridge.Fault

/-!
# Addresses

A cartridge shows its memory in banks of `0x4000` bytes, of which the switchable ones appear at
`0x4000`.  An `Address` names a byte by bank and visible address; a flat address counts from the
start of the image.

`Address.ofFlat` finds the bank by a division in double precision, cut off at the point; this is
the exact bank for every address below `2 ^ 53` in size.
-/

namespace Cartridge

/-- A byte of the cartridge as the program sees it. -/
structure Address where
  bank : Int
  offset : Int
  deriving DecidableEq, Repr, Inhabited

namespace Address

def bankSize : Int := 0x4000

def flat (a : Address) : Int := a.bank * bankSize + a.offset - bankSize

/-- The number `n` with its top 53 bits kept, rounded to the nearest, a tie to the even one. -/
def roundTo53 (n : Nat) : Nat :=
  let extra := n.log2 + 1 - 53
  let unit := Nat.pow 2 extra
  let q := n / unit
  let r := n % unit
  if 2 * r < unit ∨ (2 * r = unit ∧ q % 2 = 0) then q * unit else (q + 1) * unit

def ofFlat (i : Int) : Except Fault Address :=
  let n := roundTo53 i.natAbs
  if Nat.pow 2 1038 ≤ n then .error (.plain .overflow)
  else
    let bank : Int := (n / 0x4000 : Nat)
    .ok ⟨if i < 0 then -bank else bank, i % bankSize + bankSize⟩

end Address

end Cartridge
