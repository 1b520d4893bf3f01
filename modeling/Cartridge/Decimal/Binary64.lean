/-!
# Doubles

A finite double is an integer times a power of two (`Binary64.parts`), so its comparisons with
integers, its integral part and its rounding are exact (`truncate?`, `round?`, `compareInt?`).
`ofRatio` gives the double nearest to a quotient of integers.
-/

namespace Cartridge.Binary64

inductive Parts where
  | nan
  | infinite (negative : Bool)
  /-- The number `mantissa * 2 ^ exponent`. -/
  | finite (negative : Bool) (mantissa : Nat) (exponent : Int)
  deriving DecidableEq, Repr

def ofBitPattern (bits : Nat) : Parts :=
  let negative := bits / Nat.pow 2 63 % 2 = 1
  let e : Nat := bits / Nat.pow 2 52 % 2048
  let f := bits % Nat.pow 2 52
  if e = 2047 then if f = 0 then .infinite negative else .nan
  else if e = 0 then .finite negative f (-1074)
  else .finite negative (f + Nat.pow 2 52) ((e : Int) - 1075)

def parts (x : Float) : Parts := ofBitPattern x.toBits.toNat

def quotient (m : Nat) (e : Int) : Nat × Nat :=
  if 0 ≤ e then (m * Nat.pow 2 e.toNat, 1) else (m, Nat.pow 2 (-e).toNat)

/-- The quotient rounded to the nearest integer, a half to the even one. -/
def roundQuotient (num den : Nat) : Nat :=
  let q := num / den
  let r := num % den
  if 2 * r < den ∨ (2 * r = den ∧ q % 2 = 0) then q else q + 1

def signed (negative : Bool) (n : Nat) : Int := if negative then -n else n

/-- The integral part, toward zero. -/
def truncate (negative : Bool) (m : Nat) (e : Int) : Int :=
  let (a, b) := quotient m e
  signed negative (a / b)

/-- The nearest integer, a half to the even one. -/
def round (negative : Bool) (m : Nat) (e : Int) : Int :=
  let (a, b) := quotient m e
  signed negative (roundQuotient a b)

def compareInt (negative : Bool) (m : Nat) (e : Int) (n : Int) : Ordering :=
  let (a, b) := quotient m e
  compare (signed negative a) (n * b)

/-- The double nearest to `num / den`, a tie to the even one; `none` if it is too large. -/
def ofRatio? (negative : Bool) (num den : Nat) : Option Float :=
  if num = 0 then some (if negative then -0.0 else 0.0)
  else
    -- an exponent that leaves at least 53 bits, at most one too many
    let e0 : Int := (num.log2 : Int) - (den.log2 : Int) - 53
    let scaled (e : Int) : Nat :=
      if 0 ≤ e then roundQuotient num (den * Nat.pow 2 e.toNat)
      else roundQuotient (num * Nat.pow 2 (-e).toNat) den
    let whole (e : Int) : Nat :=
      if 0 ≤ e then num / (den * Nat.pow 2 e.toNat) else num * Nat.pow 2 (-e).toNat / den
    let e1 := if whole e0 < Nat.pow 2 53 then e0 else e0 + 1
    let e := max e1 (-1074)
    let m := scaled e
    let (m, e) := if m = Nat.pow 2 53 then (Nat.pow 2 52, e + 1) else (m, e)
    if 971 < e then none
    else
      let bits := if m < Nat.pow 2 52 then m else (e + 1075).toNat * Nat.pow 2 52 + (m - Nat.pow 2 52)
      some (Float.ofBits (bits + if negative then Nat.pow 2 63 else 0).toUInt64)

def ofInt? (n : Int) : Option Float := ofRatio? (n < 0) n.natAbs 1

end Cartridge.Binary64
