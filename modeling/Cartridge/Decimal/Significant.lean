import Cartridge.Decimal.Shortest

/-!
# Significant digits

The double nearest to a double rounded to a number of significant decimal digits, a half going to
the even neighbour.
-/

namespace Cartridge.Significant

/-- The positive double `m * 2 ^ e` rounded to `n` digits, as a quotient. -/
def quotient (n m : Nat) (e : Int) : Nat × Nat :=
  let (a, b) := Binary64.quotient m e
  let unit := Shortest.decade a b 700 (-330) - n
  if 0 ≤ unit then
    (Binary64.roundQuotient a (b * Nat.pow 10 unit.toNat) * Nat.pow 10 unit.toNat, 1)
  else (Binary64.roundQuotient (a * Nat.pow 10 (-unit).toNat) b, Nat.pow 10 (-unit).toNat)

/-- The double nearest to `x` rounded to `n` significant digits; zero has no sign. -/
def round (n : Nat) (x : Float) : Float :=
  match Binary64.parts x with
  | .finite negative m e =>
    if m = 0 then 0
    else
      let (a, b) := quotient n m e
      (Binary64.ofRatio? negative a b).getD (if negative then -1.0 / 0.0 else 1.0 / 0.0)
  | _ => x

end Cartridge.Significant
