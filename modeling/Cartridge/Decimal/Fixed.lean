import Cartridge.Decimal.Binary64

/-!
# Fixed places

A double rounded to a number of decimal places, a half going to the even neighbour: as text
(`Fixed.text`) and as the double nearest to the rounded decimal (`Fixed.round`).
-/

namespace Cartridge.Fixed

/-- The number of units of `10 ^ -places` nearest to `m * 2 ^ e`. -/
def units (m : Nat) (e : Int) (places : Nat) : Nat :=
  let (a, b) := Binary64.quotient m e
  Binary64.roundQuotient (a * Nat.pow 10 places) b

def text (places : Nat) (x : Float) : String :=
  match Binary64.parts x with
  | .nan => "nan"
  | .infinite negative => if negative then "-inf" else "inf"
  | .finite negative m e =>
    let ds := (toString (units m e places)).toList
    let ds := List.replicate (places + 1 - ds.length) '0' ++ ds
    let whole := ds.take (ds.length - places)
    let fraction := if places = 0 then [] else '.' :: ds.drop (ds.length - places)
    (if negative then "-" else "") ++ String.ofList (whole ++ fraction)

def round (places : Nat) (x : Float) : Float :=
  match Binary64.parts x with
  | .finite negative m e =>
    (Binary64.ofRatio? negative (units m e places) (Nat.pow 10 places)).getD x
  | _ => x

def padLeft (width : Nat) (s : String) : String :=
  String.ofList (List.replicate (width - s.length) ' ') ++ s

end Cartridge.Fixed
