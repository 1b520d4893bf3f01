import Cartridge.Decimal.Binary64

/-!
# Shortest decimals

`Shortest.digits` finds the fewest decimal digits that read back as a given double and, among
those, the ones nearest to it: for one digit, two digits and so on it looks at the two neighbours
of the number on the decimal grid and takes the first that lies in the interval of reals that
round to the double.

`Shortest.text` writes a double with these digits: positionally, with a fractional digit, if its
first digit stands between the fourth place after the point and the sixteenth before it, and with
an exponent of at least two digits otherwise.
-/

namespace Cartridge.Shortest

structure Decimal where
  digits : Nat
  exponent : Int
  deriving DecidableEq, Repr

/-- The reals that round to `m * 2 ^ e`, as numerators over one denominator: low, value, high, and
whether the ends belong to them. -/
structure Interval where
  low : Nat
  value : Nat
  high : Nat
  den : Nat
  closed : Bool

def intervalOf (m : Nat) (e : Int) : Interval :=
  let below := if m = Nat.pow 2 52 ∧ -1074 < e then 1 else 2
  let (scale, den) := if 0 ≤ e then (Nat.pow 2 e.toNat, 4) else (1, 4 * Nat.pow 2 (-e).toNat)
  ⟨(4 * m - below) * scale, 4 * m * scale, (4 * m + 2) * scale, den, m % 2 = 0⟩

/-- The least `k` such that `num / den < 10 ^ k`, searched upward from `k`. -/
def decade (num den : Nat) : Nat → Int → Int
  | 0, k => k
  | fuel + 1, k =>
    let less := if 0 ≤ k then num < den * Nat.pow 10 k.toNat else num * Nat.pow 10 (-k).toNat < den
    if less then k else decade num den fuel (k + 1)

def contains (i : Interval) (d : Nat) (x : Int) : Bool :=
  let (p, q) := if 0 ≤ x then (d * Nat.pow 10 x.toNat * i.den, 1)
    else (d * i.den, Nat.pow 10 (-x).toNat)
  if i.closed then i.low * q ≤ p && p ≤ i.high * q else i.low * q < p && p < i.high * q

/-- The grid point with unit `10 ^ x` that is in the interval and nearest to the value. -/
def onGrid? (i : Interval) (x : Int) : Option Decimal :=
  let (num, den) := if 0 ≤ x then (i.value, i.den * Nat.pow 10 x.toNat)
    else (i.value * Nat.pow 10 (-x).toNat, i.den)
  let near := Binary64.roundQuotient num den
  let low := num / den
  let other := if near = low then low + 1 else low
  if contains i near x then some ⟨near, x⟩
  else if contains i other x then some ⟨other, x⟩ else none

def dropZeros : Nat → Decimal → Decimal
  | 0, d => d
  | fuel + 1, d =>
    if d.digits ≠ 0 ∧ d.digits % 10 = 0 then dropZeros fuel ⟨d.digits / 10, d.exponent + 1⟩ else d

/-- The shortest digits of the positive double `m * 2 ^ e`. -/
def digits (m : Nat) (e : Int) : Decimal :=
  let i := intervalOf m e
  let k := decade i.value i.den 700 (-330)
  let found := (List.range 17).findSome? fun (n : Nat) => onGrid? i (k - (n + 1))
  dropZeros 20 (found.getD ⟨m, 0⟩)

/-- Writes digits with the point after the first `point` of them. -/
def positional (ds : List Char) (point : Int) : String :=
  if point ≤ 0 then "0." ++ String.ofList (List.replicate (-point).toNat '0' ++ ds)
  else
    let n := point.toNat
    let whole := ds.take n ++ List.replicate (n - ds.length) '0'
    let fraction := ds.drop n
    String.ofList (whole ++ '.' :: if fraction.isEmpty then ['0'] else fraction)

def scientific (ds : List Char) (point : Int) : String :=
  let x := point - 1
  let exponent := (toString x.natAbs).toList
  let fraction := if ds.length ≤ 1 then [] else '.' :: ds.drop 1
  String.ofList (ds.take 1 ++ fraction ++ ['e', if x < 0 then '-' else '+'] ++
    List.replicate (2 - exponent.length) '0' ++ exponent)

def text (x : Float) : String :=
  match Binary64.parts x with
  | .nan => "nan"
  | .infinite negative => if negative then "-inf" else "inf"
  | .finite negative m e =>
    let sign := if negative then "-" else ""
    if m = 0 then sign ++ "0.0"
    else
      let d := digits m e
      let ds := (toString d.digits).toList
      let point := ds.length + d.exponent
      sign ++ if -4 < point ∧ point ≤ 16 then positional ds point else scientific ds point

end Cartridge.Shortest
