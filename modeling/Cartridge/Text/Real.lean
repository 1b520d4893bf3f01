import Cartridge.Decimal.Binary64
import Cartridge.Text.Numeral

/-!
# Real numbers in text

`readReal?` reads a decimal number with an optional fraction and exponent as the nearest double.
Like in integers there may be white space around it, digits of any script, and single underscores
between digits; infinity and not-a-number go by their names.
-/

namespace Cartridge.Text

namespace Real

/-- The digits at the start of a text, with single underscores between them, and the rest. -/
def digitsThen : List Char → List Nat × List Char
  | [] => ([], [])
  | c :: '_' :: d :: rest =>
    match decimalDigit? c with
    | none => ([], c :: '_' :: d :: rest)
    | some n =>
      if (decimalDigit? d).isSome then
        let (ds, tail) := digitsThen (d :: rest)
        (n :: ds, tail)
      else ([n], '_' :: d :: rest)
  | c :: rest =>
    match decimalDigit? c with
    | none => ([], c :: rest)
    | some n =>
      let (ds, tail) := digitsThen rest
      (n :: ds, tail)

def signThen : List Char → Bool × List Char
  | '-' :: rest => (true, rest)
  | '+' :: rest => (false, rest)
  | s => (false, s)

def exponent? : List Char → Option Int
  | [] => some 0
  | c :: rest =>
    if c = 'e' ∨ c = 'E' then
      let (negative, s) := signThen rest
      match digitsThen s with
      | ([], _) | (_, _ :: _) => none
      | (ds, []) => some (Binary64.signed negative (Numeral.ofDigits 10 ds))
    else none

/-- The double nearest to `n * 10 ^ e`, or an infinity; `n` has `size` digits. -/
def scale (negative : Bool) (n size : Nat) (e : Int) : Float :=
  let infinity : Float := Float.ofBits (if negative then 0xFFF0000000000000 else 0x7FF0000000000000)
  if n = 0 ∨ e + size < -400 then (Binary64.ofRatio? negative 0 1).getD 0
  else if 400 < e + size then infinity
  else ((if 0 ≤ e then Binary64.ofRatio? negative (n * Nat.pow 10 e.toNat) 1
    else Binary64.ofRatio? negative n (Nat.pow 10 (-e).toNat)).getD infinity)

def named? (negative : Bool) (s : List Char) : Option Float :=
  let name := String.ofList (s.map Char.toLower)
  if name = "inf" ∨ name = "infinity" then
    some (Float.ofBits (if negative then 0xFFF0000000000000 else 0x7FF0000000000000))
  else if name = "nan" then some (Float.ofBits 0x7FF8000000000000)
  else none

def unsigned? (negative : Bool) (s : List Char) : Option Float :=
  let (whole, s) := digitsThen s
  let (fraction, s) := match s with
    | '.' :: rest => digitsThen rest
    | s => ([], s)
  let ds := whole ++ fraction
  if ds.isEmpty then none
  else (exponent? s).map fun e =>
    scale negative (Numeral.ofDigits 10 ds) ds.length (e - fraction.length)

end Real

def readReal? (s : String) : Option Float :=
  let cs := trim (Numeral.marginOf s.toList) s.toList
  let (negative, rest) := Real.signThen cs
  (Real.named? negative rest).or (Real.unsigned? negative rest)

end Cartridge.Text
