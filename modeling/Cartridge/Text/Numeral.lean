import Cartridge.Text.Blank
import Cartridge.Text.Digit

/-!
# Numerals

Reading and writing integers in a base.

A numeral that is read may have white space around it, a sign, the mark of its base, such as `0x`,
and single underscores between its digits (`Numeral.read?`).  Text that holds a character outside
ASCII may use the white space and the decimal digits of any script; text of ASCII alone knows
only the white space of bytes.  Numerals are written in lower or upper case, filled with zeros up
to a width in which a sign counts.
-/

namespace Cartridge.Text.Numeral

/-- The most digits that a numeral in base ten may have. -/
def decimalLimit : Nat := 4300

def ofDigits (base : Nat) (ds : List Nat) : Nat := ds.foldl (fun n d => n * base + d) 0

/-- Digits in which an underscore may stand between two digits. -/
def digits? (base : Nat) : List Char → Option (List Nat)
  | [] => none
  | [c] => (digitValue? c).filter (· < base) |>.map ([·])
  | c :: '_' :: rest => do
    let d ← (digitValue? c).filter (· < base)
    let ds ← digits? base rest
    return d :: ds
  | c :: rest => do
    let d ← (digitValue? c).filter (· < base)
    let ds ← digits? base rest
    return d :: ds

def markOf? (base : Nat) : Option Char :=
  if base = 16 then some 'x' else if base = 8 then some 'o' else if base = 2 then some 'b' else none

/-- Drops the mark of a base, with the underscore that may follow it. -/
def dropMark (base : Nat) (s : List Char) : List Char :=
  match markOf? base, s with
  | some mark, '0' :: x :: rest =>
    if x = mark ∨ x = mark.toUpper then
      match rest with
      | '_' :: rest => rest
      | _ => rest
    else s
  | _, _ => s

/-- The class of characters that may surround a numeral in the text `s`. -/
def marginOf (s : List Char) : Char → Bool :=
  if s.all (·.toNat < 128) then fun c => isBlank c && !(28 ≤ c.toNat && c.toNat ≤ 31) else isBlank

def read? (base : Nat) (s : List Char) : Option Int := do
  let s := trim (marginOf s) s
  let (negative, s) := match s with
    | '-' :: r => (true, r)
    | '+' :: r => (false, r)
    | r => (false, r)
  let ds ← digits? base (dropMark base s)
  if base = 10 ∧ decimalLimit < ds.length then none
  else
    let n : Int := ofDigits base ds
    return if negative then -n else n

def digitsOf (base : Nat) (n : Nat) : List Char := Nat.toDigits base n

/-- Writes `n` with at least `width` characters, zeros between the sign and the digits. -/
def write (base : Nat) (width : Nat) (n : Int) : String :=
  let ds := digitsOf base n.natAbs
  let sign := if n < 0 then ['-'] else []
  String.ofList (sign ++ List.replicate (width - sign.length - ds.length) '0' ++ ds)

def hex (width : Nat) (n : Int) : String := write 16 width n

def upperHex (width : Nat) (n : Int) : String := (write 16 width n).map Char.toUpper

def decimal (width : Nat) (n : Int) : String := write 10 width n

def markedHex (n : Int) : String :=
  (if n < 0 then "-0x" else "0x") ++ String.ofList (digitsOf 16 n.natAbs)

end Cartridge.Text.Numeral

namespace Cartridge.Text

def readHex? (s : String) : Option Int := Numeral.read? 16 s.toList

def readDecimal? (s : String) : Option Int := Numeral.read? 10 s.toList

end Cartridge.Text
