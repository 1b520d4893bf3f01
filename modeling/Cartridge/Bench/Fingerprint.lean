import Cartridge.Checksum.Sha256
import Cartridge.Decimal.Significant
import Cartridge.Text.Lines
import Cartridge.Text.Listing
import Cartridge.Text.Quoted

/-!
# Fingerprints

What a benchmark returns is told apart by a hash of a plain form of it (`Specimen.fingerprint`).
The form does not keep what may differ between equal runs: doubles count with six digits, and
tables and sets count in the order of the texts of their keys.
-/

namespace Cartridge.Bench

inductive Specimen where
  | nothing
  | flag (b : Bool)
  | int (n : Int)
  | real (x : Float)
  | complex (re im : Float)
  | text (s : String)
  | bytes (kind : String) (b : ByteArray)
  | sequence (kind : String) (vs : List Specimen)
  | collection (kind : String) (vs : List Specimen)
  | table (pairs : List (Specimen × Specimen))
  | fields (fs : List (String × Specimen))
  | other (kind : String) (shown : String)
  deriving Inhabited

namespace Specimen

/-! ### Texts of other kinds -/

def decimal (digits : String) : Specimen := other "Decimal" ("Decimal(" ++ Text.quote digits ++ ")")

def fraction (n d : Int) : Specimen :=
  let g : Int := max 1 (Int.gcd n d)
  let sign : Int := if d < 0 then -1 else 1
  other "Fraction" ("Fraction(" ++ toString (sign * n / g) ++ ", " ++ toString (sign * d / g) ++ ")")

def date (y m d : Int) : Specimen :=
  other "date" ("datetime.date" ++ Text.parenthesized ([y, m, d].map toString))

def path (s : String) : Specimen :=
  let steps := (Text.parts '/' s).filter fun n => n != "" && n != "."
  let joined := (if s.startsWith "/" then "/" else "") ++ String.intercalate "/" steps
  other "PurePosixPath" ("PurePosixPath(" ++ Text.quote (if joined.isEmpty then "." else joined) ++ ")")

def uuid (digits : String) : Specimen :=
  let ds := (digits.toList.filter (· != '-')).map Char.toLower
  let cut (i n : Nat) : String := String.ofList ((ds.drop i).take n)
  other "UUID" ("UUID(" ++ Text.quote (String.intercalate "-"
    [cut 0 8, cut 8 4, cut 12 4, cut 16 4, cut 20 12]) ++ ")")

def plainObject : Specimen := other "object" "<builtins.object>"

/-! ### Texts -/

def kind : Specimen → String
  | nothing => "NoneType"
  | flag _ => "bool"
  | int _ => "int"
  | real _ => "float"
  | complex _ _ => "complex"
  | text _ => "str"
  | bytes k _ | sequence k _ | collection k _ => k
  | table _ => "dict"
  | fields _ => "D"
  | other k _ => k

def simpleText : Specimen → String
  | nothing => "None"
  | flag b => if b then "True" else "False"
  | int n => toString n
  | real x => Shortest.text x
  | text s => s
  | other _ shown => shown
  | _ => ""

mutual

def quoted : Specimen → String
  | text s => Text.quote s
  | bytes _ b => Text.quoteBytes b.data.toList
  | sequence k vs =>
    if k == "tuple" then Text.parenthesized (quotedAll vs) else Text.bracketed (quotedAll vs)
  | v => v.simpleText

def quotedAll : List Specimen → List String
  | [] => []
  | v :: vs => quoted v :: quotedAll vs

end

def display : Specimen → String
  | text s => s
  | v => v.quoted

/-! ### Plain forms -/

def realDigits : Nat := 6

def joined (bs : List ByteArray) : ByteArray := bs.foldl (· ++ ·) ByteArray.empty

def sorted (bs : List (String × ByteArray)) : List ByteArray :=
  (bs.mergeSort fun a b => decide (a.1 ≤ b.1)).map (·.2)

mutual

def form : Specimen → ByteArray
  | real x => (Shortest.text (Significant.round realDigits x)).toUTF8
  | complex re im => ("c" ++ Shortest.text re ++ Shortest.text im).toUTF8
  | text s => ("s" ++ s).toUTF8
  | bytes _ b => "s".toUTF8 ++ b
  | sequence _ vs => ("L" ++ toString vs.length).toUTF8 ++ joined (forms vs)
  | collection _ vs => ("S" ++ toString vs.length).toUTF8 ++ joined (sorted (keyed vs))
  | table ps => ("D" ++ toString ps.length).toUTF8 ++ joined (sorted (pairForms ps))
  | fields fs => ("D" ++ toString fs.length).toUTF8 ++ joined (sorted (fieldForms fs))
  | v => v.simpleText.toUTF8

def forms : List Specimen → List ByteArray
  | [] => []
  | v :: vs => form v :: forms vs

def keyed : List Specimen → List (String × ByteArray)
  | [] => []
  | v :: vs => (v.quoted, form v) :: keyed vs

def pairForms : List (Specimen × Specimen) → List (String × ByteArray)
  | [] => []
  | (k, v) :: ps => (k.quoted, form k ++ form v) :: pairForms ps

def fieldForms : List (String × Specimen) → List (String × ByteArray)
  | [] => []
  | (k, v) :: fs => (Text.quote k, ("s" ++ k).toUTF8 ++ form v) :: fieldForms fs

end

/-- The fingerprint of a value: the hash of its plain form, in hexadecimal digits. -/
def fingerprint (v : Specimen) : String :=
  String.join ((Checksum.Sha256.hash v.form).map fun w => Text.Numeral.hex 8 w.toNat)

end Specimen

end Cartridge.Bench
