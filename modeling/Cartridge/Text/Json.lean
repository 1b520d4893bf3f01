import Cartridge.Decimal.Shortest
import Cartridge.Table
import Cartridge.Text.Escape
import Cartridge.Text.Lines
import Cartridge.Text.Real

/-!
# JSON

Data in JSON text.  A number with a fraction or an exponent is a double and any other an integer of
any size; the members of an object keep their order, a later one replacing an earlier one of the
same name.  `Json.parse` reads one value and says where a text goes wrong.
-/

namespace Cartridge.Text

inductive Json where
  | null
  | flag (b : Bool)
  | int (n : Int)
  | real (x : Float)
  | text (s : String)
  | list (vs : List Json)
  | object (members : Table String Json)
  deriving Inhabited

namespace Json

/-! ### Access -/

def get? (j : Json) (name : String) : Option Json :=
  match j with
  | object ms => ms.find? name
  | _ => none

def members (j : Json) : List (String × Json) :=
  match j with
  | object ms => ms.entries
  | _ => []

def elements (j : Json) : List Json :=
  match j with
  | list vs => vs
  | _ => []

def toReal (j : Json) : Float :=
  match j with
  | int n => (Binary64.ofInt? n).getD 0
  | real x => x
  | _ => 0

/-- The text of a number, or a text itself. -/
def shown (j : Json) : String :=
  match j with
  | int n => toString n
  | real x => Shortest.text x
  | text s => s
  | _ => ""

def minus (a b : Json) : Json :=
  match a, b with
  | int m, int n => int (m - n)
  | a, b => real (a.toReal - b.toReal)

/-! ### Reading -/

/-- What is wrong with a text, and how much of it is left there. -/
structure Flaw where
  what : String
  left : Nat

def Flaw.message (f : Flaw) (s : List Char) : String :=
  let before := s.take (s.length - f.left)
  let line := before.count '\n' + 1
  let column := (before.reverse.takeWhile (· != '\n')).length + 1
  f.what ++ ": line " ++ toString line ++ " column " ++ toString column ++ " (char " ++
    toString before.length ++ ")"

def flaw {α : Type} (what : String) (rest : List Char) : Except Flaw α := .error ⟨what, rest.length⟩

def skip (s : List Char) : List Char :=
  s.dropWhile fun c => c == ' ' || c == '\t' || c == '\n' || c == '\r'

def escaped? (c : Char) : Option Char :=
  match c with
  | '"' | '\\' | '/' => some c
  | 'b' => some '\x08'
  | 'f' => some '\x0C'
  | 'n' => some '\n'
  | 'r' => some '\r'
  | 't' => some '\t'
  | _ => none

def codeUnit? (s : List Char) : Option Nat := do
  let ds ← (s.take 4).mapM hexDigit?
  if ds.length = 4 then some (Numeral.ofDigits 16 ds) else none

/-- The character of an escape by number, and the rest.  Two halves of a pair make one character. -/
def numbered (s : List Char) : Except Flaw (Char × List Char) :=
  match codeUnit? s with
  | none => flaw "Invalid \\uXXXX escape" s
  | some n =>
    let rest := s.drop 4
    match rest with
    | '\\' :: 'u' :: more =>
      match codeUnit? more with
      | some k =>
        if 0xD800 ≤ n ∧ n < 0xDC00 ∧ 0xDC00 ≤ k ∧ k < 0xE000 then
          .ok (Char.ofNat (0x10000 + (n - 0xD800) * 0x400 + (k - 0xDC00)), more.drop 4)
        else .ok (Char.ofNat n, rest)
      | none => .ok (Char.ofNat n, rest)
    | _ => .ok (Char.ofNat n, rest)

/-- The characters of a text up to its closing quote, and the rest; `start` is the opening quote
with all that follows it. -/
def characters (start : List Char) : Nat → List Char → Except Flaw (List Char × List Char)
  | 0, _ => flaw "Unterminated string starting at" start
  | fuel + 1, s =>
    match s with
    | [] => flaw "Unterminated string starting at" start
    | '"' :: rest => .ok ([], rest)
    | '\\' :: [] => flaw "Unterminated string starting at" start
    | '\\' :: 'u' :: rest => do
      let (c, rest) ← numbered rest
      let (cs, rest) ← characters start fuel rest
      return (c :: cs, rest)
    | '\\' :: e :: rest =>
      match escaped? e with
      | none => flaw "Invalid \\escape" ('\\' :: e :: rest)
      | some c => do
        let (cs, rest) ← characters start fuel rest
        return (c :: cs, rest)
    | c :: rest =>
      if c.toNat < 0x20 then flaw "Invalid control character at" (c :: rest)
      else do
        let (cs, rest) ← characters start fuel rest
        return (c :: cs, rest)

def quoted (s : List Char) : Except Flaw (String × List Char) := do
  let (cs, rest) ← characters ('"' :: s) (s.length + 1) s
  return (String.ofList cs, rest)

def digits (s : List Char) : List Char × List Char := s.span Char.isDigit

def exponent (s : List Char) : List Char × List Char :=
  match s with
  | e :: rest =>
    if e == 'e' || e == 'E' then
      let (sign, rest) := match rest with
        | '+' :: more => (['+'], more)
        | '-' :: more => (['-'], more)
        | more => ([], more)
      match digits rest with
      | ([], _) => ([], s)
      | (ds, rest) => (e :: sign ++ ds, rest)
    else ([], s)
  | [] => ([], s)

def fraction (s : List Char) : List Char × List Char :=
  match s with
  | '.' :: rest =>
    match digits rest with
    | ([], _) => ([], s)
    | (ds, rest) => ('.' :: ds, rest)
  | _ => ([], s)

/-- The number at the start of a text, and the rest.  A leading zero stands alone. -/
def number? (s : List Char) : Option (Json × List Char) :=
  let (sign, s) := match s with
    | '-' :: rest => (['-'], rest)
    | s => ([], s)
  let (whole, rest) := match s with
    | '0' :: rest => (['0'], rest)
    | s => digits s
  if whole.isEmpty then none
  else
    let (fraction, rest) := fraction rest
    let (exponent, rest) := exponent rest
    if fraction.isEmpty && exponent.isEmpty then
      (Numeral.read? 10 (sign ++ whole)).map fun n => (int n, rest)
    else
      (readReal? (String.ofList (sign ++ whole ++ fraction ++ exponent))).map fun x => (real x, rest)

def words : List (String × Json) :=
  [("null", null), ("true", flag true), ("false", flag false), ("NaN", real (0.0 / 0.0)),
    ("Infinity", real (1.0 / 0.0)), ("-Infinity", real (-1.0 / 0.0))]

/-- The value that a word at the start of a text stands for, and the rest. -/
def word? (s : List Char) : Option (Json × List Char) :=
  (words.find? fun w => w.1.toList.isPrefixOf s).map fun w => (w.2, s.drop w.1.length)

mutual

def value : Nat → List Char → Except Flaw (Json × List Char)
  | 0, s => flaw "Expecting value" s
  | fuel + 1, s =>
    match s with
    | '"' :: rest => do
      let (t, rest) ← quoted rest
      return (text t, rest)
    | '[' :: rest =>
      match skip rest with
      | ']' :: rest => .ok (list [], rest)
      | rest => do
        let (vs, rest) ← listed fuel rest
        return (list vs, rest)
    | '\x7b' :: rest =>
      match skip rest with
      | '\x7d' :: rest => .ok (object Table.empty, rest)
      | rest => do
        let (ms, rest) ← named fuel rest
        return (object (Table.ofList ms), rest)
    | s =>
      match (word? s).or (number? s) with
      | some r => .ok r
      | none => flaw "Expecting value" s

def listed : Nat → List Char → Except Flaw (List Json × List Char)
  | 0, s => flaw "Expecting value" s
  | fuel + 1, s => do
    let (v, rest) ← value fuel s
    match skip rest with
    | ']' :: rest => return ([v], rest)
    | ',' :: rest =>
      let (vs, rest) ← listed fuel (skip rest)
      return (v :: vs, rest)
    | rest => flaw "Expecting ',' delimiter" rest

def named : Nat → List Char → Except Flaw (List (String × Json) × List Char)
  | 0, s => flaw "Expecting value" s
  | fuel + 1, s =>
    match s with
    | '"' :: rest => do
      let (name, rest) ← quoted rest
      match skip rest with
      | ':' :: rest =>
        let (v, rest) ← value fuel (skip rest)
        match skip rest with
        | '\x7d' :: rest => return ([(name, v)], rest)
        | ',' :: rest =>
          let (ms, rest) ← named fuel (skip rest)
          return ((name, v) :: ms, rest)
        | rest => flaw "Expecting ',' delimiter" rest
      | rest => flaw "Expecting ':' delimiter" rest
    | s => flaw "Expecting property name enclosed in double quotes" s

end

def parse (s : List Char) : Except Flaw Json := do
  let (v, rest) ← value (2 * s.length + 2) (skip s)
  match skip rest with
  | [] => return v
  | rest => flaw "Extra data" rest

end Json

end Cartridge.Text
