import Cartridge.Fault
import Cartridge.Text.Digit

/-!
# Escapes

The body of a quoted literal, in which a backslash starts an escape.
-/

namespace Cartridge.Text

def charOf? (n : Nat) : Option Char :=
  if h : n.isValidChar then some (Char.ofNatAux n h) else none

def hexDigit? (c : Char) : Option Nat :=
  if c.toNat < 128 then (digitValue? c).filter (· < 16) else none

/-- The character whose code point is given by the first `n` characters as hexadecimal digits. -/
def codePoint? (n : Nat) (s : List Char) : Option Char := do
  let ds ← (s.take n).mapM hexDigit?
  if ds.length = n then charOf? (ds.foldl (fun v d => v * 16 + d) 0) else none

def octal (s : List Char) : List Char := (s.take 3).takeWhile fun c => '0' ≤ c && c ≤ '7'

/-- Reads the escape that stands after a backslash: the characters it means and how many
characters it takes. -/
def escape? (c : Char) (rest : List Char) : Option (List Char × Nat) :=
  match c with
  | '\n' => some ([], 0)
  | '\\' => some (['\\'], 0)
  | '\'' => some (['\''], 0)
  | '"' => some (['"'], 0)
  | 'a' => some ([Char.ofNat 7], 0)
  | 'b' => some ([Char.ofNat 8], 0)
  | 'f' => some ([Char.ofNat 12], 0)
  | 'n' => some (['\n'], 0)
  | 'r' => some (['\r'], 0)
  | 't' => some (['\t'], 0)
  | 'v' => some ([Char.ofNat 11], 0)
  | 'x' => (codePoint? 2 rest).map fun d => ([d], 2)
  | 'u' => (codePoint? 4 rest).map fun d => ([d], 4)
  | 'U' => (codePoint? 8 rest).map fun d => ([d], 8)
  | 'N' => none
  | c =>
    let ds := octal (c :: rest)
    if ds.isEmpty then some (['\\', c], 0)
    else (charOf? (ds.foldl (fun v d => v * 8 + (d.toNat - '0'.toNat)) 0)).map
      fun d => ([d], ds.length - 1)

/-- Splits a text at the first quote that is not escaped. -/
def body? (quote : Char) : List Char → Option (List Char × List Char)
  | [] => none
  | '\\' :: c :: rest => (body? quote rest).map fun p => ('\\' :: c :: p.1, p.2)
  | c :: rest =>
    if c = quote then some ([], rest)
    else (body? quote rest).map fun p => (c :: p.1, p.2)

def unescape (s : List Char) : Except Fault (List Char) :=
  match s with
  | [] => .ok []
  | '\\' :: c :: rest =>
    match escape? c rest with
    | none => .error (.plain .literal)
    | some (cs, n) => (cs ++ ·) <$> unescape (rest.drop n)
  | c :: rest => (c :: ·) <$> unescape rest
termination_by s.length
decreasing_by all_goals (simp only [List.length_drop, List.length_cons]; omega)

def escapeQuotes : List Char → List Char
  | [] => []
  | '\'' :: rest => '\\' :: '\'' :: escapeQuotes rest
  | c :: rest => c :: escapeQuotes rest

/-- Whether nothing but blanks and a comment follows a literal. -/
def isTail (s : List Char) : Bool :=
  match s.dropWhile fun c => c == ' ' || c == '\t' || c == Char.ofNat 12 with
  | [] => true
  | c :: _ => c == '#'

/-- Reads text as the inside of a literal in single quotes, its own quotes escaped. -/
def readQuoted (s : List Char) : Except Fault (List Char) :=
  if s.contains (Char.ofNat 0) then .error (.plain .value)
  else match body? '\'' (escapeQuotes s ++ ['\'']) with
    | none => .error (.plain .literal)
    | some (body, rest) =>
      if isTail rest then unescape body else .error (.plain .literal)

end Cartridge.Text
