import Cartridge.Text.Numeral
import Cartridge.Text.Printable

/-!
# Quoted text

How texts and bytes are shown in messages: in single quotes, or in double quotes if that saves an
escape, with escapes for the backslash, the quote and everything that is not printable.
-/

namespace Cartridge.Text

/-- The quote for a text: double if it holds single quotes only. -/
def quoteFor (s : List Char) : Char := if s.contains '\'' && !s.contains '"' then '"' else '\''

def shortEscape? (c : Char) : Option (List Char) :=
  if c = '\n' then some ['\\', 'n']
  else if c = '\r' then some ['\\', 'r']
  else if c = '\t' then some ['\\', 't']
  else none

/-- The escape of a code point: two, four or eight hexadecimal digits. -/
def codeEscape (n : Nat) : List Char :=
  if n < 0x100 then '\\' :: 'x' :: (Numeral.hex 2 n).toList
  else if n < 0x10000 then '\\' :: 'u' :: (Numeral.hex 4 n).toList
  else '\\' :: 'U' :: (Numeral.hex 8 n).toList

def quoteChar (q : Char) (c : Char) : List Char :=
  if c = q ∨ c = '\\' then ['\\', c]
  else match shortEscape? c with
    | some e => e
    | none => if isPrintable c then [c] else codeEscape c.toNat

def quote (s : String) : String :=
  let cs := s.toList
  let q := quoteFor cs
  String.ofList (q :: cs.flatMap (quoteChar q) ++ [q])

/-- Bytes in quotes, with the mark `b`; what is not a printable ASCII character is escaped. -/
def quoteBytes (bytes : List UInt8) : String :=
  let cs := bytes.map fun b => Char.ofNat b.toNat
  let q := quoteFor cs
  String.ofList ('b' :: q :: cs.flatMap (fun c =>
    if 127 ≤ c.toNat then codeEscape c.toNat else quoteChar q c) ++ [q])

end Cartridge.Text
