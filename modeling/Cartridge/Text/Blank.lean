/-!
# Blank characters

The characters that count as white space when text is trimmed: those of the Unicode property
`White_Space` and the four separator controls.  Bytes know only the six of ASCII.
-/

namespace Cartridge.Text

def isBlank (c : Char) : Bool :=
  let n := c.toNat
  (9 ≤ n && n ≤ 13) || (28 ≤ n && n ≤ 32) || n == 0x85 || n == 0xA0 || n == 0x1680 ||
    (0x2000 ≤ n && n ≤ 0x200A) || n == 0x2028 || n == 0x2029 || n == 0x202F || n == 0x205F ||
    n == 0x3000

def isBlankByte (b : UInt8) : Bool := (9 ≤ b && b ≤ 13) || b == 32

theorem isBlank_of_isWhitespace {c : Char} (h : c.isWhitespace = true) : isBlank c = true := by
  simp only [Char.isWhitespace, Bool.or_eq_true, decide_eq_true_eq] at h
  rcases h with ((rfl | rfl) | rfl) | rfl <;> decide

def trimLeft (p : Char → Bool) (s : List Char) : List Char := s.dropWhile p

def trimRight (p : Char → Bool) (s : List Char) : List Char := (s.reverse.dropWhile p).reverse

def trim (p : Char → Bool) (s : List Char) : List Char := trimRight p (trimLeft p s)

def strip (s : String) : String := String.ofList (trim isBlank s.toList)

def stripLeftOf (set : String) (s : String) : String :=
  String.ofList (trimLeft (set.toList.contains ·) s.toList)

end Cartridge.Text
