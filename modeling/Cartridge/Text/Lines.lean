/-!
# Lines

Text files are read with every kind of line end turned into a line feed (`unifyNewlines`), and a
line keeps its line feed (`lines`).  `splitAtBreaks` cuts text at every character that Unicode
counts as a line boundary and drops the boundaries.
-/

namespace Cartridge.Text

/-- Every carriage return, alone or before a line feed, becomes a line feed. -/
def unifyNewlines : List Char → List Char
  | [] => []
  | '\r' :: '\n' :: rest => '\n' :: unifyNewlines rest
  | '\r' :: rest => '\n' :: unifyNewlines rest
  | c :: rest => c :: unifyNewlines rest

def consLine (c : Char) : List (List Char) → List (List Char)
  | [] => [[c]]
  | l :: ls => (c :: l) :: ls

/-- The lines of a text, each with the line feed that ends it. -/
def lines : List Char → List (List Char)
  | [] => []
  | '\n' :: rest => ['\n'] :: lines rest
  | c :: rest => consLine c (lines rest)

/-- The parts of a text between the occurrences of a character. -/
def splitOn (sep : Char) : List Char → List (List Char)
  | [] => [[]]
  | c :: rest => if c = sep then [] :: splitOn sep rest else consLine c (splitOn sep rest)

/-- The parts of a text before and after the first occurrence of a character. -/
def splitFirst (sep : Char) : List Char → List Char × Option (List Char)
  | [] => ([], none)
  | c :: rest =>
    if c = sep then ([], some rest)
    else ((c :: (splitFirst sep rest).1), (splitFirst sep rest).2)

/-- Whether a character ends a line; a carriage return takes a following line feed with it. -/
def isLineBreak (c : Char) : Bool :=
  let n := c.toNat
  (10 ≤ n && n ≤ 13) || (28 ≤ n && n ≤ 30) || n == 0x85 || n == 0x2028 || n == 0x2029

/-- The lines of a text without their ends, cut at every line boundary. -/
def splitAtBreaks : List Char → List (List Char)
  | [] => []
  | '\r' :: '\n' :: rest => [] :: splitAtBreaks rest
  | c :: rest => if isLineBreak c then [] :: splitAtBreaks rest else consLine c (splitAtBreaks rest)

def parts (sep : Char) (s : String) : List String := (splitOn sep s.toList).map String.ofList

def replaceAll (old new : List Char) (s : List Char) : List Char :=
  match s with
  | [] => []
  | c :: rest =>
    if old ≠ [] ∧ old.isPrefixOf (c :: rest) then
      new ++ replaceAll old new ((c :: rest).drop (max old.length 1))
    else c :: replaceAll old new rest
termination_by s.length
decreasing_by all_goals (simp only [List.length_drop, List.length_cons]; omega)

end Cartridge.Text
