import Cartridge.Fault
import Cartridge.Text.Numeral

/-!
# Arrangements of tiles

A picture is stored as a sequence of tiles of sixteen bytes.  Sequences are cut into pieces of one
length (`cut`), joined again (`join`), and rearranged: `transpose` exchanges rows and columns,
`interleave` brings tiles from pairs of rows together and `deinterleave` undoes it.  The
rearrangements work on sequences of anything.
-/

namespace Cartridge.Tile

variable {α : Type}

/-- The number of bytes of a tile: eight rows of eight pixels of two bits. -/
def size : Nat := 16

/-- Pieces of `n + 1` elements, the last one as long as what is left. -/
def chunks (n : Nat) (xs : List α) : List (List α) :=
  match xs with
  | [] => []
  | x :: rest => (x :: rest.take n) :: chunks n (rest.drop n)
termination_by xs.length
decreasing_by simp only [List.length_drop, List.length_cons]; omega

/-- Cuts a sequence into pieces of length `n`.  There is no piece if `n` is negative. -/
def cut (n : Int) (xs : List α) : Except Fault (List (List α)) :=
  if n = 0 then .error (.plain .value)
  else if n < 0 then .ok []
  else .ok (chunks (n.toNat - 1) xs)

def tilesOf (image : List UInt8) : List (List UInt8) := chunks (size - 1) image

def join (pieces : List (List α)) : List α := pieces.flatten

def evens : List α → List α
  | [] => []
  | [a] => [a]
  | a :: _ :: rest => a :: evens rest

def odds (xs : List α) : List α := evens xs.tail

/-- The side of the largest square that `n` tiles fill. -/
def squareSide (n : Nat) : Nat := (List.range (n + 1)).foldl (fun s k => if k * k ≤ n then k else s) 0

/-- Lists the elements column by column, `width` being the number of columns; without a width the
tiles form a square. -/
def transpose (xs : List α) (width : Option Int) : Except Fault (List α) :=
  let width := width.getD (squareSide xs.length)
  if xs.isEmpty then .ok []
  else if width = 0 then .error (.plain .zeroDivision)
  else
    let keyed := xs.zipIdx.map fun e => (Int.fmod e.2 width, e.1)
    .ok ((keyed.mergeSort fun a b => a.1 ≤ b.1).map (·.2))

/-- Puts the tiles at even places of a pair of rows into its first row and the others into its
second. -/
def interleave (xs : List α) (width : Int) : Except Fault (List α) := do
  let left ← cut width (evens xs)
  let right ← cut width (odds xs)
  return (left.zipWith (· ++ ·) right).flatten

/-- Takes tiles from the two rows of a pair in turn. -/
def deinterleave (xs : List α) (width : Int) : Except Fault (List α) := do
  let rows ← cut width xs
  return ((evens rows).zip (odds rows)).flatMap fun pair =>
    (pair.1.zip pair.2).flatMap fun e => [e.1, e.2]

def transposeTiles (image : List UInt8) (width : Option Int) : Except Fault (List UInt8) :=
  join <$> transpose (tilesOf image) width

def interleaveTiles (image : List UInt8) (width : Int) : Except Fault (List UInt8) :=
  join <$> interleave (tilesOf image) width

def deinterleaveTiles (image : List UInt8) (width : Int) : Except Fault (List UInt8) :=
  join <$> deinterleave (tilesOf image) width

def hexDump (data : List UInt8) (length : Int) : Except Fault String := do
  let margin := (Text.Numeral.digitsOf 16 data.length).length
  let rows ← cut length data
  return String.intercalate "\n" (rows.zipIdx.map fun row =>
    Text.Numeral.hex margin (row.2 * length) ++ " | " ++
      String.intercalate " " (row.1.map fun b => Text.Numeral.hex 2 b.toNat))

end Cartridge.Tile
