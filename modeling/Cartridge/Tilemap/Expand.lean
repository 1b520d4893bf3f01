import Cartridge.Fault
import Cartridge.Tilemap.Run

/-!
# Reading packed maps

`expand` carries out the commands of a packed map.  The bytes from `0xFC` on are cells of their
own where a command is expected; in particular the closing `0xFF` is such a cell.  `unpack`
expands a map and writes a row mark after every full row.
-/

namespace Cartridge.Tilemap

/-- Whether a byte stands for itself where a command is expected. -/
def isBare (b : Int) : Bool := b == 0xFC || b == 0xFD || b == 0xFE || b == 0xFF

def countOf (b : Int) : Nat := (b % 64).toNat

/-- The cells of a run from a first cell.  A falling run wraps from zero to `0xFE`. -/
def runCells (m : Mode) (cell : Int) (n : Nat) : List Int :=
  match m with
  | .literal | .repeated => List.replicate n cell
  | .rising => (List.range n).map fun (i : Nat) => (cell + i) % 0x100
  | .falling => (List.range n).map fun (i : Nat) => (cell - i) % 0xFF

def expand (bytes : List Int) : Except Fault (List Int) :=
  match bytes with
  | [] => .ok []
  | b :: rest =>
    if isBare b then (b :: ·) <$> expand rest
    else match Mode.ofCommand b, rest with
      | .literal, rest =>
        let n := countOf b + 1
        if (rest.take n).length < n then .error (.plain .exhausted)
        else (rest.take n ++ ·) <$> expand (rest.drop n)
      | _, [] => .error (.plain .exhausted)
      | m, cell :: rest => (runCells m cell (countOf b + 2) ++ ·) <$> expand rest
termination_by bytes.length
decreasing_by
  all_goals (simp_wf <;> omega)

def isFull (row : List Int) : Bool := !row.isEmpty && row.length % rowSize == 0

/-- Writes a row mark after every full row and at every row mark of the map itself: the finished
rows and the row that is left over. -/
def layRows (row : List Int) : List Int → List Int × List Int
  | [] => ([], row)
  | t :: rest =>
    if isFull row || t == rowCell then
      let (done, last) := layRows (if t == rowCell then [] else [t]) rest
      (row ++ rowCell :: done, last)
    else layRows (row ++ [t]) rest

/-- Closes a map: a last row of one cell joins the row before it, a longer one keeps at most 31
cells. -/
def closeRows (done last : List Int) : Except Fault (List Int) :=
  if last.length = 1 then
    if last != [endCell] then .error .unmet
    else if done.isEmpty then .error (.plain .index)
    else .ok (done.dropLast ++ last)
  else .ok (done ++ last.take (rowSize - 1))

def unpack (bytes : List Int) : Except Fault (List Int) := do
  let cells ← expand bytes
  let last ← demand cells.getLast? (.plain .index)
  require (last == endCell) .unmet
  require ((cells.length - 1) % rowSize == 0) .unmet
  require (1 < cells.length) .unmet
  let (done, last) := layRows [] cells
  closeRows done last

end Cartridge.Tilemap
