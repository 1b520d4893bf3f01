import Cartridge.Text.Listing
import Cartridge.Tilemap.Run
import Cartridge.Workspace

/-!
# Packing maps

`pack` turns the cells of a map into commands.  Row marks after full rows are implied and left
out (`dropImplied`); then each step takes the longest run at hand (`steps`), and neighbouring
literal cells share one command (`commands`).
-/

namespace Cartridge.Tilemap

inductive PackError where
  | empty
  | unterminated
  | overlongRow
  deriving DecidableEq, Repr

/-- Leaves out the row mark after every full row; `n` cells of the row are behind. -/
def dropImplied (n : Nat) : List Int → Except PackError (List Int)
  | [] => .ok []
  | b :: rest =>
    if n = rowSize then
      if b = rowCell then dropImplied 0 rest else .error .overlongRow
    else (b :: ·) <$> dropImplied (if b = rowCell then 0 else n + 1) rest

/-- What one step packs: a first cell, the mode, and how many cells follow. -/
structure Step where
  mode : Mode
  more : Nat
  cell : Int
  deriving DecidableEq, Repr

/-- Cuts cells into steps, each the longest run at hand. -/
def steps (cells : List Int) : List Step :=
  match cells with
  | [] => []
  | cell :: rest =>
    let (mode, more) := bestRun cell rest
    ⟨mode, more, cell⟩ :: steps (rest.drop more)
termination_by cells.length
decreasing_by simp only [List.length_drop, List.length_cons]; omega

def Step.isLiteral (s : Step) : Bool := s.mode == .literal

/-- The bytes of steps; a literal command counts the literal cells after its first. -/
def commands (ss : List Step) : List Int :=
  match ss with
  | [] => []
  | s :: rest =>
    if s.isLiteral then
      let more := rest.takeWhile Step.isLiteral
      (more.length : Int) :: s.cell :: more.map Step.cell ++
        commands (rest.drop more.length)
    else (s.mode.code * 64 + (s.more - 1)) :: s.cell :: commands rest
termination_by ss.length
decreasing_by all_goals (simp only [List.length_drop, List.length_cons]; omega)

def packCells (cells : List Int) : Except PackError (List Int) := do
  match cells.getLast? with
  | none => throw .empty
  | some last =>
    if last ≠ endCell then throw .unterminated
    else
      let body ← dropImplied 0 cells.dropLast
      return commands (steps body) ++ [endCell]

def pack (cells : List Int) : Job (List Int) :=
  match packCells cells with
  | .ok bytes => pure bytes
  | .error .empty => throw (.plain .index)
  | .error .unterminated => do
    Job.say (Text.integers cells)
    throw (.noted .check "None")
  | .error .overlongRow => throw (.noted .check (Text.integers cells))

/-- The element at a position counted from either end, and what follows it. -/
def cellAt? (cells : List Int) (i : Int) : Option (Int × List Int) := do
  let n : Int := cells.length
  let place := if i < 0 then i + n else i
  if place < 0 ∨ n ≤ place then none
  else
    let cell ← cells[place.toNat]?
    let next := i + 1
    let start := if next < 0 then next + n else next
    return (cell, cells.drop start.toNat)

def runLengths (cells : List Int) (i : Int) : Except Fault (List Nat) := do
  let (cell, rest) ← demand (cellAt? cells i) (.plain .index)
  return Mode.all.map fun m => runLength m cell rest

end Cartridge.Tilemap
