/-!
# Runs of cells

A tilemap is stored as commands, each of which writes a run of cells from a first cell and a
length.  A `Mode` is a kind of run: literal cells, one cell repeated, or cells that rise or fall
by one.  `Mode.follows` says which cell a run has some places after its first, and `runLength`
how far the cells at hand follow a mode.
-/

namespace Cartridge.Tilemap

def endCell : Int := 0xFF

def rowCell : Int := 0xFE

def rowSize : Nat := 32

inductive Mode where
  | literal
  | repeated
  | rising
  | falling
  deriving DecidableEq, Repr, Inhabited

namespace Mode

def code : Mode → Int
  | literal => 0
  | repeated => 1
  | rising => 2
  | falling => 3

def ofCommand (b : Int) : Mode :=
  match (b / 64 % 4).toNat with
  | 0 => literal
  | 1 => repeated
  | 2 => rising
  | _ => falling

/-- The cell that a run of the mode from `cell` has `j` places on, if it gets so far.  Rising and
falling runs stop at the ends of the byte range. -/
def follows (m : Mode) (cell : Int) (j : Nat) : Option Int :=
  match m with
  | literal => none
  | repeated => some cell
  | rising => if cell + j > 0xFF then none else some ((cell + j) % 0x100)
  | falling => if cell - j < 0 then none else some ((cell - j) % 0x100)

/-- The modes in the order in which they are tried. -/
def all : List Mode := [literal, repeated, rising, falling]

end Mode

/-- The most cells that may follow the first of a run. -/
def longestRun : Nat := 64

/-- How many of the cells `rest` continue a run of the mode from `cell`. -/
def runLength (m : Mode) (cell : Int) (rest : List Int) : Nat :=
  (((rest.take longestRun).zipIdx 1).takeWhile fun e => m.follows cell e.2 == some e.1).length

/-- The first mode with the longest run, and how many cells continue it. -/
def bestRun (cell : Int) (rest : List Int) : Mode × Nat :=
  Mode.all.foldl (fun best m =>
    let n := runLength m cell rest
    if best.2 < n then (m, n) else best) (.literal, 0)

end Cartridge.Tilemap
