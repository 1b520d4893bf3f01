/-!
# Interlacing

An interlaced image is stored as seven passes, each a smaller image of every so manieth pixel of
every so manieth line.
-/

namespace Cartridge.Png

/-- Where the pixels of a pass start and how far they are apart. -/
structure Pass where
  xStart : Nat
  yStart : Nat
  xStep : Nat
  yStep : Nat
  deriving DecidableEq, Repr

def passes : List Pass :=
  [⟨0, 0, 8, 8⟩, ⟨4, 0, 8, 8⟩, ⟨0, 4, 4, 8⟩, ⟨2, 0, 4, 4⟩, ⟨0, 2, 2, 4⟩, ⟨1, 0, 2, 2⟩,
    ⟨0, 1, 1, 2⟩]

namespace Pass

def lineWidth (p : Pass) (width : Nat) : Nat := (width - p.xStart + p.xStep - 1) / p.xStep

def lines (p : Pass) (height : Nat) : List Nat :=
  (List.range ((height - p.yStart + p.yStep - 1) / p.yStep)).map fun k => p.yStart + k * p.yStep

end Pass

def passesFor (width : Nat) : List Pass := passes.filter (·.xStart < width)

/-- The lines of all passes, with their passes, in the order in which they are stored. -/
def passLines (width height : Nat) : List (Pass × Nat) :=
  (passesFor width).flatMap fun p => (p.lines height).map fun y => (p, y)

end Cartridge.Png
