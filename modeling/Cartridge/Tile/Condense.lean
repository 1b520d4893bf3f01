import Cartridge.Signed
import Cartridge.Tile.Arrange

/-!
# Condensing frames

A picture made of frames repeats many tiles.  `condense` keeps the tiles of the first frame and
one copy of every other tile, together with the map that rebuilds the picture; where a tile equals
the one at its own place in the first frame the map points there.
-/

namespace Cartridge.Tile

variable {α : Type} [BEq α]

/-- The tiles that are kept, and for every tile of the picture the kept tile that it is. -/
structure Condensed (α : Type) where
  tiles : List α
  map : List Int
  deriving BEq, Repr

def firstIndex (tiles : List α) (tile : α) : Int := tiles.idxOf tile

/-- Takes up one tile, the `i`th after the first frame of `frame` tiles. -/
def condenseStep (frame : Int) (c : Condensed α) (tile : α) (i : Nat) :
    Except Fault (Condensed α) := do
  let tiles := if c.tiles.contains tile then c.tiles else c.tiles ++ [tile]
  if frame = 0 then return ⟨tiles, c.map ++ [firstIndex tiles tile]⟩
  let place := Int.fmod i frame
  let there ← demand (Signed.get? tiles place) (.plain .index)
  return ⟨tiles, c.map ++ [if tile == there then place else firstIndex tiles tile]⟩

/-- Condenses tiles whose first frame has `frame` tiles; zero means that there are no frames. -/
def condense (tiles : List α) (frame : Int) : Except Fault (Condensed α) :=
  (Signed.drop tiles frame).zipIdx.foldlM (fun c e => condenseStep frame c e.1 e.2)
    ⟨Signed.take tiles frame, (List.range frame.toNat).map Int.ofNat⟩

def condenseImage (image : List UInt8) (frame : Int) : Except Fault (List UInt8 × List Int) := do
  let c ← condense (tilesOf image) frame
  return (join c.tiles, c.map)

/-- Whether the frames of a sample picture condense as they should. -/
def condensesSamples : Bool :=
  let samples : List (String × Int × String × List Int) :=
    [("abcadbae", 0, "abcde", [0, 1, 2, 0, 3, 1, 0, 4]),
      ("abcadbae", 2, "abcde", [0, 1, 2, 0, 3, 1, 0, 4]),
      ("abcadbae", 4, "abcade", [0, 1, 2, 3, 4, 1, 0, 5]),
      ("abcadbea", 4, "abcade", [0, 1, 2, 3, 4, 1, 5, 3])]
  samples.all fun s =>
    match condense s.1.toList s.2.1 with
    | .ok c => c == ⟨s.2.2.1.toList, s.2.2.2⟩
    | .error _ => false

end Cartridge.Tile
