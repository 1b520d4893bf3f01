import Cartridge.Tile.Arrange

/-!
# Pictures

From stored tiles to lines of pixels.  A row of a tile is two bytes, the low and the high bits of
its eight pixels, the leftmost in the highest bit (`Picture.flatten`).  `Picture.toLines` puts
tiles side by side, and `Picture.layOut` finds the size of a picture, fills it up with empty tiles
and gives its pixels.
-/

namespace Cartridge.Picture

def rowPixels (low high : UInt8) : List Nat :=
  (List.range 8).map fun i =>
    (low.toNat >>> (7 - i)) % 2 + 2 * ((high.toNat >>> (7 - i)) % 2)

def flatten : List UInt8 → Except Fault (List Nat)
  | [] => .ok []
  | [_] => .error (.plain .value)
  | low :: high :: rest => (rowPixels low high ++ ·) <$> flatten rest

/-- The lines of a picture whose pixels come tile by tile. -/
def toLines {α : Type} (pixels : Array α) (width : Int) : Except Fault (List (List α)) :=
  if width = 0 then .error (.plain .zeroDivision)
  else
    let columns := (width / 8).toNat
    let height := (Int.fdiv pixels.size width).toNat
    .ok ((List.range height).map fun y =>
      (List.range columns).flatMap fun x =>
        let anchor := columns * (y / 8) * 64 + x * 64 + y % 8 * 8
        (pixels.extract anchor (anchor + 8)).toList)

/-- How a picture is to be laid out.  A size of `none` is one that was left blank. -/
structure Options where
  width : Option Int := some 0
  height : Option Int := some 0
  tilePadding : Int := 0
  /-- The size in tiles of the blocks in which the tiles go column by column. -/
  blocks : Option (List Int) := none
  coloured : Bool := false
  interleaved : Bool := false

structure Laid where
  width : Int
  height : Int
  pixels : List (List Int)

def isGiven (n : Option Int) : Bool := n.getD 0 != 0

def emptyTiles (n : Int) : List UInt8 := List.replicate (Tile.size * n.toNat) 0

def pixelCount (image : List UInt8) : Int := image.length * 4

/-- Rearranges blocks of `w` by `h` tiles and fills up the last row of tiles. -/
def arrangeBlocks (image : List UInt8) (w h : Int) : Except Fault (List UInt8) := do
  let block := w * h * Tile.size
  if block = 0 then throw (.plain .zeroDivision)
  let trailing := Int.fmod image.length block
  let whole := image.length - trailing
  let pieces ← if block < 0 then pure [] else
    (Tile.chunks (block.toNat - 1) (image.take whole.toNat)).mapM
      fun piece => Tile.transposeTiles piece (some h)
  let image := pieces.flatten ++ image.drop whole.toNat
  let tiles : Int := image.length / Tile.size
  return image ++ emptyTiles (Int.fmod (w - Int.fmod tiles h) w)

/-- Adds empty tiles until their number is a multiple of `side / 8`. -/
def fillTo (image : List UInt8) (side : Int) : Except Fault (List UInt8) := do
  let tiles := side / 8
  if tiles = 0 then throw (.plain .zeroDivision)
  let rest := Int.fmod (pixelCount image / 64) tiles
  return image ++ emptyTiles (tiles - if rest = 0 then tiles else rest)

/-- The sizes with a width of whole tiles that have the given number of pixels. -/
def sizesOf (pixels : Int) : List (Int × Int) :=
  (List.range (pixels / 16).toNat).filterMap fun (k : Nat) =>
    let w : Int := 8 * (k + 1)
    let h := pixels / w
    if w * h = pixels then some (w, h) else none

/-- The size that is preferred: a height of whole tiles, and then the smallest sum. -/
def preferred (a b : Int × Int) : Bool :=
  let wholeA := a.2 % 8 == 0
  let wholeB := b.2 % 8 == 0
  if wholeA == wholeB then a.1 + a.2 ≤ b.1 + b.2 else wholeA

def indivisible (pixels : Int) : Fault :=
  .noted .refused ("Image can't be divided into tiles (" ++ toString pixels ++ " px)!")

def layOut (image : List UInt8) (o : Options) : Except Fault Laid := do
  let rearranged := o.interleaved && isGiven o.width
  let image ← if rearranged then Tile.interleaveTiles image (o.width.getD 0 / 8) else pure image
  let image := image ++ emptyTiles o.tilePadding
  let (image, width) ← match o.blocks with
    | none | some [] => pure (image, o.width)
    | some [w, h] => do
      let width := if isGiven o.width then o.width else some (w * 8)
      let arranged ← arrangeBlocks image w h
      if rearranged then throw (.plain .kind)
      pure (arranged, width)
    | some _ => throw (.plain .value)
  let (image, width, height) ←
    if isGiven width then do
      let filled ← fillTo image (width.getD 0)
      pure (filled, width,
        if isGiven o.height then o.height
        else some (Int.fdiv (pixelCount filled) (width.getD 0)))
    else if isGiven o.height then do
      let filled ← fillTo image (o.height.getD 0)
      pure (filled, some (Int.fdiv (pixelCount filled) (o.height.getD 0)), o.height)
    else pure (image, width, o.height)
  let pixels := pixelCount image
  let (width, height) ← match width, height with
    | some w, some h =>
      if w * h = pixels then pure (w, h)
      else match (sizesOf pixels).mergeSort preferred with
        | best :: _ => pure best
        | [] => throw (indivisible pixels)
    | _, _ => throw (.plain .kind)
  let flat ← flatten image
  let lines ← toLines flat.toArray width
  if o.coloured then throw (.plain .undefinedName)
  return ⟨width, height, lines.map fun l => l.map fun (p : Nat) => 3 - (p : Int)⟩

end Cartridge.Picture
