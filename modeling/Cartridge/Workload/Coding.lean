import Cartridge.Address
import Cartridge.Bytes
import Cartridge.Charset
import Cartridge.Tilemap.Expand
import Cartridge.Tilemap.Pack
import Cartridge.Tileset
import Cartridge.Value

/-!
# Workloads of the codings

Sample data of a chosen size goes through a coding and back.  A workload gives the sizes that it
saw, so that two runs can be compared.
-/

namespace Cartridge.Workload

def sizes (ns : List Nat) : Value := .list (ns.map fun (n : Nat) => .int n)

/-- The paths of the files of a folder with an extension, in order. -/
def filesWith (folder extension : String) : Job (List String) := do
  let names := ((← get).filesIn folder).filter fun name => name.endsWith extension
  return (names.mergeSort fun a b => decide (a ≤ b)).map (Path.join folder)

/-! ### Maps -/

/-- A full row of a map.  Rows take turns in four kinds: one cell repeated, rising cells, falling
cells, and cells without a run. -/
def sampleRow (i : Nat) : List Int :=
  (List.range Tilemap.rowSize).map fun (j : Nat) =>
    match i % 4 with
    | 0 => 0x10
    | 1 => 0x20 + j
    | 2 => 0x70 - j
    | _ => 37 * j % 0x60

def sampleMap (rows : Nat) : List Int :=
  [Tilemap.rowCell].intercalate ((List.range rows).map sampleRow) ++ [Tilemap.endCell]

def raggedMap : List Int :=
  [1, 1, 1, 1, Tilemap.rowCell, 5, 6, 7, Tilemap.rowCell, 9, 8, 7, Tilemap.rowCell, Tilemap.endCell]

/-- Packs and unpacks a map: the packed size, the size of the map that comes back, and the packed
size of a ragged map. -/
def mapRoundTrip (rows : Nat) : Job Value := do
  let packed ← Tilemap.pack (sampleMap rows)
  let cells ← Job.lift (Tilemap.unpack packed)
  let ragged ← Tilemap.pack raggedMap
  return sizes [packed.length, cells.length, ragged.length]

/-! ### Tilesets -/

def sampleTiles (tiles : Nat) : ByteArray :=
  ⟨((List.range (16 * tiles)).map fun (i : Nat) => (13 * i + i / 16).toUInt8).toArray⟩

def storedLimit : Nat := 8

def decodeTiles (image : ByteArray) : Except Fault (Array UInt8) :=
  match Tileset.decode image 0 with
  | .ok d => .ok d.data
  | .error e => .error e.fault

/-- Encodes and decodes tiles and decodes stored tilesets: the encoded size, the size of the stored
tiles, and the sum of the bytes that come back. -/
def tilesetRoundTrip (tiles : Nat) : Job Value := do
  let encoded ← Job.lift (Tileset.encode (sampleTiles tiles))
  let data ← Job.lift (decodeTiles encoded)
  let paths ← filesWith "gfx/prebuilt/tilesets" ".malias"
  let stored ← (paths.take storedLimit).mapM fun path => do
    return (← Job.lift (decodeTiles (← Job.readFile path))).size
  return sizes [encoded.size, stored.foldl (· + ·) 0, (data.toList.map UInt8.toNat).foldl (· + ·) 0]

/-! ### Texts -/

def lookUp (i : Nat) : Job Charset :=
  match i % 4 with
  | 0 => Charset.ofTileset "MainDialog1" none
  | 1 => Charset.ofTilesetAt "MainDialog2" 0x80
  | 2 => Charset.ofTileset "Special" none
  | _ => Charset.ofTilesetAt "Kanji" 0

/-- Looks up character sets in turn: the number of their characters together. -/
def lookUps (n : Nat) : Job Value := do
  let found ← (List.range n).mapM fun i => do return (← lookUp i).size
  return .int (found.foldl (· + ·) 0 : Nat)

def sampleText (set : Charset) (n : Nat) : List Char :=
  let letters := set.values.toArray
  (List.range n).flatMap (fun i => (letters.getD (i % letters.size) "").toList) ++ "\\x41\\x42".toList

/-- Encodes a text: the number of bytes, that of a padded beginning, that of the words in the bytes,
the sizes of the tables together, and an address that went there and back. -/
def textCoding (n : Nat) : Job Value := do
  let set ← Charset.ofTileset "MainDialog1" none
  let text := sampleText set n
  let codes ← Charset.encode set.swap text
  let start := text.take 50
  let padded ← Charset.encodePadded set.swap start (start.length + 16) 0
  let names ← Charset.readTable Charset.indexPath
  let numbers ← Charset.readCodes Charset.indexPath
  let keys ← Charset.readNamesOfTexts Charset.indexPath
  let place ← Job.lift (Address.ofFlat (Address.flat ⟨3, 0x4500⟩))
  let known := set.size + names.size + numbers.size + keys.size
  return .list [.int codes.length, .int padded.length, .int (codes.length / 2 : Nat), .int known,
    .list [.int place.bank, .int place.offset]]

end Cartridge.Workload
