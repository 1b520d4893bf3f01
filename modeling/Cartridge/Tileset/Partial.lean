import Cartridge.Picture.Save
import Cartridge.Tileset.Script

/-!
# Partial tilesets

The tilesets that scripts load stand in graphics banks, each with a table of pointers at its start.
The last pointer of a table marks the end of the tiles.  The size of a tileset is the distance to
the next address in use.
-/

namespace Cartridge.Tileset

def endName (bank : Nat) : String := "PartialTilesetTerminator" ++ toString bank

def partName (bank index : Nat) : String :=
  "PartialTileset" ++ Text.Numeral.upperHex 2 bank ++ Text.Numeral.upperHex 2 index

/-- The names of the targets of pointers, by address; the end comes first. -/
def nameTargets (bank : Nat) (pointers : List Nat) (last : Nat) : Table Nat String :=
  pointers.zipIdx.foldl (fun names e =>
    if names.contains e.1 then names else names.insert e.1 (partName bank e.2))
    (Table.ofList [(last, endName bank)])

/-- The sizes of the tilesets: the distance from each address to the next, up to the end. -/
def sizesUpTo (last : Nat) : List Nat → Table Nat Nat
  | a :: b :: rest =>
    if a = last then ∅ else ⟨(a, b - a) :: (sizesUpTo last (b :: rest)).entries⟩
  | _ => ∅

structure PartBank where
  targets : List String
  data : List (String × List UInt8)

/-- Reads a bank of tilesets; `index` is its place among the banks. -/
def PartBank.read (image : ByteArray) (index bank : Nat) : Except Fault PartBank := do
  let pointers ← PointerTable.read image ⟨bank, 0x4000⟩
  let last := pointers.getLastD 0
  let names := nameTargets index pointers last
  let sizes := sizesUpTo last (names.keys.mergeSort fun a b => decide (a ≤ b))
  let data ← (names.entries.filter (·.1 != last)).mapM fun e => do
    let size ← demand (sizes.find? e.1) (.plain .key)
    let start ← Bytes.position (Address.flat ⟨bank, e.1⟩)
    return (e.2, (image.extract start (start + size)).data.toList)
  return ⟨pointers.map fun p => (names.find? p).getD "", data⟩

inductive PartData where
  | common (tiles : List UInt8)
  | versioned (first second : List UInt8)

abbrev PartTable := Table String PartData

def mergePart (t : PartTable) (e : String × List UInt8) : PartTable :=
  match t.find? e.1 with
  | some (.common tiles) => if tiles = e.2 then t else t.insert e.1 (.versioned tiles e.2)
  | some (.versioned _ _) => t
  | none => t.insert e.1 (.common e.2)

structure PartEntry where
  bank : Nat
  targets : List String
  /-- The tiles of every name; absent if no version has any. -/
  data : Option PartTable

def PartEntry.ofBanks (bank : Nat) (versions : List PartBank) : PartEntry :=
  let data := versions.flatMap PartBank.data
  { bank, targets := ((versions.head?).map PartBank.targets).getD []
    data := if data.isEmpty then none else some (data.foldl mergePart ∅) }

/-- The lines that a version defines, and the lines that all versions share. -/
structure PartLines where
  shared : List Assembly.Line := []
  versioned : List String := []

/-- Writes the pictures of a tileset and gives the constants and the source line for it. -/
def dumpPart (pictures output name : String) (data : PartData) : Job (List String × Assembly.Line) := do
  let save (name : String) (tiles : List UInt8) : Job Unit :=
    Picture.save (Path.join pictures (name ++ ".png")) tiles none none
  match data with
  | .common tiles =>
    save name tiles
    return ([], .binary (Assembly.quoted (Path.join output name ++ ".2bpp")))
  | .versioned first second =>
    save (name ++ "_" ++ Version.kabuto.name) first
    save (name ++ "_" ++ Version.kuwagata.name) second
    return ([name], .binary ("c" ++ name ++ "_GAMEVERSION"))

/-- Writes the pictures of a bank and gives its source; `index` is its place among the banks. -/
def dumpBank (pictures output : String) (index : Nat) (e : PartEntry) : Job PartLines := do
  let data ← demand e.data (.plain .key)
  let parts ← data.entries.mapM fun p => do
    let (names, line) ← dumpPart pictures output p.1 p.2
    return (names, [Assembly.Line.label p.1, line])
  return {
    shared := .place ("Partial Tilesets Table " ++ toString index) (Assembly.banked 0x4000 e.bank) ::
      .label ("PartialTilesets" ++ toString index) :: e.targets.map .word ++ [.blank] ++
      parts.flatMap Prod.snd ++ [.label (e.targets.getLastD ""), .blank]
    versioned := parts.flatMap Prod.fst }

/-- The constants of a version and the inclusion of the shared source, which has no line end. -/
def versionText (v : Version) (output shared : String) (names : List String) : String :=
  Assembly.render (names.map fun name =>
    .define ("c" ++ name ++ "_GAMEVERSION") (Path.join output (name ++ "_" ++ v.name) ++ ".2bpp")) ++
    "INCLUDE " ++ Assembly.quoted shared

/-- Writes the tilesets of the given graphics banks as pictures and source. -/
def dumpPartial (program pictures output folder : String) (banks : List Nat) : Job Unit := do
  let shared := Path.join folder "partial_tilesets_table.asm"
  let key ← Job.create shared
  let versions ← Version.all.mapM fun v => do
    let image ← Job.readFile v.image
    Job.lift (banks.zipIdx.mapM fun e => PartBank.read image e.2 e.1)
  let paths := Version.all.map fun v =>
    Path.join (Path.join folder v.name) "partial_tilesets_table.asm"
  paths.forM fun path => discard (Job.create path)
  let entries := banks.zipIdx.map fun e => PartEntry.ofBanks e.1 (versions.filterMap (·[e.2]?))
  let lines ← entries.zipIdx.mapM fun e => dumpBank pictures output e.2 e.1
  Job.append key (Assembly.render (Assembly.heading program ++ lines.flatMap PartLines.shared)).toUTF8
  let names := lines.flatMap PartLines.versioned
  for (v, path) in Version.all.zip paths do
    Job.writeText path (versionText v output shared names)

def dumpScriptsAndParts (program pictures output resources source folder : String) : Job Unit := do
  let banks ← dumpScripts program resources source
  dumpPartial program pictures output folder banks

end Cartridge.Tileset
