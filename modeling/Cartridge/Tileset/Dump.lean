import Cartridge.Assembly
import Cartridge.Charset
import Cartridge.Picture.Save
import Cartridge.Tileset.Survey
import Cartridge.Version

/-!
# Writing tilesets

The tilesets of both versions as pictures, as stored files and as source.  What is common to both
versions goes into a shared source file; a tileset whose position differs goes into that of each
version.
-/

namespace Cartridge.Tileset

structure Folders where
  pictures : String
  stored : String
  output : String
  resources : String
  source : String

structure Dump where
  folders : Folders
  names : Charset
  first : Survey
  second : Survey
  comparison : Comparison

namespace Dump

variable (d : Dump)

def survey : Version → Survey
  | .kabuto => d.first
  | .kuwagata => d.second

def aliases : Version → Option Aliases
  | .kabuto => d.comparison.first
  | .kuwagata => d.comparison.second

def nameOf (key : Nat) : Except Fault String := demand (d.names.find? key) (.plain .key)

/-- The name of a key in a table: its own, or that of the owner of `position`. -/
def listedName (key : Nat) (position : Int) : Except Fault String :=
  match d.names.find? key with
  | some name => .ok name
  | none => do d.nameOf (← demand (d.first.owners.find? position) (.plain .key))

def storedPath (name : String) : String :=
  Assembly.quoted (Path.join d.folders.output (name ++ ".malias"))

def save (name : String) (t : Decoded) : Job Unit := do
  let stored ← Job.create (Path.join d.folders.stored (name ++ ".malias"))
  Picture.save (Path.join d.folders.pictures (name ++ ".malias.png")) t.data.toList none none
  Job.append stored t.stored

def foundIn (v : Version) (key : Nat) : Except Fault Found :=
  demand ((d.survey v).found.find? key) (.plain .key)

def sectionLines (name : String) (position : Int) : Except Fault (List Assembly.Line) := do
  let a ← Address.ofFlat position
  return [.place ("Tileset Data " ++ name) (Assembly.banked a.offset a.bank), .label name]

def dataLines (name : String) (position : Int) (others : List Assembly.Line) (file : String) :
    Except Fault (List Assembly.Line) := do
  return (← sectionLines name position) ++ others ++ [.binary (d.storedPath file), .blank]

/-! ### The shared source -/

def tableLines : Except Fault (List Assembly.Line) := do
  let entries := d.first.listings.entries.zipIdx
  let names ← entries.mapM fun e => d.listedName e.1.1 e.1.2.position
  let addresses := (names.zipIdx).map fun e =>
    Assembly.Line.call "TilesetTableEntry" (e.1 ++ " ; " ++ Text.Numeral.upperHex 2 e.2 ++ " (" ++
      Text.Numeral.upperHex 4 (keyOf e.2) ++ ")")
  let info := (names.zip entries).map fun e =>
    let l := e.2.1.2
    Assembly.Line.call "dbwb" ("BANK(" ++ e.1 ++ "), " ++ Assembly.hex 4 l.target ++ ", " ++
      Assembly.hex 0 l.targetBank ++ " ; " ++ Text.Numeral.upperHex 3 e.2.2)
  return [.inclusion "game/src/common/macros.asm", .blank, .instruction "TilesetTableEntry",
      .call "TableAddressEntry" "Tileset,\\1", .endInstruction, .blank,
      .place "Tileset Source Address Table" ("ROM0[" ++ Assembly.hex 4 addressTable ++ "]"),
      .label "TilesetSourceAddressTable", .statement "TableStart"] ++
    addresses ++ [.label (← d.nameOf addressTableEnd), .blank,
      .place "Tileset Info Table" (Assembly.banked infoTable.offset infoTable.bank),
      .label "TilesetInfoTable"] ++
    info ++ [.label "TilesetInfoTableEnd", .blank, .remark "TilesetDataCommon"]

/-- Writes a tileset common to both versions and gives its source. -/
def dumpCommon (key : Nat) : Job (List Assembly.Line) := do
  let f ← Job.lift (d.foundIn .kabuto key)
  let name ← Job.lift (d.nameOf key)
  d.save name f.tiles
  Job.lift (d.dataLines name f.position [] name)

/-- Writes a tileset whose tiles differ and gives its source. -/
def dumpTiles (key : Nat) : Job (List Assembly.Line) := do
  let f ← Job.lift (d.foundIn .kabuto key)
  let name ← Job.lift (d.nameOf key)
  for v in Version.all do
    d.save (name ++ "_" ++ v.name) (← Job.lift (d.foundIn v key)).tiles
  Job.lift (d.dataLines name f.position [] (name ++ "_\x7bGAMEVERSION\x7d"))

def dumpShared : Job Unit := do
  let key ← Job.create (Path.join d.folders.source "tileset_table.asm")
  let tables ← Job.lift d.tableLines
  let common ← d.comparison.classes.common.mapM d.dumpCommon
  let tiles ← d.comparison.classes.tiles.mapM d.dumpTiles
  Job.append key (Assembly.render (tables ++ common.flatten ++ [.blank] ++ tiles.flatten)).toUTF8

/-! ### The source of a version -/

def aliasLines (v : Version) (key : Nat) : Except Fault (List Assembly.Line) := do
  let aliases ← demand (d.aliases v) (.plain .key)
  ((aliases.find? key).getD []).mapM fun other => do return .label (← d.nameOf other)

/-- Writes a tileset whose position differs as the file `file` of its name. -/
def dumpMoved (v : Version) (file : String → String) (key : Nat) : Job (List Assembly.Line) := do
  let f ← Job.lift (d.foundIn v key)
  let name ← Job.lift (d.nameOf key)
  d.save (file name) f.tiles
  let others ← Job.lift (d.aliasLines v key)
  Job.lift (d.dataLines name f.position others (file name))

/-- Writes a tileset that only one version has, unless its tiles are written already under another
name, and gives its source with the names of the tiles written. -/
def dumpMissing (v : Version) (written : Table (Array UInt8) String) (key : Nat) :
    Job (Table (Array UInt8) String × List Assembly.Line) := do
  match (d.survey v).found.find? key with
  | none => return (written, [])
  | some f =>
    let name ← Job.lift (d.nameOf key)
    let file := (written.find? f.tiles.data).getD (name ++ "_" ++ v.name)
    if !written.contains f.tiles.data then d.save file f.tiles
    let others ← Job.lift (d.aliasLines v key)
    return (written.insert f.tiles.data file, ← Job.lift (d.dataLines name f.position others file))

def dumpVersion (written : Table (Array UInt8) String) (v : Version) :
    Job (Table (Array UInt8) String) := do
  let out ← Job.create (Path.join d.folders.source (v.name ++ "/tileset_table.asm"))
  let moved ← d.comparison.classes.position.mapM (d.dumpMoved v id)
  let both ← d.comparison.classes.both.mapM (d.dumpMoved v (· ++ "_" ++ v.name))
  let (written, missing) ← d.comparison.classes.missing.foldlM (fun (written, lines) key => do
    let (written, more) ← d.dumpMissing v written key
    return (written, lines ++ more)) (written, [])
  let head : List Assembly.Line :=
    [.inclusion (Path.join d.folders.source "tileset_table.asm"), .blank]
  Job.append out (Assembly.render (head ++ moved.flatten ++ both.flatten ++ missing)).toUTF8
  return written

/-! ### Lists of names -/

/-- Writes the name and the place in video memory of every entry.  An entry without a name of its
own gets that of the last entry's tileset. -/
def dumpIndex : Job Unit := do
  let offsets ← Job.create (Path.join d.folders.resources "meta_tileset_load_offsets.tbl")
  let index ← Job.create (Path.join d.folders.resources "meta_tileset_index.tbl")
  let entries := d.first.listings.entries
  let last := ((entries.getLast?).map fun e => e.2.position).getD 0
  for (e, i) in entries.zipIdx do
    let name ← Job.lift (d.listedName e.1 last)
    let number := Text.Numeral.upperHex 3 i
    Job.append index (number ++ "=" ++ name ++ "\n").toUTF8
    Job.append offsets (number ++ "=" ++ Text.Numeral.upperHex 4 e.2.target ++ "\n").toUTF8

end Dump

def freshName (c : Classes) (key : Nat) : String :=
  "Tileset" ++ Text.Numeral.upperHex 4 key ++ if c.missing.contains key then "_GAMEVERSION" else ""

def freshNames (c : Classes) : List (Nat × String) :=
  (c.keys.mergeSort fun a b => decide (a ≤ b)).map fun key => (key, freshName c key)

/-- The names given in a file, or `none` after the file is made. -/
def readNames (path : String) : Job (Option Charset) := do
  if (← get).hasPath path then some <$> Charset.readTable path
  else
    discard (Job.create path)
    return none

/-- The names of the keys, with that of the end of the table.  New names are written to a file. -/
def chooseNames (path : String) (given : Option Charset) (c : Classes) : Job Charset := do
  let stop : Int × String := (addressTableEnd, "TilesetSourceAddressTableEnd")
  match given with
  | some names => return names.insert stop.1 stop.2
  | none =>
    let fresh := freshNames c
    Job.writeText path (String.join (fresh.map fun e =>
      Text.Numeral.upperHex 4 e.1 ++ "=" ++ e.2 ++ "\n"))
    return Table.ofList (stop :: fresh.map fun e => ((e.1 : Int), e.2))

def dump (f : Folders) : Job Unit := do
  let path := Path.join f.resources "meta_tileset_names.tbl"
  let given ← readNames path
  let first ← Job.lift (Survey.read (← Job.readFile Version.kabuto.image))
  let second ← Job.lift (Survey.read (← Job.readFile Version.kuwagata.image))
  let comparison := Comparison.ofSurveys first second
  let names ← chooseNames path given comparison.classes
  let d : Dump := { folders := f, names, first, second, comparison }
  d.dumpShared
  discard (Version.all.foldlM d.dumpVersion ∅)
  d.dumpIndex

end Cartridge.Tileset
