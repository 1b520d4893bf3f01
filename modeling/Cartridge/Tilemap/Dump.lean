import Cartridge.Assembly
import Cartridge.Charset
import Cartridge.Tilemap.Expand
import Cartridge.Tilemap.Survey
import Cartridge.Version

/-!
# Writing maps

The maps of both versions as text files and as source.  A map that is not the same in both versions
is named by a constant, which each version defines in a source file of its own.
-/

namespace Cartridge.Tilemap

/-! ### Map text -/

/-- The text of a stored map: its mode in brackets, then its cells, unpacked if they are packed. -/
def textOf (bytes : List UInt8) : Except Fault String := do
  match bytes with
  | [] => throw (.plain .index)
  | mode :: cells =>
    let cells := cells.map fun b => (b.toNat : Int)
    let cells ← if mode.toNat % 4 ≠ 0 then List.dropLast <$> unpack (cells ++ [endCell]) else pure cells
    let shown := Charset.decode (Table.ofList [(rowCell, "\n")]) cells
    return "[" ++ Text.Numeral.upperHex 0 mode.toNat ++ "]\n" ++ String.ofList shown

def writeText (folder name : String) (bytes : List UInt8) : Job Unit := do
  let key ← Job.create (Path.join folder (name ++ ".txt"))
  Job.append key (← Job.lift (textOf bytes)).toUTF8

/-! ### Names -/

structure Target where
  label : String
  texts : String
  output : String
  resources : String
  source : String

/-- The kind of map with its first letter as a capital and all others small. -/
def Target.title (t : Target) : String :=
  match t.label.toList with
  | [] => ""
  | c :: rest => String.ofList (c.toUpper :: rest.map Char.toLower)

def Target.mapPath (t : Target) (name : String) : String := Path.join t.output (name ++ ".map")

def MapId.text (id : MapId) : String :=
  Text.Numeral.upperHex 2 id.table ++ "_" ++ Text.Numeral.upperHex 2 id.index

/-- The name of a map without a given one: its identity without its first underscore. -/
def plainName (identity : String) : String :=
  let (a, b) := Text.splitFirst '_' identity.toList
  String.ofList (a ++ b.getD [])

/-! ### Tables -/

inductive Block where
  | file (name path : String)
  | constant (name : String)

def Block.lines (t : Target) : Block → List Assembly.Line
  | .file name path => [.label (t.title ++ name), .binary (Assembly.quoted path)]
  | .constant name => [.label (t.title ++ name), .binary ("c" ++ t.title ++ name)]

structure Progress where
  files : Table String String := ∅
  /-- The constants of each version, with the files that they name. -/
  first : Table String String := ∅
  second : Table String String := ∅
  table : Option Nat := none
  blocks : List Block := []
  lines : List Assembly.Line := []

def endName (table : Nat) : String := "Table" ++ Text.Numeral.upperHex 2 table ++ "Terminator"

/-- The blocks of the table at hand and its end. -/
def Progress.closing (t : Target) (p : Progress) : List Assembly.Line :=
  p.blocks.flatMap (Block.lines t) ++
    p.table.toList.map (fun n => .label (t.title ++ endName n)) ++ [.blank]

def Progress.startTable (t : Target) (tables : List Address) (table : Nat) (p : Progress) : Progress :=
  let a := tables[table]?.getD default
  let number := Text.Numeral.upperHex 2 table
  { p with
    table := some table, blocks := []
    lines := p.lines ++ p.closing t ++
      [.place (t.title ++ " Table " ++ number) (Assembly.banked a.offset a.bank),
        .label (t.title ++ "Table" ++ number)] }

structure Versions where
  first : Survey
  second : Survey
  ids : List MapId

def Versions.survey (vs : Versions) : Version → Survey
  | .kabuto => vs.first
  | .kuwagata => vs.second

def Progress.addFile (t : Target) (names : Table String String) (identity : String)
    (bytes : List UInt8) (p : Progress) : Job (String × Progress) := do
  let name := (names.find? identity).getD (plainName identity)
  writeText t.texts name bytes
  return (name, { p with files := p.files.insert identity name })

def Progress.define (v : Version) (constant file : String) (p : Progress) : Progress :=
  match v with
  | .kabuto => { p with first := p.first.insert constant file }
  | .kuwagata => { p with second := p.second.insert constant file }

def fileOf (vs : Versions) (v : Version) (id : MapId) (p : Progress) : Except Fault String :=
  let identity := if vs.ids.contains id then id.text ++ "_" ++ v.name else id.text
  demand (p.files.find? identity) (.plain .key)

/-- Adds what a version has for a map that is not the same in all. -/
def Progress.addVersion (t : Target) (names : Table String String) (vs : Versions) (id : MapId)
    (p : Progress) (v : Version) : Job Progress := do
  let constant := id.text ++ "_GAMEVERSION"
  match (vs.survey v).copies.find? id with
  | some source => return p.define v constant (← Job.lift (fileOf vs v source p))
  | none =>
    let held ← demand ((vs.survey v).held.find? id) (.plain .key)
    match held.bytes with
    | none => return p
    | some bytes =>
      let (name, p) ← p.addFile t names (id.text ++ "_" ++ v.name) bytes
      return p.define v constant name

def Progress.addPointer (t : Target) (name note : String) (p : Progress) : Progress :=
  { p with lines := p.lines ++ [.notedWord (t.title ++ name) note] }

def Progress.addBlock (t : Target) (block : Block) (name note : String) (p : Progress) : Progress :=
  { p with blocks := p.blocks ++ [block] }.addPointer t name note

def Progress.add (t : Target) (names : Table String String) (tables : List Address) (vs : Versions)
    (p : Progress) (e : MapId × Held) : Job Progress := do
  let id := e.1
  let p := if p.table = some id.table then p else p.startTable t tables id.table
  let note := Text.Numeral.upperHex 2 id.index
  if vs.ids.contains id then
    let constant := id.text ++ "_GAMEVERSION"
    let p ← Version.all.foldlM (Progress.addVersion t names vs id) p
    return p.addBlock t (.constant constant) constant note
  else match vs.first.copies.find? id, e.2.position, e.2.bytes with
    | some source, none, none => return p.addPointer t source.text (note ++ " (" ++ id.text ++ ")")
    | some source, _, _ =>
      let file ← demand (p.files.find? source.text) (.plain .key)
      return p.addBlock t (.file id.text (t.mapPath file)) id.text note
    | none, _, some bytes =>
      let (name, p) ← p.addFile t names id.text bytes
      return p.addBlock t (.file id.text (t.mapPath name)) id.text note
    | none, _, none => return p.addPointer t (endName id.table) note

def Target.sharedPath (t : Target) : String := Path.join t.source (t.label ++ "_table.asm")

/-- The source of a version: its constants and the shared source. -/
def versionLines (t : Target) (constants : Table String String) : List Assembly.Line :=
  constants.entries.map (fun e => .define ("c" ++ t.title ++ e.1) (t.mapPath e.2)) ++
    [.blank, .inclusion t.sharedPath]

def readNames (path : String) : Job (Option (Table String String)) := do
  if (← get).hasPath path then some <$> Charset.readNames path
  else
    discard (Job.create path)
    return none

/-- Writes the maps of both versions; the banks and addresses of the tables are listed at the
positions `banks` and `addresses`. -/
def dump (t : Target) (banks addresses count : Int) : Job Unit := do
  let path := Path.join t.resources ("meta_" ++ t.label ++ "_files.tbl")
  let given ← readNames path
  let names := given.getD ∅
  let tables ← Job.lift (readTables (← Job.readFile Version.kabuto.image) banks addresses count)
  let first ← Job.lift (Survey.read (← Job.readFile Version.kabuto.image) tables)
  let second ← Job.lift (Survey.read (← Job.readFile Version.kuwagata.image) tables)
  let differs ← Job.lift (differing first second)
  let ids ← Job.lift (versionedIds first second)
  let vs : Versions := ⟨first, second.without differs, ids⟩
  let key ← Job.create t.sharedPath
  let p ← first.held.entries.foldlM (Progress.add t names tables vs) {}
  let head : List Assembly.Line := [.inclusion "game/src/common/macros.asm"]
  Job.append key (Assembly.render (head ++ p.lines ++ p.closing t)).toUTF8
  for v in Version.all do
    let constants := match v with
      | .kabuto => p.first
      | .kuwagata => p.second
    Job.writeText (Path.join t.source (v.name ++ "/" ++ t.label ++ "_table.asm"))
      (Assembly.render (versionLines t constants))
  if given.isNone then
    Job.writeText path (String.join (p.files.entries.map fun e => e.1 ++ "=" ++ e.2 ++ "\n"))

end Cartridge.Tilemap
