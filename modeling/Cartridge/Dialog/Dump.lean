import Cartridge.Assembly
import Cartridge.Dialog.Merge
import Cartridge.Lettering
import Cartridge.Text.Csv

/-!
# Writing dialog

The dialog of both versions as sheets and as source.  The names of inserted texts are read from a
list, to which new names are added.
-/

namespace Cartridge.Dialog

structure Folders where
  resources : String
  source : String
  sheets : String
  built : String

/-! ### Names -/

def nameLine (line : List Char) : Except Fault (Int × String) := do
  match Text.splitOn '=' (Text.trim Text.isBlank line) with
  | [name, address] =>
    let address ← demand (Text.Numeral.read? 16 address) (.plain .value)
    return (address, String.ofList name)
  | _ => throw (.plain .value)

def parseNames (text : List Char) : Except Fault Names := do
  return { known := Table.ofList (← (Text.lines text).mapM nameLine) }

def nameText (added : List (String × Nat)) : String :=
  String.join (added.map fun e => e.1 ++ "=" ++ Text.Numeral.markedHex e.2 ++ "\n")

/-! ### Source -/

def sectionTitle (i : Nat) : String := "TextSection" ++ Text.Numeral.decimal 2 i

def sectionLines (i : Nat) (a : Address) : List Assembly.Line :=
  [.place (sectionTitle i) (Assembly.smallBanked a.offset a.bank), .localLabel (sectionTitle i),
    .binary ("c" ++ sectionTitle i), .blank]

/-- The numbers of the sections whose addresses differ between versions. -/
def movedSections (first second : List Address) : List Nat :=
  ((first.zip second).zipIdx.filter fun e => e.1.1 != e.1.2).map Prod.snd

/-- The lines of the addresses, `f` giving those of section `i` of those that exist. -/
def listLines (absent : Assembly.Line) (f : Nat → Assembly.Line) (i : Nat) :
    List Address → List Assembly.Line
  | [] => []
  | a :: rest =>
    if a.bank = 0 then absent :: listLines absent f i rest
    else f i :: listLines absent f (i + 1) rest

def sharedLines (f : Folders) (addresses : List Address) (moved : List Nat) : List Assembly.Line :=
  let base := Text.Numeral.hex 4 bankList
  .inclusion (Path.join f.built "text_table_constants_\x7bGAMEVERSION\x7d.asm") :: .blank ::
    ((present addresses).zipIdx.filter fun e => !moved.contains e.2).flatMap
      (fun e => sectionLines e.2 e.1) ++
    [.place "Dialog Text Tables" ("ROM0[$" ++ base ++ "]"),
      .notedLabel "TextTableBanks" ("0x" ++ base)] ++
    listLines (.bytes ["$00"]) (fun i => .bytes ["BANK(" ++ sectionTitle i ++ ")"]) 0 addresses ++
    [.blank, .label "TextTableOffsets"] ++
    listLines (.word "$4000") (fun i => .word (sectionTitle i)) 0 addresses

def versionLines (f : Folders) (addresses : List Address) (moved : List Nat) : List Assembly.Line :=
  .inclusion (Path.join f.source "text_tables.asm") :: .blank ::
    moved.flatMap fun i => sectionLines i (addresses[i]?.getD default)

/-! ### Writing -/

def writeSheet (f : Folders) (places : List Place) (i : Nat) : Job Unit := do
  let key ← Job.create (Path.join f.sheets (sectionTitle i ++ ".csv"))
  let rows ← Job.lift (sheetRows places)
  Job.appendMarked key (String.join (rows.map Text.Csv.render))

/-- Reads the names of inserted texts; the list is made if there is none. -/
def openNames (path : String) : Job Unit := do
  if !(← get).hasPath path then discard (Job.create path)

def dump (f : Folders) : Job Unit := do
  let namesPath := Path.join f.resources "ptrs.tbl"
  openNames namesPath
  let letters ← Lettering.readLetters
  let kanji ← Charset.ofTilesetAt "Kanji" 0
  let portraits ← Charset.readTable (Path.join f.resources "portraits.tbl")
  let font : Font := ⟨letters, kanji, portraits⟩
  let names ← Job.lift (parseNames (← Job.readText namesPath))
  let (first, names) ←
    Job.lift (Survey.read font (← Job.readFile Version.kabuto.image) (fun _ _ => .ok ()) names)
  let (second, names) ←
    Job.lift (Survey.read font (← Job.readFile Version.kuwagata.image) (checkAgainst first) names)
  let sheets ← Job.lift (mergeSections first.sections second.sections)
  for (places, i) in sheets.zipIdx do
    writeSheet f places i
  let moved := movedSections first.addresses second.addresses
  Assembly.write (Path.join f.source "text_tables.asm") (.ok (sharedLines f first.addresses moved))
  Assembly.write (Path.join f.source "kabuto/text_tables.asm")
    (.ok (versionLines f first.addresses moved))
  Assembly.write (Path.join f.source "kuwagata/text_tables.asm")
    (.ok (versionLines f second.addresses moved))
  Job.writeFile namesPath ((← Job.readFile namesPath) ++ (nameText names.added).toUTF8)

end Cartridge.Dialog
