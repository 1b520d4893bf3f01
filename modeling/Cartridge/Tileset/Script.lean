import Cartridge.Assembly
import Cartridge.Charset
import Cartridge.PointerTable
import Cartridge.Version

/-!
# Tileset scripts

A tileset script is a list of commands that load tiles: a byte for the kind of command and its
operands, or, without such a byte, two operands of a command that renders tiles.  A script ends
with the first end command.
-/

namespace Cartridge.Tileset

/-! ### Commands -/

inductive Opcode where
  | setVideoBank
  | runPreset
  | setGraphicsBank
  | setVideoIndex
  | finish
  | render
  deriving DecidableEq, Repr, Inhabited

namespace Opcode

def all : List Opcode := [setVideoBank, runPreset, setGraphicsBank, setVideoIndex, finish, render]

def name : Opcode → String
  | setVideoBank => "TilesetSetVRAMBank"
  | runPreset => "TilesetRunPreset"
  | setGraphicsBank => "TilesetSetGraphicsBank"
  | setVideoIndex => "TilesetSetVRAMIndex"
  | finish => "TilesetEnd"
  | render => "TilesetRender"

def code? : Opcode → Option Nat
  | setVideoBank => some 0xFB
  | runPreset => some 0xFC
  | setGraphicsBank => some 0xFD
  | setVideoIndex => some 0xFE
  | finish => some 0xFF
  | render => none

def operandCount : Opcode → Nat
  | finish => 0
  | render => 2
  | _ => 1

def ofByte (b : Nat) : Opcode := (all.find? fun op => op.code? == some b).getD render

def definition (op : Opcode) : List Assembly.Line :=
  .instruction op.name ::
    op.code?.toList.map (fun (b : Nat) => .bytes [Assembly.hex 2 b]) ++
    (List.range op.operandCount).map (fun i => .bytes ["\\" ++ toString (i + 1)]) ++
    [.endInstruction, .blank]

end Opcode

structure Command where
  op : Opcode
  operands : List Nat
  deriving DecidableEq, Repr

def Command.line (c : Command) : Assembly.Line :=
  .call c.op.name (String.intercalate "," (c.operands.map fun (n : Nat) => Assembly.hex 2 n))

def readScript (image : ByteArray) (pos : Nat) : Except Fault (List Command) :=
  if h : pos < image.size then
    let b := image[pos].toNat
    match Opcode.ofByte b with
    | .finish => .ok [⟨.finish, []⟩]
    | op => do
      let operand ← Bytes.byteAt image (pos + 1)
      let operands := if op = .render then [b, operand] else [operand]
      return ⟨op, operands⟩ :: (← readScript image (pos + 2))
  else .error (.plain .field)
termination_by image.size - pos

def graphicsBanks (commands : List Command) : List Nat :=
  ((commands.filter (·.op = .setGraphicsBank)).flatMap Command.operands).eraseDups

/-! ### Tables of scripts -/

def scriptTables : List Address := [⟨0x2E, 0x4000⟩, ⟨0x63, 0x4000⟩]

inductive ScriptNames where
  | given (names : Table String String)
  | fresh
  deriving Inhabited

def ScriptNames.nameOf (names : ScriptNames) (id : String) : Except Fault String :=
  match names with
  | .given names => demand (names.find? id) (.plain .key)
  | .fresh => .ok ("TilesetScript" ++ id)

structure NamedScript where
  id : String
  name : String
  commands : List Command

/-- A table of scripts: the names that its pointers lead to, and each script once. -/
structure ScriptTable where
  targets : List String := []
  scripts : List NamedScript := []
  known : Table Nat String := ∅

/-- Adds a pointer to a table; the first one to an address brings its script. -/
def ScriptTable.add (image : ByteArray) (names : ScriptNames) (table : Nat) (bank : Int)
    (t : ScriptTable) (pointer : Nat × Nat) : Except Fault ScriptTable :=
  match t.known.find? pointer.1 with
  | some name => .ok { t with targets := t.targets ++ [name] }
  | none => do
    let id := Text.Numeral.upperHex 2 table ++ "_" ++ Text.Numeral.upperHex 4 pointer.2
    let start ← Bytes.position (Address.flat ⟨bank, pointer.1⟩)
    let name ← names.nameOf id
    let commands ← readScript image start
    return { targets := t.targets ++ [name], scripts := t.scripts ++ [⟨id, name, commands⟩]
             known := t.known.insert pointer.1 name }

def ScriptTable.read (image : ByteArray) (names : ScriptNames) (table : Nat) (a : Address) :
    Except Fault ScriptTable := do
  (← PointerTable.read image a).zipIdx.foldlM (ScriptTable.add image names table a.bank) {}

def ScriptTable.lines (t : ScriptTable) (table : Nat) (a : Address) : List Assembly.Line :=
  .place ("Tileset Script Table " ++ toString table) (Assembly.banked a.offset a.bank) ::
    .label ("TilesetScripts" ++ toString table) ::
    t.targets.map .word ++ [.blank] ++
    t.scripts.flatMap fun s => .label s.name :: s.commands.map Command.line ++ [.blank]

/-- Reads the names of the scripts, or starts a new file of names. -/
def readScriptNames (path : String) : Job ScriptNames := do
  if (← get).hasPath path then return .given (← Charset.readNames path)
  else
    discard (Job.create path)
    return .fresh

/-- Writes the scripts of the second version as source, and gives the graphics banks that they
name. -/
def dumpScripts (program resources source : String) : Job (List Nat) := do
  let namesPath := Path.join resources "meta_tileset_script_names.tbl"
  let names ← readScriptNames namesPath
  let key ← Job.create (Path.join source "tileset_scripts.asm")
  let image ← Job.readFile Version.kuwagata.image
  let tables ← scriptTables.zipIdx.mapM fun e => Job.lift (ScriptTable.read image names e.2 e.1)
  let lines := (scriptTables.zip tables).zipIdx.flatMap fun e => e.1.2.lines e.2 e.1.1
  Job.append key (Assembly.render
    (Assembly.heading program ++ Opcode.all.flatMap Opcode.definition ++ lines)).toUTF8
  let scripts := tables.flatMap ScriptTable.scripts
  match names with
  | .fresh => Job.writeText namesPath (String.join (scripts.map fun s => s.id ++ "=" ++ s.name ++ "\n"))
  | .given _ => pure ()
  return graphicsBanks (scripts.flatMap NamedScript.commands)

end Cartridge.Tileset
