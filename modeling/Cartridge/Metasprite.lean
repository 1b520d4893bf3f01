import Cartridge.Assembly
import Cartridge.PointerTable
import Cartridge.Version

/-!
# Metasprites

A metasprite is a group of sprites that move as one.  The image lists tables of them, by bank and
address; a table is a list of pointers, which ends where the first metasprite starts, and the
metasprites follow.
-/

namespace Cartridge.Metasprite

/-- A metasprite: how many of its sprites are used, and the five numbers of every sprite. -/
structure Shape where
  used : Nat
  sprites : List (List Nat)
  deriving DecidableEq, Repr

inductive Slot where
  | tableEnd
  | repeated (index : Nat)
  | shape (s : Shape)
  deriving DecidableEq, Repr

inductive Choice where
  | common (s : Slot)
  | versioned (first second : Slot)
  deriving DecidableEq, Repr

abbrev Tables := Table Address (List Choice)

/-! ### Reading -/

def bankList : Nat := 0x637

def addressList : Nat := 0x63F

def tableCount : Nat := addressList - bankList

def readAddresses (image : ByteArray) : Except Fault (List Address) := do
  let banks ← (List.range tableCount).mapM fun i => Bytes.byteAt image (bankList + i)
  let bases ← Bytes.wordsAt image addressList tableCount
  return (banks.zip bases).map fun e => ⟨e.1, e.2⟩

/-- The pointer that marks the end of the metasprites: the last one, if it comes twice. -/
def endPointer (pointers : List Nat) : Except Fault (Option Nat) :=
  match pointers.reverse with
  | last :: before :: _ => .ok (if last = before then some last else none)
  | _ => .error (.plain .index)

def readSprites (image : ByteArray) (pos : Nat) : Nat → Except Fault (List (List Nat))
  | 0 => .ok []
  | n + 1 => do
    let sprite ← (List.range 5).mapM fun i => Bytes.byteAt image (pos + i)
    return sprite :: (← readSprites image (pos + 5) n)

/-- The number of sprites that fit between a pointer and the next one. -/
def roomFor (pointer : Nat) (next : Option Nat) : Except Fault Int := do
  let next ← demand next (.plain .index)
  return ((next : Int) - pointer) / 5

/-- The slot of a pointer.  The room up to the next pointer tells the number of sprites; without
room it is the number in use. -/
def readSlot (image : ByteArray) (bank : Int) (stop : Option Nat) (seen : Table Nat Nat)
    (pointer : Nat) (next : Option Nat) : Except Fault Slot := do
  let start ← Bytes.position (Address.flat ⟨bank, pointer⟩)
  let room ← if stop = some pointer then pure 0 else roomFor pointer next
  let used ← Bytes.byteAt image start
  match seen.find? pointer with
  | some index => return .repeated index
  | none =>
    if stop = some pointer then return .tableEnd
    else
      let count := if room = 0 then used else room.toNat
      return .shape ⟨used, ← readSprites image (start + 1) count⟩

def Choice.merge (known : Option Choice) (s : Slot) : Except Fault Choice :=
  match known with
  | none => .ok (.common s)
  | some (.common t) => .ok (if t = s then .common t else .versioned t s)
  | some (.versioned _ _) => .error (.noted .nothingPending "No active exception to reraise")

def remember (seen : Table Nat Nat) (pointer index : Nat) : Slot → Table Nat Nat
  | .shape _ => seen.insert pointer index
  | _ => seen

def readChoices (image : ByteArray) (bank : Int) (stop : Option Nat) (known : List Choice)
    (seen : Table Nat Nat) (index : Nat) : List Nat → Except Fault (List Choice)
  | [] => .ok []
  | pointer :: rest => do
    let slot ← readSlot image bank stop seen pointer rest.head?
    let choice ← Choice.merge known[index]? slot
    let seen := remember seen pointer index slot
    return choice :: (← readChoices image bank stop known seen (index + 1) rest)

/-- Reads a table, which has to be as long as in the version before. -/
def readTable (image : ByteArray) (known : Tables) (a : Address) : Except Fault Tables := do
  let pointers ← PointerTable.read image a
  let stop ← endPointer pointers
  let old := known.find? a
  match old with
  | some choices =>
    require (pointers.length = choices.length) (.noted .check
      (toString pointers.length ++ " != " ++ toString choices.length ++
        ", versions have different number of metasprites"))
  | none => pure ()
  return known.insert a (← readChoices image a.bank stop (old.getD []) ∅ 0 pointers)

def readTables (image : ByteArray) (known : Tables) : Except Fault Tables := do
  (← readAddresses image).foldlM (readTable image) known

/-! ### Writing -/

def number (n : Nat) : String := Text.Numeral.upperHex 2 n

def tableLabel (table : Nat) : String := "MetaspriteTable" ++ number table

def endLabel (table : Nat) : String := tableLabel table ++ "End"

def shapeLabel (table index : Nat) : String := "Metasprite" ++ number table ++ number index

def target (table index : Nat) : Choice → String
  | .common .tableEnd => endLabel table
  | .common (.repeated i) => shapeLabel table i
  | _ => shapeLabel table index

def shapeLines (s : Shape) : List Assembly.Line :=
  ([s.used] :: s.sprites).map fun ns => .bytes (ns.map fun (n : Nat) => Assembly.hex 2 n)

/-- The numbers of a metasprite of one version, which has to be one there. -/
def versionLines (v : Version) (s : Slot) : Except Fault (List Assembly.Line) :=
  match s with
  | .shape s => .ok (.onlyFor v.name :: shapeLines s ++ [.endOnly])
  | _ => .error (.plain .kind)

/-- The definitions of the metasprites from `index` on, up to the end of the table. -/
def definitions (table index : Nat) : List Choice → Except Fault (List Assembly.Line)
  | [] => .ok []
  | .common .tableEnd :: _ => .ok [.label (endLabel table)]
  | .common (.repeated _) :: rest => definitions table (index + 1) rest
  | .common (.shape s) :: rest => do
    return .label (shapeLabel table index) :: shapeLines s ++ (← definitions table (index + 1) rest)
  | .versioned a b :: rest => do
    let first ← versionLines .kabuto a
    let second ← versionLines .kuwagata b
    return .label (shapeLabel table index) :: first ++ second ++
      (← definitions table (index + 1) rest)

def tableLines (program : String) (table : Nat) (a : Address) (choices : List Choice) :
    Except Fault (List Assembly.Line) := do
  let head := Assembly.heading program ++
    [.place ("Metasprite Table " ++ number table) (Assembly.banked a.offset a.bank),
      .label (tableLabel table)]
  let pointers := choices.zipIdx.map fun e => Assembly.Line.word (target table e.2 e.1)
  return head ++ pointers ++ (← definitions table 0 choices)

def tablePath (folder : String) (table : Nat) : String :=
  Path.join folder ("metasprites" ++ number table ++ ".asm")

def dump (program folder : String) : Job Unit := do
  let tables ← Version.all.foldlM (fun known v => do
    let image ← Job.readFile v.image
    Job.lift (readTables image known)) (∅ : Tables)
  let paths := (List.range tables.size).map (tablePath folder)
  for v in Version.all do
    Assembly.write (Path.join (Path.join folder v.name) "metasprites.asm")
      (.ok (Assembly.heading program ++ paths.map .inclusion))
  for (e, i) in tables.entries.zipIdx do
    Assembly.write (tablePath folder i) (tableLines program i e.1 e.2)

end Cartridge.Metasprite
