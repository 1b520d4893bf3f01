import Cartridge.Assembly
import Cartridge.Bytes
import Cartridge.Lettering
import Cartridge.PointerList.Spec
import Cartridge.Text.Csv
import Cartridge.Version

/-!
# Writing pointer lists

The pointer lists of both versions as text files and as source.

* `readSlots` reads the pointers of a list.  The list ends where its first entry starts; if its
  last two pointers are equal they mark empty slots.
* `readEntry` reads the fields of an entry as text, `\xHH` standing for what has no character.
* `rows` joins both versions: an entry that is the same in both gets one row, any other one for
  each version.
-/

namespace Cartridge.PointerList

/-! ### Pointers -/

inductive Slot.Stored where
  | entry (pointer : Nat)
  /-- The pointer of an earlier slot. -/
  | repeated (index : Nat)
  /-- An address in memory, and where the entry would stand. -/
  | memory (address : Nat) (pointer : Nat)
  deriving DecidableEq, Repr

/-- The slots of a list: their range, the pointer of an empty one, and those before the first
empty one. -/
structure Slots where
  count : Int
  /-- The pointer of an empty slot, or -1. -/
  empty : Int
  stored : List Slot.Stored
  deriving DecidableEq, Repr

def indexOf? (pointer : Nat) (slots : List Slot.Stored) : Option Nat :=
  slots.findIdx? (· == .entry pointer)

/-- What a pointer adds after the slots so far.  An address in memory stands in for an entry of
fixed size; in a list of other entries, or of empty ones, it is passed over. -/
def addPointer (size : Option Nat) (slots : List Slot.Stored) (pointer : Nat) :
    Except Fault (List Slot.Stored) :=
  match indexOf? pointer slots with
  | some i => .ok (slots ++ [.repeated i])
  | none =>
    if 0x7FFF < pointer then
      match size with
      | none | some 0 => .ok slots
      | some size =>
        match slots.getLast? with
        | some (.entry last) => .ok (slots ++ [.memory pointer (last + size)])
        | some _ => .error (.plain .kind)
        | none => .error (.plain .index)
    else .ok (slots ++ [.entry pointer])

/-- Reads up to `n` pointers from a position on, up to the first empty one. -/
def readStored (image : ByteArray) (size : Option Nat) (empty : Int) (pos : Nat) :
    Nat → List Slot.Stored → Except Fault (List Slot.Stored)
  | 0, slots => .ok slots
  | n + 1, slots => do
    let pointer ← Bytes.wordAt image pos
    if (pointer : Int) = empty then return slots
    else readStored image size empty (pos + 2) n (← addPointer size slots pointer)

/-- The pointer of empty slots: the last one, if it comes twice. -/
def readEmpty (image : ByteArray) (last : Nat) : Except Fault Int := do
  let a ← Bytes.wordAt image last
  let start ← Bytes.position ((last : Int) - 2)
  let b ← Bytes.wordAt image start
  return if a = b then a else -1

def readSlots (image : ByteArray) (s : Spec) : Except Fault Slots := do
  let start ← Bytes.position s.address.flat
  let first ← Bytes.wordAt image start
  let last ← Bytes.position (Address.flat ⟨s.address.bank, (first : Int) - 2⟩)
  let empty ← readEmpty image last
  let count := ((last : Int) - start) / 2 + 1
  let stored ← readStored image s.entrySize? empty start count.toNat []
  return ⟨count, empty, stored⟩

/-! ### Entries -/

structure Faces where
  letters : Charset
  kanji : Charset

def escaped (code : Nat) : List Char := '\\' :: 'x' :: (Text.Numeral.hex 2 code).toList

def showCodes (f : Faces) : List Nat → Except Fault (List Char)
  | [] => .ok []
  | 0xD3 :: rest =>
    match rest with
    | [] => .error (.plain .index)
    | code :: rest => do
      let c ← demand (f.kanji.find? code) (.plain .key)
      return c.toList ++ (← showCodes f rest)
  | code :: rest => do
    return ((f.letters.find? code).map String.toList).getD (escaped code) ++ (← showCodes f rest)

theorem showCodes_of_ne {code : Nat} (h : code ≠ 0xD3) (f : Faces) (rest : List Nat) :
    showCodes f (code :: rest) = (do
      return ((f.letters.find? code).map String.toList).getD (escaped code) ++
        (← showCodes f rest)) := by
  rw [showCodes]
  exact h

def showField (f : Faces) (spec : FieldSpec) (codes : List Nat) : Except Fault String :=
  if spec.numeric then .ok (String.ofList (codes.flatMap escaped))
  else String.ofList <$> showCodes f codes

/-- The position of the first code `stop` from a position on. -/
def stopAt? (image : ByteArray) (stop : Nat) (pos : Nat) : Option Nat :=
  if h : pos < image.size then
    if image[pos].toNat = stop then some pos else stopAt? image stop (pos + 1)
  else none
termination_by image.size - pos

/-- The codes of a field, and the position after it.  A field without codes holds its end code. -/
def readCodes (image : ByteArray) (spec : FieldSpec) (pos : Nat) : Except Fault (List Nat × Nat) :=
  match spec.size with
  | some n => do
    return (← (List.range n).mapM fun i => Bytes.byteAt image (pos + i), pos + n)
  | none => do
    let stop ← demand spec.stop (.plain .field)
    let last ← demand (stopAt? image stop pos) (.plain .field)
    let codes := (image.extract pos last).data.toList.map UInt8.toNat
    return (if codes.isEmpty then [stop] else codes, last + 1)

/-- Reads the fields of an entry up to the one that says that no further field is there. -/
def readFields (image : ByteArray) (f : Faces) (absent : Option String) (pos : Nat) :
    List FieldSpec → Except Fault (List String)
  | [] => .ok []
  | spec :: rest => do
    let (codes, pos) ← readCodes image spec pos
    let text ← showField f spec codes
    if absent = some text then return [text]
    else return text :: (← readFields image f absent pos rest)

def leadWith (lead : String) : List String → List String
  | [] => [lead]
  | field :: rest => (lead ++ field) :: rest

def readEntry (image : ByteArray) (f : Faces) (s : Spec) (slot : Slot.Stored) :
    Except Fault (List String) :=
  let fieldsAt (pointer : Nat) : Except Fault (List String) := do
    let start ← Bytes.position (Address.flat ⟨s.address.bank, pointer⟩)
    readFields image f s.absent start s.fields
  match slot with
  | .repeated i => .ok ["##=" ++ toString i]
  | .memory address pointer =>
    leadWith ("##&" ++ Text.Numeral.upperHex 4 address ++ "=") <$> fieldsAt pointer
  | .entry pointer => fieldsAt pointer

structure Dumped where
  slots : Slots
  entries : List (List String)

def Dumped.read (image : ByteArray) (f : Faces) (s : Spec) : Except Fault Dumped := do
  let slots ← readSlots image s
  return ⟨slots, ← slots.stored.mapM (readEntry image f s)⟩

/-! ### Joining versions -/

/-- The rows for an entry of which some version has the given fields. -/
def entryRows (index : Nat) (first second : Option (List String)) : List (List String) :=
  let row (v : Version) (fields : List String) : List String :=
    (toString index ++ "#" ++ v.name) :: fields
  match first, second with
  | some a, some b =>
    if String.join a = String.join b then [toString index :: a]
    else [row .kabuto a, row .kuwagata b]
  | some a, none => [row .kabuto a]
  | none, some b => [row .kuwagata b]
  | none, none => []

def rows (first second : List (List String)) : List (List String) :=
  (List.range (max first.length second.length)).flatMap fun i => entryRows i first[i]? second[i]?

def textOf (s : Spec) (slots : Slots) (rows : List (List String)) : String :=
  s.heading.render ++ "\n" ++ toString slots.count ++ "\n" ++ toString slots.empty ++ "\n" ++
    String.join ((("Index[#version]" :: s.columns) :: rows).map Text.Csv.render)

/-! ### Writing -/

structure Folders where
  source : String
  texts : String
  /-- Built texts, as the source names them. -/
  built : String

def Folders.sharedPath (f : Folders) : String := Path.join f.source "ptrlist_data.asm"

def sourceLines (s : Spec) : List Assembly.Line :=
  [.place ("Pointer List - " ++ s.name) (Assembly.smallBanked s.address.offset s.address.bank),
    .label ("PtrList" ++ s.name), .binary ("c" ++ s.name), .blank]

/-- Writes the source of a version and reads a list from its image. -/
def dumpVersion (f : Folders) (faces : Faces) (s : Spec) (v : Version) : Job Dumped := do
  Job.writeText (Path.join f.source (v.name ++ "/ptrlist_data.asm"))
    (Assembly.render [.inclusion f.sharedPath])
  let image ← Job.readFile v.image
  Job.lift (Dumped.read image faces s)

def dumpList (f : Folders) (faces : Faces) (s : Spec) : Job Unit := do
  let letters ← match s.tileset with
    | some name => Charset.ofTilesetAt name 0
    | none => pure faces.letters
  let faces := { faces with letters }
  let key ← Job.create (Path.join f.texts (s.name ++ ".txt"))
  let first ← dumpVersion f faces s .kabuto
  let second ← dumpVersion f faces s .kuwagata
  Job.appendMarked key (textOf s first.slots (rows first.entries second.entries))

def dump (f : Folders) : Job Unit := do
  let letters ← Lettering.readLetters
  let kanji ← Charset.ofTilesetAt "Kanji" 0
  let key ← Job.create f.sharedPath
  allSpecs.forM (dumpList f ⟨letters, kanji⟩)
  let constants := Path.join f.built "ptrlist_data_constants_\x7bGAMEVERSION\x7d.asm"
  Job.append key (Assembly.render
    ([.inclusion constants, .blank] ++ allSpecs.flatMap sourceLines)).toUTF8

end Cartridge.PointerList
