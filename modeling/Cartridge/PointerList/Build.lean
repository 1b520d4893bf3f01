import Cartridge.Bytes
import Cartridge.PointerList.Field
import Cartridge.PointerList.Heading
import Cartridge.Text.Csv

/-!
# Building pointer lists

A pointer list is a heading, the number of its slots, the pointer of an empty slot, a line of labels
and its entries, each an index and fields.  It becomes one file: these numbers, the offset and
length of each entry as words in the order of the indices, and the entries in the order of the
list.

An entry may repeat the pointer of another (`##=index`), or have an address of its own
(`##&address`), with the first field of its data after an equals sign if it has data.
-/

namespace Cartridge.PointerList

structure Layout where
  text : Array UInt8
  offsets : Table Int Int := ∅
  lengths : Table Int Nat := ∅
  deriving DecidableEq

/-- The index of a row; `none` if the row is for another version. -/
def indexFor (version : String) (cell : String) : Except Fault (Option Int) :=
  let index (s : String) : Except Fault (Option Int) :=
    some <$> demand (Text.readDecimal? s) (.plain .value)
  match Text.parts '#' cell with
  | s :: v :: _ => if v = version then index s else .ok none
  | s :: _ => index s
  | [] => index cell

inductive Slot where
  | repeated (index : Int)
  /-- An address, and the fields of the data if there are any. -/
  | fixed (address : Int) (fields : Option (List String))
  | own (fields : List String)
  deriving DecidableEq, Repr

/-- Reads the fields of a row, of which there is at least one. -/
def Slot.ofFields (fields : List String) : Except Fault Slot := do
  let first ← demand fields.head? (.plain .index)
  if first.startsWith "##=" then
    let index ← demand (Text.parts '=' first)[1]? (.plain .index)
    return .repeated (← demand (Text.readDecimal? index) (.plain .value))
  else if first.startsWith "##&" then
    let info := Text.parts '=' first
    let address ← demand (Text.readHex? (Text.stripLeftOf "#&" (info.headD ""))) (.plain .value)
    return .fixed address (info[1]?.map fun field => field :: fields.drop 1)
  else return .own fields

/-- The stored form of the fields of an entry, the first one being field `i`. -/
def encodeFields (h : Heading) (l : Lettering) (i : Nat) : List String → Job (List UInt8)
  | [] => return []
  | field :: rest => do
    let text := Text.trim (fun c => c == '\r' || c == '\n') field.toList
    let stop ← Job.lift (h.ends.get i)
    let size ← Job.lift (h.sizes.get i)
    match encodeField l text stop size with
    | .ok bytes => return bytes ++ (← encodeFields h l (i + 1) rest)
    | .error (.fault f) => throw f
    | .error (.tooLong codes size) =>
      Job.say (Value.list codes).render
      throw (.noted .refused (String.ofList text ++ " is too long (" ++ toString codes.length ++
        " > " ++ size.display ++ ")"))

def addFields (h : Heading) (l : Lettering) (layout : Layout) (index offset : Int)
    (fields : List String) : Job Layout := do
  let bytes ← encodeFields h l 0 fields
  return { text := layout.text ++ bytes.toArray, offsets := layout.offsets.insert index offset
           lengths := layout.lengths.insert index bytes.length }

/-- Checks that an entry has all its fields, or stands for an absent one. -/
def checkFields (h : Heading) (path : String) (index : Int) (fields : List String) :
    Except Fault Unit := do
  if !h.fields.isInt fields.length then
    let first ← demand fields.head? (.plain .index)
    require ((Value.text first).same h.absent) (.noted .check
      ("Index " ++ toString index ++ " in " ++ path ++ " does not have enough entries (" ++
        toString fields.length ++ "/" ++ h.fields.display ++ ")"))

/-- Adds what a row says to the layout; `path` names the list. -/
def addRow (h : Heading) (l : Lettering) (path version : String) (layout : Layout)
    (row : List String) : Job Layout := do
  let cell ← demand row.head? (.plain .index)
  match ← Job.lift (indexFor version cell) with
  | none => return layout
  | some index =>
    let fields := row.drop 1
    Job.lift (checkFields h path index fields)
    match ← Job.lift (Slot.ofFields fields) with
    | .repeated other =>
      let offset ← demand (layout.offsets.find? other) (.plain .key)
      return { layout with offsets := layout.offsets.insert index offset
                           lengths := layout.lengths.insert index 0 }
    | .fixed address fields =>
      Job.say (toString address)
      match fields with
      | none => return { layout with offsets := layout.offsets.insert index address }
      | some fields => addFields h l layout index address fields
    | .own fields => addFields h l layout index layout.text.size fields

def Layout.spans (l : Layout) : Except Fault (List (Int × Nat)) :=
  (l.offsets.keys.mergeSort fun a b => decide (a ≤ b)).mapM fun k => do
    let offset ← demand (l.offsets.find? k) (.plain .key)
    let length ← demand (l.lengths.find? k) (.plain .key)
    return (offset, length)

def byteField (v : Value) : Except Fault UInt8 := v.toByte.mapError fun _ => .plain .field

/-- The lettering of a list: its own tileset takes the place of the letters. -/
def letteringOf (h : Heading) (default : Lettering) : Job Lettering := do
  if h.tileset.isTrue then
    let set ← Charset.ofTilesetAt h.tileset.display 0
    return { default with letters := set.swap }
  else return default

structure Body where
  slots : Int
  empty : Int
  rows : List (List String)
  deriving DecidableEq

def numberIn (line : List Char) : Except Fault Int :=
  demand (Text.Numeral.read? 10 (Text.trim Text.isBlank line)) (.plain .value)

/-- Reads what stands after the heading; the labels are passed over. -/
def Body.read (lines : List (List Char)) : Except Fault Body := do
  let slots ← numberIn (lines.headD [])
  let empty ← numberIn ((lines.drop 1).headD [])
  require (2 < lines.length) (.plain .exhausted)
  return ⟨slots, empty, Text.Csv.parse (lines.drop 3).flatten⟩

def layOut (h : Heading) (l : Lettering) (path version : String) (rows : List (List String)) :
    Job Layout := do
  let lead ← Job.lift (if h.lead.isTrue then h.lead.toBytes else .ok [])
  rows.foldlM (addRow h l path version) { text := lead.toArray }

/-- A layout as it is stored: the number of its entries, the offset and length of each, and the
entries. -/
def Layout.stored (l : Layout) : Except Fault ByteArray := do
  let spans ← l.spans
  let table ← Bytes.words (spans.flatMap fun s => [s.1, (s.2 : Int)])
  let count ← Bytes.word spans.length
  return ⟨(count ++ table).toArray ++ l.text⟩

/-- The pointer of an empty slot as it is stored. -/
def Body.emptyWord (b : Body) : Int := if b.empty = -1 then 0xFFFF else b.empty

/-- The pieces of the finished file: the kind of the list, its slots, the pointer of an empty one,
and the entries. -/
def pieces (h : Heading) (body : Body) (layout : Layout) : List (Except Fault ByteArray) :=
  [(fun b => ⟨#[b]⟩) <$> byteField h.general, (⟨·.toArray⟩) <$> Bytes.word body.slots,
    (⟨·.toArray⟩) <$> Bytes.word body.emptyWord, layout.stored]

/-- Writes the finished file; it is emptied before its pieces are looked at. -/
def write (output : String) (h : Heading) (body : Body) (layout : Layout) : Job Unit := do
  let key ← Job.create output
  Job.fill key (pieces h body layout)

/-- Builds a pointer list, set in the lettering `default`, for a version. -/
def build (default : Lettering) (output input version : String) : Job Unit := do
  let lines := Text.lines (← Job.readMarkedText input)
  let h ← Job.lift (Heading.read (lines.headD []))
  let l ← letteringOf h default
  Job.lift (h.check input)
  let body ← Job.lift (Body.read (lines.drop 1))
  let layout ← layOut h l input version body.rows
  write output h body layout

end Cartridge.PointerList
