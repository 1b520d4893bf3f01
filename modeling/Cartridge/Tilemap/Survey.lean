import Cartridge.Address
import Cartridge.Bytes
import Cartridge.Table

/-!
# Surveys of maps

Maps stand in several tables of an image, each a list of pointers followed by the maps.  A map
reaches up to its end mark, or further if the next pointer leaves more room.  The last pointer of a
table may mark the end of the maps; it does so if it comes twice, or if what it leads to reaches
beyond the bank.

* `Survey.read` reads all maps of an image.  A map that was met before is recorded as a copy, with
  a position of its own if it is stored again.
* `versionedIds` are the maps that are not the same in two versions.
-/

namespace Cartridge.Tilemap

structure MapId where
  table : Nat
  index : Nat
  deriving DecidableEq, Repr, Inhabited

/-- What is recorded of a map: where it is stored on its own, and its bytes if they are new. -/
structure Held where
  position : Option Int := none
  bytes : Option (List UInt8) := none
  deriving DecidableEq, Repr, Inhabited

structure Survey where
  held : Table MapId Held := ∅
  copies : Table MapId MapId := ∅

/-! ### Reading -/

/-- The pointers of a table, which ends where the target of the first one starts. -/
def readTable (image : ByteArray) (a : Address) : Except Fault (List Nat) := do
  let start ← Bytes.position a.flat
  let first ← Bytes.wordAt image start
  let stop := (Address.flat ⟨a.bank, first⟩).toNat
  return first :: (← Bytes.wordsAt image (start + 2) ((stop - (start + 2) + 1) / 2))

def endMark? (image : ByteArray) (pos : Nat) : Option Nat :=
  if h : pos < image.size then
    if image[pos] = 0xFF then some pos else endMark? image (pos + 1)
  else none
termination_by image.size - pos

def bytesToEnd (image : ByteArray) (pos : Nat) : Except Fault (List UInt8) := do
  let stop ← demand (endMark? image pos) (.plain .field)
  return (image.extract pos stop).data.toList

/-- The bytes of a map that has `room` bytes up to the next one. -/
def readMap (image : ByteArray) (pos : Nat) (room : Int) : Except Fault (List UInt8) := do
  let bytes ← bytesToEnd image pos
  if room ≤ bytes.length then return bytes
  else
    let from_ := pos + bytes.length + 1
    let more := (room - bytes.length - 1).toNat
    if from_ + more ≤ image.size ∨ more = 0 then
      return bytes ++ 0xFF :: (image.extract from_ (from_ + more)).data.toList
    else throw (.plain .field)

def Survey.find? (s : Survey) (bytes : List UInt8) : Option (MapId × Held) :=
  s.held.entries.find? fun e => e.2.bytes == some bytes

def Survey.record (s : Survey) (id : MapId) (position : Int) (bytes : List UInt8) : Survey :=
  let before : MapId := ⟨id.table, id.index - 1⟩
  if id.index ≠ 0 ∧ (s.held.find? before).bind Held.position = some position then
    { held := s.held.insert id {}, copies := s.copies.insert id before }
  else
    match s.find? bytes with
    | some (other, held) =>
      let own := if held.position = some position then {} else { position := some position }
      { held := s.held.insert id own, copies := s.copies.insert id other }
    | none => { s with held := s.held.insert id { position := some position, bytes := some bytes } }

/-- Records the maps of a table from the index `index` on; `ends` says whether the pointer `last`
is known to mark the end. -/
def Survey.addMaps (image : ByteArray) (table : Nat) (bank : Int) (last : Nat) (ends : Bool)
    (index : Nat) (s : Survey) : List Nat → Except Fault Survey
  | [] => .ok s
  | pointer :: rest => do
    let position := Address.flat ⟨bank, pointer⟩
    let start ← Bytes.position position
    let next : Int := rest.headD 0
    let bytes ← readMap image start (next - pointer - 1)
    let id : MapId := ⟨table, index⟩
    let ends := ends || (pointer == last && 0x8000 ≤ pointer + bytes.length)
    let s := if pointer = last ∧ ends then { s with held := s.held.insert id {} }
      else s.record id position bytes
    Survey.addMaps image table bank last ends (index + 1) s rest

def Survey.addTable (image : ByteArray) (s : Survey) (e : Address × Nat) : Except Fault Survey := do
  let pointers ← readTable image e.1
  match pointers.reverse with
  | last :: before :: _ =>
    Survey.addMaps image e.2 e.1.bank last (before == last) 0 s pointers
  | _ => throw (.plain .index)

def Survey.read (image : ByteArray) (tables : List Address) : Except Fault Survey :=
  tables.zipIdx.foldlM (Survey.addTable image) {}

/-- The addresses of the tables: their banks and their addresses are listed at two positions. -/
def readTables (image : ByteArray) (banks addresses count : Int) : Except Fault (List Address) := do
  let start ← Bytes.position banks
  let bs ← (List.range count.toNat).mapM fun i => Bytes.byteAt image (start + i)
  let start ← Bytes.position addresses
  let ps ← Bytes.wordsAt image start count.toNat
  return (bs.zip ps).map fun e => ⟨e.1, e.2⟩

/-! ### Comparing versions -/

/-- The maps whose bytes differ from those of the first version, which has to have them too. -/
def differing (first second : Survey) : Except Fault (List MapId) :=
  second.held.entries.foldlM (fun ids e => do
    let other ← demand (first.held.find? e.1) (.plain .key)
    return if e.2.bytes = other.bytes then ids else ids ++ [e.1]) []

/-- Adds the copies of the second version that are not the same copies in the first. -/
def addSecondCopies (first second : Survey) (ids : List MapId) : List MapId :=
  second.copies.entries.foldl (fun ids e =>
    if first.copies.find? e.1 = some e.2 ∧ !ids.contains e.2 then ids else ids ++ [e.1]) ids

/-- Adds the copies of the first version that are no copies in the second, or whose source
differs. -/
def addFirstCopies (first second : Survey) (ids : List MapId) : List MapId :=
  first.copies.entries.foldl (fun ids e =>
    if second.copies.contains e.1 && !ids.contains e.2 then ids else ids ++ [e.1]) ids

def versionedIds (first second : Survey) : Except Fault (List MapId) := do
  let ids ← differing first second
  return addFirstCopies first second (addSecondCopies first second ids)

/-- The second version without the maps that it shares with the first. -/
def Survey.without (second : Survey) (ids : List MapId) : Survey :=
  { second with held := ⟨second.held.entries.map fun e => if ids.contains e.1 then e else (e.1, {})⟩ }

end Cartridge.Tilemap
