import Cartridge.Address
import Cartridge.Bytes
import Cartridge.Table
import Cartridge.Tileset

/-!
# Surveys of tilesets

The image lists its tilesets in two tables of equal length: one with addresses, and one with banks
and the place in video memory.  The key of an entry is the position of its address in the first
table.  Several entries may lead to one tileset, which belongs to the first of them; an entry that
leads to the end of the first table is empty.
-/

namespace Cartridge.Tileset

def addressTable : Nat := 0x3995

/-- The end of the addresses, which also marks an empty entry. -/
def addressTableEnd : Nat := 0x3D95

def infoTable : Address := ⟨0x39, 0x706A⟩

def entryCount : Nat := (addressTableEnd - addressTable) / 2

def keyOf (i : Nat) : Nat := addressTable + 2 * i

def emptyPosition : Int := Address.flat ⟨0, addressTableEnd⟩

structure Listing where
  bank : Nat
  pointer : Nat
  target : Nat
  targetBank : Nat
  deriving DecidableEq, Repr, Inhabited

def Listing.position (l : Listing) : Int := Address.flat ⟨l.bank, l.pointer⟩

structure Found where
  position : Int
  tiles : Decoded

structure Survey where
  listings : Table Nat Listing := ∅
  /-- The first key that leads to a position. -/
  owners : Table Int Nat := Table.ofList [(emptyPosition, addressTableEnd)]
  found : Table Nat Found := ∅

def readInfo (image : ByteArray) (pos : Nat) : Nat → Except Fault (List (Nat × Nat × Nat))
  | 0 => .ok []
  | n + 1 => do
    let bank ← Bytes.byteAt image pos
    let target ← Bytes.wordAt image (pos + 1)
    let targetBank ← Bytes.byteAt image (pos + 3)
    return (bank, target, targetBank) :: (← readInfo image (pos + 4) n)

def readListings (image : ByteArray) : Except Fault (List Listing) := do
  let pointers ← Bytes.wordsAt image addressTable entryCount
  let info ← readInfo image infoTable.flat.toNat entryCount
  return (pointers.zip info).map fun e => ⟨e.2.1, e.1, e.2.2.1, e.2.2.2⟩

def readAt (image : ByteArray) (position : Int) : Except Fault Decoded := do
  match decode image (← Bytes.position position) with
  | .ok d => return d
  | .error e => throw e.fault

/-- Adds an entry; the first one to lead to a position brings its tileset. -/
def Survey.add (image : ByteArray) (s : Survey) (e : Listing × Nat) : Except Fault Survey := do
  let key := keyOf e.2
  let position := e.1.position
  let s := { s with listings := s.listings.insert key e.1 }
  if s.owners.contains position then return s
  else
    let tiles ← readAt image position
    return { s with owners := s.owners.insert position key
                    found := s.found.insert key ⟨position, tiles⟩ }

def Survey.read (image : ByteArray) : Except Fault Survey := do
  (← readListings image).zipIdx.foldlM (Survey.add image) {}

/-! ### Comparing versions -/

/-- The keys that own a tileset in some version, sorted by what differs between versions. -/
structure Classes where
  common : List Nat := []
  tiles : List Nat := []
  position : List Nat := []
  both : List Nat := []
  /-- Only one version has a tileset there. -/
  missing : List Nat := []
  deriving DecidableEq, Repr

namespace Classes

def add (first second : Table Nat Found) (c : Classes) (key : Nat) : Classes :=
  match first.find? key, second.find? key with
  | some a, some b =>
    match a.tiles.data == b.tiles.data, a.position == b.position with
    | true, true => { c with common := c.common ++ [key] }
    | false, true => { c with tiles := c.tiles ++ [key] }
    | true, false => { c with position := c.position ++ [key] }
    | false, false => { c with both := c.both ++ [key] }
  | _, _ => { c with missing := c.missing ++ [key] }

/-- Sorts the keys of two versions, those of the first one first. -/
def ofSurveys (first second : Survey) : Classes :=
  let keys := first.found.keys ++ second.found.keys.filter fun k => !first.found.contains k
  keys.foldl (add first.found second.found) {}

def separate (c : Classes) (key : Nat) : Classes :=
  if c.common.contains key then
    { c with common := c.common.erase key, position := c.position ++ [key] }
  else if c.tiles.contains key then
    { c with tiles := c.tiles.erase key, both := c.both ++ [key] }
  else c

def keys (c : Classes) : List Nat := c.common ++ c.tiles ++ c.position ++ c.both ++ c.missing

end Classes

/-- The keys of a version that lead to a tileset owned by another key, by the owner. -/
abbrev Aliases := Table Nat (List Nat)

/-- The missing keys that have no tileset of their own in a version, each with its owner there. -/
def sharedKeys (s : Survey) (missing : List Nat) : List (Nat × Nat) :=
  missing.filterMap fun key =>
    if s.found.contains key then none
    else do
      let listing ← s.listings.find? key
      let owner ← s.owners.find? listing.position
      return (key, owner)

/-- The other names of the tilesets of a version; `none` if none has any. -/
def aliasesOf (shared : List (Nat × Nat)) : Option Aliases :=
  if shared.isEmpty then none
  else some (shared.foldl (fun t e => t.insert e.2 ((t.find? e.2).getD [] ++ [e.1])) ∅)

/-- Both versions compared: the classes after every shared tileset is separated, and the other
names in each version. -/
structure Comparison where
  classes : Classes
  first : Option Aliases
  second : Option Aliases

def Comparison.ofSurveys (first second : Survey) : Comparison :=
  let classes := Classes.ofSurveys first second
  let a := sharedKeys first classes.missing
  let b := sharedKeys second classes.missing
  { classes := (a ++ b).foldl (fun c e => c.separate e.2) classes
    first := aliasesOf a, second := aliasesOf b }

end Cartridge.Tileset
