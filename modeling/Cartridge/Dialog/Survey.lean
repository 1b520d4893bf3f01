import Cartridge.Address
import Cartridge.Dialog.Scan

/-!
# Surveys of dialog

The dialog of an image stands in sections, each a table of pointers and the texts.  The texts of a
section are read one after another from the end of its table on, whether a pointer leads to them
or not; a text that no pointer leads to is unused.
-/

namespace Cartridge.Dialog

/-- What a text is known by: the place of its pointer, or a number if it is unused. -/
inductive Pointer where
  | slot (position : Nat)
  | unused (number : Nat)
  deriving DecidableEq, Repr, Inhabited

namespace Pointer

def isUnused : Pointer → Bool
  | unused _ => true
  | slot _ => false

def text : Pointer → String
  | slot position => Text.Numeral.markedHex position
  | unused number => "UNUSED" ++ Text.Numeral.upperHex 2 number

end Pointer

/-! ### Tables -/

structure Slots where
  /-- The places of pointers and the positions that they lead to, each position once, but for the
  first one, which may come again. -/
  targets : List (Nat × Int) := []
  /-- The places of repeated pointers, and the places of the first ones. -/
  repeats : List (Nat × Nat) := []
  stop : Nat
  deriving DecidableEq

def Slots.add (s : Slots) (place : Nat) (target : Int) : Slots :=
  match (s.targets.drop 1).find? (·.2 == target) with
  | some first => { s with repeats := s.repeats ++ [(place, first.1)] }
  | none => { s with targets := s.targets ++ [(place, target)] }

/-- Reads the table of the section at an address, which ends at the position `stop`.  A table with
a single pointer is empty. -/
def Slots.read (image : ByteArray) (a : Address) (start : Nat) (stop : Int) : Except Fault Slots := do
  let n := ((stop - (start + 2) + 1) / 2).toNat
  let words ← Bytes.wordsAt image (start + 2) n
  let after := start + 2 + 2 * n
  let empty : Slots := { stop := after }
  if n = 0 then return empty
  else
    let add (s : Slots) (e : Nat × Nat) : Slots :=
      s.add (start + 2 + 2 * e.2) (Address.flat ⟨a.bank, e.1⟩)
    return words.zipIdx.foldl add { empty with targets := [(start, stop)] }

def maxRoom : Int := 0xFFFF

/-- The room of texts: the distance to the next one, in the order of their pointers. -/
def roomsOf : List Int → List Int
  | [] => []
  | [t] => [min t maxRoom]
  | t :: u :: rest => min (u - t) maxRoom :: roomsOf (u :: rest)

/-- The last position that a pointer after the first leads to. -/
def Slots.last (s : Slots) : Int := (s.targets.drop 1).foldl (fun m t => max m t.2) 0

/-! ### Texts -/

structure Scan where
  /-- The positions of all texts known so far. -/
  places : List (Pointer × Int)
  texts : Table Pointer (List Char) := ∅
  unused : Nat := 0
  pos : Nat
  names : Names

structure Course where
  font : Font
  image : ByteArray
  finals : List Int
  rooms : Table Nat Int
  /-- Beyond this position no unused text is looked for. -/
  last : Int

def Course.roomOf (c : Course) : Pointer → Int
  | .slot place => (c.rooms.find? place).getD 0
  | .unused _ => maxRoom

def Scan.textAt? (s : Scan) (pos : Int) : Option Pointer := (s.places.find? (·.2 == pos)).map Prod.fst

def Scan.pass (c : Course) (p : Pointer) (s : Scan) : Except Fault Scan := do
  let seg ← readSegment c.font c.image (c.finals.contains s.pos) (c.roomOf p) s.pos s.names
  return { s with texts := s.texts.insert p seg.text, pos := seg.next, names := seg.names }

/-- The fault of a scan that never ends: a text without room takes up no byte, so it is read over
and over. -/
def endless : Fault := .noted .refused "the texts of a section do not end"

/-- Reads the text of `p` and all texts that follow, fewer than `fuel` of them. -/
def Scan.passes (c : Course) : Nat → Pointer → Scan → Except Fault Scan
  | 0, _, _ => .error endless
  | fuel + 1, p, s => do
    let s ← s.pass c p
    match s.textAt? s.pos with
    | some q => Scan.passes c fuel q s
    | none =>
      if c.last < s.pos then return s
      else
        let q := Pointer.unused s.unused
        Scan.passes c fuel q
          { s with places := s.places ++ [(q, (s.pos : Int))], unused := s.unused + 1 }

/-- Reads all texts from the position at hand on, if one is known there.  A scan that has read more
texts than there are bytes does not end. -/
def Scan.run (c : Course) (s : Scan) : Except Fault Scan :=
  match s.textAt? s.pos with
  | some p => Scan.passes c (c.image.size + 1) p s
  | none => .ok s

/-! ### Pointers into other texts -/

/-- Passes over the first `n` characters of a text, a command counting as one. -/
def skip : Nat → List Char → Except Fault (List Char)
  | 0, s => .ok s
  | _ + 1, [] => .error (.plain .index)
  | n + 1, c :: rest =>
    if c = '<' then
      match rest.dropWhile (· != '>') with
      | [] => .error (.plain .index)
      | _ :: rest => skip n rest
    else skip n rest

/-- The nearest text that starts before a position: its pointer and where it starts. -/
def Scan.before? (s : Scan) (pos : Int) : Option (Pointer × Int) :=
  s.places.foldl (fun best e =>
    if e.2 < pos ∧ (best.map Prod.snd).all (· < e.2) then some e else best) none

def offsetName : Pointer → String
  | .slot place => Text.Numeral.upperHex 0 place
  | p => p.text

/-- Gives a text to a pointer into the middle of another one. -/
def Scan.addMissing (s : Scan) (e : Pointer × Int) : Except Fault Scan := do
  let (other, start) ← demand (s.before? e.2) (.plain .position)
  let text ← demand (s.texts.find? other) (.plain .key)
  let offset := e.2 - start
  let rest ← skip offset.toNat text
  let head := "<OFFSET:" ++ offsetName other ++ ":" ++ Text.Numeral.upperHex 0 offset ++ ">"
  return { s with texts := s.texts.insert e.1 (head.toList ++ rest) }

/-- The number of buckets for `n` keys: `size`, or four times as many until two fifths of them are
free; it grows at most `fuel` times. -/
def bucketCount (n : Nat) : Nat → Nat → Nat
  | 0, size => size
  | fuel + 1, size => if 5 * n < 3 * (size - 1) then size else bucketCount n fuel (4 * size)

def bucketed (es : List (Nat × Pointer × Int)) : List (Pointer × Int) :=
  let count := bucketCount es.length es.length 8
  (es.mergeSort fun a b => decide (a.1 % count ≤ b.1 % count)).map Prod.snd

/-- The pointers without a text: those into the middle of others. -/
def Scan.missing (c : Course) (s : Scan) : List (Pointer × Int) :=
  bucketed (s.places.filterMap fun e =>
    match e.1 with
    | .slot place =>
      if s.texts.contains e.1 || c.finals.contains place then none else some (place, e)
    | .unused _ => none)

/-! ### Sections -/

abbrev Texts := List (Pointer × String)

/-- The end of the table at an address, and the position of its last text. -/
def readEnds (image : ByteArray) (a : Address) (start : Nat) : Except Fault (Int × Int) := do
  let stop := Address.flat ⟨a.bank, ← Bytes.wordAt image start⟩
  let last ← Bytes.wordAt image (← Bytes.position (stop - 2))
  return (stop, Address.flat ⟨a.bank, last⟩)

def Slots.course (f : Font) (image : ByteArray) (finals : List Int) (slots : Slots) : Course where
  font := f
  image := image
  finals := finals
  rooms := Table.ofList ((slots.targets.map Prod.fst).zip (roomsOf (slots.targets.map Prod.snd)))
  last := slots.last

def Slots.scan (names : Names) (slots : Slots) : Scan where
  places := slots.targets.map fun t => (.slot t.1, t.2)
  pos := slots.stop
  names := names

/-- Reads the section at an address; `finals` are the last texts of the sections before. -/
def readSection (f : Font) (image : ByteArray) (finals : List Int) (names : Names) (a : Address) :
    Except Fault (Texts × List Int × Names) := do
  let start ← Bytes.position a.flat
  let (stop, final) ← readEnds image a start
  let finals := finals ++ [final]
  let slots ← Slots.read image a start stop
  let c := slots.course f image finals
  let s ← (slots.scan names).run c
  let s ← (s.missing c).foldlM Scan.addMissing s
  let texts := s.texts.entries.map fun e => (e.1, String.ofList e.2)
  let repeats := slots.repeats.map fun r => (Pointer.slot r.1, "@" ++ Text.Numeral.markedHex r.2)
  return (texts ++ repeats, finals, s.names)

structure Survey where
  addresses : List Address
  sections : List Texts

def bankList : Nat := 0x20A0

def addressList : Nat := 0x20C6

def sectionCount : Nat := addressList - bankList

def present (addresses : List Address) : List Address := addresses.filter fun a => a.bank != 0

def readAddresses (image : ByteArray) : Except Fault (List Address) := do
  let banks ← (List.range sectionCount).mapM fun i => Bytes.byteAt image (bankList + i)
  let bases ← Bytes.wordsAt image addressList sectionCount
  return (banks.zip bases).map fun e => ⟨e.1, e.2⟩

/-- Reads the dialog of an image; `check` looks at every section as soon as it is read. -/
def Survey.read (f : Font) (image : ByteArray) (check : Nat → Texts → Except Fault Unit)
    (names : Names) : Except Fault (Survey × Names) := do
  let addresses ← readAddresses image
  let (sections, _, names) ← (present addresses).foldlM (fun (sections, finals, names) a => do
    let (texts, finals, names) ← readSection f image finals names a
    check sections.length texts
    return (sections ++ [texts], finals, names)) (([] : List Texts), ([] : List Int), names)
  return (⟨addresses, sections⟩, names)

end Cartridge.Dialog
