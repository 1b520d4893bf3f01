import Cartridge.Address
import Cartridge.Value

/-!
# The pointer lists of the game

Where every pointer list stands in the image and how its entries are stored.
-/

namespace Cartridge.PointerList

structure FieldSpec where
  stop : Option Nat
  size : Option Nat
  fill : Option Nat
  numeric : Bool
  deriving DecidableEq, Repr, Inhabited

namespace FieldSpec

def text : FieldSpec := ⟨some 0xCB, none, none, false⟩

def fixedText (size : Nat) : FieldSpec := ⟨some 0xCB, some size, some 0, false⟩

def numbers (size : Nat) : FieldSpec := ⟨none, some size, some 0, true⟩

def bareNumbers (size : Nat) : FieldSpec := ⟨none, some size, none, true⟩

end FieldSpec

structure Spec where
  name : String
  address : Address
  labels : List String
  fields : List FieldSpec
  absent : Option String := none
  lead : Option (List Nat) := none
  general : Bool := true
  tileset : Option String := none

namespace Spec

def number (n : Option Nat) : Value := (n.map fun k => Value.int k).getD .none

/-- How the entries are stored, as the first line of a list says it. -/
def heading (s : Spec) : Value :=
  .tuple [.int s.fields.length, .list (s.labels.map .text),
    .list (s.fields.map fun f => number f.stop),
    .list (s.fields.map fun f => .tuple [number f.size, number f.fill]),
    .list (s.fields.map fun f => .flag f.numeric),
    (s.absent.map Value.text).getD .none,
    (s.lead.map fun ns => Value.list (ns.map fun (n : Nat) => .int n)).getD .none,
    .flag s.general, (s.tileset.map Value.text).getD .none]

/-- The names of the columns: the labels, or numbered names. -/
def columns (s : Spec) : List String :=
  if s.labels.isEmpty then
    (List.range s.fields.length).map fun (i : Nat) => "Entry" ++ Text.Numeral.upperHex 2 i
  else s.labels

def entrySize? (s : Spec) : Option Nat := (·.foldl (· + ·) 0) <$> s.fields.mapM FieldSpec.size

end Spec

def partFields : List FieldSpec := [.fixedText 7, .fixedText 9, .numbers 1]

def partLabels : List String := ["Model", "Name", "IsFemale"]

def allSpecs : List Spec :=
  [ { name := "Unknown00", address := ⟨0x27, 0x44FC⟩, labels := [], fields := [.numbers 20],
      lead := some [0xC9] },
    { name := "PartsHead", address := ⟨0x23, 0x4671⟩, labels := partLabels, fields := partFields },
    { name := "PartsRArm", address := ⟨0x23, 0x529A⟩, labels := partLabels, fields := partFields },
    { name := "PartsLArm", address := ⟨0x23, 0x5EC3⟩, labels := partLabels, fields := partFields },
    { name := "PartsLegs", address := ⟨0x23, 0x6AEC⟩, labels := partLabels, fields := partFields },
    { name := "Attributes", address := ⟨0x22, 0x65C0⟩, labels := ["AttributeName"], fields := [.text] },
    { name := "Skills", address := ⟨0x22, 0x664C⟩, labels := ["SkillName"], fields := [.text] },
    { name := "Movement", address := ⟨0x22, 0x669A⟩, labels := ["Movement"], fields := [.text] },
    { name := "Unknown08", address := ⟨0x22, 0x66DC⟩, labels := [], fields := [.numbers 14] },
    { name := "Personalities", address := ⟨0x22, 0x68BC⟩, labels := ["Personality"], fields := [.text] },
    { name := "Medaforce", address := ⟨0x22, 0x6979⟩, labels := ["Unknown", "Medaforce"],
      fields := [.numbers 6, .text], absent := some "\\x00\\x00\\x00\\x00\\x00\\x00" },
    { name := "Medals", address := ⟨0x23, 0x795B⟩, labels := ["MedalName"], fields := [.text] },
    { name := "Unknown0C", address := ⟨0x22, 0x6901⟩, labels := [], fields := [.numbers 2] },
    { name := "Items", address := ⟨0x23, 0x7715⟩, labels := ["ItemName", "Flags"],
      fields := [.fixedText 9, .bareNumbers 1] },
    { name := "Unknown0E", address := ⟨0x20, 0x4000⟩, labels := [], fields := [.numbers 4] },
    { name := "Medarotters", address := ⟨0x20, 0x4328⟩, labels := ["Unknown", "Name"],
      fields := [.numbers 3, .text] },
    { name := "Unknown10", address := ⟨0x20, 0x4EA4⟩, labels := [], fields := [.numbers 35] },
    { name := "Terrain", address := ⟨0x23, 0x7A23⟩, labels := ["Terrain"], fields := [.text] },
    { name := "Attacks", address := ⟨0x23, 0x7A80⟩, labels := ["AttackName"], fields := [.text] },
    { name := "CharacterNames", address := ⟨0x21, 0x4000⟩, labels := ["CharacterName"], fields := [.text] },
    { name := "Unknown14", address := ⟨0x21, 0x461B⟩, labels := [], fields := [.numbers 11] },
    { name := "Medarots", address := ⟨0x23, 0x4000⟩, labels := ["MedarotName"], fields := [.text] },
    { name := "GlossaryTerms", address := ⟨0x7, 0x60D5⟩, labels := ["Unknown", "Term"],
      fields := [.bareNumbers 1, .text], general := false },
    { name := "Credits", address := ⟨0x16, 0x5505⟩, labels := ["Unknown", "Name"],
      fields := [.bareNumbers 4, ⟨none, some 0x10, some 0xFF, false⟩], general := false,
      tileset := some "Credits" } ]

end Cartridge.PointerList
