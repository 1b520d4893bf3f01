import Cartridge.Text.Numeral
import Cartridge.Workspace

/-!
# Sections

Assembly source places data by lines such as `SECTION "Name", ROMX[$4000], BANK[$20]`.
`Section.find` looks up the place of a named section in source text.
-/

namespace Cartridge

structure Section where
  bank : Int
  base : Int
  deriving DecidableEq, Repr, Inhabited

namespace Section

def occurs (part : List Char) : List Char → Bool
  | [] => part.isEmpty
  | c :: rest => part.isPrefixOf (c :: rest) || occurs part rest

def isHeadOf (name : String) (line : List Char) : Bool :=
  "SECTION".toList.isPrefixOf line && occurs ('"' :: name.toList ++ ['"']) line

/-- The number in a field such as `ROMX[$4000]`, after the word in front of it. -/
def field? (word : String) (s : List Char) : Option Int :=
  let bare := (Text.replaceAll word.toList [] s).filter fun c => c != '[' && c != ']'
  Text.Numeral.read? 16 (Text.replaceAll ['$'] ['0', 'x'] bare)

def ofLine (line : List Char) : Except Fault Section := do
  let bare := (Text.trimLeft ("SECTION ".toList.contains ·) line).filter fun c => c != ' ' && c != '"'
  let fields := Text.splitOn ',' bare
  let bank ← demand fields[2]? (.plain .index)
  let bank ← demand (field? "BANK" bank) (.plain .value)
  let base ← demand fields[1]? (.plain .index)
  let base ← demand (field? "ROMX" base) (.plain .value)
  return ⟨bank, base⟩

def find (name : String) (source : List Char) : Except Fault (Option Section) :=
  match (Text.splitAtBreaks source).find? (isHeadOf name) with
  | none => .ok none
  | some line => some <$> ofLine line

def readSources (first second : String) : Job (List Char) := do
  let a ← Job.readFile first
  let b ← Job.readFile second
  let a ← Job.lift (Job.decode a)
  let b ← Job.lift (Job.decode b)
  return Text.unifyNewlines a.toList ++ Text.unifyNewlines b.toList

end Section

end Cartridge
