import Cartridge.Text.Numeral
import Cartridge.Workspace

/-!
# Assembly source

The lines of the assembly files that are written about the data of a cartridge.  Data is placed by
`Line.place`, named by `Line.label`, listed by `Line.word` and `Line.bytes`, and taken from files
by `Line.binary`; what differs between versions of the game is named by a constant
(`Line.define`).
-/

namespace Cartridge.Assembly

def hex (width : Nat) (n : Int) : String := "$" ++ Text.Numeral.upperHex width n

def smallHex (width : Nat) (n : Int) : String := "$" ++ Text.Numeral.hex width n

inductive Line where
  | blank
  | remark (s : String)
  | inclusion (path : String)
  /-- The start of a section: its title and its place. -/
  | place (title spot : String)
  /-- A name for what follows, known to all files. -/
  | label (name : String)
  | notedLabel (name note : String)
  /-- A name for what follows, known to this file. -/
  | localLabel (name : String)
  | word (operand : String)
  | notedWord (operand note : String)
  | bytes (operands : List String)
  | binary (operand : String)
  | define (name path : String)
  | onlyFor (version : String)
  | endOnly
  | instruction (name : String)
  | endInstruction
  /-- An instruction that is defined in the source, with its operands as they stand. -/
  | call (name operands : String)
  | statement (name : String)
  deriving DecidableEq, Repr

def quoted (s : String) : String := "\"" ++ s ++ "\""

def Line.render : Line → String
  | blank => "\n"
  | remark s => "; " ++ s ++ "\n"
  | inclusion path => "INCLUDE " ++ quoted path ++ "\n"
  | place title spot => "SECTION " ++ quoted title ++ ", " ++ spot ++ "\n"
  | label name => name ++ "::\n"
  | notedLabel name note => name ++ ":: ; " ++ note ++ "\n"
  | localLabel name => name ++ ":\n"
  | word operand => "  dw " ++ operand ++ "\n"
  | notedWord operand note => "  dw " ++ operand ++ " ; " ++ note ++ "\n"
  | bytes operands => "  db " ++ String.intercalate "," operands ++ "\n"
  | binary operand => "  INCBIN " ++ operand ++ "\n"
  | define name path => "DEF " ++ name ++ "        EQUS \"\\\"" ++ path ++ "\\\"\"\n"
  | onlyFor version => "IF !STRCMP(\"\x7bGAMEVERSION\x7d\", " ++ quoted version ++ ")\n"
  | endOnly => "ENDC\n"
  | instruction name => "MACRO " ++ name ++ "\n"
  | endInstruction => "  ENDM\n"
  | call name operands => "  " ++ name ++ " " ++ operands ++ "\n"
  | statement name => "  " ++ name ++ "\n"

def render (lines : List Line) : String := String.join (lines.map Line.render)

def banked (base bank : Int) : String := "ROMX[" ++ hex 4 base ++ "], BANK[" ++ hex 2 bank ++ "]"

def smallBanked (base bank : Int) : String :=
  "ROMX[" ++ smallHex 4 base ++ "], BANK[" ++ smallHex 2 bank ++ "]"

def heading (program : String) : List Line := [.remark ("Autogenerated by " ++ program), .blank]

/-- Empties a source file and then writes the lines, if they can be had. -/
def write (path : String) (lines : Except Fault (List Line)) : Job Unit := do
  let key ← Job.create path
  Job.append key (render (← Job.lift lines)).toUTF8

end Cartridge.Assembly
