import Cartridge.Text.Escape
import Cartridge.Text.Numeral
import Cartridge.Workspace

/-!
# Character sets

A character set gives byte codes the texts that they show.

* `Charset.readTable` and its relatives read a file of lines `CODE=text`, the text with escapes.
* `Charset.readList` reads a file with one text a line, numbered from a base; a line `|CODE`
  moves on to another code.
* `Charset.decode` shows codes as characters, a code without text as `\xHH`.
* `Charset.encode` is the way back: it cuts a text into `Piece`s, the longest known text of at
  most four characters first, and gives the code of each.
-/

namespace Cartridge

abbrev Charset := Table Int String

namespace Charset

/-! ### Reading tables -/

/-- The text in front of the first equals sign of a line, without white space around the line. -/
def keyOf (line : List Char) : List Char := (Text.splitFirst '=' (Text.trim Text.isBlank line)).1

def textOf (line : List Char) : Except Fault String := do
  let raw ← demand (Text.splitFirst '=' (line.filter (· != '\n'))).2 (.plain .index)
  return String.ofList (← Text.readQuoted raw)

def codeOf (line : List Char) : Except Fault Int :=
  demand (Text.Numeral.read? 16 (keyOf line)) (.plain .value)

def nameOf (line : List Char) : Except Fault String := .ok (String.ofList (keyOf line))

def entryLines (text : List Char) : List (List Char) :=
  (Text.lines text).filter fun l => l.any (!Text.isBlank ·)

def parse {α : Type} [BEq α] (key : List Char → Except Fault α) (text : List Char) :
    Except Fault (Table α String) :=
  Table.ofList <$> (entryLines text).mapM fun l => do
    let k ← key l
    let t ← textOf l
    return (k, t)

/-- Reads the lines of a table as a map from texts, the text of each line first. -/
def parseSwapped {α : Type} (key : List Char → Except Fault α) (text : List Char) :
    Except Fault (Table String α) :=
  Table.ofList <$> (entryLines text).mapM fun l => do
    let t ← textOf l
    let k ← key l
    return (t, k)

/-- Reads a file of lines `CODE=text`. -/
def readTable (path : String) : Job Charset := do
  Job.lift (parse codeOf (← Job.readText path))

def readNames (path : String) : Job (Table String String) := do
  Job.lift (parse nameOf (← Job.readText path))

def readCodes (path : String) : Job (Table String Int) := do
  Job.lift (parseSwapped codeOf (← Job.readText path))

def readNamesOfTexts (path : String) : Job (Table String String) := do
  Job.lift (parseSwapped nameOf (← Job.readText path))

/-! ### Reading lists -/

def listLine (state : Int × Charset) (line : List Char) : Except Fault (Int × Charset) :=
  match Text.trimRight (· == '\n') line with
  | [] => .ok state
  | '|' :: rest => do
    let code ← demand (Text.Numeral.read? 16 (rest.dropWhile (· == '|'))) (.plain .value)
    return (code, state.2)
  | text => .ok (state.1 + 1, state.2.insert state.1 (String.ofList text))

def parseList (base : Int) (text : List Char) : Except Fault Charset :=
  Prod.snd <$> (Text.lines text).foldlM listLine (base, ∅)

def readList (path : String) (base : Int) : Job Charset := do
  Job.lift (parseList base (← Job.readText path))

/-! ### The sets of the tilesets -/

def indexPath : String := "scripts/res/meta_tileset_index.tbl"

def loadOffsetPath : String := "scripts/res/meta_tileset_load_offsets.tbl"

/-- The first code of a tileset: its load address in tiles, modulo 256. -/
def loadCode (name : String) (index : Option Int) : Job Int := do
  let index ← match index with
    | some i => pure i
    | none => do
      let names ← readTable indexPath
      match names.entries.filter (·.2 == name) with
      | [hit] => pure hit.1
      | _ => throw Fault.notAReport
  let offsets ← readTable loadOffsetPath
  let text ← demand (offsets.find? index) (.plain .key)
  let offset ← demand (Text.readHex? text) (.plain .value)
  return offset / 0x10 % 0x100

/-- Code zero is a space unless the set says otherwise. -/
def withSpace (set : Charset) : Charset := if set.contains 0 then set else set.insert 0 " "

def ofTilesetAt (name : String) (first : Int) : Job Charset :=
  withSpace <$> readList ("scripts/res/tilesets/" ++ name ++ ".lst") first

/-- The characters of a tileset; the index is needed if several tilesets have the name. -/
def ofTileset (name : String) (index : Option Int) : Job Charset := do
  ofTilesetAt name (← loadCode name index)

/-! ### Showing codes -/

def shown (set : Charset) (code : Int) : List Char :=
  match set.find? code with
  | some text => text.toList
  | none => '\\' :: 'x' :: (Text.Numeral.hex 2 code).toList

def decode (set : Charset) (codes : List Int) : List Char := codes.flatMap set.shown

/-! ### Finding codes -/

/-- The code that stands for a text that is not in the set. -/
def unknownCode : Int := 0x75

inductive Piece where
  | known (code : Int)
  | escaped (digits : List Char)
  | unknown (c : Char)
  deriving DecidableEq, Repr

/-- The longest start of `s`, of at most `n` characters, that is a text of the set: its code and
its length. -/
def longest? (codes : Table String Int) (s : List Char) : Nat → Option (Int × Nat)
  | 0 => none
  | n + 1 =>
    if s.length < n + 1 then longest? codes s n
    else match codes.find? (String.ofList (s.take (n + 1))) with
      | some code => some (code, n + 1)
      | none => longest? codes s n

def longestText : Nat := 4

/-- Cuts a text into pieces.  An escape needs its two digits to be there. -/
def pieces (codes : Table String Int) (s : List Char) : List Piece :=
  match s with
  | [] => []
  | '\\' :: 'x' :: a :: b :: rest => .escaped [a, b] :: pieces codes rest
  | c :: rest =>
    match longest? codes ((c :: rest).take longestText) longestText with
    | some (code, n) => .known code :: pieces codes (rest.drop (n - 1))
    | none => .unknown c :: pieces codes rest
termination_by s.length
decreasing_by all_goals (simp only [List.length_drop, List.length_cons]; omega)

/-- The code of a piece; an unknown character is reported. -/
def Piece.code : Piece → Job Int
  | .known code => pure code
  | .escaped digits => demand (Text.Numeral.read? 16 digits) (.plain .value)
  | .unknown c => do
    Job.say ("Unable to find mapping for 0x" ++ Text.Numeral.upperHex 2 c.toNat ++ " (" ++
      c.toString ++ ")")
    return unknownCode

def encode (codes : Table String Int) (s : List Char) : Job (List Int) :=
  (pieces codes s).mapM Piece.code

/-- The codes of a text, filled up to the length `pad` unless that is zero. -/
def encodePadded (codes : Table String Int) (s : List Char) (pad fill : Int) : Job (List Int) := do
  let found ← encode codes s
  if pad = 0 then return found
  else if pad < found.length then throw Fault.unmet
  else return found ++ List.replicate (pad.toNat - found.length) fill

end Charset

end Cartridge
