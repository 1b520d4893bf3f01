import Cartridge.Table
import Cartridge.Text.Lines
import Cartridge.Text.Quoted
import Cartridge.Text.Real

/-!
# Command lines

A command line is a list of words.  Words that start with a dash are switches, the others are
arguments; after `--` every word is an argument.  A switch has a letter and a name.  Letters can be
joined behind one dash, names can be shortened as long as they stay unambiguous.  The value of a
switch stands in the same word, for a name behind an equals sign, or in the next word.
-/

namespace Cartridge.CommandLine

inductive Kind where
  | flag
  | text
  | real
  | integer
  deriving DecidableEq, Repr

structure Switch where
  letter : Char
  name : String
  kind : Kind
  placeholder : String
  help : String

inductive Setting where
  | on
  | text (s : String)
  | real (x : Float)
  | integer (n : Int)

inductive Halt where
  | help
  | version
  | misuse (text : String)
  deriving DecidableEq, Repr

structure Parsed where
  settings : Table String Setting := ∅
  arguments : List String := []

inductive Request where
  | switch (s : Switch)
  | help
  | version

variable (switches : List Switch)

/-! ### Values -/

/-- Reads an integer: hexadecimal or binary by its mark, octal after a zero, else decimal. -/
def integer? (s : String) : Option Int :=
  let cs := s.toList
  match (cs.take 2).map Char.toLower with
  | ['0', 'x'] => Text.Numeral.read? 16 cs
  | ['0', 'b'] => if cs.length = 2 then some 0 else Text.Numeral.read? 2 (cs.drop 2)
  | '0' :: _ => Text.Numeral.read? 8 cs
  | _ => Text.Numeral.read? 10 cs

def valueOf (s : Switch) (name value : String) : Except Halt Setting :=
  let bad (what : String) : Halt :=
    .misuse ("option " ++ name ++ ": invalid " ++ what ++ " value: " ++ Text.quote value)
  match s.kind with
  | .flag => .ok .on
  | .text => .ok (.text value)
  | .real => ((Text.readReal? value).map .real).elim (.error (bad "floating-point")) .ok
  | .integer => ((integer? value).map .integer).elim (.error (bad "integer")) .ok

def valueMissing (name : String) : Halt := .misuse (name ++ " option requires 1 argument")

/-! ### Switches -/

def byLetter (c : Char) : Except Halt Request :=
  if c = 'h' then .ok .help
  else match switches.find? (·.letter == c) with
    | some s => .ok (.switch s)
    | none => .error (.misuse ("no such option: -" ++ c.toString))

def fullName (word : String) : Except Halt String :=
  let names := "--help" :: "--version" :: switches.map (·.name)
  if names.contains word then .ok word
  else match names.filter (·.startsWith word) with
    | [] => .error (.misuse ("no such option: " ++ word))
    | [name] => .ok name
    | several => .error (.misuse ("ambiguous option: " ++ word ++ " (" ++
        String.intercalate ", " (several.mergeSort fun a b => !decide (b < a)) ++ "?)"))

def byName (name : String) : Except Halt Request :=
  if name = "--help" then .ok .help
  else if name = "--version" then .ok .version
  else match switches.find? (·.name == name) with
    | some s => .ok (.switch s)
    | none => .error (.misuse ("no such option: " ++ name))

/-- Reads joined letters, the next word being `next`: the settings, and whether the next word was
used. -/
def letters (next : Option String) (set : Table String Setting) :
    List Char → Except Halt (Table String Setting × Bool)
  | [] => .ok (set, false)
  | c :: rest => do
    match ← byLetter switches c with
    | .help => throw .help
    | .version => throw .version
    | .switch s =>
      let name := "-" ++ c.toString
      if s.kind = .flag then letters next (set.insert s.name .on) rest
      else if rest.isEmpty then
        match next with
        | none => throw (valueMissing name)
        | some value => return (set.insert s.name (← valueOf s name value), true)
      else return (set.insert s.name (← valueOf s name (String.ofList rest)), false)

def named (next : Option String) (set : Table String Setting) (word : String) :
    Except Halt (Table String Setting × Bool) := do
  let (start, value) := Text.splitFirst '=' word.toList
  let name ← fullName switches (String.ofList start)
  match ← byName switches name, value with
  | .switch s, value =>
    if s.kind = .flag then
      if value.isSome then throw (.misuse (name ++ " option does not take a value"))
      return (set.insert s.name .on, false)
    match value, next with
    | some cs, _ => return (set.insert s.name (← valueOf s name (String.ofList cs)), false)
    | none, some v => return (set.insert s.name (← valueOf s name v), true)
    | none, none => throw (valueMissing name)
  | _, some _ => throw (.misuse (name ++ " option does not take a value"))
  | .help, none => throw .help
  | .version, none => throw .version

def parseFrom (found : Parsed) (words : List String) : Except Halt Parsed :=
  match words with
  | [] => .ok found
  | word :: rest =>
    if word = "--" then .ok { found with arguments := found.arguments ++ rest }
    else
      let isName := word.startsWith "--"
      if isName ∨ (word.startsWith "-" ∧ word ≠ "-") then
        match (if isName then named switches rest.head? found.settings word
          else letters switches rest.head? found.settings (word.toList.drop 1)) with
        | .error halt => .error halt
        | .ok (set, used) => parseFrom { found with settings := set } (if used then rest.drop 1 else rest)
      else parseFrom { found with arguments := found.arguments ++ [word] } rest
termination_by words.length
decreasing_by
  · split <;> simp only [List.length_drop, List.length_cons] <;> omega
  · simp

def parse (words : List String) : Except Halt Parsed := parseFrom switches {} words

/-! ### Help -/

def usageOf (s : Switch) : String :=
  if s.kind = .flag then "-" ++ s.letter.toString ++ ", " ++ s.name
  else "-" ++ s.letter.toString ++ " " ++ s.placeholder ++ ", " ++ s.name ++ "=" ++ s.placeholder

def helpColumn : Nat := 24

def blanks (n : Nat) : String := String.ofList (List.replicate n ' ')

/-- An entry of the help; an explanation that has no room in its line goes to the next. -/
def helpEntry (usage text : String) : String :=
  let start := "  " ++ usage
  if start.length + 2 ≤ helpColumn then start ++ blanks (helpColumn - start.length) ++ text ++ "\n"
  else start ++ "\n" ++ blanks helpColumn ++ text ++ "\n"

def usageLine (program arguments : String) : String := "Usage: " ++ program ++ " " ++ arguments ++ "\n"

def helpText (program arguments : String) : String :=
  usageLine program arguments ++ "\nOptions:\n" ++
    helpEntry "--version" "show program's version number and exit" ++
    helpEntry "-h, --help" "show this help message and exit" ++
    String.join (switches.map fun s => helpEntry (usageOf s) s.help)

def misuseText (program arguments text : String) : String :=
  usageLine program arguments ++ "\n" ++ program ++ ": error: " ++ text ++ "\n"

end Cartridge.CommandLine
