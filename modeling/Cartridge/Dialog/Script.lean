import Cartridge.Bytes
import Cartridge.Lettering

/-!
# Dialog text

A dialog text is written as characters and commands in angle brackets: a letter for the kind of the
command and its argument up to the closing bracket.  `Script.parts` cuts a text into its parts and
`Script.encode` gives their bytes.  The command `<*N>` ends the text with the end code `N`; what
follows it is dropped.
-/

namespace Cartridge.Dialog

structure Typeface where
  lettering : Lettering
  /-- The addresses of names, in hexadecimal. -/
  pointers : Table String String
  /-- The numbers of portraits, in hexadecimal. -/
  portraits : Table String String
  deriving DecidableEq

/-- The bytes that start a command or end a text. -/
def speedCode : UInt8 := 0xCE
def insertCode : UInt8 := 0xD0
def portraitCode : UInt8 := 0xD2
def kanjiCode : UInt8 := 0xD3
/-- The byte that ends a text, before the end code. -/
def endCode : UInt8 := 0xCC

namespace Script

inductive Part where
  | letter (c : Char)
  | command (kind : Char) (argument : List Char)
  | unclosed
  deriving DecidableEq, Repr

def parts (s : List Char) : List Part :=
  match s with
  | [] => []
  | c :: rest =>
    if c = '<' then
      match rest with
      | [] => [.unclosed]
      | kind :: rest =>
        let argument := rest.takeWhile (· != '>')
        if argument.length < rest.length then
          .command kind argument :: parts (rest.drop (argument.length + 1))
        else [.unclosed]
    else .letter c :: parts rest
termination_by s.length
decreasing_by all_goals (simp only [List.length_drop, List.length_cons]; omega)

inductive Flaw where
  | letter (c : Char)
  | command (kind : Char)
  | argument (fault : Fault)
  deriving DecidableEq, Repr

def Flaw.fault (text : List Char) : Flaw → Fault
  | .letter _ => .plain .key
  | .command kind =>
    .noted .refused ("Unknown special_type " ++ kind.toString ++ " in " ++ String.ofList text)
  | .argument f => f

inductive Effect where
  | bytes (bs : List UInt8)
  | stop (code : Int)
  deriving DecidableEq, Repr

def hexByte (s : List Char) : Except Fault UInt8 := do
  Bytes.byteOf (← demand (Text.Numeral.read? 16 s) (.plain .value))

def sides? : List Char → Option UInt8
  | ['L', 'L'] => some 0x00
  | ['L', 'R'] => some 0x01
  | ['R', 'L'] => some 0x10
  | ['R', 'R'] => some 0x11
  | ['C', 'C'] => some 0xFF
  | _ => none

/-- The address digits of an insertion: those of a known name, or the argument itself. -/
def addressOf (t : Typeface) (argument : List Char) : List Char :=
  match t.pointers.find? (String.ofList argument) with
  | some a => a.toList.dropWhile fun c => c == '0' || c == 'x'
  | none => argument

/-- The bytes that insert a text: its address, the low byte first. -/
def insertion (t : Typeface) (argument : List Char) : Except Fault (List UInt8) := do
  let address := addressOf t argument
  let low ← hexByte ((address.drop 2).take 2)
  let high ← hexByte (address.take 2)
  return [insertCode, low, high]

def portrait (t : Typeface) (argument : List Char) : Except Fault (List UInt8) := do
  let fields := Text.splitOn ',' argument
  let name ← demand fields[1]? (.plain .index)
  let number ← demand (t.portraits.find? (String.ofList name)) (.plain .key)
  let number ← demand (Text.readHex? number) (.plain .value)
  let face ← demand fields[2]? (.plain .index)
  let face ← demand (Text.Numeral.read? 16 face) (.plain .value)
  let sides ← demand (sides? (fields.headD [])) (.plain .key)
  return [portraitCode, sides, ← Bytes.byteOf number, ← Bytes.byteOf face]

/-- The effect of a command; `none` if its kind is unknown. -/
def command? (t : Typeface) (kind : Char) (argument : List Char) : Option (Except Fault Effect) :=
  match kind with
  | '#' => some (.ok (.bytes []))
  | '*' => some (.stop <$> demand (Text.Numeral.read? 16 argument) (.plain .value))
  | 'S' => some ((fun b => .bytes [speedCode, b]) <$> hexByte argument)
  | '&' => some (.bytes <$> insertion t argument)
  | '$' => some ((fun b => .bytes [b]) <$> hexByte argument)
  | '@' => some (.bytes <$> portrait t argument)
  | 'K' => some ((fun b => .bytes [kanjiCode, b]) <$> hexByte argument)
  | 'C' | 'D' => some ((fun b => .bytes [b]) <$> hexByte (kind :: argument))
  | _ => none

def effect (t : Typeface) : Part → Except Flaw Effect
  | .letter c =>
    match t.lettering.code? c with
    | some code => (Effect.bytes <$> Bytes.ofInts code.numbers).mapError .argument
    | none => .error (.letter c)
  | .command kind argument =>
    match command? t kind argument with
    | some e => e.mapError .argument
    | none => .error (.command kind)
  | .unclosed => .error (.argument (.plain .index))

/-- The bytes of parts up to the end of the text, and the end code. -/
def encodeParts (t : Typeface) : List Part → Except Flaw (List UInt8 × Int)
  | [] => .ok ([], 0)
  | p :: rest => do
    match ← effect t p with
    | .stop code => return ([], code)
    | .bytes bs =>
      let (more, code) ← encodeParts t rest
      return (bs ++ more, code)

def encode (t : Typeface) (s : List Char) : Except Flaw (List UInt8 × Int) := encodeParts t (parts s)

end Script

end Cartridge.Dialog
