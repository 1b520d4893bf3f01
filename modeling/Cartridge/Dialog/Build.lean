import Cartridge.Dialog.Script
import Cartridge.Dialog.Sheet
import Cartridge.Text.Csv
import Cartridge.Text.Quoted

/-!
# Building dialog

The texts of a sheet become one file: the number of texts, the offset and length of each as words in
the order of their pointers, and the texts themselves in the order of the sheet.  A text whose
pointer starts with `UNUSED` is stored, but not listed.
-/

namespace Cartridge.Dialog

structure Layout where
  text : Array UInt8 := #[]
  offsets : Table String Nat := ∅
  lengths : Table String Nat := ∅
  deriving DecidableEq

namespace Layout

def place (l : Layout) (pointer : String) (offset length : Nat) : Layout :=
  { l with offsets := l.offsets.insert pointer offset, lengths := l.lengths.insert pointer length }

def add (l : Layout) (pointer : String) (bytes : List UInt8) : Layout :=
  { l.place pointer l.text.size bytes.length with text := l.text ++ bytes.toArray }

def listed (l : Layout) : List String :=
  (l.offsets.keys.filter fun k => !k.startsWith "UNUSED").mergeSort fun a b => decide (a ≤ b)

def spans (l : Layout) : Except Fault (List (Nat × Nat)) :=
  l.listed.mapM fun k => do
    let offset ← demand (l.offsets.find? k) (.plain .key)
    let length ← demand (l.lengths.find? k) (.plain .key)
    return (offset, length)

end Layout

def report (pointer : String) (s : List Char) (flaw : Script.Flaw) : Job Unit := do
  match flaw with
  | .letter c =>
    Job.say ("[" ++ pointer ++ "]: KeyError " ++ Text.quote c.toString)
    Job.say ("\t" ++ String.ofList s)
  | _ => pure ()
  Job.say ("Error processing [" ++ pointer ++ "]")
  Job.say ("\t" ++ String.ofList s)

/-- The bytes that end a text: none if it is empty or has no end mark. -/
def ending (ended : Bool) (s : List Char) (code : Int) : Except Fault (List UInt8) :=
  if ended ∧ s ≠ [] then do return [endCode, ← Bytes.byteOf code] else .ok []

def addEntry (t : Typeface) (l : Layout) (e : Entry) : Job Layout :=
  match e.content with
  | .shared pointer => do
    let offset ← demand (l.offsets.find? pointer) (.plain .key)
    return l.place e.pointer offset 0
  | .final => return l.place e.pointer l.text.size 0
  | .text ended s =>
    match Script.encode t s with
    | .error flaw => do
      report e.pointer s flaw
      throw (flaw.fault s)
    | .ok (bytes, code) => do
      let tail ← Job.lift (ending ended s code)
      return l.add e.pointer (bytes ++ tail)

def layOut (t : Typeface) (c : Sheet.Columns) (version : String) (rows : List (List String)) :
    Job Layout :=
  rows.foldlM (fun l row => do
    match ← Job.lift (Sheet.select c version row) with
    | none => return l
    | some e => addEntry t l e) {}

def readTypeface (pointers portraits : String) : Job Typeface := do
  let lettering ← Lettering.read
  let pointers ← Charset.readNames pointers
  let portraits ← Charset.readNamesOfTexts portraits
  return ⟨lettering, pointers, portraits⟩

/-- Builds the texts of a sheet, from the column `column`, for a version. -/
def build (output input pointers portraits column version : String) : Job Unit := do
  let t ← readTypeface pointers portraits
  let sheet := Text.Csv.parse (← Job.readMarkedText input)
  let header ← demand sheet.head? (.plain .noMember)
  let c ← Job.lift (Sheet.Columns.find header column)
  let l ← layOut t c version (sheet.drop 1)
  let spans ← Job.lift l.spans
  let table ← Job.lift (Bytes.words (spans.flatMap fun s => [(s.1 : Int), (s.2 : Int)]))
  let key ← Job.create output
  let count ← Job.lift (Bytes.word spans.length)
  Job.append key ⟨(count ++ table).toArray ++ l.text⟩

end Cartridge.Dialog
