import Cartridge.Lettering
import Cartridge.Value

/-!
# Fields of pointer lists

A field is text with `\xHH` for codes without a character.  Its stored form ends with an end code,
unless the text itself holds it, and is filled up to a fixed size if the field has one
(`encodeField`).
-/

namespace Cartridge.PointerList

def unknown : String := "?"

/-- The code of a character; an unknown one has that of the question mark. -/
def codeOf (l : Lettering) (c : Char) : Except Fault Lettering.Code :=
  match l.code? c with
  | some code => .ok code
  | none => .letter <$> demand (l.letters.find? unknown) (.plain .key)

def codes (l : Lettering) : List Char → Except Fault (List Lettering.Code)
  | [] => .ok []
  | '\\' :: 'x' :: a :: b :: rest => do
    let n ← demand (Text.Numeral.read? 16 [a, b]) (.plain .value)
    return .letter n :: (← codes l rest)
  | '\\' :: rest =>
    match rest with
    | c :: _ => if c = 'x' then .error (.plain .index) else .error .unmet
    | [] => .error (.plain .index)
  | c :: rest => do
    let code ← codeOf l c
    return code :: (← codes l rest)

theorem codes_of_ne {c : Char} (h : c ≠ '\\') (l : Lettering) (rest : List Char) :
    codes l (c :: rest) = (do
      let code ← codeOf l c
      return code :: (← codes l rest)) := by
  rw [codes]
  · intro a b r hc
    exact absurd hc h
  · exact h

def valueOf : Lettering.Code → Value
  | .letter n => .int n
  | .kanji n => .list [.int Lettering.kanjiMark, .int n]

/-- The codes of a field with its end code, which is added unless it is among them. -/
def ended (cs : List Lettering.Code) (stop : Value) : List Value :=
  let numbers := (cs.flatMap Lettering.Code.numbers).map Value.int
  if stop.isNone || cs.any (fun c => (valueOf c).same stop) then numbers else numbers ++ [stop]

inductive FieldError where
  | fault (f : Fault)
  | tooLong (codes : List Value) (size : Value)

/-- The codes of a field, filled up to its size if it has one. -/
def filled (codes : List Value) (size fill : Value) : Except FieldError (List Value) := do
  if !size.isTrue then return codes
  else if ← (size.isAbove codes.length).mapError .fault then
    match size.whole? with
    | some n => return codes ++ List.replicate (n.toNat - codes.length) fill
    | none => throw (.fault (.plain .kind))
  else if ← (size.isBelow codes.length).mapError .fault then throw (.tooLong codes size)
  else return codes

/-- The size of a field and its filling, absent if the field has no fixed size. -/
def sizeOf (spec : Value) : Except Fault (Value × Value) :=
  if spec.isNone then .ok (.none, .none)
  else do
    match ← spec.elements with
    | [size, fill] => return (size, fill)
    | _ => throw (.plain .value)

/-- The stored form of a field with the end code `stop` and the size `spec`. -/
def encodeField (l : Lettering) (text : List Char) (stop spec : Value) :
    Except FieldError (List UInt8) := do
  if stop.isNone && spec.isNone then throw (.fault .unmet)
  let (size, fill) ← (sizeOf spec).mapError .fault
  let cs ← (codes l text).mapError .fault
  let values ← filled (ended cs stop) size fill
  (values.mapM Value.toByte).mapError .fault

end Cartridge.PointerList
