import Cartridge.Png.Samples
import Cartridge.Value

/-!
# Rows of samples

The rows that a writer is given are values or, for images of pixels that are sequences themselves,
streams that can be read only once.  A `Sink` adds a row to the bytes of an image.  It may fail
halfway: `Attempt` says what it added, how it ended, and what is left of the row, which matters
because a writer tries a failing first row again with its samples cut to integers.
-/

namespace Cartridge.Png

inductive Row where
  | whole (v : Value)
  /-- Elements that are gone once they are read; some of them may not be readable. -/
  | once (elements : List (Except Fault Value))

structure Attempt where
  added : List UInt8
  outcome : Except Fault Unit
  left : Row

abbrev Sink := Row → Attempt

namespace Row

/-- The elements of a row, in order, as far as they can be read. -/
def elements : Row → Except Fault (List (Except Fault Value))
  | whole v => (·.map .ok) <$> v.elements
  | once es => .ok es

/-- Reads elements with `f` until one fails: what was read, how it ended, and what is left. -/
def readWhile {α : Type} (f : Value → Except Fault α) :
    List (Except Fault Value) → List α × Except Fault Unit × List (Except Fault Value)
  | [] => ([], .ok (), [])
  | e :: rest =>
    match e.bind f with
    | .error fault => ([], .error fault, rest)
    | .ok a =>
      let (as, out, left) := readWhile f rest
      (a :: as, out, left)

/-- Reads all elements of a row with `f`: what was read, how it ended, and what is left. -/
def read {α : Type} (row : Row) (f : Value → Except Fault α) : List α × Except Fault Unit × Row :=
  match row with
  | whole v =>
    match v.elements with
    | .error fault => ([], .error fault, row)
    | .ok es =>
      let (as, out, _) := readWhile f (es.map .ok)
      (as, out, row)
  | once es =>
    let (as, out, left) := readWhile f es
    (as, out, once left)

end Row

/-! ### Numbers of a width -/

def numberBelow (bound : Nat) (v : Value) : Except Fault Nat :=
  match v.whole? with
  | none => .error (.plain .kind)
  | some n => if 0 ≤ n ∧ n < bound then .ok n.toNat else .error (.plain .overflow)

def byteOf (v : Value) : Except Fault UInt8 := Nat.toUInt8 <$> numberBelow 0x100 v

/-- The bytes of an integer in a binary field of `n` bytes. -/
def fieldOf (n : Nat) (v : Value) : Except Fault (List UInt8) :=
  match v.whole? with
  | none => .error (.plain .field)
  | some k =>
    if 0 ≤ k ∧ k < Int.pow 0x100 n then .ok (bigEndian n k.toNat) else .error (.plain .field)

/-! ### Sinks -/

namespace Sink

/-- Adds samples of one byte, one after the other.  An array is added at once and has to be one of
bytes. -/
def bytes : Sink := fun row =>
  match row with
  | .whole (.array .byte ns) => ⟨ns.map Nat.toUInt8, .ok (), row⟩
  | .whole (.array _ _) => ⟨[], .error (.plain .kind), row⟩
  | row =>
    let (bs, out, left) := row.read byteOf
    ⟨bs, out, left⟩

/-- Adds samples of two bytes, all at once.  The number of samples must be known. -/
def words : Sink := fun row =>
  match row with
  | .once _ => ⟨[], .error (.plain .kind), row⟩
  | .whole v =>
    match v.elements.bind fun es => es.mapM (fieldOf 2) with
    | .error fault => ⟨[], .error fault, row⟩
    | .ok fields => ⟨fields.flatten, .ok (), row⟩

def numbers (left : Row) (ns : List Nat) : Attempt :=
  let fine := ns.takeWhile (· < 0x100)
  ⟨fine.map Nat.toUInt8, if fine.length = ns.length then .ok () else .error (.plain .overflow), left⟩

def packed (depth : Nat) : Sink := fun row =>
  match row with
  | .whole (.text _) => ⟨[], .error (.plain .kind), row⟩
  | row =>
    let (ns, out, left) := row.read (numberBelow 0x100)
    match out with
    | .error fault => ⟨[], .error fault, left⟩
    | .ok _ => numbers left (packSamples depth ns)

/-- Changes the samples of a row by `f` before they are added. -/
def mapped (f : Value → Except Fault Value) (sink : Sink) : Sink := fun row =>
  let (vs, out, left) := row.read f
  match out with
  | .error fault => ⟨[], .error fault, left⟩
  | .ok _ =>
    let a := sink (.whole (.list vs))
    ⟨a.added, a.outcome, left⟩

end Sink

def roundReal (x : Float) : Except Fault Int :=
  match Binary64.parts x with
  | .nan => .error (.plain .value)
  | .infinite _ => .error (.plain .overflow)
  | .finite s m e => .ok (Binary64.round s m e)

def scaled (factor : Float) (v : Value) : Except Fault Value := do
  let x ← v.toReal
  return .int (← roundReal (factor * x))

def cutToInt (v : Value) : Except Fault Value := .int <$> v.toInt

end Cartridge.Png
