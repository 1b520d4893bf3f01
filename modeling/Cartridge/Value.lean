import Cartridge.Decimal.Shortest
import Cartridge.Fault
import Cartridge.Text.Listing
import Cartridge.Text.Quoted

/-!
# Values

Some data has no fixed shape until it is used: the options of an image writer, the rows of pixels
handed to it, the heading of a pointer list.  A `Value` is such data.  Its operations fail with
`Cause.kind` on a value of the wrong kind.
-/

namespace Cartridge

inductive Width where
  | byte
  | short
  | long
  deriving DecidableEq, Repr, Inhabited

def Width.size : Width → Nat
  | byte => 1
  | short => 2
  | long => 4

/-- Data whose kind is looked at when it is used. -/
inductive Value where
  | none
  | flag (b : Bool)
  | int (n : Int)
  | real (x : Float)
  | text (s : String)
  | bytes (b : List UInt8)
  | array (w : Width) (ns : List Nat)
  | list (vs : List Value)
  | tuple (vs : List Value)
  deriving Inhabited

namespace Value

def isNone : Value → Bool
  | none => true
  | _ => false

/-- Whether a value counts as true: not absent, not zero, not empty. -/
def isTrue : Value → Bool
  | none => false
  | flag b => b
  | int n => n != 0
  | real x => match Binary64.parts x with
    | .finite _ m _ => m != 0
    | _ => true
  | text s => !s.isEmpty
  | bytes b => !b.isEmpty
  | array _ ns => !ns.isEmpty
  | list vs => !vs.isEmpty
  | tuple vs => !vs.isEmpty

def whole? : Value → Option Int
  | flag b => some (if b then 1 else 0)
  | int n => some n
  | _ => Option.none

/-- The number cut off at the point; a text is read as a numeral. -/
def toInt (v : Value) : Except Fault Int :=
  match v with
  | flag b => .ok (if b then 1 else 0)
  | int n => .ok n
  | real x =>
    match Binary64.parts x with
    | .nan => .error (.plain .value)
    | .infinite _ => .error (.plain .overflow)
    | .finite s m e => .ok (Binary64.truncate s m e)
  | text s => demand (Text.readDecimal? s) (.plain .value)
  | bytes b => demand (Text.Numeral.read? 10 (b.map fun x => Char.ofNat x.toNat)) (.plain .value)
  | _ => .error (.plain .kind)

/-- Compares a number with an integer; a number that is none compares with nothing. -/
def compareInt (v : Value) (n : Int) : Except Fault (Option Ordering) :=
  match v with
  | flag b => .ok (some (compare (if b then 1 else 0) n))
  | int k => .ok (some (compare k n))
  | real x =>
    match Binary64.parts x with
    | .nan => .ok Option.none
    | .infinite negative => .ok (some (if negative then .lt else .gt))
    | .finite s m e => .ok (some (Binary64.compareInt s m e n))
  | _ => .error (.plain .kind)

def isBelow (v : Value) (n : Int) : Except Fault Bool := (· == some .lt) <$> v.compareInt n

def isAbove (v : Value) (n : Int) : Except Fault Bool := (· == some .gt) <$> v.compareInt n

def isAtMost (v : Value) (n : Int) : Except Fault Bool :=
  (fun o => o == some .lt || o == some .eq) <$> v.compareInt n

def isInt (v : Value) (n : Int) : Bool :=
  match v.compareInt n with
  | .ok (some .eq) => true
  | _ => false

def isInteger (v : Value) : Except Fault Bool :=
  match v with
  | text _ | bytes _ => .ok false
  | v =>
    match v.toInt with
    | .ok n => .ok (v.isInt n)
    | .error f => if f.cause = .overflow then .error f else .ok false

def toReal (v : Value) : Except Fault Float :=
  match v with
  | flag b => .ok (if b then 1.0 else 0.0)
  | int n => demand (Binary64.ofInt? n) (.plain .overflow)
  | real x => .ok x
  | _ => .error (.plain .kind)

def elements (v : Value) : Except Fault (List Value) :=
  match v with
  | text s => .ok (s.toList.map fun c => text c.toString)
  | bytes b => .ok (b.map fun (x : UInt8) => int x.toNat)
  | array _ ns => .ok (ns.map fun (n : Nat) => int n)
  | list vs => .ok vs
  | tuple vs => .ok vs
  | _ => .error (.plain .kind)

def length (v : Value) : Except Fault Nat := List.length <$> v.elements

mutual

/-- Whether two values are equal: numbers by what they count, sequences element by element. -/
def same : Value → Value → Bool
  | none, none => true
  | text a, text b => a == b
  | bytes a, bytes b => a == b
  | array _ a, array _ b => a == b
  | list a, list b => sameAll a b
  | tuple a, tuple b => sameAll a b
  | real x, real y => x == y
  | real x, v => match v.whole? with
    | some n => isInt (real x) n
    | Option.none => false
  | v, w => match v.whole? with
    | some n => isInt w n
    | Option.none => false

def sameAll : List Value → List Value → Bool
  | [], [] => true
  | a :: as, b :: bs => same a b && sameAll as bs
  | _, _ => false

end

mutual

def render : Value → String
  | none => "None"
  | flag b => if b then "True" else "False"
  | int n => toString n
  | real x => Shortest.text x
  | text s => Text.quote s
  | bytes b => Text.quoteBytes b
  | array w ns =>
    let code := match w with
      | .byte => "'B'"
      | .short => "'H'"
      | .long => "'I'"
    if ns.isEmpty then "array(" ++ code ++ ")"
    else "array(" ++ code ++ ", " ++ Text.bracketed (ns.map toString) ++ ")"
  | list vs => Text.bracketed (renderAll vs)
  | tuple vs => Text.parenthesized (renderAll vs)

/-- The values of a sequence as they stand in a message. -/
def renderAll : List Value → List String
  | [] => []
  | v :: vs => render v :: renderAll vs

end

/-- A value as it is printed: like `render`, but a text stands for itself. -/
def display : Value → String
  | text s => s
  | v => v.render

def get (v : Value) (i : Nat) : Except Fault Value := do demand (← v.elements)[i]? (.plain .index)

def toByte (v : Value) : Except Fault UInt8 :=
  match v.whole? with
  | some n => if 0 ≤ n ∧ n < 0x100 then .ok n.toNat.toUInt8 else .error (.plain .value)
  | Option.none => .error (.plain .kind)

/-- The bytes that a value gives: those of a sequence of whole numbers, or as many zeros as a number
says. -/
def toBytes (v : Value) : Except Fault (List UInt8) :=
  match v with
  | text _ => .error (.plain .kind)
  | v =>
    match v.whole? with
    | some n => if n < 0 then .error (.plain .value) else .ok (List.replicate n.toNat 0)
    | Option.none => do (← v.elements).mapM toByte

end Value

end Cartridge
