import Cartridge.Bytes
import Cartridge.Charset

/-!
# Reading dialog text

Stored text is a sequence of codes: letters, and commands with their arguments.  `readToken` reads
one of them, and `readSegment` a whole text up to its end mark or up to the room that it has.

A command whose arguments make no sense is passed over, and a byte without meaning is shown as
`<$HH>`.  The last text of a section is different: the first such byte ends it, and it is shown as
`<FINAL>`.  A text of four blanks is padding, and everything after it is passed over.
-/

namespace Cartridge.Dialog

structure Font where
  letters : Charset
  kanji : Charset
  portraits : Charset

structure Names where
  known : Table Int String
  /-- The names that were made up, with their addresses. -/
  added : List (String × Nat) := []
  deriving DecidableEq

/-- The name of an address, which is made up if it has none. -/
def Names.name (ns : Names) (address : Nat) : String × Names :=
  match ns.known.find? address with
  | some name => (name, ns)
  | none =>
    let name := "BUF" ++ Text.Numeral.upperHex 2 ns.known.size
    (name, { known := ns.known.insert address name, added := ns.added ++ [(name, address)] })

/-! ### Tokens -/

inductive Token where
  | shown (text : List Char) (next : Nat)
  | insertion (address : Nat) (next : Nat)
  | stop (code : Nat) (next : Nat)
  | broken (next : Nat)
  | unknown
  deriving DecidableEq, Repr

def byte? (image : ByteArray) (pos : Nat) : Option Nat :=
  if h : pos < image.size then some image[pos].toNat else none

def bracketed (s : String) : List Char := ("<" ++ s ++ ">").toList

def digits (n : Nat) : String := Text.Numeral.upperHex 2 n

def sidesOf? (n : Nat) : Option String :=
  if n = 0x00 then some "LL" else if n = 0x01 then some "LR" else if n = 0x10 then some "RL"
  else if n = 0x11 then some "RR" else if n = 0xFF then some "CC" else none

/-- A change of speed; the speed zero is not shown. -/
def speedToken (image : ByteArray) (pos : Nat) : Token :=
  match byte? image pos with
  | none => .broken pos
  | some n => .shown (if n = 0 then [] else bracketed ("S" ++ digits n)) (pos + 1)

/-- An insertion; the address zero is not shown. -/
def insertionToken (image : ByteArray) (pos : Nat) : Token :=
  match byte? image pos, byte? image (pos + 1) with
  | some low, some high =>
    let address := low + 0x100 * high
    if address = 0 then .shown [] (pos + 2) else .insertion address (pos + 2)
  | some _, none => .broken (pos + 1)
  | none, _ => .broken pos

def portraitToken (f : Font) (image : ByteArray) (pos : Nat) : Token :=
  match byte? image pos with
  | none => .broken pos
  | some n =>
    match sidesOf? n, byte? image (pos + 1) with
    | none, _ | _, none => .broken (pos + 1)
    | some sides, some n =>
      match f.portraits.find? n, byte? image (pos + 2) with
      | none, _ | _, none => .broken (pos + 2)
      | some name, some face =>
        .shown (bracketed ("@" ++ sides ++ "," ++ name ++ "," ++ digits face)) (pos + 3)

def kanjiToken (f : Font) (image : ByteArray) (pos : Nat) : Token :=
  match byte? image pos with
  | none => .broken pos
  | some n =>
    match f.kanji.find? n with
    | none => .broken (pos + 1)
    | some text => .shown text.toList (pos + 1)

def stopToken (image : ByteArray) (pos : Nat) : Token :=
  match byte? image pos with
  | none => .broken pos
  | some code => .stop code (pos + 1)

/-- Reads the token of the code `b`, whose arguments start at `pos`. -/
def readToken (f : Font) (image : ByteArray) (b : Nat) (pos : Nat) : Token :=
  match b with
  | 0xCC => stopToken image pos
  | 0xCD => .shown (bracketed "CD") pos
  | 0xCE => speedToken image pos
  | 0xCF => .shown (bracketed "CF") pos
  | 0xD0 => insertionToken image pos
  | 0xD1 => .shown (bracketed "D1") pos
  | 0xD2 => portraitToken f image pos
  | 0xD3 => kanjiToken f image pos
  | b =>
    match f.letters.find? b with
    | some text => .shown text.toList pos
    | none => .unknown

/-! ### Texts -/

/-- The largest end code after which the next text starts; a larger one is itself the start of the
next text. -/
def lastEndCode : Nat := 4

/-- The text of an end code after `text`: nothing for zero, unless the text is empty. -/
def withEnd (text : List Char) (code : Nat) : List Char :=
  if code = 0 ∧ text ≠ [] then text else text ++ bracketed ("*" ++ digits code)

/-- A text that was read: whether its end mark was met, the text, the position after it and the
names. -/
structure Segment where
  ended : Bool
  text : List Char
  next : Nat
  names : Names
  deriving DecidableEq

/-- Reads at most `left` tokens after the text `done`, which stands in reverse order.  If `final`,
the first code without meaning ends the text. -/
def readTokens (f : Font) (image : ByteArray) (final : Bool) :
    Nat → Nat → List Char → Names → Except Fault Segment
  | 0, pos, done, names => .ok ⟨false, done.reverse, pos, names⟩
  | left + 1, pos, done, names =>
    match byte? image pos with
    | none => .error (.plain .field)
    | some b =>
      if done = [' ', ' ', ' ', ' '] then
        if final then .ok ⟨false, done.reverse, pos + 1, names⟩
        else readTokens f image final left (pos + 1) done names
      else match readToken f image b (pos + 1) with
        | .shown text next => readTokens f image final left next (text.reverse ++ done) names
        | .insertion address next =>
          let (name, names) := names.name address
          readTokens f image final left next ((bracketed ("&" ++ name)).reverse ++ done) names
        | .stop code next =>
          .ok ⟨true, withEnd done.reverse code, if code ≤ lastEndCode then next else next - 1, names⟩
        | .broken next =>
          if final then .ok ⟨false, done.reverse, next, names⟩
          else readTokens f image final left next done names
        | .unknown =>
          if final then .ok ⟨false, done.reverse, pos + 1, names⟩
          else readTokens f image final left (pos + 1) ((bracketed ("$" ++ digits b)).reverse ++ done) names

/-- Reads the text at a position, of at most `room` tokens. -/
def readSegment (f : Font) (image : ByteArray) (final : Bool) (room : Int) (pos : Nat)
    (names : Names) : Except Fault Segment := do
  let s ← readTokens f image final room.toNat pos [] names
  if s.ended then return s
  else if final then
    discard (Bytes.wordAt image s.next)
    return { s with text := "<FINAL>".toList, next := s.next + 2 }
  else return { s with text := "<NOTERM:".toList ++ s.text ++ ['>'] }

end Cartridge.Dialog
