import Cartridge.Fault

/-!
# Bytes and words

Numbers as they are stored: a byte, or a word of two bytes with the low one first.  Writing checks
the range (`byteOf`, `word`), and reading checks that the bytes are there (`byteAt`, `wordAt`).
-/

namespace Cartridge.Bytes

/-! ### Writing -/

def byteOf (n : Int) : Except Fault UInt8 :=
  if 0 ≤ n ∧ n < 0x100 then .ok n.toNat.toUInt8 else .error (.plain .value)

def ofInts (ns : List Int) : Except Fault (List UInt8) := ns.mapM byteOf

/-- The two bytes of a word, the low one first. -/
def wordBytes (n : Nat) : List UInt8 := [(n % 0x100).toUInt8, (n / 0x100).toUInt8]

def word (n : Int) : Except Fault (List UInt8) :=
  if 0 ≤ n ∧ n < 0x10000 then .ok (wordBytes n.toNat) else .error (.plain .field)

def words (ns : List Int) : Except Fault (List UInt8) := List.flatten <$> ns.mapM word

/-! ### Reading -/

/-- A position to go to, which must not lie before the start. -/
def position (pos : Int) : Except Fault Nat :=
  if pos < 0 then .error (.plain .position) else .ok pos.toNat

def byteAt (data : ByteArray) (pos : Nat) : Except Fault Nat :=
  if h : pos < data.size then .ok data[pos].toNat else .error (.plain .field)

def wordAt (data : ByteArray) (pos : Nat) : Except Fault Nat :=
  if h : pos + 1 < data.size then .ok (data[pos].toNat + 0x100 * data[pos + 1].toNat)
  else .error (.plain .field)

def wordsAt (data : ByteArray) (pos n : Nat) : Except Fault (List Nat) :=
  (List.range n).mapM fun i => wordAt data (pos + 2 * i)

def rest (data : ByteArray) (pos : Nat) : ByteArray := data.extract pos data.size

end Cartridge.Bytes
