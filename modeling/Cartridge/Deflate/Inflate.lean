import Cartridge.Checksum.Adler32
import Cartridge.Deflate.Code

/-!
# Reading compressed streams

`inflate` reads a compressed stream with its header and checksum.  A stream that stops early is no
error: everything up to the last complete symbol is there, and `Status.short` says that more
should have come.  Bytes after the end of the stream are not looked at.
-/

namespace Cartridge.Deflate

inductive Status where
  | complete
  | short
  | malformed
  deriving DecidableEq, Repr

structure Inflated where
  output : Array UInt8
  status : Status

inductive Stop where
  | short
  | malformed

def Stop.status : Stop → Status
  | short => .short
  | malformed => .malformed

/-- The bit at a position, the lowest of each byte first. -/
def bitAt? (data : ByteArray) (pos : Nat) : Option Nat :=
  data[pos / 8]?.map fun b => (b.toNat >>> (pos % 8)) % 2

/-- The number in the `n` bits from a position on, the lowest first. -/
def bitsAt (data : ByteArray) (pos n : Nat) : Except Stop Nat :=
  if data.size * 8 < pos + n then .error .short
  else .ok ((List.range n).foldl (fun v i => v + ((bitAt? data (pos + i)).getD 0) <<< i) 0)

def symbolAt (data : ByteArray) (code : Code) (pos : Nat) : Except Stop (Nat × Nat) :=
  go (longestWord + 1) code.start pos
where
  go : Nat → Code.Cursor → Nat → Except Stop (Nat × Nat)
    | 0, _, _ => .error .malformed
    | fuel + 1, cursor, pos =>
      match bitAt? data pos with
      | none => .error .short
      | some bit =>
        match code.step cursor bit with
        | .symbol s => .ok (s, pos + 1)
        | .within cursor => go fuel cursor (pos + 1)
        | .nothing => .error .malformed

/-! ### Lengths and distances -/

/-- The first length and the number of extra bits of each length symbol from 257 on. -/
def lengthBase : Array (Nat × Nat) :=
  #[(3, 0), (4, 0), (5, 0), (6, 0), (7, 0), (8, 0), (9, 0), (10, 0), (11, 1), (13, 1), (15, 1),
    (17, 1), (19, 2), (23, 2), (27, 2), (31, 2), (35, 3), (43, 3), (51, 3), (59, 3), (67, 4),
    (83, 4), (99, 4), (115, 4), (131, 5), (163, 5), (195, 5), (227, 5), (258, 0)]

/-- The first distance and the number of extra bits of each distance symbol. -/
def distanceBase : Array (Nat × Nat) :=
  #[(1, 0), (2, 0), (3, 0), (4, 0), (5, 1), (7, 1), (9, 2), (13, 2), (17, 3), (25, 3), (33, 4),
    (49, 4), (65, 5), (97, 5), (129, 6), (193, 6), (257, 7), (385, 7), (513, 8), (769, 8),
    (1025, 9), (1537, 9), (2049, 10), (3073, 10), (4097, 11), (6145, 11), (8193, 12),
    (12289, 12), (16385, 13), (24577, 13)]

def extended (data : ByteArray) (base : Array (Nat × Nat)) (symbol pos : Nat) :
    Except Stop (Nat × Nat) :=
  match base[symbol]? with
  | none => .error .malformed
  | some (first, n) => do
    let extra ← bitsAt data pos n
    return (first + extra, pos + n)

/-- Copies `n` bytes from `distance` places back, one at a time. -/
def copyBack (distance : Nat) : Nat → Array UInt8 → Array UInt8
  | 0, out => out
  | n + 1, out => copyBack distance n (out.push (out.getD (out.size - distance) 0))

/-! ### Blocks -/

structure Codes where
  literals : Code
  distances : Code

def fixedCodes : Codes :=
  let literals := List.replicate 144 8 ++ List.replicate 112 9 ++ List.replicate 24 7 ++
    List.replicate 8 8
  let distances := List.replicate 32 5
  ⟨⟨Code.countsOf literals, Code.symbolsOf literals⟩,
    ⟨Code.countsOf distances, Code.symbolsOf distances⟩⟩

def lengthOrder : List Nat :=
  [16, 17, 18, 0, 8, 7, 9, 6, 10, 5, 11, 4, 12, 3, 13, 2, 14, 1, 15]

/-- The next symbol of the code of lengths; a code without words gives zeros of one bit. -/
def lengthSymbolAt (data : ByteArray) (code : Code) (pos : Nat) : Except Stop (Nat × Nat) :=
  if code.symbols.isEmpty then do
    discard (bitsAt data pos 1)
    return (0, pos + 1)
  else symbolAt data code pos

/-- Reads code lengths until there are `total`; at most `fuel` symbols are read. -/
def readLengths (data : ByteArray) (code : Code) (total : Nat) :
    Nat → Nat → Array Nat → Except Stop (Array Nat × Nat)
  | 0, _, _ => .error .malformed
  | fuel + 1, pos, lengths =>
    if total ≤ lengths.size then .ok (lengths, pos)
    else do
      let (s, pos) ← lengthSymbolAt data code pos
      if s < 16 then readLengths data code total fuel pos (lengths.push s)
      else
        let (value?, first, n) :=
          if s = 16 then (lengths.back?, 3, 2)
          else if s = 17 then (some 0, 3, 3) else (some 0, 11, 7)
        let extra ← bitsAt data pos n
        let count := first + extra
        match value? with
        | none => throw .malformed
        | some value =>
          if total < lengths.size + count then throw .malformed
          else readLengths data code total fuel (pos + n) (lengths ++ Array.replicate count value)

def readCodes (data : ByteArray) (pos : Nat) : Except Stop (Codes × Nat) := do
  let head ← bitsAt data pos 14
  let literals := head % 32 + 257
  let distances := head / 32 % 32 + 1
  let given := head / 1024 + 4
  if 286 < literals ∨ 30 < distances then throw .malformed
  let pos := pos + 14
  let short ← (List.range given).mapM fun i => bitsAt data (pos + 3 * i) 3
  let pos := pos + 3 * given
  let named := lengthOrder.zip short
  let lengths := (List.range 19).map fun s => (named.lookup s).getD 0
  let some code := Code.ofLengths? true lengths | throw .malformed
  let total := literals + distances
  let (all, pos) ← readLengths data code total (total + 1) pos #[]
  let all := all.toList
  if all[256]? = some 0 then throw .malformed
  let some literalCode := Code.ofLengths? false (all.take literals) | throw .malformed
  let some distanceCode := Code.ofLengths? false (all.drop literals) | throw .malformed
  return (⟨literalCode, distanceCode⟩, pos)

/-- The symbols of a block until its end or the end of the data: the position after the block, or
why there is none, and the output.  At most `fuel` symbols are read. -/
def readSymbols (data : ByteArray) (codes : Codes) :
    Nat → Nat → Array UInt8 → Except Stop Nat × Array UInt8
  | 0, _, out => (.error .malformed, out)
  | fuel + 1, pos, out =>
    match symbolAt data codes.literals pos with
    | .error e => (.error e, out)
    | .ok (s, pos) =>
      if s < 256 then readSymbols data codes fuel pos (out.push s.toUInt8)
      else if s = 256 then (.ok pos, out)
      else
        let reach : Except Stop (Nat × Nat × Nat) := do
          let (length, pos) ← extended data lengthBase (s - 257) pos
          let (d, pos) ← symbolAt data codes.distances pos
          let (distance, pos) ← extended data distanceBase d pos
          return (length, distance, pos)
        match reach with
        | .error e => (.error e, out)
        | .ok (length, distance, pos) =>
          if out.size < distance then (.error .malformed, out)
          else readSymbols data codes fuel pos (copyBack distance length out)

def readStored (data : ByteArray) (pos : Nat) (out : Array UInt8) :
    Except Stop Nat × Array UInt8 :=
  let at0 := (pos + 7) / 8
  match bitsAt data (at0 * 8) 32 with
  | .error e => (.error e, out)
  | .ok head =>
    let size := head % 0x10000
    if head / 0x10000 ≠ 0xFFFF - size then (.error .malformed, out)
    else
      let bytes := data.extract (at0 + 4) (at0 + 4 + size)
      let out := out ++ bytes.data
      (if bytes.size < size then .error .short else .ok ((at0 + 4 + size) * 8), out)

/-- One block: whether it is the last one with the position after it, and the output. -/
def readBlock (data : ByteArray) (pos : Nat) (out : Array UInt8) :
    Except Stop (Bool × Nat) × Array UInt8 :=
  match bitsAt data pos 3 with
  | .error e => (.error e, out)
  | .ok head =>
    let last := head % 2 == 1
    let finish (r : Except Stop Nat × Array UInt8) := (r.1.map fun p => (last, p), r.2)
    match head / 2 with
    | 0 => finish (readStored data (pos + 3) out)
    | 1 => finish (readSymbols data fixedCodes (data.size * 8 + 1) (pos + 3) out)
    | 2 =>
      match readCodes data (pos + 3) with
      | .error e => (.error e, out)
      | .ok (codes, pos) => finish (readSymbols data codes (data.size * 8 + 1) pos out)
    | _ => (.error .malformed, out)

def word32At? (data : ByteArray) (i : Nat) : Option Nat :=
  if i + 4 ≤ data.size then
    some ((data.extract i (i + 4)).data.foldl (fun n b => n * 0x100 + b.toNat) 0)
  else none

def checkSum (data : ByteArray) (pos : Nat) (out : Array UInt8) : Status :=
  match word32At? data ((pos + 7) / 8) with
  | none => .short
  | some sum => if sum = Checksum.adler32 out then .complete else .malformed

def readBlocks (data : ByteArray) : Nat → Nat → Array UInt8 → Inflated
  | 0, _, out => ⟨out, .malformed⟩
  | fuel + 1, pos, out =>
    match readBlock data pos out with
    | (.error e, out) => ⟨out, e.status⟩
    | (.ok (true, pos), out) => ⟨out, checkSum data pos out⟩
    | (.ok (false, pos), out) => readBlocks data fuel pos out

def inflate (data : ByteArray) : Inflated :=
  if h : 1 < data.size then
    let method := data[0].toNat
    let flags := data[1].toNat
    if (method * 0x100 + flags) % 31 ≠ 0 ∨ method % 16 ≠ 8 ∨ 7 < method / 16 then ⟨#[], .malformed⟩
    else if flags / 32 % 2 = 1 then ⟨#[], if data.size < 6 then .short else .malformed⟩
    else readBlocks data (data.size * 8) 16 #[]
  else ⟨#[], .short⟩

end Cartridge.Deflate
