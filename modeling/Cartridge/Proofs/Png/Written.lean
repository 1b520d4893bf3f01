import Cartridge.Png.Writer
import Cartridge.Proofs.Png.Samples
import Cartridge.Proofs.Png.Stream
import Cartridge.Proofs.Value
import Mathlib.Data.List.GetD
import Mathlib.Data.List.TakeWhile

/-!
# The parts of a written file

What a writer makes of rows that its sink takes, and what a reader makes of the header.

* `Writer.exists_encodeRows`: the bytes of the rows, cut into parts somewhere.
* `Writer.exists_pieces`: the chunks of image data hold the compressed stream of the parts.
* `Reader.on_takeHeader`: the header is read back.
-/

open List

namespace Cartridge.Png

open Deflate

variable {rows : List Row}

/-! ### Rows -/

section Rows

variable {α : Type} {sink : Sink} {w : Writer} {n : Nat}

/-- A sink adds a row as the given bytes. -/
structure Sink.Adds (sink : Sink) (row : Row) (bytes : List UInt8) : Prop where
  added : (sink row).added = bytes
  outcome : (sink row).outcome = .ok ()

theorem Row.readWhile_of_forall {f : Value → Except Fault α} {vs : List Value} {as : List α}
    (h : List.Forall₂ (fun v a => f v = .ok a) vs as) :
    readWhile f (vs.map .ok) = (as, .ok (), []) := by
  induction h with
  | nil => rfl
  | cons hfirst _ ih =>
    have hbind : (Except.ok _ : Except Fault Value).bind f = .ok _ := hfirst
    rw [map_cons, readWhile, hbind]
    simp only [ih]

theorem numberBelow_int {bound : Nat} (h : n < bound) : numberBelow bound (.int n) = .ok n := by
  have hn : (0 : Int) ≤ n ∧ (n : Int) < bound := by omega
  simp [numberBelow, Value.whole?, hn]

theorem fieldOf_int {size : Nat} (h : n < 0x100 ^ size) :
    fieldOf size (.int n) = .ok (bigEndian size n) := by
  have hlt : (n : Int) < 0x100 ^ size := by exact_mod_cast h
  have hn : (0 : Int) ≤ n ∧ (n : Int) < Int.pow 0x100 size := ⟨Int.natCast_nonneg n, hlt⟩
  simp only [fieldOf, Value.whole?, hn, and_self, if_true, Int.toNat_natCast]

theorem Writer.exists_addRows (hlimit : ∀ n, ∃ b, w.chunkLimit.isBelow n = .ok b)
    {bytes : List (List UInt8)} (h : List.Forall₂ sink.Adds rows bytes) (data : Array UInt8)
    (count : Nat) :
    ∃ parts, w.addRows sink data count (rows.map .ok) = (.ok (parts, count + rows.length), []) ∧
      parts.flatten = data.toList ++ bytes.flatMap (0 :: ·) := by
  induction h generalizing data count with
  | nil => exact ⟨[data.toList], rfl, by simp⟩
  | @cons row b rows bs hrow _ ih =>
    have hdata : (data.push 0 ++ b.toArray).toList = data.toList ++ 0 :: b := by simp
    obtain ⟨below, hbelow⟩ := hlimit ((data.push 0 ++ b.toArray).size : Nat)
    cases below with
    | false =>
      obtain ⟨parts, hparts, hflat⟩ := ih (data.push 0 ++ b.toArray) (count + 1)
      refine ⟨parts, ?_, ?_⟩
      · rw [map_cons, addRows]
        simp only [hrow.added, hrow.outcome, Except.bind, hbelow, hparts]
        rw [length_cons, Nat.add_right_comm, Nat.add_assoc]
      · rw [hflat, hdata, flatMap_cons, append_assoc]
    | true =>
      obtain ⟨parts, hparts, hflat⟩ := ih #[] (count + 1)
      refine ⟨(data.push 0 ++ b.toArray).toList :: parts, ?_, ?_⟩
      · rw [map_cons, addRows]
        simp only [hrow.added, hrow.outcome, Except.bind, hbelow, hparts, Except.map]
        rw [length_cons, Nat.add_right_comm, Nat.add_assoc]
      · rw [flatten_cons, hflat]
        simp

theorem Writer.exists_encodeRows (packed : Bool) (hlimit : ∀ n, ∃ b, w.chunkLimit.isBelow n = .ok b)
    {bytes : List (List UInt8)} (h : List.Forall₂ (w.sink packed).Adds rows bytes) (hne : rows ≠ []) :
    ∃ parts, w.encodeRows packed (rows.map .ok) = (.ok (parts, rows.length), []) ∧
      parts.flatten = bytes.flatMap (0 :: ·) := by
  cases h with
  | nil => exact absurd rfl hne
  | @cons row b rows bs hrow hrows =>
    obtain ⟨parts, hparts, hflat⟩ := w.exists_addRows hlimit hrows (#[0] ++ b.toArray) 1
    refine ⟨parts, ?_, ?_⟩
    · rw [map_cons, encodeRows]
      simp only [hrow.added, hrow.outcome, hparts]
      rw [length_cons, Nat.add_comm]
    · rw [hflat]
      simp

end Rows

/-! ### Files -/

namespace Writer

variable {w : Writer} {parts : List (List UInt8)}

theorem exists_pieces (parts : List (List UInt8)) :
    ∃ pieces, dataChunks parts = pieces.map Reader.dataChunk ∧ pieces ≠ [] ∧
      (∀ piece ∈ pieces, piece.length ≤ longestData) ∧
      pieces.flatten = (deflate parts).flatten := by
  have hflat : ((deflate parts).flatMap (Tile.chunks (longestData - 1))).flatten =
      (deflate parts).flatten := Tile.flatten_flatMap_chunks ..
  refine ⟨(deflate parts).flatMap (Tile.chunks (longestData - 1)), ?_, ?_, ?_, hflat⟩
  · rw [map_flatMap]
    rfl
  · intro hnil
    have hlength := length_flatten_deflate parts
    rw [← hflat, hnil] at hlength
    simp at hlength
  · intro piece hpiece
    obtain ⟨part, -, hpiece⟩ := mem_flatMap.1 hpiece
    exact Tile.length_le_of_mem_chunks hpiece

theorem exists_writePasses (packed : Bool) (hlimit : ∀ n, ∃ b, w.chunkLimit.isBelow n = .ok b)
    {head : List Chunk} (hhead : w.headChunks = .ok head) {bytes : List (List UInt8)}
    (h : List.Forall₂ (w.sink packed).Adds rows bytes) (hne : rows ≠ []) :
    ∃ parts, w.writePasses packed (rows.map .ok) =
        (.ok ⟨encodeFile (head ++ dataChunks parts ++ [Reader.endChunk]), rows.length⟩, []) ∧
      parts.flatten = bytes.flatMap (0 :: ·) := by
  obtain ⟨parts, hparts, hflat⟩ := exists_encodeRows packed hlimit h hne
  refine ⟨parts, ?_, hflat⟩
  rw [writePasses, hhead]
  simp only [hparts]
  rfl

theorem write_of_writePasses {rows left : Rows} {file : File} (hplain : w.interlaced = false)
    (h : w.writePasses false rows = (.ok file, left)) (hheight : w.height.isInt file.rows = true) :
    w.write rows = (.ok file, left) := by
  simp only [write, hplain, Bool.false_eq_true, if_false, h, hheight, if_true]

end Writer

namespace Header

def bytes (h : Header) : List UInt8 :=
  bigEndian 4 h.width ++ bigEndian 4 h.height ++
    [h.depth.toUInt8, h.colourType.toUInt8, 0, 0, h.interlace.toUInt8]

/-- A header that a reader accepts. -/
structure Sound (h : Header) : Prop where
  width : h.width ≤ 0xFFFFFFFF
  height : h.height ≤ 0xFFFFFFFF
  depth : h.depth < 0x100
  colourType : h.colourType < 0x100
  allowed : checkDepthAndType h.depth h.colourType = .ok ()
  compression : h.compression = 0
  filter : h.filter = 0
  interlace : h.interlace ≤ 1

end Header

namespace Reader

variable {r : Reader} {h : Header}

theorem on_takeHeader (hsound : h.Sound) (r : Reader) :
    (takeHeader h.bytes).on r = (.ok (), { r with
      header := some h, layout := some (.ofHeader h), colours := none, alphas := none,
      depths := none }) := by
  have hlength : h.bytes.length = 13 := by simp [Header.bytes]
  have hwidth : ofBigEndian (h.bytes.take 4) = h.width := by
    rw [Header.bytes, append_assoc, take_left' (length_bigEndian ..)]
    exact ofBigEndian_bigEndian (Nat.lt_succ_of_le hsound.width)
  have hheight : ofBigEndian ((h.bytes.drop 4).take 4) = h.height := by
    rw [Header.bytes, append_assoc, drop_left' (length_bigEndian ..),
      take_left' (length_bigEndian ..)]
    exact ofBigEndian_bigEndian (Nat.lt_succ_of_le hsound.height)
  have hdepth : (h.bytes.getD 8 0).toNat = h.depth := by
    exact Nat.mod_eq_of_lt hsound.depth
  have hcolour : (h.bytes.getD 9 0).toNat = h.colourType := by
    exact Nat.mod_eq_of_lt hsound.colourType
  have hcompression : (h.bytes.getD 10 0).toNat = h.compression := by
    rw [hsound.compression]
    rfl
  have hfilter : (h.bytes.getD 11 0).toNat = h.filter := by
    rw [hsound.filter]
    rfl
  have hinterlace : (h.bytes.getD 12 0).toNat = h.interlace := by
    exact Nat.mod_eq_of_lt (Nat.lt_of_le_of_lt hsound.interlace (by decide))
  have hheader : (⟨ofBigEndian (h.bytes.take 4), ofBigEndian ((h.bytes.drop 4).take 4),
      (h.bytes.getD 8 0).toNat, (h.bytes.getD 9 0).toNat, (h.bytes.getD 10 0).toNat,
      (h.bytes.getD 11 0).toNat, (h.bytes.getD 12 0).toNat⟩ : Header) = h := by
    rw [hwidth, hheight, hdepth, hcolour, hcompression, hfilter, hinterlace]
  rw [takeHeader]
  simp only [hlength, hheader, ne_eq, not_true, if_false]
  simp only [hdepth, hcolour, hcompression, hfilter, hinterlace, hsound.compression,
    hsound.filter, Nat.not_lt.2 hsound.interlace, not_true, if_false]
  rw [Scan.on_bind_of_ok (Scan.on_modify ..), Scan.on_bind_of_ok (Scan.on_lift hsound.allowed _)]
  rfl

def headerChunk (h : Header) : Chunk := .named "IHDR" h.bytes

theorem sound_headerChunk (h : Header) : (headerChunk h).Sound := by
  have htag : (tagOf "IHDR").length = 4 := by decide
  have hdata : h.bytes.length = 13 := by simp [Header.bytes]
  refine ⟨htag, ?_⟩
  show h.bytes.length ≤ longestData
  rw [hdata]
  decide

theorem on_takeChunk_header (hsound : h.Sound) (r : Reader) :
    (takeChunk (headerChunk h)).on r = (.ok (), { r with
      header := some h, layout := some (.ofHeader h), colours := none, alphas := none,
      depths := none }) := by
  exact on_takeHeader hsound r

end Reader

end Cartridge.Png
