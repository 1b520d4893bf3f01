import Cartridge.Png.View
import Cartridge.Proofs.Deflate.Stored
import Cartridge.Proofs.Png.Chunks

/-!
# Lines of image data

The image data of a file comes in chunks that end anywhere, of the compressed stream as well as of
its lines.  None of this matters for the lines that are read.

* `Scanlines.complete_append`: the lines of two pieces of data are those of the first and, with what
  it leaves over, those of the second.
* `Scanlines.complete_plain`: lines that are not filtered are read as they are.
-/

open List

namespace Cartridge.Png

open Deflate Scan

variable {data piece : List UInt8}

/-! ### Lines -/

namespace Scanlines

variable {rowBytes unit : Nat} {held more : List UInt8} {above : Array UInt8} {s s' : Scanlines}
  {lines : List (Array UInt8)}

/-- What becomes of more data behind lines that ended with an outcome. -/
def after (rowBytes unit : Nat) (more : List UInt8) :
    Except Fault Scanlines → List (Array UInt8) × Except Fault Scanlines
  | .error fault => ([], .error fault)
  | .ok s => complete rowBytes unit (s.held ++ more) s.above

theorem complete_append {outcome : Except Fault Scanlines}
    (h : complete rowBytes unit held above = (lines, outcome)) (more : List UInt8) :
    complete rowBytes unit (held ++ more) above =
      (lines ++ (after rowBytes unit more outcome).1, (after rowBytes unit more outcome).2) := by
  fun_induction complete rowBytes unit held above generalizing lines with
  | case1 above | case2 above number rest hshort =>
    obtain ⟨rfl, rfl⟩ := Prod.mk.inj h
    rfl
  | case3 above number rest hlong fault hundo =>
    obtain ⟨rfl, rfl⟩ := Prod.mk.inj h
    have hle : rowBytes ≤ rest.length := Nat.le_of_not_lt hlong
    rw [cons_append, complete, if_neg (by simp; omega), take_append_of_le_length hle]
    simp only [hundo]
    rfl
  | case4 above number rest hlong line hundo lines' outcome' hnext ih =>
    obtain ⟨rfl, rfl⟩ := Prod.mk.inj h
    have hle : rowBytes ≤ rest.length := Nat.le_of_not_lt hlong
    rw [cons_append, complete, if_neg (by simp; omega),
      take_append_of_le_length hle, drop_append_of_le_length hle]
    simp only [hundo, ih hnext]
    rfl

/-- What is held makes up no line. -/
def Settled (rowBytes unit : Nat) (s : Scanlines) : Prop :=
  complete rowBytes unit s.held s.above = ([], .ok s)

theorem settled_of_complete (h : complete rowBytes unit held above = (lines, .ok s)) :
    Settled rowBytes unit s := by
  fun_induction complete rowBytes unit held above generalizing lines with
  | case1 above =>
    obtain ⟨rfl, hs⟩ := Prod.mk.inj h
    obtain rfl := Except.ok.inj hs
    rw [Settled, complete]
  | case2 above number rest hshort =>
    obtain ⟨rfl, hs⟩ := Prod.mk.inj h
    obtain rfl := Except.ok.inj hs
    rw [Settled, complete, if_pos hshort]
  | case3 above number rest hlong fault hundo =>
    obtain ⟨-, hs⟩ := Prod.mk.inj h
    cases hs
  | case4 above number rest hlong line hundo lines' outcome hnext ih =>
    obtain ⟨rfl, rfl⟩ := Prod.mk.inj h
    exact ih hnext

theorem complete_plain (unit : Nat) (above : Array UInt8) {rows : List (List UInt8)}
    (h : ∀ row ∈ rows, row.length = rowBytes) :
    ∃ last, complete rowBytes unit (rows.flatMap (0 :: ·)) above =
      (rows.map List.toArray, .ok ⟨[], last⟩) := by
  induction rows generalizing above with
  | nil => exact ⟨above, by rw [flatMap_nil, complete]; rfl⟩
  | cons row rows ih =>
    obtain ⟨hrow, hrows⟩ := forall_mem_cons.1 h
    obtain ⟨last, hlast⟩ := ih row.toArray hrows
    refine ⟨last, ?_⟩
    have hundo : undoNumbered (0 : UInt8).toNat unit row.toArray above = .ok row.toArray := rfl
    rw [flatMap_cons, cons_append, complete, if_neg (by simp; omega),
      take_left' hrow, drop_left' hrow]
    simp only [hundo, hlast, map_cons]

theorem exists_of_complete_append
    (h : complete rowBytes unit (held ++ more) above = (lines, .ok s')) :
    ∃ first s rest, complete rowBytes unit held above = (first, .ok s) ∧
      complete rowBytes unit (s.held ++ more) s.above = (rest, .ok s') ∧ lines = first ++ rest := by
  rcases hfirst : complete rowBytes unit held above with ⟨first, fault | s⟩
  · rw [complete_append hfirst] at h
    cases (Prod.mk.inj h).2
  · rw [complete_append hfirst] at h
    obtain ⟨hlines, hs⟩ := Prod.mk.inj h
    exact ⟨first, s, _, rfl, Prod.ext rfl hs, hlines.symm⟩

end Scanlines

/-! ### Compressed data -/

namespace Inflow

variable {s : Inflow} {parts : List (List UInt8)}

/-- The data that came is the start of a stream, and all that can be was taken out. -/
structure Along (parts : List (List UInt8)) (s : Inflow) : Prop where
  given : s.given.data.toList <+: (deflate parts).flatten
  taken : s.taken = (inflate s.given).output.size

theorem inflate_start {data : ByteArray}
    (h : data.data.toList <+: (deflate parts).flatten) :
    (inflate data).output.toList <+: parts.flatten := by
  have hwhole : (⟨(deflate parts).flatten.toArray⟩ : ByteArray).data.toList <+:
      (deflate parts).flatten := prefix_rfl
  have hgrows := inflate_mono h hwhole
  rwa [inflate_deflate] at hgrows

theorem Along.add (h : s.Along parts)
    (hdata : s.given.data.toList ++ data <+: (deflate parts).flatten) :
    ∃ bytes s', s.add data = .ok (bytes, s') ∧ s'.Along parts ∧
      s'.given.data.toList = s.given.data.toList ++ data ∧
      parts.flatten.drop s.taken = bytes ++ parts.flatten.drop s'.taken := by
  set given : ByteArray := s.given ++ ⟨data.toArray⟩ with hgiven
  have hlist : given.data.toList = s.given.data.toList ++ data := by
    rw [ByteArray.data_append, Array.toList_append]
  rw [← hlist] at hdata
  refine ⟨((inflate given).output.extract s.taken
    (inflate given).output.size).toList, ⟨given, (inflate given).output.size⟩,
    ?_, ⟨hdata, rfl⟩, hlist, ?_⟩
  · rw [Inflow.add, if_neg (inflate_ne_malformed hdata)]
  · have hstart : s.given.data.toList <+: given.data.toList := hlist ▸ prefix_append ..
    have hgrows := (inflate_mono hstart hdata).length_le
    obtain ⟨rest, hrest⟩ := inflate_start hdata
    rw [Array.length_toList, ← h.taken] at hgrows
    have hsize : (inflate given).output.toList.length =
        (inflate given).output.size := Array.length_toList
    rw [← hrest, drop_append_of_le_length (by omega), Array.toList_extract,
      extract_eq_take_drop, drop_left' hsize,
      take_of_length_le (by rw [length_drop, hsize])]

theorem Along.taken_eq (h : s.Along parts)
    (hall : s.given.data.toList = (deflate parts).flatten) :
    s.taken = parts.flatten.length := by
  have hgiven : s.given = ⟨(deflate parts).flatten.toArray⟩ := by
    rw [← hall]
  rw [h.taken, hgiven, inflate_deflate, size_toArray]

end Inflow

namespace Reader

variable {α : Type} {r : Reader} {h : Header} {l : Layout} {c : Chunk} {cs : List Chunk}

def dataChunk (data : List UInt8) : Chunk := .named "IDAT" data

def endChunk : Chunk := .named "IEND" []

theorem sound_dataChunk (h : data.length ≤ longestData) : (dataChunk data).Sound := by
  have htag : (tagOf "IDAT").length = 4 := by decide
  exact ⟨htag, h⟩

theorem on_nextData (lenient : Bool) (fuel : Nat) (hdata : data.length ≤ longestData)
    (hlayout : r.layout = some l) (hcolours : (l.indexed && !r.hasColours) = false)
    (hcomes : Comes r (dataChunk data :: cs)) :
    ∃ pos, (nextData lenient (fuel + 1)).on r = (.ok (some data), { r with pos, pending := none }) ∧
      Comes { r with pos, pending := none } cs := by
  obtain ⟨pos, hchunk, hrest⟩ := on_chunk lenient (sound_dataChunk hdata) hcomes
  refine ⟨pos, ?_, hrest⟩
  have hlayout' : Scan.layout.on { r with pos, pending := none } = (.ok l, _) :=
    on_layout hlayout
  have hcolours' : (l.indexed && !hasColours { r with pos, pending := none }) = false := hcolours
  rw [nextData, on_bind_of_ok hchunk]
  simp only [dataChunk, Chunk.named, (by decide : tagOf "IDAT" ≠ tagOf "IEND"), if_false, ne_eq,
    not_true]
  rw [on_bind_of_ok hlayout', on_bind_of_ok (on_get _)]
  simp only [hcolours', Bool.false_eq_true, if_false, on_pure]

theorem on_nextData_end (lenient : Bool) (fuel : Nat) (hcomes : Comes r (endChunk :: cs)) :
    ∃ pos, (nextData lenient (fuel + 1)).on r = (.ok none, { r with pos, pending := none }) := by
  obtain ⟨pos, hchunk, -⟩ := on_chunk lenient ⟨by decide, by decide⟩ hcomes
  refine ⟨pos, ?_⟩
  rw [nextData, on_bind_of_ok hchunk]
  rfl

theorem on_chunkBound (r : Reader) : chunkBound.on r = (.ok (r.data.size + 1), r) := rfl

/-- A reader comes to pieces of the compressed stream of `parts`, behind what came of it before. -/
structure Feeds (l : Layout) (parts pieces : List (List UInt8)) (inflow : Inflow) (r : Reader) :
    Prop where
  short : ∀ piece ∈ pieces, piece.length ≤ longestData
  layout : r.layout = some l
  colours : (l.indexed && !r.hasColours) = false
  comes : Comes r (pieces.map dataChunk ++ [endChunk])
  along : inflow.Along parts
  stream : inflow.given.data.toList ++ pieces.flatten = (deflate parts).flatten

variable {parts pieces : List (List UInt8)} {inflow : Inflow} {fuel : Nat}

theorem Feeds.next (lenient : Bool) (hfeeds : Feeds l parts (piece :: pieces) inflow r) :
    ∃ pos bytes inflow', (nextData lenient (r.data.size + 1)).on r =
        (.ok (some piece), { r with pos, pending := none }) ∧
      inflow.add piece = .ok (bytes, inflow') ∧
      Feeds l parts pieces inflow' { r with pos, pending := none } ∧
      parts.flatten.drop inflow.taken = bytes ++ parts.flatten.drop inflow'.taken := by
  obtain ⟨hpiece, hpieces⟩ := forall_mem_cons.1 hfeeds.short
  obtain ⟨pos, hnext, hcomes⟩ :=
    on_nextData lenient r.data.size hpiece hfeeds.layout hfeeds.colours hfeeds.comes
  have hpart : inflow.given.data.toList ++ piece <+: (deflate parts).flatten :=
    ⟨pieces.flatten, by rw [← hfeeds.stream, flatten_cons, append_assoc]⟩
  obtain ⟨bytes, inflow', hadd, halong, hgiven, htodo⟩ := hfeeds.along.add hpart
  refine ⟨pos, bytes, inflow', hnext, hadd,
    ⟨hpieces, hfeeds.layout, hfeeds.colours, hcomes, halong, ?_⟩, htodo⟩
  rw [hgiven, append_assoc, ← flatten_cons, hfeeds.stream]

theorem Feeds.last (lenient : Bool) (hfeeds : Feeds l parts [] inflow r) :
    ∃ pos, (nextData lenient (r.data.size + 1)).on r =
        (.ok none, { r with pos, pending := none }) ∧ parts.flatten.drop inflow.taken = [] := by
  obtain ⟨pos, hnext⟩ := on_nextData_end lenient r.data.size hfeeds.comes
  have hstream := hfeeds.stream
  rw [flatten_nil, append_nil] at hstream
  exact ⟨pos, hnext, by rw [hfeeds.along.taken_eq hstream, drop_length]⟩

/-- A compressed stream is read, in whatever chunks it comes. -/
theorem on_dataWithin (lenient : Bool) (hfuel : pieces.length < fuel)
    (hfeeds : Feeds l parts pieces inflow r) :
    ∃ pos, (dataWithin lenient fuel inflow).on r =
      (.ok (parts.flatten.drop inflow.taken), { r with pos, pending := none }) := by
  induction pieces generalizing r fuel inflow with
  | nil =>
    obtain ⟨fuel, rfl⟩ := Nat.exists_eq_add_one_of_ne_zero (Nat.ne_of_gt hfuel)
    obtain ⟨pos, hnext, htodo⟩ := hfeeds.last lenient
    refine ⟨pos, ?_⟩
    rw [htodo, dataWithin, on_bind_of_ok (on_chunkBound r), on_bind_of_ok hnext]
    rfl
  | cons piece pieces ih =>
    obtain ⟨fuel, rfl⟩ := Nat.exists_eq_add_one_of_ne_zero (Nat.ne_of_gt (Nat.zero_lt_of_lt hfuel))
    obtain ⟨pos, bytes, inflow', hnext, hadd, hfeeds', htodo⟩ := hfeeds.next lenient
    obtain ⟨pos', hrest⟩ := ih (Nat.lt_of_succ_lt_succ hfuel) hfeeds'
    refine ⟨pos', ?_⟩
    rw [dataWithin, on_bind_of_ok (on_chunkBound r), on_bind_of_ok hnext]
    rw [on_bind_of_ok (on_lift hadd _), on_bind_of_ok hrest, on_pure, htodo]

theorem on_streamWithin (lenient : Bool) (convert : List Nat → Except Fault α)
    {held : Scanlines} {last : Array UInt8} {lines : List (Array UInt8)} {out : List α}
    (hfuel : pieces.length < fuel) (hheader : r.header = some h)
    (hfeeds : Feeds l parts pieces inflow r) (hheld : held.Settled l.rowBytes l.unit)
    (hlines : Scanlines.complete l.rowBytes l.unit
      (held.held ++ parts.flatten.drop inflow.taken) held.above = (lines, .ok ⟨[], last⟩))
    (hout : lines.mapM (fun line => unpackLine h.depth h.width line.toList >>= convert) = .ok out) :
    ∃ r', (streamWithin lenient convert fuel inflow held).on r = (.ok out, r') := by
  induction pieces generalizing r fuel inflow held lines out with
  | nil =>
    obtain ⟨fuel, rfl⟩ := Nat.exists_eq_add_one_of_ne_zero (Nat.ne_of_gt hfuel)
    obtain ⟨pos, hnext, htodo⟩ := hfeeds.last lenient
    -- All data was taken out and fed, so nothing is held.
    rw [htodo, append_nil, hheld] at hlines
    obtain ⟨rfl, hlast⟩ := Prod.mk.inj hlines
    obtain rfl := Except.ok.inj hlast
    obtain rfl : [] = out := by simpa using hout
    refine ⟨{ r with pos, pending := none }, ?_⟩
    rw [streamWithin, on_bind_of_ok (on_chunkBound r), on_bind_of_ok hnext]
    rfl
  | cons piece pieces ih =>
    obtain ⟨fuel, rfl⟩ := Nat.exists_eq_add_one_of_ne_zero (Nat.ne_of_gt (Nat.zero_lt_of_lt hfuel))
    obtain ⟨pos, bytes, inflow', hnext, hadd, hfeeds', htodo⟩ := hfeeds.next lenient
    rw [htodo, ← append_assoc] at hlines
    obtain ⟨first, held', rest, hfirst, hrest, rfl⟩ := Scanlines.exists_of_complete_append hlines
    rw [mapM_append, bind_ok_iff] at hout
    obtain ⟨out₁, hout₁, hout⟩ := hout
    obtain ⟨out₂, hout₂, hout⟩ := bind_ok_iff.1 hout
    rw [pure_ok_iff] at hout
    obtain ⟨r', hstep⟩ := ih (r := { r with pos, pending := none }) (Nat.lt_of_succ_lt_succ hfuel)
      hheader hfeeds' (Scanlines.settled_of_complete hfirst) hrest hout₂
    refine ⟨r', ?_⟩
    have hheader' : Scan.header.on { r with pos, pending := none } = (.ok h, _) :=
      on_header hheader
    have hlayout' : Scan.layout.on { r with pos, pending := none } = (.ok l, _) :=
      on_layout hfeeds.layout
    have hfeed : held.feed l bytes = (first, .ok held') := hfirst
    rw [streamWithin, on_bind_of_ok (on_chunkBound r), on_bind_of_ok hnext]
    rw [on_bind_of_ok (on_lift hadd _), on_bind_of_ok hheader', on_bind_of_ok hlayout']
    simp only [hfeed]
    rw [on_bind_of_ok (on_lift hout₁ _), on_bind_of_ok (on_lift rfl _),
      on_bind_of_ok hstep, on_pure, hout]

end Reader

end Cartridge.Png
