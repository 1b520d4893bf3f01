import Cartridge.Proofs.Png.Interlace
import Cartridge.Proofs.Png.Preamble

/-!
# Images with chunks in front of their data

A file with a header, chunks that a reader takes, and the compressed lines of the image is read.

Main results: `Reader.exists_read_straight` and `Reader.exists_read_interlaced`.
-/

namespace Cartridge.Png

open Scan Layout

namespace Reader

variable {r r' start r'' : Reader} {h : Header} {l : Layout} {colours : Option (List UInt8)}
  {chunks : List Chunk} {source : Source} {v : View} {parts rows : List (List UInt8)}
  {lines : List (List Nat)}

theorem on_palette (hlayout : r.layout = some l) (hcolours : r.hasColours = true) :
    ∃ entries, (palette false).on r = (.ok entries, r) := by
  rw [palette, on_bind_of_ok (on_discard (on_layout hlayout)), on_bind_of_ok (on_get r)]
  simp only [hcolours, Bool.not_true, Bool.false_eq_true, if_false]
  split
  · exact ⟨_, rfl⟩
  · exact ⟨_, rfl⟩

/-- A view of an image as it is stored. -/
structure ViewsStored (h : Header) (source : Source) (v : View) : Prop where
  source : v.source = source
  convert : v.convert = fun ns => .ok { samples := ns }
  width : v.info.width = h.width
  height : v.info.height = h.height

def viewOf (h : Header) (source : Source) : Scan View := do
  let l ← Scan.layout
  let r ← get
  let palette ← if r.hasColours then some <$> palette false else pure none
  return {
    info := {
      grey := l.grey, alpha := l.alpha, planes := l.planes, depth := h.depth
      interlace := h.interlace, width := h.width, height := h.height, gamma := r.gamma
      transparent := r.transparent, background := r.background, palette }
    source
    convert := fun ns => .ok { samples := ns } }

theorem on_viewOf (hknows : Knows h colours r) (source : Source) :
    ∃ v, (viewOf h source).on r = (.ok v, r) ∧ ViewsStored h source v := by
  rw [viewOf, on_bind_of_ok (on_layout hknows.layout), on_bind_of_ok (on_get r)]
  cases hcolours : r.hasColours with
  | false => exact ⟨_, rfl, rfl, rfl, rfl, rfl⟩
  | true =>
    obtain ⟨entries, hentries⟩ := on_palette hknows.layout hcolours
    simp only [if_true]
    rw [on_bind_of_ok (on_map hentries _)]
    exact ⟨_, rfl, rfl, rfl, rfl, rfl⟩

theorem exists_stored (lenient : Bool) (hpreamble : (preamble lenient).on start = (.ok (), r))
    (hheader : r.header = some h)
    (hsource : (if h.interlace ≠ 0 then Source.stored <$> interlacedLines lenient
      else pure (.streamed lenient)).on r = (.ok source, r')) (hknows : Knows h colours r') :
    ∃ v, (stored lenient).on start = (.ok v, r') ∧ ViewsStored h source v := by
  obtain ⟨v, hview, hstored⟩ := on_viewOf hknows source
  refine ⟨v, ?_, hstored⟩
  rw [stored, on_bind_of_ok hpreamble, on_bind_of_ok (on_header hheader), ← hview]
  by_cases hinterlace : h.interlace ≠ 0
  · rw [if_pos hinterlace] at hsource
    exact (congrArg (on · r) (if_pos hinterlace)).trans (on_bind_of_ok hsource _)
  · rw [if_neg hinterlace] at hsource
    exact (congrArg (on · r) (if_neg hinterlace)).trans (on_bind_of_ok hsource _)

theorem ViewsStored.lines_streamed {lenient : Bool} (hv : ViewsStored h (.streamed lenient) v) :
    v.lines = chunkBound >>= fun fuel => streamWithin lenient Except.ok fuel {} {} := by
  rw [View.lines, View.each, hv.source, hv.convert]
  rfl

theorem ViewsStored.on_lines_stored (hv : ViewsStored h (.stored lines) v) (r : Reader) :
    v.lines.on r = (.ok lines, r) := by
  have hsame : lines.mapM (fun ns => (do Except.ok (← v.convert ns).samples : Except Fault _)) =
      .ok lines := by
    rw [hv.convert, mapM_ok_iff, List.forall₂_same]
    exact fun _ _ => rfl
  rw [View.lines, View.each, hv.source]
  exact on_lift hsame r

theorem on_finish {view : Scan View} (hview : view.on start = (.ok v, r'))
    (hlines : v.lines.on r' = (.ok lines, r'')) :
    (finish view).on start = (.ok ⟨v.info, lines⟩, r'') := by
  rw [finish, on_bind_of_ok hview, on_bind_of_ok hlines]
  rfl

def fileOf (h : Header) (chunks : List Chunk) (parts : List (List UInt8)) : ByteArray :=
  encodeFile (headerChunk h :: chunks ++ Writer.dataChunks parts ++ [endChunk])

section

variable (lenient : Bool) (hsound : h.Sound) (hall : TakesAll h none chunks colours)
  (hcolours : ((ofHeader h).indexed && (colours.getD []).isEmpty) = false)

include hsound hall hcolours

theorem exists_on_preamble (parts : List (List UInt8)) :
    ∃ (r : Reader) (pieces : List (List UInt8)),
      (preamble lenient).on { data := fileOf h chunks parts } = (.ok (), r) ∧
      Knows h colours r ∧ Feeds (.ofHeader h) parts pieces {} r ∧
      pieces.length < r.data.size + 1 := by
  obtain ⟨pieces, hchunks, hne, hpieces, hstream⟩ := Writer.exists_pieces parts
  obtain ⟨piece, rest, rfl⟩ := List.exists_cons_of_ne_nil hne
  obtain ⟨r, hpreamble, hknows, hcomes⟩ := on_preamble_takes lenient hsound hall
    (hpieces piece List.mem_cons_self) (rest.map dataChunk ++ [endChunk])
  refine ⟨r, piece :: rest, ?_, hknows, ⟨hpieces, hknows.layout, ?_, hcomes,
    ⟨List.nil_prefix, rfl⟩, hstream⟩, ?_⟩
  · rw [fileOf, hchunks, List.append_assoc]
    exact hpreamble
  · rw [hasColours, hknows.colours, Bool.not_not, hcolours]
  · have hsize := hcomes.length_le
    simp only [List.length_cons, List.length_append, List.length_map, List.length_nil] at hsize ⊢
    omega

/-- **The lines of an image that is not interlaced** are those that went in. -/
theorem exists_read_straight (hinterlace : h.interlace = 0)
    (hrows : parts.flatten = rows.flatMap (0 :: ·))
    (hlength : ∀ row ∈ rows, row.length = (ofHeader h).rowBytes)
    (hlines : List.Forall₂ (fun row line => unpackLine h.depth h.width row = .ok line) rows lines) :
    ∃ image r, (read lenient).on { data := fileOf h chunks parts } = (.ok image, r) ∧
      image.info.width = h.width ∧ image.info.height = h.height ∧ image.lines = lines := by
  obtain ⟨r, pieces, hpreamble, hknows, hfeeds, hfuel⟩ :=
    exists_on_preamble lenient hsound hall hcolours parts
  obtain ⟨v, hview, hstored⟩ := exists_stored lenient hpreamble hknows.header
    (by rw [if_neg (not_not.2 hinterlace)]; rfl) hknows
  -- the stream is a run of whole lines without a filter, so nothing is held back at its end
  obtain ⟨last, hcomplete⟩ := Scanlines.complete_plain (ofHeader h).unit #[] hlength
  have hheld : ({} : Scanlines).Settled (ofHeader h).rowBytes (ofHeader h).unit := by
    rw [Scanlines.Settled, Scanlines.complete]
  have hfed : Scanlines.complete (ofHeader h).rowBytes (ofHeader h).unit
      (({} : Scanlines).held ++ parts.flatten.drop ({} : Inflow).taken) ({} : Scanlines).above =
      (rows.map List.toArray, .ok ⟨[], last⟩) := by
    rw [← hcomplete, ← hrows]
    rfl
  have hconverted : (rows.map List.toArray).mapM (fun line =>
      unpackLine h.depth h.width line.toList >>= Except.ok) = .ok lines := by
    rw [mapM_ok_iff, List.forall₂_map_left_iff]
    exact hlines.imp fun row line hrow => bind_ok_iff.2 ⟨line, hrow, rfl⟩
  obtain ⟨r', hread⟩ := on_streamWithin lenient _ hfuel hknows.header hfeeds hheld hfed hconverted
  have hon : v.lines.on r = (.ok lines, r') := by
    rw [hstored.lines_streamed, on_bind_of_ok (on_chunkBound r), hread]
  exact ⟨⟨v.info, lines⟩, r', on_finish hview hon, hstored.width, hstored.height, rfl⟩

theorem exists_read_interlaced (hinterlace : h.interlace = 1)
    (hwidth : 0 < h.width) (hrows : parts.flatten = rows.flatMap (0 :: ·)) {R : Nat → Nat → Prop}
    (hstores : List.Forall₂ (StoresLine R h (.ofHeader h)) (passLines h.width h.height) rows) :
    ∃ image r samples, (read lenient).on { data := fileOf h chunks parts } = (.ok image, r) ∧
      image.info.width = h.width ∧ image.info.height = h.height ∧
      image.lines = groups (h.width * (ofHeader h).planes) samples.toList ∧
      samples.size = h.width * (ofHeader h).planes * h.height ∧
      ∀ i < samples.size, Settled R samples i := by
  obtain ⟨r, pieces, hpreamble, hknows, hfeeds, hfuel⟩ :=
    exists_on_preamble lenient hsound hall hcolours parts
  -- the image data is read as a whole before its lines are put in their places
  obtain ⟨samples, hsamples, hsize, hsettled⟩ := exists_deinterlace hstores
  obtain ⟨pos, hdata⟩ := on_dataWithin lenient hfuel hfeeds
  have hknows' : Knows h colours { r with pos, pending := none } :=
    { hknows with }
  have hperRow : h.width * (ofHeader h).planes ≠ 0 :=
    (Nat.mul_pos hwidth (planes_pos _)).ne'
  have hlines : (interlacedLines lenient).on r =
      (.ok (groups (h.width * (ofHeader h).planes) samples.toList),
        { r with pos, pending := none }) := by
    have hraw : parts.flatten.drop ({} : Inflow).taken = rows.flatMap (0 :: ·) := hrows
    rw [interlacedLines, on_bind_of_ok (on_chunkBound r), on_bind_of_ok hdata,
      on_bind_of_ok (on_header hknows'.header), on_bind_of_ok (on_layout hknows'.layout), hraw,
      on_bind_of_ok (on_lift hsamples _)]
    simp only [hperRow, if_false]
    rfl
  obtain ⟨v, hview, hstored⟩ := exists_stored lenient hpreamble hknows.header
    (by rw [hinterlace, if_pos one_ne_zero, on_map hlines]) hknows'
  exact ⟨⟨v.info, _⟩, _, samples, on_finish hview (hstored.on_lines_stored _), hstored.width,
    hstored.height, rfl, hsize, hsettled⟩

end

end Reader

end Cartridge.Png
