import Cartridge.Proofs.Png.Head
import Cartridge.Proofs.Png.Read

/-!
# Samples that fit their depth

Lines of samples that fit the depth of a writer are written, in the order in which the image stores
them (`Writer.Stores`), and they are what a reader gives back.

Main results: `Writer.exists_writeLines` and `Writer.Valid.exists_read_lines`.
-/

open List

namespace Cartridge.Png

theorem groups_flatten {α : Type} {n : Nat} (hn : n ≠ 0) {rows : List (List α)}
    (hrows : ∀ row ∈ rows, row.length = n) : groups n rows.flatten = rows := by
  induction rows with
  | nil =>
    rw [groups, dif_pos (.inr (Nat.pos_of_ne_zero hn))]
  | cons row rows ih =>
    obtain ⟨hrow, hrest⟩ := forall_mem_cons.1 hrows
    rw [groups, dif_neg (by simp [hn, hrow]), flatten_cons, take_left' hrow,
      drop_left' hrow, ih hrest]

theorem passLines_ne_nil {width height : Nat} (hwidth : 0 < width) (hheight : 0 < height) :
    passLines width height ≠ [] := by
  have hfirst : (⟨0, 0, 8, 8⟩ : Pass) ∈ passes := by decide
  have hline := (Pass.regular_of_mem hfirst).mem_lines_iff.2 ⟨hheight, 0, rfl⟩
  exact ne_nil_of_mem (mem_flatMap.2 ⟨_, mem_filter.2 ⟨hfirst, decide_eq_true hwidth⟩,
    mem_map_of_mem hline⟩)

namespace Writer

variable {w : Writer} {head : List Chunk} {parts : List (List UInt8)} {lines stored : List (List Nat)}

/-! ### Stored lines -/

theorem Valid.planes_eq_one (hw : w.Valid) (h : w.depth < 8) : w.planes = 1 := by
  rw [planes, colourPlanes]
  cases hpalette : w.palette.isSome with
  | true =>
    rw [(hw.indexed hpalette).2.1, Bool.or_true]
    rfl
  | false =>
    have hdeep := hw.deep hpalette
    cases halpha : w.alpha <;> cases hgrey : w.grey <;> rw [halpha, hgrey] at hdeep
    · exact absurd (hdeep rfl) (Nat.not_le_of_lt h)
    · rfl
    · exact absurd (hdeep rfl) (Nat.not_le_of_lt h)
    · exact absurd (hdeep rfl) (Nat.not_le_of_lt h)

theorem Valid.storesLine (hw : w.Valid) {e : Pass × Nat} {line : List UInt8} {ns : List Nat}
    (hlength : line.length = (e.1.lineWidth w.header.width * w.planes * w.depth + 7) / 8)
    (hns : unpackLine w.depth (e.1.lineWidth w.header.width) line = .ok ns)
    (hcount : ns.length = e.1.lineWidth w.header.width * w.planes) {R : Nat → Nat → Prop}
    (hR : ∀ j v, ns[j]? = some v → R (e.1.place w.header.width w.planes e.2 j) v) :
    StoresLine R w.header (.ofHeader w.header) e line where
  size := by
    rw [hlength, layout_header]
    congr 2
    ring
  samples := by
    rw [planes_header]
    refine ⟨ns, ?_, hcount, hR⟩
    rw [← hns]
    refine unpackLines_eq hw.depth fun hlt => ?_
    rw [hlength, hw.planes_eq_one hlt, Nat.mul_one]
    rfl

theorem interlace_header (w : Writer) : w.header.interlace = if w.interlaced then 1 else 0 := rfl

/-- The lines that an image stores for lines of samples: the same, or those of its passes. -/
def Stores (w : Writer) (lines stored : List (List Nat)) : Prop :=
  if w.interlaced then
    List.Forall₂ (fun e ns => ns.length = e.1.lineWidth (dimension w.width) * w.planes ∧
      ∀ j < ns.length, ns[j]? = lines.flatten[e.1.place (dimension w.width) w.planes e.2 j]?)
      (passLines (dimension w.width) (dimension w.height)) stored
  else stored = lines

/-- Lines of samples that make up an image of a writer. -/
structure Samples (w : Writer) (lines : List (List Nat)) : Prop where
  count : lines.length = dimension w.height
  length : ∀ line ∈ lines, line.length = w.perRow
  fit : ∀ line ∈ lines, ∀ n ∈ line, n < 2 ^ w.depth

theorem Samples.length_flatten (h : w.Samples lines) :
    lines.flatten.length = w.perRow * dimension w.height := by
  rw [List.length_flatten, map_congr_left h.length, map_const', sum_replicate_nat,
    h.count, Nat.mul_comm]

theorem Stores.fit (h : w.Stores lines stored) (hfit : ∀ line ∈ lines, ∀ n ∈ line, n < 2 ^ w.depth) :
    ∀ ns ∈ stored, ∀ n ∈ ns, n < 2 ^ w.depth := by
  intro ns hns n hn
  rw [Stores] at h
  split_ifs at h
  · obtain ⟨e, -, -, hplaces⟩ := exists_of_forall₂ h hns
    obtain ⟨j, hj, rfl⟩ := getElem_of_mem hn
    have hplace := hplaces j hj
    rw [getElem?_eq_getElem hj] at hplace
    obtain ⟨line, hline, hmem⟩ := mem_flatten.1 (mem_of_getElem? hplace.symm)
    exact hfit line hline _ hmem
  · rw [h] at hns
    exact hfit ns hns n hn

theorem Stores.ne_nil (h : w.Stores lines stored) (hne : lines ≠ [])
    (hwidth : 0 < dimension w.width) (hheight : 0 < dimension w.height) : stored ≠ [] := by
  rw [Stores] at h
  split_ifs at h
  · rintro rfl
    exact passLines_ne_nil hwidth hheight (forall₂_nil_right_iff.1 h)
  · rwa [h]

theorem two_pow_depth_le (hdepth : IsDepth w.depth) : 2 ^ w.depth ≤ w.sampleBound := by
  rw [sampleBound, sampleWidth]
  simp only [IsDepth, mem_cons, not_mem_nil, or_false] at hdepth
  obtain h | h | h | h | h := hdepth <;> rw [h] <;> decide

theorem allSamples_of_fit (hdepth : IsDepth w.depth)
    (hfit : ∀ line ∈ lines, ∀ n ∈ line, n < 2 ^ w.depth) :
    w.allSamples (lines.map fun ns => .ok (.whole (.list (ns.map fun (n : Nat) => .int n)))) =
      .ok lines.flatten := by
  have hrows : (lines.map fun ns =>
      (.ok (.whole (.list (ns.map fun (n : Nat) => .int n))) : Except Fault Row)) =
      (lines.map (List.map fun (n : Nat) => Value.int n)).map fun vs => .ok (.whole (.list vs)) := by
    rw [map_map]
    rfl
  rw [hrows, allSamples_ok_iff]
  refine ⟨lines, ?_, rfl⟩
  rw [forall₂_map_left_iff, forall₂_same]
  intro ns hns
  rw [forall₂_map_left_iff, forall₂_same]
  exact fun n hn => numberBelow_int (Nat.lt_of_lt_of_le (hfit ns hns n hn) (two_pow_depth_le hdepth))

/-! ### Writing -/

section

variable (hdepth : IsDepth w.depth) (hrescale : w.rescale = none)
  (hlimit : ∀ n, ∃ b, w.chunkLimit.isBelow n = .ok b) (hhead : w.headChunks = .ok head)

include hdepth hrescale hlimit hhead

theorem exists_writePasses_of_fit {rows : List Row}
    (hfit : ∀ ns ∈ stored, ∀ n ∈ ns, n < 2 ^ w.depth)
    (hrows : List.Forall₂ (fun ns row => row.Plain w.depth (ns.map fun (n : Nat) => .int n))
      stored rows) (hne : stored ≠ []) :
    ∃ parts, w.writePasses false (rows.map .ok) =
        (.ok ⟨encodeFile (head ++ dataChunks parts ++ [Reader.endChunk]), stored.length⟩, []) ∧
      parts.flatten = (stored.map (lineBytes w.depth)).flatMap (0 :: ·) := by
  have hadds : List.Forall₂ (w.sink false).Adds rows (stored.map (lineBytes w.depth)) := by
    rw [forall₂_map_right_iff, sink_eq, hrescale]
    exact (((forall₂_and_left _ _).2 ⟨hfit, hrows⟩).imp fun ns row h =>
      Sink.adds_ofDepth hdepth h.1 h.2 rfl).flip
  have hrows_ne : rows ≠ [] := by
    rw [← length_pos_iff, ← hrows.length_eq, length_pos_iff]
    exact hne
  rw [hrows.length_eq]
  exact exists_writePasses false hlimit hhead hadds hrows_ne

/-- **Samples that fit are written**, in the order in which the image stores them. -/
theorem exists_writeLines (hwidth : 0 < dimension w.width) (hpos : 0 < dimension w.height)
    (hheight : w.height.isInt (dimension w.height) = true) (hlines : w.Samples lines) :
    ∃ parts stored, w.writeLines (lines.map (List.map Int.ofNat)) =
        .ok (encodeFile (head ++ dataChunks parts ++ [Reader.endChunk])) ∧
      w.Stores lines stored ∧
      parts.flatten = (stored.map (lineBytes w.depth)).flatMap (0 :: ·) := by
  have hgiven : ((lines.map (List.map Int.ofNat)).map fun ks =>
      (.ok (.whole (.list (ks.map .int))) : Except Fault Row)) =
      lines.map fun ns => .ok (.whole (.list (ns.map fun (n : Nat) => .int n))) := by
    rw [map_map]
    refine map_congr_left fun ns _ => ?_
    rw [Function.comp_apply, map_map]
    rfl
  have hne : lines ≠ [] := by
    rw [← length_pos_iff, hlines.count]
    exact hpos
  rw [writeLines, hgiven]
  cases hinterlaced : w.interlaced with
  | false =>
    -- rows are stored as they come, and counted at the end
    have hstores : w.Stores lines lines := by rw [Stores, hinterlaced]; rfl
    obtain ⟨parts, hfile, hflat⟩ := exists_writePasses_of_fit hdepth hrescale hlimit hhead hlines.fit
      (forall₂_map_right_iff.2 (forall₂_same.2 fun ns _ => Row.Plain.list _)) hne
    refine ⟨parts, lines, ?_, hstores, hflat⟩
    rw [map_map] at hfile
    have hwritten := write_of_writePasses hinterlaced hfile (hlines.count ▸ hheight)
    exact congrArg (fun x => File.bytes <$> x.1) hwritten
  | true =>
    -- all samples are put together first, and the rows of the passes are picked from them
    obtain ⟨stored, hrows, hplaces⟩ := exists_interlacedRows (w := w)
      lines.flatten.toArray rfl rfl hlines.length_flatten
    have hstores : w.Stores lines stored := by
      rw [Stores, hinterlaced]
      refine hplaces.imp fun e ns h => ⟨h.1, fun j hj => ?_⟩
      rw [h.2 j hj, getElem?_toArray]
    obtain ⟨parts, hfile, hflat⟩ := exists_writePasses_of_fit hdepth hrescale hlimit hhead
      (hstores.fit hlines.fit)
      (forall₂_map_right_iff.2 (forall₂_same.2 fun ns _ => Row.Plain.array ns))
      (hstores.ne_nil hne hwidth hpos)
    refine ⟨parts, stored, ?_, hstores, hflat⟩
    rw [write, allSamples_of_fit hdepth hlines.fit]
    simp only [writeArray, hinterlaced, if_true, interlacedRowsOf, hrows]
    rw [map_map] at hfile
    exact congrArg (fun x => File.bytes <$> x.1) hfile

end

/-! ### Reading -/

theorem Valid.storesLines (hw : w.Valid) (hinterlaced : w.interlaced = true)
    (hstores : w.Stores lines stored) (hfit : ∀ ns ∈ stored, ∀ n ∈ ns, n < 2 ^ w.depth) :
    List.Forall₂ (StoresLine (fun i v => lines.flatten[i]? = some v) w.header (.ofHeader w.header))
      (passLines w.header.width w.header.height) (stored.map (lineBytes w.depth)) := by
  rw [Stores, hinterlaced] at hstores
  rw [forall₂_map_right_iff]
  refine (((forall₂_and_left _ _).2 ⟨hfit, hstores.flip⟩).imp fun ns e h => ?_).flip
  obtain ⟨hns, hcount, hplaces⟩ := h
  refine hw.storesLine ?_ (unpackLine_lineBytes hw.depth hns fun hlt => ?_) hcount ?_
  · rw [length_lineBytes hw.depth, hcount]
    rfl
  · rw [hcount, hw.planes_eq_one hlt, Nat.mul_one]
    rfl
  · intro j v hj
    obtain ⟨hlt, -⟩ := List.getElem?_eq_some_iff.1 hj
    exact (hplaces j hlt).symm.trans hj

theorem Valid.unpacks_lines (hw : w.Valid) (hlines : w.Samples lines) :
    (∀ line ∈ lines.map (lineBytes w.depth),
        line.length = (Layout.ofHeader w.header).rowBytes) ∧
      List.Forall₂ (fun line ns => unpackLine w.header.depth w.header.width line = .ok ns)
        (lines.map (lineBytes w.depth)) lines := by
  constructor
  · intro line hline
    obtain ⟨ns, hns, rfl⟩ := mem_map.1 hline
    rw [length_lineBytes hw.depth, hlines.length ns hns, layout_header, perRow, Nat.mul_assoc,
      Nat.mul_comm w.planes]
  · rw [forall₂_map_left_iff, forall₂_same]
    intro ns hns
    refine unpackLine_lineBytes hw.depth (hlines.fit ns hns) fun hlt => ?_
    rw [hlines.length ns hns, perRow, hw.planes_eq_one hlt, Nat.mul_one]
    rfl

/-- **What is stored is read back**: the lines are those that were written. -/
theorem Valid.exists_read_lines (hw : w.Valid) (hfits : w.Fits) (hhead : w.headChunks = .ok head)
    (hlines : w.Samples lines) (hstores : w.Stores lines stored)
    (hflat : parts.flatten = (stored.map (lineBytes w.depth)).flatMap (0 :: ·)) (lenient : Bool) :
    ∃ image r, (Reader.read lenient).on
        { data := encodeFile (head ++ dataChunks parts ++ [Reader.endChunk]) } = (.ok image, r) ∧
      image.info.width = dimension w.width ∧ image.info.height = dimension w.height ∧
      image.lines = lines := by
  obtain ⟨chunks, colours, rfl, htaken, hcolours⟩ := hw.takesAll_headChunks hfits hhead
  obtain ⟨-, -, -, -, -, -, hheader, -⟩ := exists_of_headChunks hhead
  have hsound := hw.sound_header hheader
  cases hinterlaced : w.interlaced with
  | false =>
    rw [Stores, hinterlaced] at hstores
    obtain rfl : stored = lines := hstores
    obtain ⟨hlength, hunpacked⟩ := hw.unpacks_lines hlines
    exact Reader.exists_read_straight lenient hsound htaken hcolours
      (by rw [interlace_header, hinterlaced]; rfl) hflat hlength hunpacked
  | true =>
    obtain ⟨image, r, samples, hread, hwidth, hheight, himage, hsize, hsettled⟩ :=
      Reader.exists_read_interlaced lenient hsound htaken hcolours
        (by rw [interlace_header, hinterlaced]; rfl) (hw.width_pos hheader) hflat
        (hw.storesLines hinterlaced hstores (hstores.fit hlines.fit))
    refine ⟨image, r, hread, hwidth, hheight, ?_⟩
    rw [planes_header] at himage hsize
    -- every place of the image is settled, so nothing is left of what was there before
    have hsamples : samples.toList = lines.flatten := by
      refine ext_getElem? fun i => ?_
      by_cases hi : i < samples.size
      · obtain ⟨v, hv, hline⟩ := hsettled i hi
        rw [Array.getElem?_toList, hv, hline]
      · -- both have as many samples as the image
        have hflatten : lines.flatten.length = samples.size := hlines.length_flatten.trans hsize.symm
        rw [getElem?_eq_none (by simpa using hi), getElem?_eq_none (by omega)]
    rw [himage, hsamples]
    exact groups_flatten (Nat.mul_pos (hw.width_pos hheader) w.planes_pos).ne' hlines.length

end Writer

end Cartridge.Png
