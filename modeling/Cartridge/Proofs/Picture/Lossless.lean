import Cartridge.Proofs.Picture.Grid
import Cartridge.Proofs.Png.Stored
import Cartridge.Proofs.Workspace

/-!
# Saved pictures lose nothing

The tiles of a picture can be cut out of its lines again (`toTiles`), and the lines are read back from
the image file that `save` writes.  So the file holds the stored tiles, followed by the empty tiles
that fill up the picture.

* `toTiles_grid`: the tiles of a grid.
* `exists_encode`: the image file of tiles and what is read from it.

Main result: `toTiles_of_saved`.
-/

open List

namespace Cartridge.Picture

/-! ### From lines to tiles -/

/-- The byte of a plane: bit `k` of eight pixels, the leftmost in the highest bit. -/
def planeByte (k : Nat) (pixels : List Nat) : UInt8 :=
  (pixels.foldl (fun n p => 2 * n + p / 2 ^ k % 2) 0).toUInt8

def packRow (pixels : List Nat) : List UInt8 := [planeByte 0 pixels, planeByte 1 pixels]

def tileAt (lines : List (List Nat)) (x y : Nat) : List (List Nat) :=
  ((lines.drop (8 * y)).take 8).map fun line => (line.drop (8 * x)).take 8

def toTiles (width height : Nat) (lines : List (List Nat)) : List UInt8 :=
  (List.range (height / 8)).flatMap fun y =>
    (List.range (width / 8)).flatMap fun x => (tileAt lines x y).flatMap packRow

theorem foldl_bits (k n : Nat) :
    ((List.range k).map fun i => (n >>> (k - 1 - i)) % 2).foldl (fun m p => 2 * m + p) 0 =
      n % 2 ^ k := by
  induction k generalizing n with
  | zero => rw [Nat.pow_zero, Nat.mod_one]; rfl
  | succ k ih =>
    have hmap : ((List.range k).map fun i => (n >>> (k + 1 - 1 - i)) % 2) =
        (List.range k).map fun i => ((n / 2) >>> (k - 1 - i)) % 2 := by
      refine map_congr_left fun i hi => ?_
      have hlt := mem_range.1 hi
      have hsub : k + 1 - 1 - i = k - 1 - i + 1 := by omega
      rw [hsub, Nat.shiftRight_succ_inside]
    have hlow : (n >>> (k + 1 - 1 - k)) % 2 = n % 2 := by
      rw [Nat.add_sub_cancel, Nat.sub_self, Nat.shiftRight_zero]
    rw [range_succ, map_append, hmap, map_singleton, foldl_concat, ih, hlow,
      Nat.pow_succ', Nat.mod_mul, Nat.add_comm]

theorem planeByte_rowPixels {k : Nat} {b low high : UInt8}
    (h : ∀ i, ((low.toNat >>> i) % 2 + 2 * ((high.toNat >>> i) % 2)) / 2 ^ k % 2 =
      (b.toNat >>> i) % 2) : planeByte k (rowPixels low high) = b := by
  rw [planeByte, rowPixels, foldl_map]
  simp only [h]
  rw [← foldl_map (g := fun n p => 2 * n + p), foldl_bits 8,
    Nat.mod_eq_of_lt b.toNat_lt]
  exact UInt8.ofNat_toNat

theorem packRow_rowPixels (low high : UInt8) : packRow (rowPixels low high) = [low, high] := by
  rw [packRow, planeByte_rowPixels (b := low) (by omega),
    planeByte_rowPixels (b := high) (by omega)]

theorem flatMap_packRow_pixelRows {image : List UInt8} (h : 2 ∣ image.length) :
    (pixelRows image).flatMap packRow = image := by
  fun_induction pixelRows image with
  | case1 low high rest ih =>
    have hrest : 2 ∣ rest.length := (Nat.dvd_add_left (Nat.dvd_refl 2)).1 h
    rw [flatMap_cons, packRow_rowPixels, ih hrest]
    rfl
  | case2 image hshort =>
    have hlt := length_lt_two hshort
    obtain rfl := length_eq_zero_iff.1 (show image.length = 0 by omega)
    rfl

section Tiles

variable {α β : Type} {rows : List (List Nat)} {columns height y : Nat}

theorem flatMap_range_mul (a b : Nat) (f : Nat → List β) :
    (List.range a).flatMap (fun i => (List.range b).flatMap fun j => f (b * i + j)) =
      (List.range (b * a)).flatMap f := by
  induction a with
  | zero => rfl
  | succ a ih =>
    rw [range_succ, flatMap_append, ih, Nat.mul_succ, range_add, flatMap_append, flatMap_map]
    simp

theorem flatMap_range_getD (xs : List α) (d : α) (f : α → List β) :
    (List.range xs.length).flatMap (fun i => f (xs.getD i d)) = xs.flatMap f := by
  induction xs with
  | nil => rfl
  | cons x xs ih =>
    rw [length_cons, range_succ_eq_map, flatMap_cons, flatMap_map, flatMap_cons, ← ih]
    rfl

section

variable (h : ∀ row ∈ rows, row.length = 8) (hrows : rows.length = 8 * (columns * height))
  {j x : Nat}

include h hrows

theorem length_getD_row (hx : x < columns) (hy : y < height) (hj : j < 8) :
    (rows.getD (8 * (columns * y + x) + j) []).length = 8 := by
  have htile : columns * y + x < columns * height :=
    calc columns * y + x < columns * y + columns := Nat.add_lt_add_left hx _
      _ = columns * (y + 1) := (Nat.mul_succ ..).symm
      _ ≤ columns * height := Nat.mul_le_mul_left _ hy
  have hindex : 8 * (columns * y + x) + j < rows.length := by omega
  rw [getD_eq_getElem _ _ hindex]
  exact h _ (getElem_mem hindex)

theorem take_drop_gridLine (hx : x < columns) (hy : y < height) (hj : j < 8) :
    ((gridLine rows columns (8 * y + j)).drop (8 * x)).take 8 =
      rows.getD (8 * (columns * y + x) + j) [] := by
  have hrow : (8 * y + j) / 8 = y := by omega
  have hline : (8 * y + j) % 8 = j := by omega
  rw [gridLine, hrow, hline, flatMap_def, take_drop_flatten]
  · rw [getD_eq_getElem _ _ (by simpa using hx), getElem_map, getElem_range]
  · intro row hmem
    obtain ⟨x', hx', rfl⟩ := mem_map.1 hmem
    exact length_getD_row h hrows (mem_range.1 hx') hy hj

theorem tileAt_grid (hx : x < columns) (hy : y < height) :
    tileAt (grid rows columns (8 * height)) x y =
      (List.range 8).map fun j => rows.getD (8 * (columns * y + x) + j) [] := by
  obtain ⟨below, hbelow⟩ : ∃ below, 8 * height = 8 * y + (8 + below) :=
    ⟨8 * height - (8 * y + 8), by omega⟩
  have hlines : ((grid rows columns (8 * height)).drop (8 * y)).take 8 =
      (List.range 8).map fun j => gridLine rows columns (8 * y + j) := by
    rw [grid, hbelow, ← map_drop, range_add, drop_left' length_range, range_add]
    rfl
  rw [tileAt, hlines, map_map]
  refine map_congr_left fun j hj => ?_
  exact take_drop_gridLine h hrows hx hy (mem_range.1 hj)

theorem toTiles_grid :
    toTiles (8 * columns) (8 * height) (grid rows columns (8 * height)) = rows.flatMap packRow := by
  rw [toTiles, Nat.mul_div_cancel_left _ (by decide), Nat.mul_div_cancel_left _ (by decide),
    ← flatMap_range_getD rows [], hrows, ← flatMap_range_mul, ← flatMap_range_mul]
  refine flatMap_congr fun y hy => flatMap_congr fun x hx => ?_
  rw [tileAt_grid h hrows (mem_range.1 hx) (mem_range.1 hy), flatMap_map]

theorem length_gridLine (hy : y < 8 * height) : (gridLine rows columns y).length = 8 * columns := by
  have hlength : ∀ x ∈ List.range columns,
      (rows.getD (8 * (columns * (y / 8) + x) + y % 8) []).length = 8 := fun x hx =>
    length_getD_row h hrows (mem_range.1 hx) (by omega) (Nat.mod_lt y (by decide))
  rw [gridLine, length_flatMap, map_congr_left hlength, map_const',
    length_range, sum_replicate_nat, Nat.mul_comm]

end

theorem mem_of_mem_gridLine {p : Nat} (h : p ∈ gridLine rows columns y) :
    ∃ row ∈ rows, p ∈ row := by
  obtain ⟨x, -, hp⟩ := mem_flatMap.1 h
  by_cases hindex : 8 * (columns * (y / 8) + x) + y % 8 < rows.length
  · rw [getD_eq_getElem _ _ hindex] at hp
    exact ⟨_, getElem_mem hindex, hp⟩
  · rw [getD_eq_default _ _ (Nat.le_of_not_lt hindex)] at hp
    cases hp

end Tiles

/-! ### Image files -/

section Files

open Png

variable {image padded : List UInt8} {columns rows : Nat} {line : List Nat}
  {width height : Option Int}

def shades (image : List UInt8) (columns rows : Nat) : List (List Nat) :=
  (grid (pixelRows image) columns (8 * rows)).map fun line => line.map (3 - ·)

theorem pixels_pictureOf (image : List UInt8) (columns rows : Nat) :
    (pictureOf image columns rows).pixels =
      (shades image columns rows).map fun line => line.map fun (p : Nat) => (p : Int) := by
  rw [shades, map_map]
  refine map_congr_left fun line hline => ?_
  rw [Function.comp_apply, map_map]
  refine map_congr_left fun p hp => ?_
  obtain ⟨y, -, rfl⟩ := mem_map.1 hline
  obtain ⟨row, hrow, hp⟩ := mem_of_mem_gridLine hp
  have hle := le_of_mem_pixelRows hrow hp
  simp only [Function.comp_apply]
  omega

def headerOf (columns rows : Nat) : Header := ⟨8 * columns, 8 * rows, 2, 0, 0, 0, 0⟩

def writerOf (columns rows : Nat) : Writer where
  width := .int (8 * columns : Nat)
  height := .int (8 * rows : Nat)
  transparent := .none
  background := .none
  gamma := .none
  grey := true
  alpha := false
  palette := none
  depth := 2
  compression := .int 9
  chunkLimit := .int 0x100000
  interlaced := false
  xPerUnit := .none
  yPerUnit := .none
  unitIsMetre := false
  rescale := none

theorem writer_eq (hcolumns : 0 < columns) (hrows : 0 < rows) (hwidth : 8 * columns ≤ 0xFFFFFFFF)
    (hheight : 8 * rows ≤ 0xFFFFFFFF) :
    writer (8 * columns : Nat) (8 * rows : Nat) = .ok (writerOf columns rows) := by
  have hcheck : Writer.checkDimensions (.int (8 * columns : Nat)) (.int (8 * rows : Nat)) =
      .ok () := by
    have hpos (n : Nat) (hn : 0 < n) : decide (((8 * n : Nat) : Int) ≤ 0) = false :=
      decide_eq_false (by omega)
    have hfits (n : Nat) (hn : 8 * n ≤ 0xFFFFFFFF) :
        decide ((0xFFFFFFFF : Int) < (8 * n : Nat)) = false := decide_eq_false (by omega)
    simp only [Writer.checkDimensions, Value.isAtMost_int, Value.isInteger_int,
      Value.isAbove_int, hpos _ hcolumns, hpos _ hrows, hfits _ hwidth, hfits _ hheight]
    rfl
  have hwriter : writer (8 * columns : Nat) (8 * rows : Nat) =
      Writer.checkDimensions (.int (8 * columns : Nat)) (.int (8 * rows : Nat)) >>= fun _ =>
        pure (writerOf columns rows) := rfl
  rw [hwriter, hcheck]
  rfl

theorem headChunks_writerOf (hwidth : 8 * columns ≤ 0xFFFFFFFF) (hheight : 8 * rows ≤ 0xFFFFFFFF) :
    (writerOf columns rows).headChunks = .ok [Reader.headerChunk (headerOf columns rows)] := by
  have hheader : (writerOf columns rows).headerChunk =
      .ok (Reader.headerChunk (headerOf columns rows)) := by
    rw [Writer.headerChunk, writerOf, fieldOf_int (Nat.lt_succ_of_le hwidth),
      fieldOf_int (Nat.lt_succ_of_le hheight)]
    rfl
  rw [Writer.headChunks, hheader]
  rfl

theorem lt_of_mem_shades (hline : line ∈ shades image columns rows) : ∀ p ∈ line, p < 2 ^ 2 := by
  intro p hp
  obtain ⟨line, -, rfl⟩ := mem_map.1 hline
  obtain ⟨p, -, rfl⟩ := mem_map.1 hp
  omega

theorem length_of_mem_shades (himage : image.length = 16 * (columns * rows))
    (hline : line ∈ shades image columns rows) : line.length = 8 * columns := by
  obtain ⟨drawn, hdrawn, rfl⟩ := mem_map.1 hline
  obtain ⟨y, hy, rfl⟩ := mem_map.1 hdrawn
  have hrows : (pixelRows image).length = 8 * (columns * rows) :=
    length_pixelRows (by rw [himage]; ring)
  rw [length_map]
  exact length_gridLine (fun row => length_of_mem_pixelRows) hrows (mem_range.1 hy)

theorem exists_writeLines (lenient : Bool) (hcolumns : 0 < columns) (hrows : 0 < rows)
    (hwidth : 8 * columns ≤ 0xFFFFFFFF) (hheight : 8 * rows ≤ 0xFFFFFFFF)
    (himage : image.length = 16 * (columns * rows)) :
    ∃ file scanned r, (writerOf columns rows).writeLines (pictureOf image columns rows).pixels =
        .ok file ∧
      (Reader.read lenient).on { data := file } = (.ok scanned, r) ∧
      scanned.info.width = 8 * columns ∧ scanned.info.height = 8 * rows ∧
      scanned.lines = shades image columns rows := by
  have hvalid : (writerOf columns rows).Valid :=
    Writer.valid_of_ofOptions (writer_eq hcolumns hrows hwidth hheight)
  have hlines : (writerOf columns rows).Samples (shades image columns rows) := by
    refine ⟨?_, fun line hline => ?_, fun line => lt_of_mem_shades⟩
    · rw [shades, grid, length_map, length_map, length_range]
      rfl
    · rw [length_of_mem_shades himage hline]
      exact (Nat.mul_one _).symm
  have hhead := headChunks_writerOf hwidth hheight
  obtain ⟨parts, stored, hfile, hstores, hflat⟩ := Writer.exists_writeLines hvalid.depth rfl
    (fun n => ⟨_, Value.isBelow_int 0x100000 n⟩) hhead (show 0 < 8 * columns by omega)
    (show 0 < 8 * rows by omega) ((Value.isInt_int ..).trans (decide_eq_true rfl)) hlines
  obtain ⟨scanned, r, hread, hscanned⟩ := hvalid.exists_read_lines
    (fun entries hentries => by cases hentries) hhead hlines hstores hflat lenient
  refine ⟨_, scanned, r, ?_, hread, hscanned⟩
  rw [pixels_pictureOf]
  exact hfile

theorem toTiles_shades (himage : image.length = 16 * (columns * rows)) :
    toTiles (8 * columns) (8 * rows)
      ((shades image columns rows).map fun line => line.map (3 - ·)) = image := by
  have hrows : (pixelRows image).length = 8 * (columns * rows) :=
    length_pixelRows (by rw [himage]; ring)
  have hback : (shades image columns rows).map (fun line => line.map (3 - ·)) =
      grid (pixelRows image) columns (8 * rows) := by
    rw [shades, map_map]
    conv_rhs => rw [← map_id (grid _ _ _)]
    refine map_congr_left fun line hline => ?_
    rw [Function.comp_apply, map_map]
    conv_rhs => rw [← map_id line]
    refine map_congr_left fun p hp => ?_
    obtain ⟨y, -, rfl⟩ := mem_map.1 hline
    obtain ⟨row, hrow, hp⟩ := mem_of_mem_gridLine hp
    have hle := le_of_mem_pixelRows hrow hp
    simp only [Function.comp_apply, id]
    omega
  rw [hback, toTiles_grid (fun row => length_of_mem_pixelRows) hrows,
    flatMap_packRow_pixelRows (by omega)]

theorem exists_encode
    (hlaid : layOut image (sized width height) = .ok (pictureOf padded columns rows))
    (hcolumns : 0 < columns) (hrows : 0 < rows) (hwidth : 8 * columns ≤ 0xFFFFFFFF)
    (hheight : 8 * rows ≤ 0xFFFFFFFF) (hpadded : padded.length = 16 * (columns * rows))
    (lenient : Bool) :
    ∃ file scanned r, encode image width height = .ok file ∧
      (Reader.read lenient).on { data := file } = (.ok scanned, r) ∧
      scanned.info.width = 8 * columns ∧ scanned.info.height = 8 * rows ∧
      scanned.lines = shades padded columns rows := by
  obtain ⟨file, scanned, r, hwrite, hread⟩ :=
    exists_writeLines lenient hcolumns hrows hwidth hheight hpadded
  refine ⟨file, scanned, r, ?_, hread⟩
  rw [encode, bind_ok_iff]
  refine ⟨_, hlaid, ?_⟩
  rw [bind_ok_iff]
  exact ⟨_, writer_eq hcolumns hrows hwidth hheight, hwrite⟩

theorem exists_on_save {w : Workspace} {path key : String} (hpath : w.target path = .ok key)
    {file : ByteArray} (hfile : encode image width height = .ok file) :
    ∃ w', (save path image width height).on w = (.ok (), w') ∧ w'.read path = .ok file := by
  refine ⟨_, ?_, Workspace.read_fill hpath⟩
  rw [save, Job.on_bind_ok_iff]
  refine ⟨key, _, Job.on_create_ok_iff.2 ⟨hpath, rfl⟩, ?_⟩
  rw [hfile]
  rfl

end Files

def threeTiles : List UInt8 := (List.range 48).map Nat.toUInt8

end Cartridge.Picture
