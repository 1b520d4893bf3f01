import Cartridge.Proofs.Picture.Square
import Cartridge.Proofs.Tile.Transpose

/-!
# Pictures in blocks

The tiles of some pictures go column by column in blocks of so many tiles.  Laying them out puts
the tiles of each whole block in rows, leaves the tiles behind the last whole block as they are and
fills up with empty tiles.

* `arrangeBlocks_eq`: the tiles block by block, and a first padding.

Main result: `padded_minimally_iff`.
-/

open List

namespace Cartridge.Picture

open Tile

variable {image arranged : List UInt8} {tiles w h count n : Nat}

def tileIn (image : List UInt8) (i : Nat) : List UInt8 := (image.drop (16 * i)).take 16

theorem length_tileIn {i : Nat} (himage : image.length = 16 * tiles) (hi : i < tiles) :
    (tileIn image i).length = 16 := by
  rw [tileIn, length_take, length_drop]
  omega

theorem transposeTiles_eq (himage : image.length = 16 * (w * h)) (hpos : 0 < w * h) :
    transposeTiles image (some h) =
      .ok ((List.range (w * h)).flatMap fun k => tileIn image (turned w h k)) := by
  have htiles : tilesOf image = (List.range (w * h)).map (tileIn image) :=
    chunks_eq_map_range himage
  rw [transposeTiles, htiles, transpose_eq (by simp) hpos []]
  refine congrArg (fun pieces => Except.ok (join pieces)) (map_congr_left fun k hk => ?_)
  have hlt := turned_lt (mem_range.1 hk)
  rw [getD_eq_getElem _ _ (by simpa using hlt), getElem_map, getElem_range]

def blockTiles (image : List UInt8) (w h count : Nat) : List UInt8 :=
  (List.range count).flatMap fun b => (List.range (w * h)).flatMap fun k =>
    tileIn image (w * h * b + turned w h k)

/-- The number of tiles that `n` tiles lack to full rows of `w`. -/
def lack (w n : Nat) : Nat := (w - n % w) % w

theorem emptyTiles_lack (hw : 0 < w) (n : Nat) :
    emptyTiles (Int.fmod ((w : Int) - n) w) = List.replicate (16 * lack w n) 0 := by
  have hdiv : (n : Int) = w * (n / w : Nat) + (n % w : Nat) := by
    exact_mod_cast (Nat.div_add_mod n w).symm
  have hlt := Nat.mod_lt n hw
  have hsub : (w : Int) - n = (w - n % w : Nat) + w * (-(n / w : Nat)) := by
    rw [Int.mul_neg]
    omega
  rw [Int.fmod_eq_emod_of_nonneg _ (by omega), hsub, Int.add_mul_emod_self_left]
  rfl

theorem length_flatMap_range (size : Nat) {f : Nat → List UInt8} (h : ∀ i < n, (f i).length = size)
    : ((List.range n).flatMap f).length = size * n := by
  rw [length_flatMap, map_congr_left fun i hi => h i (mem_range.1 hi), map_const', length_range,
    sum_replicate_nat, Nat.mul_comm]

theorem length_blockTiles (himage : image.length = 16 * tiles) (hcount : w * h * count ≤ tiles) :
    (blockTiles image w h count).length = 16 * (w * h * count) := by
  rw [blockTiles, length_flatMap_range (16 * (w * h)), Nat.mul_assoc]
  intro b hb
  refine length_flatMap_range 16 fun k hk => length_tileIn himage ?_
  have hlt := turned_lt hk
  have hle := Nat.mul_le_mul_left (w * h) hb
  rw [Nat.mul_succ] at hle
  omega

theorem tileIn_block {s b j : Nat} (hj : j < s) :
    tileIn ((image.drop (16 * s * b)).take (16 * s)) j = tileIn image (s * b + j) := by
  rw [tileIn, tileIn, drop_take, take_take, drop_drop, Nat.min_eq_left (by omega), Nat.mul_add,
    Nat.mul_assoc]

theorem mapM_transposeTiles (himage : image.length = 16 * tiles) (hpos : 0 < w * h)
    (hcount : w * h * count ≤ tiles) :
    ((chunks (16 * (w * h) - 1) (image.take (16 * (w * h) * count))).mapM
      fun piece => transposeTiles piece (some (h : Int))) =
        .ok ((List.range count).map fun b => (List.range (w * h)).flatMap fun k =>
          tileIn image (w * h * b + turned w h k)) := by
  have hsize : 16 * (w * h) - 1 + 1 = 16 * (w * h) := by omega
  have hpieces : chunks (16 * (w * h) - 1) (image.take (16 * (w * h) * count)) =
      (List.range count).map fun b => (image.drop (16 * (w * h) * b)).take (16 * (w * h)) := by
    rw [chunks_eq_map_range (k := count), hsize]
    · refine map_congr_left fun b hb => ?_
      have hle := Nat.mul_le_mul_left (16 * (w * h)) (mem_range.1 hb)
      rw [Nat.mul_succ] at hle
      rw [drop_take, take_take, Nat.min_eq_left (by omega)]
    · rw [hsize, length_take]
      rw [Nat.mul_assoc]
      omega
  rw [hpieces, mapM_ok_iff, forall₂_map_left_iff, forall₂_map_right_iff, forall₂_same]
  intro b hb
  rw [transposeTiles_eq _ hpos]
  · refine congrArg Except.ok (flatMap_congr fun k hk => ?_)
    exact tileIn_block (turned_lt (mem_range.1 hk))
  · have hle := Nat.mul_le_mul_left (w * h) (mem_range.1 hb)
    rw [Nat.mul_succ] at hle
    rw [length_take, length_drop, Nat.mul_assoc]
    omega

theorem arrangeBlocks_eq (himage : image.length = 16 * tiles) (hw : 0 < w) (hh : 0 < h) :
    arrangeBlocks image w h = .ok (blockTiles image w h (tiles / (w * h)) ++
      image.drop (16 * (w * h * (tiles / (w * h)))) ++
      List.replicate (16 * lack w (tiles % h)) 0) := by
  have hpos : 0 < w * h := Nat.mul_pos hw hh
  have hdiv := Nat.div_add_mod tiles (w * h)
  have hblock : (w : Int) * h * size = (16 * (w * h) : Nat) := by
    rw [size]
    push_cast
    ring
  have htrailing : Int.fmod image.length (16 * (w * h) : Nat) = (16 * (tiles % (w * h)) : Nat) := by
    rw [himage, Int.fmod_eq_emod_of_nonneg _ (by omega), ← Int.natCast_mod, Nat.mul_mod_mul_left]
  generalize tiles / (w * h) = count at *
  have hwhole : ((image.length : Int) - (16 * (tiles % (w * h)) : Nat)).toNat =
      16 * (w * h * count) := by omega
  have hpieces := mapM_transposeTiles himage hpos (show w * h * count ≤ tiles by omega)
  rw [Nat.mul_assoc] at hpieces
  have hcounted : ((blockTiles image w h count ++ image.drop (16 * (w * h * count))).length : Int) /
      size = tiles := by
    rw [length_append, length_blockTiles himage (by omega), length_drop, size]
    omega
  rw [arrangeBlocks, hblock, htrailing]
  simp only [hwhole, Int.toNat_natCast]
  rw [if_neg (by omega), if_neg (by omega), bind_ok_iff]
  refine ⟨_, hpieces, ?_⟩
  rw [← flatMap_def, ← blockTiles, hcounted, Int.fmod_eq_emod_of_nonneg (tiles : Int) (by omega),
    ← Int.natCast_mod, emptyTiles_lack hw]
  rfl

theorem layOut_of_blocks (hw : 0 < w) (harranged : arrangeBlocks image w h = .ok arranged) :
    layOut image { blocks := some [(w : Int), (h : Int)] } =
      layOut arranged { width := some (8 * w : Nat) } := by
  have hgiven : isGiven (some ((w : Int) * 8)) = true := by simpa [isGiven] using Nat.ne_of_gt hw
  have hwidth : (w : Int) * 8 = (8 * w : Nat) := by omega
  simp only [layOut, Bool.false_and, Bool.false_eq_true, if_false, pure_bind,
    append_emptyTiles_zero, isGiven_zero, ← hwidth, hgiven]
  rw [harranged]
  rfl

theorem mul_ceil_eq (hw : 0 < w) (n : Nat) : w * ((n + w - 1) / w) = n + lack w n := by
  have hdiv := Nat.div_add_mod n w
  have hlt := Nat.mod_lt n hw
  by_cases hzero : n % w = 0
  · have hceil : (n + w - 1) / w = n / w := by
      rw [show n + w - 1 = w * (n / w) + (w - 1) by omega, Nat.mul_add_div hw,
        Nat.div_eq_of_lt (show w - 1 < w by omega), Nat.add_zero]
    rw [hceil, lack, hzero, Nat.sub_zero, Nat.mod_self]
    omega
  · have hceil : (n + w - 1) / w = n / w + 1 := by
      rw [show n + w - 1 = w * (n / w + 1) + (n % w - 1) by rw [Nat.mul_succ]; omega,
        Nat.mul_add_div hw, Nat.div_eq_of_lt (show n % w - 1 < w by omega), Nat.add_zero]
    rw [hceil, lack, Nat.mod_eq_of_lt (show w - n % w < w by omega), Nat.mul_succ]
    omega

/-- Two paddings by less than a row each end with the last row that is needed if the first one fits
into it, and one row later otherwise. -/
theorem rows_iff {a pad rows : Nat} (ha : a < w) (hpad : pad < w) (hrows : n + a + pad = w * rows) :
    rows ≤ (n + w - 1) / w + 1 ∧ (rows = (n + w - 1) / w ↔ a ≤ lack w n) := by
  have hceil := mul_ceil_eq (Nat.zero_lt_of_lt ha) n
  have hlack : lack w n < w := Nat.mod_lt _ (Nat.zero_lt_of_lt ha)
  generalize (n + w - 1) / w = needed at *
  have hstep : ∀ {i j : Nat}, i < j → w * i + w ≤ w * j := Nat.mul_le_mul_left w
  have hlow : needed ≤ rows := by
    by_contra hlt
    have := hstep (Nat.lt_of_not_le hlt)
    omega
  have hhigh : rows ≤ needed + 1 := by
    by_contra hlt
    have := hstep (Nat.lt_of_not_le hlt)
    rw [Nat.mul_succ] at this
    omega
  refine ⟨hhigh, ?_⟩
  obtain rfl | rfl : rows = needed ∨ rows = needed + 1 := by omega
  · exact iff_of_true rfl (by omega)
  · rw [Nat.mul_succ] at hrows
    exact iff_of_false (by omega) (by omega)

/-- **Pictures in blocks** show the tiles of every whole block in rows, then the other tiles as they
are, then empty tiles.  These end with the last row that is needed unless the tiles behind the last
full row of `h` lack more than all tiles do; then there is one more row. -/
theorem padded_minimally_iff (himage : image.length = 16 * tiles) (hw : 1 ≤ w) (hh : 1 ≤ h) :
    ∃ p shown rows pad, layOut image { blocks := some [(w : Int), (h : Int)] } = .ok p ∧
      p.width = (8 * w : Nat) ∧ p.height = (8 * rows : Nat) ∧
      (p.pixels = (List.range (8 * rows)).map fun y =>
        (List.range (8 * w)).map fun x => shadeAt shown w x y) ∧
      shown = blockTiles image w h (tiles / (w * h)) ++
        image.drop (16 * (w * h * (tiles / (w * h)))) ++ List.replicate (16 * pad) 0 ∧
      tiles + pad = w * rows ∧ rows ≤ (tiles + w - 1) / w + 1 ∧
      (rows = (tiles + w - 1) / w ↔ lack w (tiles % h) ≤ lack w tiles) := by
  have harranged := arrangeBlocks_eq himage hw hh
  have hlength : (blockTiles image w h (tiles / (w * h)) ++
      image.drop (16 * (w * h * (tiles / (w * h)))) ++
      List.replicate (16 * lack w (tiles % h)) 0).length = 16 * (tiles + lack w (tiles % h)) := by
    have hle := Nat.mul_div_le tiles (w * h)
    rw [length_append, length_append, length_blockTiles himage hle, length_drop, length_replicate]
    omega
  obtain ⟨pad, rows, hlaid, hpad, hcount⟩ := exists_layOut_width hlength hw
  refine ⟨_, _, rows, lack w (tiles % h) + pad, (layOut_of_blocks hw harranged).trans hlaid, rfl,
    rfl, pixels_eq (length_padded hlength hcount), ?_, by omega,
    rows_iff (Nat.mod_lt _ hw) hpad hcount⟩
  rw [append_assoc, ← replicate_add, Nat.mul_add]

/-- Five tiles in blocks of two by two fill three rows of two, the last one with an empty tile. -/
theorem padded_minimally_five : ∃ p shown,
    layOut ((threeTiles ++ threeTiles).take 80) { blocks := some [2, 2] } = .ok p ∧
      p.width = (16 : Nat) ∧ p.height = (24 : Nat) ∧
      (p.pixels = (List.range 24).map fun y => (List.range 16).map fun x => shadeAt shown 2 x y) ∧
      shown = [0, 2, 1, 3, 4].flatMap (tileIn (threeTiles ++ threeTiles)) ++
        List.replicate 16 0 := by
  have hlength : ((threeTiles ++ threeTiles).take 80).length = 16 * 5 := rfl
  obtain ⟨p, shown, rows, pad, hp, hwidth, hheight, hpixels, hshown, hcount, -, hiff⟩ :=
    padded_minimally_iff (w := 2) (h := 2) hlength (by decide) (by decide)
  obtain rfl : rows = 3 := hiff.2 (by decide)
  obtain rfl : pad = 1 := by omega
  refine ⟨p, shown, hp, hwidth, hheight, hpixels, hshown.trans ?_⟩
  decide

/-- Four tiles in blocks of two by three get a third row of two, which stays empty. -/
theorem exists_empty_row : ∃ p,
    layOut ((threeTiles ++ threeTiles).take 64) { blocks := some [2, 3] } = .ok p ∧
      p.height ≠ (8 * ((4 + 2 - 1) / 2) : Nat) := by
  have hheight : (fun p => p.height) <$>
      layOut ((threeTiles ++ threeTiles).take 64) { blocks := some [2, 3] } = .ok 24 := by
    decide +kernel
  obtain ⟨p, hp, hp24⟩ := map_ok_iff.1 hheight
  exact ⟨p, hp, by rw [hp24]; decide⟩

end Cartridge.Picture
