import Cartridge.Proofs.Picture.Lossless
import Mathlib.Order.Bounds.Basic
import Mathlib.Tactic.Linarith

/-!
# Pictures of no given size

Without a wanted size, tiles are laid out in the most square way.  The sizes that fit are tried from
the narrowest on, and of those that are preferred alike the first one is taken.

* `width_le_of_mergeSort`: the size that is taken is the narrowest of those preferred alike.
* `exists_squarest`: it has as many columns as the largest divisor up to the square root.
* `pixels_eq`: the shade of every pixel of a picture.
-/

open List

namespace Cartridge.Picture

variable {image : List UInt8} {n : Nat}

/-! ### The size -/

theorem pairwise_sizesOf (pixels : Int) : (sizesOf pixels).Pairwise fun a b => a.1 < b.1 := by
  refine pairwise_filterMap.2 (pairwise_lt_range.imp fun {k l} hlt a ha b hb => ?_)
  simp only [Option.ite_none_right_eq_some, Option.some.injEq] at ha hb
  obtain ⟨-, rfl⟩ := ha
  obtain ⟨-, rfl⟩ := hb
  exact Int.mul_lt_mul_of_pos_left (by omega) (by decide)

theorem width_le_of_mergeSort {pixels : Int} {best s : Int × Int} {rest : List (Int × Int)}
    (hsorted : (sizesOf pixels).mergeSort preferred = best :: rest) (hs : s ∈ sizesOf pixels)
    (hle : preferred s best) : best.1 ≤ s.1 := by
  by_contra hlt
  have hperm := mergeSort_perm (sizesOf pixels) preferred
  have hordered := pairwise_sizesOf pixels
  have hnodup : (best :: rest).Nodup := by
    rw [← hsorted, hperm.nodup_iff]
    exact hordered.imp fun hlt heq => (heq ▸ hlt).false
  obtain ⟨before, after, hsplit⟩ := append_of_mem (hperm.mem_iff.1 (hsorted ▸ mem_cons_self))
  rw [hsplit, pairwise_append, pairwise_cons] at hordered
  have hbefore : s ∈ before := by
    rw [hsplit, mem_append, mem_cons] at hs
    rcases hs with hs | rfl | hs
    · exact hs
    · exact absurd le_rfl hlt
    · exact absurd (hordered.2.1.1 s hs).le hlt
  -- sorting leaves the two in their order, so the best size would come a second time
  have hpair : [s, best] <+ best :: rest := by
    rw [← hsorted]
    refine pair_sublist_mergeSort preferred_trans preferred_total hle ?_
    rw [hsplit]
    exact (singleton_sublist.2 hbefore).append (singleton_sublist.2 mem_cons_self)
  have hagain : best ∈ rest := by
    cases hpair with
    | cons _ hrest | cons_cons _ hrest => exact hrest.subset (by simp)
  exact (nodup_cons.1 hnodup).1 hagain

theorem exists_squarest (hn : 0 < n) :
    ∃ columns rows rest, (sizesOf (64 * n)).mergeSort preferred =
        (((8 * columns : Nat) : Int), ((8 * rows : Nat) : Int)) :: rest ∧
      columns * rows = n ∧ 0 < columns ∧ IsGreatest {c | c ∣ n ∧ c * c ≤ n} columns := by
  obtain ⟨columns, rows, rest, hsorted, hcount, hcolumns⟩ := exists_sizes hn
  have hpairs := pairwise_mergeSort preferred_trans preferred_total (sizesOf (64 * n))
  rw [hsorted, pairwise_cons] at hpairs
  have hsum : ∀ d e, d * e = n → columns + rows ≤ d + e := by
    intro d e hde
    have hmem := mem_sizesOf_of_mul hde hn
    rw [← (mergeSort_perm _ preferred).mem_iff, hsorted] at hmem
    rcases mem_cons.1 hmem with heq | hmem
    · simp at heq
      omega
    · have hle := hpairs.1 _ hmem
      simp [preferred] at hle
      omega
  have hwide : columns ≤ rows := by
    have hturned := mem_sizesOf_of_mul (Nat.mul_comm rows columns ▸ hcount) hn
    have hle := width_le_of_mergeSort hsorted hturned (by simp [preferred, Int.add_comm])
    simpa using hle
  refine ⟨columns, rows, rest, hsorted, hcount, hcolumns, ⟨⟨rows, hcount.symm⟩, ?_⟩, ?_⟩
  · exact hcount ▸ Nat.mul_le_mul_left columns hwide
  · rintro d ⟨⟨e, hde⟩, hle⟩
    by_contra hlt
    have hde' : d ≤ e := Nat.le_of_mul_le_mul_left (hde ▸ hle) (by omega)
    -- of two equal products the one with the smaller sum has its factors nearer to each other
    have hsum := hsum d e hde.symm
    nlinarith

/-! ### The pixels -/

/-- The shade of the pixel in column `x` of line `y` of a picture with so many columns of tiles. -/
def shadeAt (image : List UInt8) (columns x y : Nat) : Int :=
  let row := 16 * (y / 8 * columns + x / 8) + 2 * (y % 8)
  let bit (i : Nat) := ((image.getD i 0).toNat >>> (7 - x % 8)) % 2
  3 - (bit row + 2 * bit (row + 1) : Nat)

theorem pixels_eq {columns rows : Nat} (himage : image.length = 16 * (columns * rows)) :
    (pictureOf image columns rows).pixels = (List.range (8 * rows)).map fun y =>
      (List.range (8 * columns)).map fun x => shadeAt image columns x y := by
  rw [pictureOf, grid, map_map]
  refine map_congr_left fun y hy => ?_
  rw [map_eq_flatMap (l := List.range (8 * columns)), ← flatMap_range_mul, Function.comp_apply,
    gridLine, map_flatMap]
  refine flatMap_congr fun x hx => ?_
  have hrow : y / 8 < rows := Nat.div_lt_of_lt_mul (mem_range.1 hy)
  have hcolumn := mem_range.1 hx
  have htile : columns * (y / 8) + x < columns * rows := by nlinarith
  rw [getD_pixelRows (by omega), rowPixels, map_map, map_eq_flatMap]
  refine flatMap_congr fun i hi => ?_
  have hi := mem_range.1 hi
  have hbytes : 2 * (8 * (columns * (y / 8) + x) + y % 8) =
      16 * (y / 8 * columns + x) + 2 * (y % 8) := by ring
  simp only [Function.comp_apply, shadeAt, hbytes]
  rw [show (8 * x + i) / 8 = x by omega, show (8 * x + i) % 8 = i by omega]

/-- **Tiles are laid out in the most square way**, with as many columns as the largest divisor of
their number up to its square root, and every pixel shows the two bits that its tile has for it. -/
theorem layOut_most_square {tiles : Nat} (himage : image.length = 16 * tiles) (htiles : 1 ≤ tiles) :
    ∃ columns p, IsGreatest {c | c ∣ tiles ∧ c * c ≤ tiles} columns ∧ layOut image {} = .ok p ∧
      p.width = (8 * columns : Nat) ∧ p.height = (8 * (tiles / columns) : Nat) ∧
      p.pixels = (List.range (8 * (tiles / columns))).map fun y =>
        (List.range (8 * columns)).map fun x => shadeAt image columns x y := by
  obtain ⟨columns, rows, rest, hsorted, hcount, hcolumns, hgreatest⟩ := exists_squarest htiles
  have hpixels : pixelCount image = 64 * tiles := by rw [pixelCount, himage]; push_cast; ring
  rw [← hpixels] at hsorted
  have himage' : image.length = 16 * (columns * rows) := hcount ▸ himage
  have hrows : tiles / columns = rows := by rw [← hcount, Nat.mul_div_cancel_left _ hcolumns]
  refine ⟨columns, _, hgreatest,
    (layOut_of_any (by omega) hsorted).trans (draw_eq hcolumns himage'), rfl, ?_⟩
  rw [hrows]
  exact ⟨rfl, pixels_eq himage'⟩

/-- Six tiles stand in two columns. -/
theorem layOut_most_square_six : ∃ p, layOut (threeTiles ++ threeTiles) {} = .ok p ∧
    p.width = (16 : Nat) ∧ p.height = (24 : Nat) ∧ p.pixels = (List.range 24).map fun y =>
      (List.range 16).map fun x => shadeAt (threeTiles ++ threeTiles) 2 x y := by
  have hlength : (threeTiles ++ threeTiles).length = 16 * 6 := rfl
  obtain ⟨columns, p, ⟨⟨-, hsquare⟩, hlargest⟩, hp⟩ := layOut_most_square hlength (by decide)
  have htwo : 2 ≤ columns := hlargest ⟨by decide, by decide⟩
  obtain rfl : columns = 2 := le_antisymm (by nlinarith) htwo
  exact ⟨p, hp⟩

end Cartridge.Picture
