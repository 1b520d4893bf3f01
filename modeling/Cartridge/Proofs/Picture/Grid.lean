import Cartridge.Picture.Save
import Cartridge.Proofs.Fault
import Mathlib.Algebra.Order.Ring.Int
import Mathlib.Data.List.Basic
import Mathlib.Tactic.Ring

/-!
# The grid of a picture

Stored tiles are rows of eight pixels (`pixelRows`), and a line of a picture of so many columns is
made of one row from each tile that it crosses (`gridLine`).  `layOut` gives the grid of the tiles,
filled up with empty ones, in a size that it finds:

* `flatten_eq`, `toLines_eq`: the pixels and the lines.
* `exists_sizes`: without a wanted size, the preferred size is a whole number of tiles both ways.
* `exists_layOut`: the picture for any wanted size.
-/

open List

namespace Cartridge.Picture

variable {image : List UInt8} {n a columns p tiles : Nat} {row : List Nat}

/-! ### Rows of pixels -/

def pixelRows : List UInt8 → List (List Nat)
  | low :: high :: rest => rowPixels low high :: pixelRows rest
  | _ => []

theorem length_lt_two (h : ∀ low high rest, image = low :: high :: rest → False) :
    image.length < 2 := by
  rcases image with _ | ⟨low, _ | ⟨high, rest⟩⟩
  · decide
  · exact Nat.one_lt_two
  · exact (h low high rest rfl).elim

theorem flatten_eq (h : 2 ∣ image.length) : flatten image = .ok (pixelRows image).flatten := by
  fun_induction pixelRows image with
  | case1 low high rest ih =>
    have hrest : 2 ∣ rest.length := (Nat.dvd_add_left (Nat.dvd_refl 2)).1 h
    rw [flatten, ih hrest]
    rfl
  | case2 image hshort =>
    have hlt := length_lt_two hshort
    obtain rfl := length_eq_zero_iff.1 (show image.length = 0 by omega)
    rfl

theorem length_pixelRows (h : image.length = 2 * n) : (pixelRows image).length = n := by
  fun_induction pixelRows image generalizing n with
  | case1 low high rest ih =>
    rw [length_cons, length_cons] at h
    rw [length_cons, ih (n := n - 1) (by omega)]
    omega
  | case2 image hshort =>
    have hlt := length_lt_two hshort
    rw [length_nil]
    omega

theorem getD_pixelRows {k : Nat} (h : 2 * k + 1 < image.length) :
    (pixelRows image).getD k [] = rowPixels (image.getD (2 * k) 0) (image.getD (2 * k + 1) 0) := by
  fun_induction pixelRows image generalizing k with
  | case1 low high rest ih =>
    cases k with
    | zero => rfl
    | succ k => exact ih (by simp only [length_cons] at h; omega)
  | case2 image hshort =>
    have hlt := length_lt_two hshort
    omega

theorem length_of_mem_pixelRows (h : row ∈ pixelRows image) : row.length = 8 := by
  fun_induction pixelRows image with
  | case1 low high rest ih =>
    rcases mem_cons.1 h with rfl | h
    · simp [rowPixels]
    · exact ih h
  | case2 => cases h

theorem le_of_mem_rowPixels {low high : UInt8} (h : p ∈ rowPixels low high) : p ≤ 3 := by
  obtain ⟨i, -, rfl⟩ := mem_map.1 h
  omega

theorem le_of_mem_pixelRows (h : row ∈ pixelRows image) (hp : p ∈ row) : p ≤ 3 := by
  fun_induction pixelRows image with
  | case1 low high rest ih =>
    rcases mem_cons.1 h with rfl | h
    · exact le_of_mem_rowPixels hp
    · exact ih h
  | case2 => cases h

/-! ### Lines -/

section Lines

variable {α : Type} {rows : List (List α)}

theorem take_drop_flatten {size : Nat} (h : ∀ row ∈ rows, row.length = size) (j : Nat) :
    (rows.flatten.drop (size * j)).take size = rows.getD j [] := by
  induction rows generalizing j with
  | nil => simp
  | cons row rows ih =>
    obtain ⟨hrow, hrows⟩ := forall_mem_cons.1 h
    cases j with
    | zero => simp [take_left' hrow]
    | succ j =>
      have hsplit : size * (j + 1) = row.length + size * j := by rw [hrow]; ring
      rw [flatten_cons, hsplit, ← drop_drop, drop_left, ih hrows]
      rfl

def gridLine (rows : List (List α)) (columns y : Nat) : List α :=
  (List.range columns).flatMap fun x => rows.getD (8 * (columns * (y / 8) + x) + y % 8) []

def grid (rows : List (List α)) (columns height : Nat) : List (List α) :=
  (List.range height).map (gridLine rows columns)

theorem toLines_eq {height : Nat} (h : ∀ row ∈ rows, row.length = 8) (hcolumns : 0 < columns)
    (hrows : rows.length = columns * height) :
    toLines rows.flatten.toArray (8 * columns : Nat) = .ok (grid rows columns height) := by
  have hsize : rows.flatten.toArray.size = height * (8 * columns) := by
    rw [size_toArray, List.length_flatten, map_congr_left h, map_const', sum_replicate_nat, hrows]
    ring
  have hheight : (Int.fdiv (rows.flatten.toArray.size : Nat) (8 * columns : Nat)).toNat = height := by
    rw [hsize, Int.fdiv_eq_ediv_of_nonneg _ (by omega), Nat.cast_mul,
      Int.mul_ediv_cancel _ (by omega), Int.toNat_natCast]
  have hcount : (((8 * columns : Nat) : Int) / 8).toNat = columns := by omega
  rw [toLines, if_neg (by omega), hheight, hcount]
  refine congrArg Except.ok (map_congr_left fun y _ => ?_)
  refine flatMap_congr fun x _ => ?_
  rw [show columns * (y / 8) * 64 + x * 64 + y % 8 * 8 = 8 * (8 * (columns * (y / 8) + x) + y % 8) by
    ring, Array.toList_extract, extract_eq_take_drop,
    Nat.add_sub_cancel_left, take_drop_flatten h]

end Lines

/-! ### Sizes -/

theorem preferred_total (a b : Int × Int) : preferred a b || preferred b a := by
  simp only [preferred]
  rcases Bool.eq_false_or_eq_true (a.2 % 8 == 0) with ha | ha <;>
    rcases Bool.eq_false_or_eq_true (b.2 % 8 == 0) with hb | hb <;> simp [ha, hb] <;> omega

theorem preferred_trans (a b c : Int × Int) (hab : preferred a b) (hbc : preferred b c) :
    preferred a c := by
  simp only [preferred] at hab hbc ⊢
  rcases Bool.eq_false_or_eq_true (a.2 % 8 == 0) with ha | ha <;>
    rcases Bool.eq_false_or_eq_true (b.2 % 8 == 0) with hb | hb <;>
      rcases Bool.eq_false_or_eq_true (c.2 % 8 == 0) with hc | hc <;> simp_all <;> omega

theorem whole_of_preferred {a b : Int × Int} (h : preferred a b) (hb : b.2 % 8 = 0) :
    a.2 % 8 = 0 := by
  by_contra ha
  simp [preferred, ha, hb] at h

theorem mem_sizesOf {pixels : Int} {s : Int × Int} (h : s ∈ sizesOf pixels) :
    ∃ k : Nat, s.1 = 8 * (k + 1) ∧ s.1 * s.2 = pixels := by
  obtain ⟨k, -, hk⟩ := mem_filterMap.1 h
  simp only at hk
  split_ifs at hk with hsize
  obtain rfl := Option.some.inj hk
  exact ⟨k, rfl, hsize⟩

theorem mem_sizesOf_of_mul {rows : Nat} (h : columns * rows = n) (hn : 0 < n) :
    (((8 * columns : Nat) : Int), ((8 * rows : Nat) : Int)) ∈ sizesOf (64 * n) := by
  have hcolumns : 0 < columns := Nat.pos_of_ne_zero fun hzero => by simp [hzero] at h; omega
  have hle : columns ≤ n := Nat.le_of_dvd hn ⟨rows, h.symm⟩
  have hwidth : 8 * (((columns - 1 : Nat) : Int) + 1) = (8 * columns : Nat) := by omega
  have hpixels : (64 * n : Int) = (8 * columns : Nat) * (8 * rows : Nat) := by
    rw [← h]
    push_cast
    ring
  refine mem_filterMap.2 ⟨columns - 1, mem_range.2 (by omega), ?_⟩
  simp only [hwidth, hpixels]
  rw [Int.mul_ediv_cancel_left _ (by omega), if_pos rfl]

theorem exists_sizes (hn : 0 < n) :
    ∃ columns rows rest, (sizesOf (64 * n)).mergeSort preferred =
        (((8 * columns : Nat) : Int), ((8 * rows : Nat) : Int)) :: rest ∧
      columns * rows = n ∧ 0 < columns := by
  have hperm := mergeSort_perm (sizesOf (64 * n)) preferred
  have hcolumn := hperm.mem_iff.2 (mem_sizesOf_of_mul (Nat.one_mul n) hn)
  cases hsorted : (sizesOf (64 * n)).mergeSort preferred with
  | nil =>
    rw [hsorted] at hcolumn
    cases hcolumn
  | cons best rest =>
    have hbest : best ∈ sizesOf (64 * n) := hperm.mem_iff.1 (hsorted ▸ mem_cons_self)
    obtain ⟨k, hwidth, hpixels⟩ := mem_sizesOf hbest
    have hpairs := pairwise_mergeSort preferred_trans preferred_total (sizesOf (64 * n))
    rw [hsorted, pairwise_cons] at hpairs
    have hwhole : best.2 % 8 = 0 := by
      rcases mem_cons.1 (hsorted ▸ hcolumn) with heq | hrest
      · rw [← heq]
        omega
      · exact whole_of_preferred (hpairs.1 _ hrest) (by omega)
    obtain ⟨width, height⟩ := best
    simp only at hwidth hpixels hwhole
    have hpos : 0 < height := by
      by_contra hle
      have : width * height ≤ 0 := Int.mul_nonpos_of_nonneg_of_nonpos (by omega) (by omega)
      omega
    obtain ⟨rows, hrows⟩ : ∃ rows : Nat, height = 8 * rows := ⟨(height / 8).toNat, by omega⟩
    refine ⟨k + 1, rows, rest, ?_, ?_, Nat.succ_pos k⟩
    · rw [hwidth, hrows]
      rfl
    · rw [hwidth, hrows] at hpixels
      have hproduct : (64 * ((k + 1 : Nat) * rows : Nat) : Int) = 64 * n := by
        rw [← hpixels]
        push_cast
        ring
      omega

/-! ### Layouts -/

/-- A wanted size in tiles. -/
inductive Request where
  | any
  | width (tiles : Nat)
  | height (tiles : Nat)

namespace Request

def width? : Request → Option Int
  | width n => some (8 * n : Nat)
  | _ => none

def height? : Request → Option Int
  | height n => some (8 * n : Nat)
  | _ => none

/-- The number of tiles to which the picture is filled up. -/
def side : Request → Nat
  | any => 1
  | width n | height n => n

end Request

theorem exists_fillTo (himage : image.length = 16 * tiles) (hn : 0 < n) :
    ∃ pad rows, fillTo image (8 * n : Nat) = .ok (image ++ List.replicate (16 * pad) 0) ∧
      pad < n ∧ tiles + pad = n * rows := by
  have hside : ((8 * n : Nat) : Int) / 8 = n := by omega
  have hcount : pixelCount image / 64 = tiles := by
    rw [pixelCount, himage]
    omega
  have hrest : Int.fmod (tiles : Int) n = ((tiles % n : Nat) : Int) := by
    rw [Int.fmod_eq_emod_of_nonneg _ (by omega)]
    rfl
  have hlt := Nat.mod_lt tiles hn
  have hdiv := Nat.div_add_mod tiles n
  rw [fillTo, hside, hcount, hrest]
  by_cases hzero : tiles % n = 0
  · refine ⟨0, tiles / n, ?_, hn, by omega⟩
    simp [hzero, Nat.ne_of_gt hn, emptyTiles]
  · refine ⟨n - tiles % n, tiles / n + 1, ?_, by omega, by rw [Nat.mul_succ]; omega⟩
    have hpad : ((n : Int) - (tiles % n : Nat)).toNat = n - tiles % n := by omega
    simp only [Nat.cast_eq_zero, Nat.ne_of_gt hn, hzero, if_false, emptyTiles, hpad]
    rfl

theorem pixelCount_eq {b : Nat} (h : image.length = 16 * (a * b)) :
    pixelCount image = (8 * a : Nat) * (8 * b : Nat) := by
  rw [pixelCount, h]
  push_cast
  ring

theorem fdiv_mul_cancel (ha : 0 < a) (b : Nat) :
    Int.fdiv ((8 * a : Nat) * (8 * b : Nat)) (8 * a : Nat) = (8 * b : Nat) := by
  rw [Int.fdiv_eq_ediv_of_nonneg _ (by omega), Int.mul_ediv_cancel_left _ (by omega)]

def draw (image : List UInt8) (width height : Int) : Except Fault Laid := do
  let flat ← flatten image
  let lines ← toLines flat.toArray width
  return ⟨width, height, lines.map fun l => l.map fun (p : Nat) => 3 - (p : Int)⟩

section Options

variable {filled : List UInt8} {width height : Int}

theorem isGiven_zero : isGiven (some 0) = false := rfl

theorem append_emptyTiles_zero (image : List UInt8) : image ++ emptyTiles 0 = image :=
  append_nil image

theorem layOut_of_width (hgiven : width ≠ 0) (hfill : fillTo image width = .ok filled)
    (hheight : Int.fdiv (pixelCount filled) width = height)
    (hsize : width * height = pixelCount filled) :
    layOut image { width := some width } = draw filled width height := by
  have hwidth : isGiven (some width) = true := by simpa [isGiven] using hgiven
  have hbind : ∀ next : List UInt8 → Except Fault Laid,
      fillTo image width >>= next = next filled := by rw [hfill]; exact fun _ => rfl
  simp only [layOut, Bool.false_and, Bool.false_eq_true, if_false, pure_bind,
    append_emptyTiles_zero, hwidth, isGiven_zero, if_true, Option.getD_some, hbind, hheight, hsize]
  rfl

theorem layOut_of_height (hgiven : height ≠ 0) (hfill : fillTo image height = .ok filled)
    (hwidth : Int.fdiv (pixelCount filled) height = width)
    (hsize : width * height = pixelCount filled) :
    layOut image { height := some height } = draw filled width height := by
  have hheight : isGiven (some height) = true := by simpa [isGiven] using hgiven
  have hbind : ∀ next : List UInt8 → Except Fault Laid,
      fillTo image height >>= next = next filled := by rw [hfill]; exact fun _ => rfl
  simp only [layOut, Bool.false_and, Bool.false_eq_true, if_false, pure_bind,
    append_emptyTiles_zero, hheight, isGiven_zero, if_true, Option.getD_some, hbind, hwidth, hsize]
  rfl

theorem layOut_of_any {rest : List (Int × Int)} (hpixels : pixelCount image ≠ 0)
    (hsizes : (sizesOf (pixelCount image)).mergeSort preferred = (width, height) :: rest) :
    layOut image {} = draw image width height := by
  simp only [layOut, Bool.false_and, Bool.false_eq_true, if_false, pure_bind,
    append_emptyTiles_zero, isGiven_zero, Int.zero_mul, hpixels.symm, hsizes]
  rfl

end Options

def pictureOf (image : List UInt8) (columns rows : Nat) : Laid where
  width := (8 * columns : Nat)
  height := (8 * rows : Nat)
  pixels := (grid (pixelRows image) columns (8 * rows)).map fun l =>
    l.map fun (p : Nat) => 3 - (p : Int)

theorem draw_eq {rows : Nat} (hcolumns : 0 < columns)
    (himage : image.length = 16 * (columns * rows)) :
    draw image (8 * columns : Nat) (8 * rows : Nat) = .ok (pictureOf image columns rows) := by
  have hlength : (pixelRows image).length = columns * (8 * rows) :=
    length_pixelRows (by rw [himage]; ring)
  rw [draw, flatten_eq (by omega)]
  have hlines := toLines_eq (fun row => length_of_mem_pixelRows) hcolumns hlength
  simp only [Except.bind, bind, hlines]
  rfl

theorem length_padded {pad : Nat} (himage : image.length = 16 * tiles) (h : tiles + pad = n) :
    (image ++ List.replicate (16 * pad) 0).length = 16 * n := by
  rw [length_append, length_replicate, himage, ← h, Nat.mul_add]

theorem exists_layOut_width (himage : image.length = 16 * tiles) (hn : 0 < n) :
    ∃ pad rows, layOut image { width := some (8 * n : Nat) } =
        .ok (pictureOf (image ++ List.replicate (16 * pad) 0) n rows) ∧
      pad < n ∧ tiles + pad = n * rows := by
  obtain ⟨pad, rows, hfill, hpad, hcount⟩ := exists_fillTo himage hn
  have hlength := length_padded himage hcount
  have hpixels := pixelCount_eq hlength
  refine ⟨pad, rows, ?_, hpad, hcount⟩
  rw [← draw_eq hn hlength]
  refine layOut_of_width (Int.natCast_ne_zero.2 (by omega)) hfill ?_ hpixels.symm
  rw [hpixels, fdiv_mul_cancel hn]

theorem exists_layOut (himage : image.length = 16 * tiles) (htiles : 0 < tiles) (q : Request)
    (hq : 0 < q.side) :
    ∃ pad columns rows, layOut image (sized q.width? q.height?) =
        .ok (pictureOf (image ++ List.replicate (16 * pad) 0) columns rows) ∧
      pad < q.side ∧ tiles + pad = columns * rows ∧ 0 < columns ∧ 0 < rows := by
  have hpos : ∀ {pad a b : Nat}, tiles + pad = a * b → 0 < b := fun {pad a b} hcount =>
    Nat.pos_of_ne_zero fun h => by simp [h] at hcount; omega
  cases q with
  | any =>
    obtain ⟨columns, rows, rest, hsizes, hcount, hcolumns⟩ := exists_sizes htiles
    have hpixels : pixelCount image = 64 * tiles := by rw [pixelCount, himage]; push_cast; ring
    rw [← hpixels] at hsizes
    refine ⟨0, columns, rows, ?_, Nat.one_pos, hcount.symm, hcolumns,
      hpos (show tiles + 0 = columns * rows from hcount.symm)⟩
    rw [replicate_zero, append_nil, ← draw_eq hcolumns (hcount ▸ himage)]
    exact layOut_of_any (by omega) hsizes
  | width n =>
    change 0 < n at hq
    obtain ⟨pad, rows, hlaid, hpad, hcount⟩ := exists_layOut_width himage hq
    refine ⟨pad, n, rows, ?_, hpad, hcount, hq, hpos hcount⟩
    have hgiven : isGiven (some (8 * n : Nat)) = true := by simpa [isGiven] using Nat.ne_of_gt hq
    change layOut image (sized (some (8 * n : Nat)) none) = _
    rw [sized, if_pos hgiven, hlaid]
  | height n =>
    change 0 < n at hq
    obtain ⟨pad, columns, hfill, hpad, hcount⟩ := exists_fillTo himage hq
    have hcolumns := hpos hcount
    rw [Nat.mul_comm] at hcount
    have hlength := length_padded himage hcount
    have hpixels := pixelCount_eq hlength
    have hgiven : isGiven (some (8 * n : Nat)) = true := by simpa [isGiven] using Nat.ne_of_gt hq
    refine ⟨pad, columns, n, ?_, hpad, hcount, hcolumns, hq⟩
    rw [← draw_eq hcolumns hlength]
    change layOut image (sized none (some (8 * n : Nat))) = _
    rw [sized, if_pos hgiven]
    refine layOut_of_height ?_ hfill ?_ hpixels.symm
    · exact Int.natCast_ne_zero.2 (by omega)
    · rw [hpixels, Int.mul_comm, fdiv_mul_cancel hq]

end Cartridge.Picture
