import Cartridge.Png.Scanlines
import Cartridge.Png.Writer
import Cartridge.Proofs.Png.Strided
import Mathlib.Tactic.Ring

/-!
# Interlaced images are put together

The lines of the seven passes have the samples of an image at their places (`Pass.place`), and every
sample has a place in some line (`exists_mem_passLines`).

* `Writer.exists_passRow`: a line of a pass is cut out of the image.
* `exists_placeLine`: a line of a pass is put into the image.
-/

open List

namespace Cartridge.Png

open Strided Pass

/-! ### Passes -/

namespace Pass

variable {p : Pass} {width height planes i j k n x y : Nat}

/-- What the passes have in common: they go on, and the pixels of one that leaves out none start at
the first. -/
structure Regular (p : Pass) : Prop where
  xStep : 0 < p.xStep
  yStep : 0 < p.yStep
  xStart : p.xStep = 1 → p.xStart = 0

theorem regular_of_mem (h : p ∈ passes) : p.Regular := by
  have hall : ∀ p ∈ passes, 0 < p.xStep ∧ 0 < p.yStep ∧ (p.xStep = 1 → p.xStart = 0) := by decide
  obtain ⟨hx, hy, hstart⟩ := hall p h
  exact ⟨hx, hy, hstart⟩

theorem Regular.lt_lineWidth_iff (hp : p.Regular) :
    k < p.lineWidth width ↔ p.xStart + k * p.xStep < width :=
  lt_count_iff hp.xStep

theorem Regular.mem_lines_iff (hp : p.Regular) :
    y ∈ p.lines height ↔ y < height ∧ ∃ k, y = p.yStart + k * p.yStep :=
  mem_positions_iff hp.yStep

theorem Regular.lineWidth_pos (hp : p.Regular) (h : p.xStart < width) : 0 < p.lineWidth width := by
  rw [hp.lt_lineWidth_iff]
  omega

theorem Regular.lineWidth_le (hp : p.Regular) : p.lineWidth width ≤ width := by
  by_contra hlt
  have hlast := hp.lt_lineWidth_iff.1 (Nat.lt_of_not_le hlt)
  have hmul : width * 1 ≤ width * p.xStep := Nat.mul_le_mul_left _ hp.xStep
  omega

theorem Regular.lineWidth_eq (hp : p.Regular) (hone : p.xStep = 1) : p.lineWidth width = width := by
  rw [lineWidth, hone, hp.xStart hone]
  simp

theorem exists_mem_passes (x y : Nat) :
    ∃ p ∈ passes, x % p.xStep = p.xStart ∧ y % p.yStep = p.yStart := by
  -- each case takes away the pixels of one pass, from the last to the first
  by_cases h₇ : y % 2 = 1
  · exact ⟨⟨0, 1, 1, 2⟩, by decide, Nat.mod_one x, h₇⟩
  by_cases h₆ : x % 2 = 1
  · exact ⟨⟨1, 0, 2, 2⟩, by decide, h₆, show y % 2 = 0 by omega⟩
  by_cases h₅ : y % 4 = 2
  · exact ⟨⟨0, 2, 2, 4⟩, by decide, show x % 2 = 0 by omega, h₅⟩
  by_cases h₄ : x % 4 = 2
  · exact ⟨⟨2, 0, 4, 4⟩, by decide, h₄, show y % 4 = 0 by omega⟩
  by_cases h₃ : y % 8 = 4
  · exact ⟨⟨0, 4, 4, 8⟩, by decide, show x % 4 = 0 by omega, h₃⟩
  by_cases h₂ : x % 8 = 4
  · exact ⟨⟨4, 0, 8, 8⟩, by decide, h₂, show y % 8 = 0 by omega⟩
  · exact ⟨⟨0, 0, 8, 8⟩, by decide, show x % 8 = 0 by omega, show y % 8 = 0 by omega⟩

/-! ### Places -/

/-- The place in the image of sample `j` of the line `y` of a pass. -/
def place (p : Pass) (width planes y j : Nat) : Nat :=
  (y * width + (p.xStart + j / planes * p.xStep)) * planes + j % planes

theorem place_channel (p : Pass) (width y k : Nat) (hi : i < planes) :
    p.place width planes y (k * planes + i) =
      y * (width * planes) + p.xStart * planes + i + k * (planes * p.xStep) := by
  have hpixel : (k * planes + i) / planes = k := by
    rw [Nat.mul_comm, Nat.mul_add_div (by omega), Nat.div_eq_of_lt hi, Nat.add_zero]
  have hchannel : (k * planes + i) % planes = i := by
    rw [Nat.mul_comm, Nat.mul_add_mod, Nat.mod_eq_of_lt hi]
  rw [place, hpixel, hchannel]
  ring

theorem place_whole (hp : p.Regular) (hone : p.xStep = 1) (width planes y j : Nat) :
    p.place width planes y j = y * (width * planes) + j := by
  have hj := Nat.div_add_mod j planes
  rw [place, hp.xStart hone, hone]
  calc (y * width + (0 + j / planes * 1)) * planes + j % planes
      = y * (width * planes) + (planes * (j / planes) + j % planes) := by ring
    _ = y * (width * planes) + j := by rw [hj]

theorem mul_add_lt_mul_iff (hi : i < planes) : k * planes + i < n * planes ↔ k < n := by
  constructor
  · intro h
    exact Nat.lt_of_mul_lt_mul_right (Nat.lt_of_le_of_lt (Nat.le_add_right ..) h)
  · intro h
    calc k * planes + i < (k + 1) * planes := by rw [Nat.succ_mul]; omega
      _ ≤ n * planes := Nat.mul_le_mul_right _ h

theorem exists_channel (hplanes : 0 < planes) (hj : j < n * planes) :
    ∃ k i, k < n ∧ i < planes ∧ j = k * planes + i := by
  have hsplit : j / planes * planes + j % planes = j := Nat.div_add_mod' j planes
  refine ⟨j / planes, j % planes, ?_, Nat.mod_lt _ hplanes, hsplit.symm⟩
  rwa [← mul_add_lt_mul_iff (Nat.mod_lt j hplanes), hsplit]

theorem Regular.length_positions (hp : p.Regular) (hi : i < planes) :
    (positions (y * (width * planes) + p.xStart * planes + i) ((y + 1) * (width * planes))
      (planes * p.xStep)).length = p.lineWidth width := by
  refine eq_of_forall_lt_iff fun k => ?_
  have hstep : 0 < planes * p.xStep := Nat.mul_pos (by omega) hp.xStep
  have hplace : y * (width * planes) + p.xStart * planes + i + k * (planes * p.xStep) =
      y * (width * planes) + ((p.xStart + k * p.xStep) * planes + i) := by ring
  rw [lt_length_positions_iff hstep, hp.lt_lineWidth_iff, hplace, Nat.succ_mul,
    Nat.add_lt_add_iff_left, mul_add_lt_mul_iff hi]

theorem length_positions_channel (hi : i < planes) :
    (positions i (n * planes) planes).length = n := by
  refine eq_of_forall_lt_iff fun k => ?_
  rw [lt_length_positions_iff (by omega), Nat.add_comm, mul_add_lt_mul_iff hi]

theorem channel_eq {a b : Nat} (hi : i < planes) (hj : j < planes)
    (h : a * planes + i = b * planes + j) : i = j := by
  have hmod := congrArg (· % planes) h
  simpa only [Nat.mul_add_mod', Nat.mod_eq_of_lt hi, Nat.mod_eq_of_lt hj] using hmod

end Pass

/-! ### Cutting out a line of a pass -/

namespace Writer

variable {w : Writer} {p : Pass} {y : Nat}

theorem planes_pos (w : Writer) : 0 < w.planes := by
  rw [planes, colourPlanes]
  split_ifs <;> decide

theorem exists_passRow {pixels : Array Nat} {width height : Nat} (hwidth : dimension w.width = width)
    (hp : p.Regular) (hx : p.xStart < width) (hy : y < height)
    (hsize : pixels.size = width * w.planes * height) :
    ∃ ns, w.passRow pixels p y = .ok ns ∧ ns.length = p.lineWidth width * w.planes ∧
      ∀ j < ns.length, ns[j]? = pixels[p.place width w.planes y j]? := by
  have hplanes := w.planes_pos
  have hperRow : w.perRow = width * w.planes := by rw [perRow, hwidth]
  have hend : y * (width * w.planes) + width * w.planes ≤ pixels.size := by
    rw [hsize, Nat.mul_comm]
    exact Nat.mul_le_mul_left _ hy
  by_cases hone : p.xStep = 1
  · refine ⟨_, by rw [passRow, if_pos hone, hperRow], ?_, ?_⟩
    · rw [hp.lineWidth_eq hone, Array.length_toList, Array.size_extract]
      omega
    · intro j hj
      rw [Array.length_toList, Array.size_extract] at hj
      rw [Array.getElem?_toList, Array.getElem?_extract, if_pos hj, place_whole hp hone]
  · -- each channel of the line is filled with the samples of a channel of the image
    have hfirst : (pixels.extract 0 (p.lineWidth width * w.planes)).size =
        p.lineWidth width * w.planes := by
      have hle : p.lineWidth width * w.planes ≤ width * w.planes :=
        Nat.mul_le_mul_right _ hp.lineWidth_le
      rw [Array.size_extract]
      omega
    have hstep : 0 < w.planes * p.xStep := Nat.mul_pos hplanes hp.xStep
    have hlength : ∀ i ∈ List.range w.planes, (every pixels
        (y * (width * w.planes) + p.xStart * w.planes + i)
        (y * (width * w.planes) + width * w.planes) (w.planes * p.xStep)).length =
          p.lineWidth width := by
      intro i hi
      rw [length_every hstep hend, ← Nat.succ_mul, hp.length_positions (mem_range.1 hi)]
    obtain ⟨row, hrow, hrowSize, hplaced, -⟩ := exists_foldlM_assign
      (f := fun row i => assign row i row.size w.planes (every pixels
        (y * (width * w.planes) + p.xStart * w.planes + i)
        (y * (width * w.planes) + width * w.planes) (w.planes * p.xStep)))
      id (nodup_range (n := w.planes)) hplanes hfirst.ge
      (fun out i hout => by rw [hout, hfirst]; rfl)
      (fun i hi => length_pos_iff.1 (by rw [hlength i hi]; exact hp.lineWidth_pos hx))
      (fun i hi => by
        rw [hlength i hi]
        exact (length_positions_channel (mem_range.1 hi)).symm)
      (fun i hi j hj k m heq => channel_eq (mem_range.1 hi) (mem_range.1 hj)
        ((Nat.add_comm ..).trans (heq.trans (Nat.add_comm ..))))
    refine ⟨row.toList, ?_, ?_, ?_⟩
    · rw [passRow, if_neg hone, hwidth, hperRow]
      simp only [hrow]
      rfl
    · rw [Array.length_toList, hrowSize, hfirst]
    · intro j hj
      rw [Array.length_toList, hrowSize, hfirst] at hj
      obtain ⟨k, i, hk, hi, rfl⟩ := exists_channel hplanes hj
      have hmem := mem_range.2 hi
      have hin : y * (width * w.planes) + p.xStart * w.planes + i + k * (w.planes * p.xStep) <
          y * (width * w.planes) + width * w.planes := by
        rw [← lt_length_positions_iff hstep, ← Nat.succ_mul, hp.length_positions hi]
        exact hk
      rw [Array.getElem?_toList, Nat.add_comm]
      refine (hplaced i hmem k (by rw [hlength i hmem]; exact hk)).trans ?_
      rw [getElem?_every hstep hend, if_pos hin, Nat.add_comm i, place_channel p _ _ _ hi]

theorem exists_interlacedRows (pixels : Array Nat) {width height : Nat}
    (hwidth : dimension w.width = width) (hheight : dimension w.height = height)
    (hsize : pixels.size = width * w.planes * height) :
    ∃ lines : List (List Nat),
      w.interlacedRows pixels = lines.map (fun ns => .ok (.whole (.array w.sampleWidth ns))) ∧
      List.Forall₂ (fun e ns => ns.length = e.1.lineWidth width * w.planes ∧
        ∀ j < ns.length, ns[j]? = pixels[e.1.place width w.planes e.2 j]?)
        (passLines width height) lines := by
  have hrow : ∀ e ∈ passLines width height, ∃ ns, w.passRow pixels e.1 e.2 = .ok ns ∧
      ns.length = e.1.lineWidth width * w.planes ∧
      ∀ j < ns.length, ns[j]? = pixels[e.1.place width w.planes e.2 j]? := by
    intro e he
    obtain ⟨p, hp, he⟩ := mem_flatMap.1 he
    obtain ⟨y, hy, rfl⟩ := mem_map.1 he
    obtain ⟨hmem, hx⟩ := mem_filter.1 hp
    have hregular := regular_of_mem hmem
    exact exists_passRow hwidth hregular (of_decide_eq_true hx) (hregular.mem_lines_iff.1 hy).1 hsize
  rw [interlacedRows, hwidth, hheight]
  generalize passLines width height = entries at hrow
  induction entries with
  | nil => exact ⟨[], rfl, .nil⟩
  | cons e es ih =>
    obtain ⟨hfirst, hrest⟩ := forall_mem_cons.1 hrow
    obtain ⟨ns, hns, hplaces⟩ := hfirst
    obtain ⟨lines, hlines, hall⟩ := ih hrest
    refine ⟨ns :: lines, ?_, .cons hplaces hall⟩
    rw [map_cons, hlines, hns]
    rfl

end Writer

/-! ### Putting in a line of a pass -/

section Placing

variable {h : Header} {l : Layout} {raw : Array UInt8} {p : Pass} {a : Assembly} {y : Nat}
  {flat : List Nat} {bytes rest : List UInt8} {samples : Array Nat}

/-- The samples `after` have those of a line of a pass at their places, and those of `before`
elsewhere. -/
structure Pass.Spread (p : Pass) (width planes y : Nat) (flat : List Nat)
    (before after : Array Nat) : Prop where
  size : after.size = before.size
  placed : ∀ j < flat.length, after[p.place width planes y j]? = flat[j]?
  kept : ∀ i, (∀ j < flat.length, i ≠ p.place width planes y j) → after[i]? = before[i]?

theorem Layout.planes_pos (l : Layout) : 0 < l.planes := by
  rw [planes, colourPlanes]
  split_ifs <;> decide

theorem exists_assign_line {width height planes : Nat} (hp : p.Regular) (hone : p.xStep = 1)
    (hx : p.xStart < width) (hy : y < height) (hplanes : 0 < planes)
    (hsize : samples.size = width * planes * height)
    (hflat : flat.length = p.lineWidth width * planes) :
    ∃ after, assign samples (y * (width * planes)) ((y + 1) * (width * planes)) 1 flat =
        .ok after ∧ p.Spread width planes y flat samples after := by
  have hend : (y + 1) * (width * planes) ≤ samples.size := by
    rw [hsize, Nat.mul_comm]
    exact Nat.mul_le_mul_left _ hy
  have hne : flat ≠ [] := length_pos_iff.1
    (by rw [hflat]; exact Nat.mul_pos (hp.lineWidth_pos hx) hplanes)
  have hlength : flat.length =
      (positions (y * (width * planes)) ((y + 1) * (width * planes)) 1).length := by
    refine eq_of_forall_lt_iff fun k => ?_
    rw [lt_length_positions_iff Nat.one_pos, hflat, hp.lineWidth_eq hone, Nat.succ_mul]
    omega
  obtain ⟨after, hassign, hfilled⟩ := exists_assign Nat.one_pos hend hne hlength
  have hplace : ∀ j, p.place width planes y j = y * (width * planes) + j * 1 := fun j => by
    rw [place_whole hp hone, Nat.mul_one]
  refine ⟨after, hassign, hfilled.size, ?_, ?_⟩
  · intro j hj
    rw [hplace]
    exact hfilled.placed j hj
  · intro i hi
    refine hfilled.kept i fun j hj => ?_
    rw [← hplace]
    exact hi j hj

theorem exists_assign_channels {width height planes : Nat} (hp : p.Regular) (hx : p.xStart < width)
    (hy : y < height) (hplanes : 0 < planes) (hsize : samples.size = width * planes * height)
    (hflat : flat.length = p.lineWidth width * planes) :
    ∃ after, (List.range planes).foldlM (fun out i =>
        assign out (y * (width * planes) + p.xStart * planes + i)
          ((y + 1) * (width * planes)) (planes * p.xStep)
          (every flat.toArray i flat.toArray.size planes)) samples = .ok after ∧
      p.Spread width planes y flat samples after := by
  have hend : (y + 1) * (width * planes) ≤ samples.size := by
    rw [hsize, Nat.mul_comm]
    exact Nat.mul_le_mul_left _ hy
  have hlength : ∀ i ∈ List.range planes,
      (every flat.toArray i flat.toArray.size planes).length = p.lineWidth width := by
    intro i hi
    rw [length_every hplanes Nat.le.refl, size_toArray, hflat,
      length_positions_channel (mem_range.1 hi)]
  obtain ⟨after, hafter, hsame, hplaced, hkept⟩ := exists_foldlM_assign
    (fun i => y * (width * planes) + p.xStart * planes + i)
    (nodup_range (n := planes)) (Nat.mul_pos hplanes hp.xStep) hend (fun _ _ _ => rfl)
    (fun i hi => length_pos_iff.1 (by rw [hlength i hi]; exact hp.lineWidth_pos hx))
    (fun i hi => by rw [hlength i hi, hp.length_positions (mem_range.1 hi)])
    (fun i hi j hj k m heq => by
      have hsum : ∀ c r, y * (width * planes) + p.xStart * planes + c + r * (planes * p.xStep) =
          (y * width + p.xStart + r * p.xStep) * planes + c := fun c r => by ring
      rw [hsum, hsum] at heq
      exact channel_eq (mem_range.1 hi) (mem_range.1 hj) heq)
  refine ⟨after, hafter, hsame, ?_, ?_⟩
  · intro j hj
    obtain ⟨k, i, hk, hi, rfl⟩ := exists_channel hplanes (hflat ▸ hj)
    have hmem := mem_range.2 hi
    rw [place_channel p _ _ _ hi, hplaced i hmem k (by rw [hlength i hmem]; exact hk),
      getElem?_every hplanes Nat.le.refl, size_toArray, Nat.add_comm i, if_pos hj,
      getElem?_toArray]
  · intro n hn
    refine hkept n fun i hi k hk heq => ?_
    have hi' := mem_range.1 hi
    rw [hlength i hi] at hk
    refine hn (k * planes + i) ?_ ?_
    · rw [hflat, mul_add_lt_mul_iff hi']
      exact hk
    · rw [heq, place_channel p _ _ _ hi']

theorem exists_placeLine (hp : p.Regular) (hx : p.xStart < h.width) (hy : y < h.height)
    (hsize : a.samples.size = h.width * l.planes * h.height)
    (hraw : raw.toList.drop a.used = 0 :: bytes ++ rest)
    (hbytes : bytes.length = (l.pixelBits * p.lineWidth h.width + 7) / 8)
    (hunpack : unpackLines h.depth (p.lineWidth h.width) bytes = .ok flat)
    (hflat : flat.length = p.lineWidth h.width * l.planes) :
    ∃ a', placeLine h l raw p a y = .ok a' ∧ raw.toList.drop a'.used = rest ∧
      p.Spread h.width l.planes y flat a.samples a'.samples := by
  have hnumber : raw[a.used]? = some 0 := by
    rw [← Array.getElem?_toList, ← head?_drop, hraw]
    rfl
  have hstored : raw.extract (a.used + 1) (a.used + 1 +
      (l.pixelBits * p.lineWidth h.width + 7) / 8) = bytes.toArray := by
    apply Array.toList_inj.1
    rw [Array.toList_extract, extract_eq_take_drop, ← drop_drop, hraw]
    simp [hbytes]
  have hundo : ∀ line above, undoNumbered (0 : UInt8).toNat l.unit line above = .ok line :=
    fun _ _ => rfl
  have hspread : ∃ after, (if p.xStep = 1 then
        assign a.samples (y * (h.width * l.planes)) ((y + 1) * (h.width * l.planes)) 1 flat
      else (List.range l.planes).foldlM (fun out i =>
        assign out (y * (h.width * l.planes) + p.xStart * l.planes + i)
          ((y + 1) * (h.width * l.planes)) (l.planes * p.xStep)
          (every flat.toArray i flat.toArray.size l.planes)) a.samples) = .ok after ∧
      p.Spread h.width l.planes y flat a.samples after := by
    by_cases hone : p.xStep = 1
    · simp only [hone, if_true]
      exact exists_assign_line hp hone hx hy l.planes_pos hsize hflat
    · simp only [hone, if_false]
      exact exists_assign_channels hp hx hy l.planes_pos hsize hflat
  obtain ⟨after, hafter, hspread⟩ := hspread
  refine ⟨⟨a.used + 1 + (l.pixelBits * p.lineWidth h.width + 7) / 8, bytes.toArray, after⟩, ?_, ?_,
    hspread⟩
  · rw [placeLine, hnumber, hstored]
    refine bind_ok_iff.2 ⟨0, demand_ok_iff.2 rfl, bind_ok_iff.2 ⟨_, hundo _ _,
      bind_ok_iff.2 ⟨flat, hunpack, ?_⟩⟩⟩
    split_ifs at hafter with hone
    · simp only [hone, if_true, hafter]
      rfl
    · simp only [hone, if_false, hafter]
      rfl
  · rw [Nat.add_assoc, ← drop_drop, hraw, ← hbytes, Nat.add_comm, cons_append,
      drop_succ_cons, drop_left]

end Placing

/-! ### Whole images -/

section Whole

variable {h : Header} {l : Layout} {raw : Array UInt8} {a : Assembly} {R : Nat → Nat → Prop}
  {rows : List (List UInt8)}

/-- The bytes of a line of a pass whose samples are related to their places. -/
structure StoresLine (R : Nat → Nat → Prop) (h : Header) (l : Layout) (e : Pass × Nat)
    (bytes : List UInt8) : Prop where
  size : bytes.length = (l.pixelBits * e.1.lineWidth h.width + 7) / 8
  samples : ∃ flat, unpackLines h.depth (e.1.lineWidth h.width) bytes = .ok flat ∧
    flat.length = e.1.lineWidth h.width * l.planes ∧
    ∀ j v, flat[j]? = some v → R (e.1.place h.width l.planes e.2 j) v

/-- There is a sample at a place, and it is related to the place. -/
def Settled (R : Nat → Nat → Prop) (samples : Array Nat) (i : Nat) : Prop :=
  ∃ v, samples[i]? = some v ∧ R i v

theorem exists_foldlM_placeLine {p : Pass} (hp : p.Regular) (hx : p.xStart < h.width)
    {ys : List Nat} (hys : ∀ y ∈ ys, y < h.height) {rest : List UInt8}
    (hrows : List.Forall₂ (StoresLine R h l) (ys.map fun y => (p, y)) rows)
    (hsize : a.samples.size = h.width * l.planes * h.height)
    (hraw : raw.toList.drop a.used = rows.flatMap (0 :: ·) ++ rest) :
    ∃ a', ys.foldlM (placeLine h l raw p) a = .ok a' ∧ a'.samples.size = a.samples.size ∧
      raw.toList.drop a'.used = rest ∧
      (∀ i, Settled R a.samples i → Settled R a'.samples i) ∧
      ∀ y ∈ ys, ∀ j < p.lineWidth h.width * l.planes,
        Settled R a'.samples (p.place h.width l.planes y j) := by
  induction ys generalizing a rows with
  | nil =>
    obtain rfl := forall₂_nil_left_iff.1 hrows
    exact ⟨a, rfl, rfl, hraw, fun _ => id, fun y hy => absurd hy not_mem_nil⟩
  | cons y ys ih =>
    obtain ⟨bytes, later, hfirst, hlater, rfl⟩ := forall₂_cons_left_iff.1 hrows
    obtain ⟨hy, hys⟩ := forall_mem_cons.1 hys
    obtain ⟨flat, hunpack, hflat, hrelated⟩ := hfirst.samples
    rw [flatMap_cons, append_assoc] at hraw
    obtain ⟨a₁, hplace, hraw, hspread⟩ := exists_placeLine hp hx hy hsize hraw hfirst.size hunpack
      hflat
    obtain ⟨a₂, hlines, hsame, hraw, hstay, hsettled⟩ := ih hys hlater
      (hspread.size.trans hsize) hraw
    have hline : ∀ j < p.lineWidth h.width * l.planes,
        Settled R a₁.samples (p.place h.width l.planes y j) := by
      intro j hj
      rw [← hflat] at hj
      refine ⟨flat[j], ?_, hrelated j _ (getElem?_eq_getElem hj)⟩
      rw [hspread.placed j hj, getElem?_eq_getElem hj]
    refine ⟨a₂, ?_, hsame.trans hspread.size, hraw, ?_, ?_⟩
    · exact bind_ok_iff.2 ⟨a₁, hplace, hlines⟩
    · rintro i ⟨v, hv, hR⟩
      refine hstay i ?_
      -- a place that the line covers is settled anew
      by_cases hcovered : ∃ j < flat.length, i = p.place h.width l.planes y j
      · obtain ⟨j, hj, rfl⟩ := hcovered
        exact hline j (hflat ▸ hj)
      · refine ⟨v, ?_, hR⟩
        rw [hspread.kept i fun j hj heq => hcovered ⟨j, hj, heq⟩, hv]
    · intro y' hy' j hj
      obtain rfl | hy' := mem_cons.1 hy'
      · exact hstay _ (hline j hj)
      · exact hsettled y' hy' j hj

theorem exists_foldlM_passes {ps : List Pass} (hps : ∀ p ∈ ps, p.Regular ∧ p.xStart < h.width)
    (hrows : List.Forall₂ (StoresLine R h l)
      (ps.flatMap fun p => (p.lines h.height).map fun y => (p, y)) rows)
    (hsize : a.samples.size = h.width * l.planes * h.height)
    (hraw : raw.toList.drop a.used = rows.flatMap (0 :: ·)) :
    ∃ a', ps.foldlM (fun (a : Assembly) p =>
        (p.lines h.height).foldlM (placeLine h l raw p) { a with above := #[] }) a = .ok a' ∧
      a'.samples.size = a.samples.size ∧
      (∀ i, Settled R a.samples i → Settled R a'.samples i) ∧
      ∀ p ∈ ps, ∀ y ∈ p.lines h.height, ∀ j < p.lineWidth h.width * l.planes,
        Settled R a'.samples (p.place h.width l.planes y j) := by
  induction ps generalizing a rows with
  | nil => exact ⟨a, rfl, rfl, fun _ => id, fun p hp => absurd hp not_mem_nil⟩
  | cons p ps ih =>
    obtain ⟨⟨hp, hx⟩, hps⟩ := forall_mem_cons.1 hps
    have hfirst := (forall₂_take_append _ _ _ hrows.flip).flip
    have hlater := (forall₂_drop_append _ _ _ hrows.flip).flip
    set n := ((p.lines h.height).map fun y => (p, y)).length
    rw [← take_append_drop n rows, flatMap_append] at hraw
    obtain ⟨a₁, hpass, hsame₁, hraw, hstay₁, hsettled₁⟩ := exists_foldlM_placeLine
      (a := { a with above := #[] }) hp hx (fun y hy => (hp.mem_lines_iff.1 hy).1) hfirst hsize hraw
    obtain ⟨a₂, hpasses, hsame₂, hstay₂, hsettled₂⟩ := ih hps hlater (hsame₁.trans hsize) hraw
    refine ⟨a₂, ?_, hsame₂.trans hsame₁, fun i hi => hstay₂ i (hstay₁ i hi), ?_⟩
    · exact bind_ok_iff.2 ⟨a₁, hpass, hpasses⟩
    · intro p' hp' y hy j hj
      obtain rfl | hp' := mem_cons.1 hp'
      · exact hstay₂ _ (hsettled₁ y hy j hj)
      · exact hsettled₂ p' hp' y hy j hj

theorem exists_place {width height planes i : Nat} (hi : i < width * planes * height) :
    ∃ p ∈ passesFor width, ∃ y ∈ p.lines height, ∃ j < p.lineWidth width * planes,
      p.place width planes y j = i := by
  have hpos : 0 < width * planes * height := Nat.zero_lt_of_lt hi
  have hwidth : 0 < width := Nat.pos_of_mul_pos_right (Nat.pos_of_mul_pos_right hpos)
  have hplanes : 0 < planes := Nat.pos_of_mul_pos_left (Nat.pos_of_mul_pos_right hpos)
  -- the pixel of the sample, and the column and line of the pixel
  have hchannel := Nat.div_add_mod' i planes
  have hpixel := Nat.div_add_mod' (i / planes) width
  have hy : i / planes / width < height := by
    rw [Nat.div_div_eq_div_mul, Nat.div_lt_iff_lt_mul (Nat.mul_pos hplanes hwidth)]
    rwa [Nat.mul_comm planes, Nat.mul_comm height]
  have hx : i / planes % width < width := Nat.mod_lt _ hwidth
  obtain ⟨p, hmem, hcolumn, hline⟩ := exists_mem_passes (i / planes % width)
    (i / planes / width)
  have hp := regular_of_mem hmem
  have hk := Nat.mod_add_div' (i / planes % width) p.xStep
  have hm := Nat.mod_add_div' (i / planes / width) p.yStep
  rw [hcolumn] at hk
  rw [hline] at hm
  refine ⟨p, mem_filter.2 ⟨hmem, decide_eq_true (by omega)⟩, i / planes / width,
    hp.mem_lines_iff.2 ⟨hy, _, hm.symm⟩,
    i / planes % width / p.xStep * planes + i % planes, ?_, ?_⟩
  · rw [mul_add_lt_mul_iff (Nat.mod_lt _ hplanes), hp.lt_lineWidth_iff, hk]
    exact hx
  · rw [place_channel p _ _ _ (Nat.mod_lt _ hplanes)]
    generalize i / planes % width / p.xStep = k at hk
    calc i / planes / width * (width * planes) + p.xStart * planes + i % planes +
          k * (planes * p.xStep)
        = (i / planes / width * width + (p.xStart + k * p.xStep)) * planes + i % planes := by ring
      _ = i := by rw [hk, hpixel, hchannel]

/-- **The lines of all passes make up the image.**  What is known of the samples of each line from
their places is known of all samples of the image. -/
theorem exists_deinterlace
    (hrows : List.Forall₂ (StoresLine R h l) (passLines h.width h.height) rows) :
    ∃ samples, deinterlace h l (rows.flatMap (0 :: ·)).toArray = .ok samples ∧
      samples.size = h.width * l.planes * h.height ∧
      ∀ i < samples.size, Settled R samples i := by
  have hps : ∀ p ∈ passesFor h.width, p.Regular ∧ p.xStart < h.width := fun p hp =>
    ⟨regular_of_mem (mem_filter.1 hp).1, of_decide_eq_true (mem_filter.1 hp).2⟩
  have hraw : (rows.flatMap (0 :: ·)).toArray.toList.drop 0 = rows.flatMap (0 :: ·) := rfl
  obtain ⟨a, hfold, hsame, -, hsettled⟩ := exists_foldlM_passes hps hrows
    (a := ⟨0, #[], Array.replicate (h.width * l.planes * h.height) 0⟩) Array.size_replicate hraw
  have hsize : a.samples.size = h.width * l.planes * h.height :=
    hsame.trans Array.size_replicate
  refine ⟨a.samples, ?_, hsize, ?_⟩
  · exact bind_ok_iff.2 ⟨a, hfold, rfl⟩
  · intro i hi
    obtain ⟨p, hp, y, hy, j, hj, rfl⟩ := exists_place (hsize ▸ hi)
    exact hsettled p hp y hy j hj

end Whole

end Cartridge.Png
