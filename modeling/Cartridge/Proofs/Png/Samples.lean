import Cartridge.Png.Samples
import Cartridge.Proofs.Tile.Chunks
import Mathlib.Algebra.Order.Ring.Nat
import Mathlib.Data.List.Induction
import Mathlib.Tactic.IntervalCases

/-!
# Packed samples are unpacked

Samples of less than eight bits share bytes.  A group that fills a byte is found in it again, and so
is a line whatever its length: the zeros that fill up its last byte are cut off.

* `samplesOf_packGroup`: one byte.
* `unpackLine_packSamples`: one line.
* `length_packSamples`: its number of bytes.
-/

open List

namespace Cartridge.Png

open Tile

variable {depth b i n : Nat} {g ns : List Nat}

/-! ### One byte -/

theorem packGroup_concat (depth : Nat) (g : List Nat) (y : Nat) :
    packGroup depth (g ++ [y]) = packGroup depth g * 2 ^ depth + y := by
  rw [packGroup, foldl_append]
  rfl

theorem packGroup_lt (h : ∀ x ∈ g, x < 2 ^ depth) : packGroup depth g < 2 ^ (depth * g.length) := by
  induction g using List.reverseRecOn with
  | nil => simp [packGroup]
  | append_singleton g y ih =>
    have hy : y < 2 ^ depth := h y (by simp)
    have hg : packGroup depth g < 2 ^ (depth * g.length) := ih fun x hx => h x (by simp [hx])
    rw [packGroup_concat, length_append, length_singleton, Nat.mul_succ, Nat.pow_add]
    calc packGroup depth g * 2 ^ depth + y
        < packGroup depth g * 2 ^ depth + 2 ^ depth := Nat.add_lt_add_left hy _
      _ = (packGroup depth g + 1) * 2 ^ depth := (Nat.succ_mul ..).symm
      _ ≤ 2 ^ (depth * g.length) * 2 ^ depth := Nat.mul_le_mul_right _ hg

theorem packGroup_div_mod (h : ∀ x ∈ g, x < 2 ^ depth) (hi : i < g.length) :
    packGroup depth g / 2 ^ (depth * (g.length - 1 - i)) % 2 ^ depth = g[i] := by
  induction g using List.reverseRecOn with
  | nil => simp at hi
  | append_singleton g y ih =>
    have hy : y < 2 ^ depth := h y (by simp)
    have hpow : 0 < 2 ^ depth := Nat.two_pow_pos depth
    rw [packGroup_concat, length_append, length_singleton, Nat.add_sub_cancel]
    by_cases hlast : i = g.length
    · subst hlast
      simp [Nat.mod_eq_of_lt hy]
    · have hi' : i < g.length := by simp at hi; omega
      have hquotient : (packGroup depth g * 2 ^ depth + y) / 2 ^ depth = packGroup depth g := by
        rw [Nat.mul_comm, Nat.mul_add_div hpow, Nat.div_eq_of_lt hy, Nat.add_zero]
      rw [show g.length - i = g.length - 1 - i + 1 by omega, Nat.mul_succ, Nat.pow_add,
        Nat.mul_comm (2 ^ _), ← Nat.div_div_eq_div_mul, hquotient,
        ih (fun x hx => h x (by simp [hx])) hi', getElem_append_left hi']

theorem samplesOf_packGroup (hdepth : depth * perByte depth = 8) (hg : g.length = perByte depth)
    (h : ∀ x ∈ g, x < 2 ^ depth) : samplesOf depth (packGroup depth g).toUInt8 = g := by
  have hbyte : (packGroup depth g).toUInt8.toNat = packGroup depth g := by
    have hlt := packGroup_lt h
    rw [hg, hdepth] at hlt
    simpa using Nat.mod_eq_of_lt hlt
  refine ext_getElem (by simp [samplesOf, hg]) fun i hi hi' => ?_
  simp only [samplesOf, getElem_map, getElem_range, hbyte, ← hg]
  exact packGroup_div_mod h hi'

/-! ### One line -/

/-- The samples of a line with the zeros that fill up its last byte. -/
def padded (depth : Nat) (samples : List Nat) : List Nat :=
  samples ++ List.replicate (if samples.length % perByte depth = 0 then 0
    else perByte depth - samples.length % perByte depth) 0

theorem packSamples_eq (depth : Nat) (samples : List Nat) :
    packSamples depth samples =
      (chunks (perByte depth - 1) (padded depth samples)).map (packGroup depth) := rfl

theorem perByte_pos (hdepth : depth * perByte depth = 8) : 0 < perByte depth :=
  Nat.pos_of_ne_zero fun h => by simp [h] at hdepth

theorem dvd_length_padded (hdepth : depth * perByte depth = 8) :
    perByte depth ∣ (padded depth ns).length := by
  have hpos := perByte_pos hdepth
  rw [padded, length_append, length_replicate]
  split_ifs with hshort
  · exact Nat.dvd_of_mod_eq_zero hshort
  · have hlt := Nat.mod_lt ns.length hpos
    refine Nat.dvd_of_mod_eq_zero ?_
    rw [Nat.add_mod, Nat.mod_eq_of_lt (by omega : perByte depth - ns.length % perByte depth <
      perByte depth), Nat.add_sub_of_le (Nat.le_of_lt hlt), Nat.mod_self]

theorem lt_of_mem_padded (h : ∀ n ∈ ns, n < 2 ^ depth) (hn : n ∈ padded depth ns) :
    n < 2 ^ depth := by
  rcases mem_append.1 hn with hn | hn
  · exact h n hn
  · rw [eq_of_mem_replicate hn]
    exact Nat.two_pow_pos depth

theorem length_of_mem_chunks_padded (hdepth : depth * perByte depth = 8)
    (hg : g ∈ chunks (perByte depth - 1) (padded depth ns)) : g.length = perByte depth := by
  have hpos := perByte_pos hdepth
  have hdvd : perByte depth - 1 + 1 ∣ (padded depth ns).length := by
    rw [Nat.sub_add_cancel hpos]
    exact dvd_length_padded hdepth
  rw [length_of_mem_chunks hdvd hg, Nat.sub_add_cancel hpos]

theorem lt_of_mem_chunks_padded (h : ∀ n ∈ ns, n < 2 ^ depth)
    (hg : g ∈ chunks (perByte depth - 1) (padded depth ns)) : ∀ x ∈ g, x < 2 ^ depth := by
  intro x hx
  refine lt_of_mem_padded h ?_
  rw [← flatten_chunks (perByte depth - 1) (padded depth ns)]
  exact mem_flatten.2 ⟨g, hg, hx⟩

section

variable (hdepth : depth * perByte depth = 8)

include hdepth

theorem unpackSamples_packSamples (h : ∀ n ∈ ns, n < 2 ^ depth) :
    unpackSamples depth ((packSamples depth ns).map Nat.toUInt8) = padded depth ns := by
  rw [unpackSamples, packSamples_eq, map_map, flatMap_map]
  have hgroups : ∀ g ∈ chunks (perByte depth - 1) (padded depth ns),
      samplesOf depth ((Nat.toUInt8 ∘ packGroup depth) g) = g := fun g hg =>
    samplesOf_packGroup hdepth (length_of_mem_chunks_padded hdepth hg)
      (lt_of_mem_chunks_padded h hg)
  rw [flatMap_congr hgroups, flatMap_id', flatten_chunks]

theorem lt_of_mem_packSamples (h : ∀ n ∈ ns, n < 2 ^ depth) (hb : b ∈ packSamples depth ns) :
    b < 0x100 := by
  obtain ⟨g, hg, rfl⟩ := mem_map.1 hb
  have hlt := packGroup_lt (lt_of_mem_chunks_padded h hg)
  rwa [length_of_mem_chunks_padded hdepth hg, hdepth] at hlt

theorem unpackLine_packSamples (hsmall : depth < 8) (h : ∀ n ∈ ns, n < 2 ^ depth) :
    unpackLine depth ns.length ((packSamples depth ns).map Nat.toUInt8) = .ok ns := by
  have hpos : depth ≠ 0 := by rintro rfl; simp at hdepth
  rw [unpackLine, if_neg (by omega), if_neg (by omega), if_neg (by omega), if_neg hpos,
    unpackSamples_packSamples hdepth h, padded, take_left]

theorem exists_length_padded (ns : List Nat) :
    ∃ more < perByte depth, (padded depth ns).length = ns.length + more := by
  have hpos := perByte_pos hdepth
  refine ⟨_, ?_, by rw [padded, length_append, length_replicate]⟩
  split_ifs with hshort
  · exact hpos
  · omega

theorem length_packSamples (ns : List Nat) :
    (packSamples depth ns).length = (ns.length * depth + 7) / 8 := by
  have hpos := perByte_pos hdepth
  have hdvd : perByte depth - 1 + 1 ∣ (padded depth ns).length := by
    rw [Nat.sub_add_cancel hpos]
    exact dvd_length_padded hdepth
  have hcount := length_chunks_mul hdvd
  obtain ⟨more, hmore, hlength⟩ := exists_length_padded hdepth ns
  rw [hlength] at hcount
  rw [packSamples_eq, length_map]
  have hle : depth ≤ 8 := Nat.le_of_dvd (by decide) ⟨perByte depth, hdepth.symm⟩
  generalize (chunks (perByte depth - 1) (padded depth ns)).length = count at hcount ⊢
  interval_cases depth <;>
    simp only [perByte, Nat.reduceDiv, Nat.reduceMul] at hdepth hcount hmore <;> omega

end

end Cartridge.Png
