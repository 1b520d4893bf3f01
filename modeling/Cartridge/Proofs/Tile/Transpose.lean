import Cartridge.Tile.Arrange
import Mathlib.Data.List.Nodup
import Mathlib.Data.List.Perm.Subperm

/-!
# Rows and columns exchanged

Transposing sorts elements by their columns and leaves those of one column in their order
(`mergeSort_range`).  So what stands in row `r` and column `c` comes to stand in row `c` and column
`r` (`transpose_eq`).
-/

open List

namespace Cartridge.Tile

theorem mergeSort_range {n : Nat} (key : Nat → Nat) {order : List Nat}
    (hperm : order ~ List.range n)
    (horder : order.Pairwise fun i j => key i < key j ∨ key i = key j ∧ i ≤ j) :
    (List.range n).mergeSort (fun i j => key i ≤ key j) = order := by
  have htrans : ∀ i j k, decide (key i ≤ key j) → decide (key j ≤ key k) →
      decide (key i ≤ key k) := by simp; omega
  have htotal : ∀ i j, decide (key i ≤ key j) || decide (key j ≤ key i) := by simp; omega
  have hsorted := pairwise_mergeSort (zipIdxLE_trans htrans) (zipIdxLE_total htotal)
    (List.range n).zipIdx
  have hindex : ∀ e ∈ (List.range n).zipIdx, e.1 = e.2 := by
    intro e he
    obtain ⟨_, hget⟩ := List.getElem?_eq_some_iff.1 (mem_zipIdx_iff_getElem?.1 he)
    rw [← hget, getElem_range]
  rw [← mergeSort_zipIdx]
  refine Perm.eq_of_pairwise (by omega) ?_ horder ?_
  · refine pairwise_map.2 (hsorted.imp_of_mem fun {a b} ha hb hab => ?_)
    have ha := hindex a (mem_mergeSort.1 ha)
    have hb := hindex b (mem_mergeSort.1 hb)
    simp only [zipIdxLE, decide_eq_true_eq] at hab
    split_ifs at hab <;> simp_all
    omega
  · refine (((mergeSort_perm _ _).map _).trans ?_).trans hperm.symm
    rw [zipIdx_map_fst]

variable {α : Type} {xs : List α} {w h k : Nat}

def turned (w h k : Nat) : Nat := k % w * h + k / w

section Turned

variable (hk : k < w * h)

include hk

theorem turned_mod : turned w h k % h = k / w := by
  rw [turned, Nat.mul_add_mod', Nat.mod_eq_of_lt (Nat.div_lt_of_lt_mul hk)]

theorem turned_div : turned w h k / h = k % w := by
  have hlt := Nat.div_lt_of_lt_mul hk
  rw [turned, Nat.mul_comm, Nat.mul_add_div (Nat.zero_lt_of_lt hlt), Nat.div_eq_of_lt hlt,
    Nat.add_zero]

theorem turned_lt : turned w h k < w * h := by
  have hpos : 0 < w * h := Nat.zero_lt_of_lt hk
  have hdiv := Nat.mod_lt k (Nat.pos_of_mul_pos_right hpos)
  rw [← turned_div hk] at hdiv
  exact (Nat.div_lt_iff_lt_mul (Nat.pos_of_mul_pos_left hpos)).1 hdiv

end Turned

theorem mergeSort_range_mod (w h : Nat) :
    (List.range (w * h)).mergeSort (fun i j => i % h ≤ j % h) =
      (List.range (w * h)).map (turned w h) := by
  refine mergeSort_range (· % h) ?_ ?_
  · refine (subperm_of_subset ?_ ?_).perm_of_length_le (by simp)
    · refine nodup_range.map_on fun i hi j hj hij => ?_
      have hi := mem_range.1 hi
      have hj := mem_range.1 hj
      rw [← Nat.div_add_mod i w, ← turned_mod hi, ← turned_div hi, hij, turned_mod hj,
        turned_div hj, Nat.div_add_mod]
    · intro i hi
      obtain ⟨k, hk, rfl⟩ := mem_map.1 hi
      exact mem_range.2 (turned_lt (mem_range.1 hk))
  · refine pairwise_map.2 (pairwise_lt_range.imp_of_mem fun {i j} hi hj hij => ?_)
    rw [turned_mod (mem_range.1 hi), turned_mod (mem_range.1 hj)]
    rcases Nat.lt_or_eq_of_le (Nat.div_le_div_right (c := w) (Nat.le_of_lt hij)) with hlt | heq
    · exact .inl hlt
    · refine .inr ⟨heq, ?_⟩
      have hrest : i % w ≤ j % w := by
        have hi := Nat.div_add_mod i w
        have hj := Nat.div_add_mod j w
        rw [heq] at hi
        omega
      rw [turned, heq]
      exact Nat.add_le_add_right (Nat.mul_le_mul_right h hrest) _

theorem transpose_eq (hxs : xs.length = w * h) (hpos : 0 < w * h) (d : α) :
    transpose xs (some h) = .ok ((List.range (w * h)).map fun k => xs.getD (turned w h k) d) := by
  have hh : 0 < h := Nat.pos_of_mul_pos_left hpos
  have hne : xs.isEmpty = false := by
    rw [isEmpty_eq_false_iff, ← length_pos_iff]
    omega
  have hkeyed : xs.zipIdx.map (fun e => (Int.fmod e.2 h, e.1)) =
      (List.range (w * h)).map fun i => (((i % h : Nat) : Int), xs.getD i d) := by
    refine ext_getElem (by simp [hxs]) fun i hi hi' => ?_
    have hlt : i < xs.length := by simpa using hi
    simp [hlt, Int.fmod_eq_emod_of_nonneg]
  have hsort : ((List.range (w * h)).mergeSort fun i j => i % h ≤ j % h).map
      (fun i => (((i % h : Nat) : Int), xs.getD i d)) = _ :=
    map_mergeSort (s := fun a b => decide (a.1 ≤ b.1)) fun i _ j _ => by simp; omega
  rw [transpose, Option.getD_some, hne]
  simp only [Bool.false_eq_true, if_false, if_neg (show ¬(h : Int) = 0 by omega), hkeyed]
  rw [← hsort, mergeSort_range_mod, map_map, map_map]
  rfl

end Cartridge.Tile
