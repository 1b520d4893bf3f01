import Cartridge.Tile.Arrange
import Mathlib.Data.List.Basic

/-!
# Pieces of one length

Cutting a sequence loses nothing: the pieces make it up again (`flatten_chunks`), none is too long,
and a sequence that is made of pieces of the right length is cut into these.
-/

open List

namespace Cartridge.Tile

variable {α : Type} {n : Nat} {xs piece : List α}

@[simp] theorem flatten_chunks (n : Nat) (xs : List α) : (chunks n xs).flatten = xs := by
  fun_induction chunks n xs with
  | case1 => rfl
  | case2 x rest ih =>
    rw [flatten_cons, ih, cons_append, take_append_drop]

theorem flatten_flatMap_chunks (n : Nat) (xss : List (List α)) :
    (xss.flatMap (chunks n)).flatten = xss.flatten := by
  induction xss with
  | nil => rfl
  | cons xs xss ih =>
    rw [flatMap_cons, flatten_append, flatten_chunks, ih, flatten_cons]

theorem length_le_of_mem_chunks (h : piece ∈ chunks n xs) :
    piece.length ≤ n + 1 := by
  fun_induction chunks n xs with
  | case1 => simp at h
  | case2 x rest ih =>
    rcases mem_cons.1 h with rfl | h
    · simp [Nat.min_le_left]
    · exact ih h

theorem length_of_mem_chunks (hdvd : n + 1 ∣ xs.length) (h : piece ∈ chunks n xs) :
    piece.length = n + 1 := by
  fun_induction chunks n xs with
  | case1 => simp at h
  | case2 x rest ih =>
    have hle : n + 1 ≤ rest.length + 1 := Nat.le_of_dvd (Nat.succ_pos _) hdvd
    have hrest : n + 1 ∣ (rest.drop n).length := by
      have := Nat.dvd_sub hdvd (Nat.dvd_refl (n + 1))
      rwa [length_cons, Nat.add_sub_add_right, ← length_drop] at this
    rcases mem_cons.1 h with rfl | h
    · rw [length_cons, length_take, Nat.min_eq_left (Nat.le_of_succ_le_succ hle)]
    · exact ih hrest h

theorem length_chunks_mul (hdvd : n + 1 ∣ xs.length) :
    (chunks n xs).length * (n + 1) = xs.length := by
  have hall : ∀ piece ∈ chunks n xs, piece.length = n + 1 := fun _ => length_of_mem_chunks hdvd
  conv_rhs => rw [← flatten_chunks n xs]
  rw [List.length_flatten, map_congr_left hall, map_const', sum_replicate_nat]

theorem chunks_eq_map_range {k : Nat} (h : xs.length = (n + 1) * k) :
    chunks n xs = (List.range k).map fun i => (xs.drop ((n + 1) * i)).take (n + 1) := by
  induction k generalizing xs with
  | zero =>
    obtain rfl := length_eq_zero_iff.1 h
    rw [chunks]
    rfl
  | succ k ih =>
    cases xs with
    | nil => cases h
    | cons x rest =>
      rw [length_cons, Nat.mul_succ] at h
      have hrest : (rest.drop n).length = (n + 1) * k := by
        rw [length_drop]
        omega
      rw [chunks, ih hrest, range_succ_eq_map, map_cons, map_map]
      refine congrArg₂ _ rfl (map_congr_left fun i _ => ?_)
      rw [Function.comp_apply, drop_drop, Nat.mul_succ, ← Nat.add_assoc, drop_succ_cons,
        Nat.add_comm n (_ * _)]

end Cartridge.Tile
