import Cartridge.Proofs.Fault
import Cartridge.Tile.Condense
import Mathlib.Data.List.Basic

/-!
# Condensed frames

Condensing loses nothing and keeps no tile twice.  `Condensed.Rebuilds` says how the kept tiles and
the map make up the tiles again, and `Condensed.Rebuilds.step` that taking up a tile leaves it so.
-/

open List

namespace Cartridge.Tile

variable {α : Type} {done more tiles : List α} {tile : α} {c : Condensed α} {n i : Nat}

/-- The map leads every tile to a kept one that equals it.  Kept are the `n` tiles of the first
frame and, each once, the tiles that it lacks. -/
structure Condensed.Rebuilds (n : Nat) (tiles : List α) (c : Condensed α) : Prop where
  length : c.map.length = tiles.length
  rebuilt : ∀ (i : Nat) (t : α), tiles[i]? = some t →
    ∃ k : Nat, c.map[i]? = some (k : Int) ∧ c.tiles[k]? = some t
  frame : tiles.take n <+: c.tiles
  nodup : (c.tiles.drop n).Nodup
  fresh : ∀ t ∈ c.tiles.drop n, t ∉ tiles.take n
  /-- A tile that equals the one at its own place in the first frame is led there. -/
  own_place : 0 < n → ∀ (i : Nat) (t : α), n ≤ i → tiles[i]? = some t → tiles[i % n]? = some t →
    c.map[i]? = some ((i % n : Nat) : Int)

namespace Condensed.Rebuilds

theorem ofFrame (hn : n ≤ tiles.length) :
    Rebuilds n (tiles.take n) ⟨tiles.take n, (List.range n).map Int.ofNat⟩ where
  length := by simp [hn]
  rebuilt i t ht := by
    have hi : i < n := by
      by_contra hi
      simp [getElem?_take, hi] at ht
    exact ⟨i, by simp [hi], ht⟩
  frame := take_prefix ..
  nodup := by simp
  fresh := by simp
  own_place _ i t hle ht := by simp [getElem?_take, Nat.not_lt.2 hle] at ht

variable (h : c.Rebuilds n done) (hn : n ≤ done.length)

include h hn

theorem concat {k : Nat} (hnodup : ((c.tiles ++ more).drop n).Nodup)
    (hfresh : ∀ t ∈ (c.tiles ++ more).drop n, t ∉ done.take n)
    (hk : (c.tiles ++ more)[k]? = some tile)
    (hplace : 0 < n → done[done.length % n]? = some tile → k = done.length % n) :
    Rebuilds n (done ++ [tile]) ⟨c.tiles ++ more, c.map ++ [(k : Int)]⟩ := by
  have hlast : ∀ (i : Nat) (t : α), ¬i < done.length → (done ++ [tile])[i]? = some t →
      i = done.length ∧ t = tile := by
    intro i t hi ht
    rw [getElem?_append_right (Nat.le_of_not_lt hi), List.getElem?_singleton] at ht
    split at ht
    · exact ⟨by omega, (Option.some.inj ht).symm⟩
    · cases ht
  have hmap : (c.map ++ [(k : Int)])[done.length]? = some (k : Int) := by
    rw [← h.length, getElem?_concat_length]
  refine ⟨by simp [h.length], fun i t ht => ?_, ?_, hnodup, ?_, fun hpos i t hle ht hown => ?_⟩
  · by_cases hi : i < done.length
    · rw [getElem?_append_left hi] at ht
      obtain ⟨j, hj, hjt⟩ := h.rebuilt i t ht
      have hjlt := (List.getElem?_eq_some_iff.1 hjt).1
      exact ⟨j, by rw [getElem?_append_left (h.length ▸ hi), hj],
        by rw [getElem?_append_left hjlt, hjt]⟩
    · obtain ⟨rfl, rfl⟩ := hlast i t hi ht
      exact ⟨k, hmap, hk⟩
  · rw [take_append_of_le_length hn]
    exact h.frame.trans (List.prefix_append ..)
  · rwa [take_append_of_le_length hn]
  · have hmod := Nat.mod_lt i hpos
    rw [getElem?_append_left (by omega)] at hown
    by_cases hi : i < done.length
    · rw [getElem?_append_left hi] at ht
      rw [getElem?_append_left (h.length ▸ hi)]
      exact h.own_place hpos i t hle ht hown
    · obtain ⟨rfl, rfl⟩ := hlast i t hi ht
      rw [hmap, hplace hpos hown]

theorem le_length : n ≤ c.tiles.length := by
  have hle := h.frame.length_le
  rwa [length_take, Nat.min_eq_left hn] at hle

theorem getElem?_frame (hi : i < n) (more : List α) : (c.tiles ++ more)[i]? = done[i]? := by
  have hle := h.le_length hn
  obtain ⟨rest, hrest⟩ := h.frame
  rw [getElem?_append_left (by omega), ← hrest, getElem?_append_left (by rw [length_take]; omega),
    getElem?_take_of_lt hi]

variable [BEq α] [LawfulBEq α]

/-- **One tile more**, the `i`th behind the first frame. -/
theorem step (hi : done.length = n + i) (tile : α) :
    ∃ c', condenseStep n c tile i = .ok c' ∧ c'.Rebuilds n (done ++ [tile]) := by
  obtain ⟨more, hkept, hmem, hnodup, hfresh⟩ : ∃ more,
      (if c.tiles.contains tile then c.tiles else c.tiles ++ [tile]) = c.tiles ++ more ∧
      tile ∈ c.tiles ++ more ∧ ((c.tiles ++ more).drop n).Nodup ∧
      ∀ t ∈ (c.tiles ++ more).drop n, t ∉ done.take n := by
    by_cases hold : tile ∈ c.tiles
    · exact ⟨[], by simp [hold], by simpa using hold, by simpa using h.nodup,
        by simpa using h.fresh⟩
    · have hnew : tile ∉ done.take n := fun hin => hold (h.frame.subset hin)
      have hapart : ∀ t ∈ c.tiles.drop n, t ≠ tile := fun t ht heq =>
        hold (heq ▸ mem_of_mem_drop ht)
      refine ⟨[tile], by simp [hold], by simp, ?_, ?_⟩
      · rw [drop_append_of_le_length (h.le_length hn), nodup_append]
        exact ⟨h.nodup, by simp, by simpa using hapart⟩
      · rw [drop_append_of_le_length (h.le_length hn)]
        simpa [or_imp, forall_and] using ⟨h.fresh, hnew⟩
  have hindex : (c.tiles ++ more)[(c.tiles ++ more).idxOf tile]? = some tile := by
    rw [getElem?_eq_getElem (idxOf_lt_length_of_mem hmem), getElem_idxOf]
  rw [condenseStep, hkept]
  by_cases hzero : n = 0
  · subst hzero
    exact ⟨_, rfl, h.concat hn hnodup hfresh hindex fun hpos => absurd hpos (Nat.lt_irrefl 0)⟩
  · have hmod : Int.fmod i n = ((i % n : Nat) : Int) := Int.fmod_eq_emod_of_nonneg _ (by omega)
    have hlt : i % n < n := Nat.mod_lt i (Nat.pos_of_ne_zero hzero)
    have hplace : done.length % n = i % n := by rw [hi, Nat.add_mod_left]
    obtain ⟨there, hthere⟩ : ∃ there, done[i % n]? = some there :=
      ⟨_, getElem?_eq_getElem (by omega)⟩
    have hkeeps := (h.getElem?_frame hn hlt more).trans hthere
    have hget : Signed.get? (c.tiles ++ more) ((i % n : Nat) : Int) = some there := by
      rw [Signed.get?, if_neg (by omega), if_neg (by omega), Int.toNat_natCast, hkeeps]
    rw [if_neg (by omega), hmod]
    dsimp only
    rw [hget]
    refine ⟨_, rfl, ?_⟩
    by_cases heq : tile = there
    · subst heq
      rw [if_pos (beq_self_eq_true tile)]
      exact h.concat hn hnodup hfresh hkeeps fun _ _ => hplace.symm
    · rw [if_neg (by simpa using heq)]
      refine h.concat hn hnodup hfresh hindex fun _ hown => ?_
      rw [hplace, hthere] at hown
      exact absurd (Option.some.inj hown).symm heq

theorem run (hi : done.length = n + i) (rest : List α) :
    ∃ c', (rest.zipIdx i).foldlM (fun c e => condenseStep n c e.1 e.2) c = .ok c' ∧
      c'.Rebuilds n (done ++ rest) := by
  induction rest generalizing done c i with
  | nil => exact ⟨c, rfl, by rwa [append_nil]⟩
  | cons tile rest ih =>
    obtain ⟨c₁, hc₁, h₁⟩ := h.step hn hi tile
    have hlength : (done ++ [tile]).length = n + (i + 1) := by simp [hi, Nat.add_assoc]
    obtain ⟨c', hc', h'⟩ := ih h₁ (by omega) hlength
    refine ⟨c', ?_, by rwa [append_assoc] at h'⟩
    rw [zipIdx_cons, foldlM_cons, hc₁]
    exact hc'

end Condensed.Rebuilds

/-- **Condensing is lossless and repeats no tile**, for every length of the first frame. -/
theorem condense_rebuilds [BEq α] [LawfulBEq α] (tiles : List α) {frame : Int} (hframe : 0 ≤ frame)
    (hle : frame ≤ tiles.length) :
    ∃ c, condense tiles frame = .ok c ∧ c.Rebuilds frame.toNat tiles := by
  obtain ⟨n, rfl⟩ := Int.eq_ofNat_of_zero_le hframe
  rw [Int.ofNat_le] at hle
  have hcut : Signed.cutAt tiles.length n = n := by
    rw [Signed.cutAt, if_neg (by omega), Int.toNat_natCast, Nat.min_eq_left hle]
  have hlength : (tiles.take n).length = n + 0 := length_take_of_le hle
  obtain ⟨c, hc, h⟩ := (Condensed.Rebuilds.ofFrame hle).run (by omega) hlength (tiles.drop n)
  rw [take_append_drop] at h
  refine ⟨c, ?_, h⟩
  rw [condense, Signed.drop, Signed.take, hcut]
  exact hc

/-- Frames of four tiles, the first with a tile that it has twice. -/
def twoFrames : List Char := ['a', 'b', 'c', 'a', 'd', 'b', 'e', 'a']

theorem condense_rebuilds_twoFrames : (0 : Int) ≤ 4 ∧ (4 : Int) ≤ twoFrames.length ∧
    ∃ c, condense twoFrames 4 = .ok c ∧ c.Rebuilds 4 twoFrames :=
  ⟨by decide, by decide, condense_rebuilds twoFrames (by decide) (by decide)⟩

end Cartridge.Tile
