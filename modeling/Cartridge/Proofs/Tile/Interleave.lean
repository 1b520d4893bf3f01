import Cartridge.Proofs.Tile.Chunks
import Cartridge.Proofs.Tile.Transpose

/-!
# Rearrangements that undo each other

Interleaving takes the tiles of a pair of rows apart by the parity of their places, and
deinterleaving takes them from the two rows in turn again (`weave`).  Both go on pair by pair
(`interleave_pair`, `deinterleave_pair`), so they undo each other on whole pairs of rows.

Main result: `rearrangements_invert`.
-/

open List

namespace Cartridge.Tile

variable {α : Type} {n h k w : Nat} {t rest l r u : List α}

/-! ### Pairs of rows -/

def weave (l r : List α) : List α := (l.zip r).flatMap fun e => [e.1, e.2]

theorem weave_cons (a b : α) (l r : List α) : weave (a :: l) (b :: r) = a :: b :: weave l r := rfl

theorem odds_cons_cons (a b : α) (rest : List α) : odds (a :: b :: rest) = b :: odds rest := by
  cases rest <;> rfl

theorem evens_append (h : 2 ∣ t.length) : evens (t ++ rest) = evens t ++ evens rest := by
  fun_induction evens t with
  | case1 => rfl
  | case2 a => simp at h
  | case3 a b t ih => exact congrArg (a :: ·) (ih (by simp at h; omega))

theorem odds_append (h : 2 ∣ t.length) : odds (t ++ rest) = odds t ++ odds rest := by
  fun_induction evens t with
  | case1 => rfl
  | case2 a => simp at h
  | case3 a b t ih =>
    rw [cons_append, cons_append, odds_cons_cons, odds_cons_cons, ih (by simp at h; omega), cons_append]

theorem length_evens_odds (h : t.length = 2 * n) : (evens t).length = n ∧ (odds t).length = n := by
  fun_induction evens t generalizing n with
  | case1 =>
    obtain rfl : n = 0 := by simp at h; omega
    exact ⟨rfl, rfl⟩
  | case2 a => simp at h; omega
  | case3 a b t ih =>
    obtain ⟨m, rfl⟩ := Nat.exists_eq_add_one_of_ne_zero (show n ≠ 0 by simp at h; omega)
    obtain ⟨he, ho⟩ := ih (n := m) (by simp at h; omega)
    rw [odds_cons_cons, length_cons, length_cons, he, ho]
    exact ⟨rfl, rfl⟩

theorem evens_odds_weave (h : l.length = r.length) : evens (weave l r) = l ∧ odds (weave l r) = r := by
  induction l generalizing r with
  | nil =>
    obtain rfl := length_eq_zero_iff.1 h.symm
    exact ⟨rfl, rfl⟩
  | cons a l ih =>
    cases r with
    | nil => cases h
    | cons b r =>
      obtain ⟨he, ho⟩ := ih (Nat.succ.inj h)
      rw [weave_cons, odds_cons_cons, evens, he, ho]
      exact ⟨rfl, rfl⟩

theorem weave_evens_odds (h : 2 ∣ t.length) : weave (evens t) (odds t) = t := by
  fun_induction evens t with
  | case1 => rfl
  | case2 a => simp at h
  | case3 a b t ih => rw [odds_cons_cons, weave_cons, ih (by simp at h; omega)]

theorem length_weave (h : l.length = r.length) : (weave l r).length = 2 * l.length := by
  have htwo : ∀ e ∈ l.zip r, [e.1, e.2].length = 2 := fun _ _ => rfl
  rw [weave, length_flatMap, map_congr_left htwo, map_const', sum_replicate_nat, length_zip, ← h,
    Nat.min_self, Nat.mul_comm]

/-! ### One pair after another -/

theorem chunks_append (h : l.length = n + 1) (rest : List α) :
    chunks n (l ++ rest) = l :: chunks n rest := by
  obtain ⟨a, l, rfl⟩ := exists_cons_of_length_eq_add_one h
  have hl : l.length = n := Nat.succ.inj h
  rw [cons_append, chunks, take_left' hl, drop_left' hl]

theorem cut_add_one (n : Nat) (xs : List α) : cut ((n + 1 : Nat) : Int) xs = .ok (chunks n xs) := by
  rfl

/-- **One pair of rows is interleaved**, and then the others. -/
theorem interleave_pair (ht : t.length = 2 * (n + 1)) (h : interleave rest (n + 1 : Nat) = .ok u) :
    interleave (t ++ rest) (n + 1 : Nat) = .ok (evens t ++ odds t ++ u) := by
  have heven : 2 ∣ t.length := ht ▸ Nat.dvd_mul_right 2 _
  obtain ⟨he, ho⟩ := length_evens_odds ht
  simp only [interleave, cut_add_one] at h ⊢
  cases h
  rw [evens_append heven, odds_append heven, chunks_append he, chunks_append ho]
  rfl

theorem deinterleave_pair (hl : l.length = n + 1) (hr : r.length = n + 1)
    (h : deinterleave rest (n + 1 : Nat) = .ok u) :
    deinterleave (l ++ (r ++ rest)) (n + 1 : Nat) = .ok (weave l r ++ u) := by
  simp only [deinterleave, cut_add_one, chunks_append hl, chunks_append hr] at h ⊢
  cases h
  exact congrArg (fun rows => Except.ok (((l :: evens (chunks n rest)).zip rows).flatMap _))
    (odds_cons_cons l r _)

theorem interleave_inverse (ht : t.length = 2 * (n + 1) * k) :
    (∃ u, interleave t (n + 1 : Nat) = .ok u ∧ deinterleave u (n + 1 : Nat) = .ok t) ∧
      ∃ u, deinterleave t (n + 1 : Nat) = .ok u ∧ interleave u (n + 1 : Nat) = .ok t := by
  induction k generalizing t with
  | zero =>
    obtain rfl := length_eq_zero_iff.1 ht
    have hchunks : chunks n ([] : List α) = [] := by rw [chunks]
    have hinter : interleave ([] : List α) (n + 1 : Nat) = .ok [] := by
      rw [interleave, cut_add_one, evens, hchunks]
      rfl
    have hdeinter : deinterleave ([] : List α) (n + 1 : Nat) = .ok [] := by
      rw [deinterleave, cut_add_one, hchunks]
      rfl
    exact ⟨⟨[], hinter, hdeinter⟩, [], hdeinter, hinter⟩
  | succ k ih =>
    have hsplit : t = t.take (2 * (n + 1)) ++ t.drop (2 * (n + 1)) := (take_append_drop _ t).symm
    have hpair : (t.take (2 * (n + 1))).length = 2 * (n + 1) := by
      rw [length_take, ht]
      exact Nat.min_eq_left (Nat.le_mul_of_pos_right _ k.succ_pos)
    have hrest : (t.drop (2 * (n + 1))).length = 2 * (n + 1) * k := by
      rw [length_drop, ht, Nat.mul_succ, Nat.add_sub_cancel]
    generalize t.take (2 * (n + 1)) = pair at hsplit hpair
    generalize t.drop (2 * (n + 1)) = rest at hsplit hrest
    subst hsplit
    obtain ⟨⟨u, hu, hu'⟩, v, hv, hv'⟩ := ih hrest
    constructor
    · obtain ⟨he, ho⟩ := length_evens_odds hpair
      refine ⟨_, interleave_pair hpair hu, ?_⟩
      rw [append_assoc, deinterleave_pair he ho hu', weave_evens_odds (hpair ▸ Nat.dvd_mul_right 2 _)]
    · obtain ⟨l, r, rfl, hl⟩ : ∃ l r, pair = l ++ r ∧ l.length = n + 1 :=
        ⟨pair.take (n + 1), pair.drop (n + 1), (take_append_drop _ _).symm, by
          rw [length_take]; omega⟩
      have hr : r.length = n + 1 := by
        rw [length_append] at hpair
        omega
      obtain ⟨he, ho⟩ := evens_odds_weave (hl.trans hr.symm)
      have hwoven : (weave l r).length = 2 * (n + 1) := by rw [length_weave (hl.trans hr.symm), hl]
      rw [append_assoc]
      refine ⟨_, deinterleave_pair hl hr hv, ?_⟩
      rw [interleave_pair hwoven hv', he, ho, append_assoc]

/-! ### Transposing -/

theorem transpose_perm (hw : 1 ≤ w) (t : List α) :
    ∃ u, transpose t (some w) = .ok u ∧ u.Perm t := by
  cases t with
  | nil => exact ⟨[], rfl, .nil⟩
  | cons a t =>
    rw [transpose, Option.getD_some, isEmpty_cons, if_neg Bool.false_ne_true, if_neg (by omega)]
    refine ⟨_, rfl, ((mergeSort_perm _ _).map _).trans (.of_eq ?_)⟩
    rw [map_map]
    exact zipIdx_map_fst 0 (a :: t)

theorem turned_turned (hk : k < w * h) : turned h w (turned w h k) = k := by
  rw [turned, turned_mod hk, turned_div hk, Nat.div_add_mod']

theorem place_lt {r c : Nat} (hr : r < h) (hc : c < w) : r * w + c < h * w :=
  calc r * w + c < (r + 1) * w := by rw [Nat.succ_mul]; exact Nat.add_lt_add_left hc _
    _ ≤ h * w := Nat.mul_le_mul_right w hr

theorem transpose_inverse (hpos : 0 < h * w) (ht : t.length = h * w) :
    ∃ u, transpose t (some w) = .ok u ∧
      (∀ r < h, ∀ c < w, u[c * h + r]? = t[r * w + c]?) ∧ transpose u (some h) = .ok t := by
  obtain ⟨d⟩ : Nonempty α := ⟨t.get ⟨0, ht ▸ hpos⟩⟩
  refine ⟨_, transpose_eq ht hpos d, fun r hr c hc => ?_, ?_⟩
  · have hplace : turned h w (c * h + r) = r * w + c := by
      rw [turned, Nat.mul_add_mod', Nat.mod_eq_of_lt hr, Nat.add_comm (c * h), Nat.mul_comm c,
        Nat.add_mul_div_left r c (Nat.zero_lt_of_lt hr), Nat.div_eq_of_lt hr, Nat.zero_add]
    have hin : c * h + r < h * w := Nat.mul_comm w h ▸ place_lt hc hr
    have hin' : r * w + c < t.length := ht ▸ place_lt hr hc
    simp [hin, hin', hplace]
  · have hpos' : 0 < w * h := Nat.mul_comm h w ▸ hpos
    rw [transpose_eq (by simp [Nat.mul_comm]) hpos' d]
    refine congrArg _ (ext_getElem (by simp [ht, Nat.mul_comm]) fun k hk hk' => ?_)
    have hlt : k < w * h := by simpa using hk
    have hturned : turned w h k < h * w := Nat.mul_comm w h ▸ turned_lt hlt
    simp [hturned, turned_turned hlt, hk']

/-- **Rearrangements invert each other**: tiles are transposed and transposed back, interleaved and
taken in turn again, and transposing only moves tiles, also where the last row is not full. -/
theorem rearrangements_invert (t : List α) (w : Nat) (hw : 1 ≤ w) :
    (∀ h, 1 ≤ h → t.length = w * h → ∃ u, transpose t (some w) = .ok u ∧
      (∀ r < h, ∀ c < w, r * w + c < t.length ∧ u[c * h + r]? = t[r * w + c]?) ∧
      transpose u (some h) = .ok t) ∧
    (2 * w ∣ t.length →
      (∃ u, interleave t w = .ok u ∧ deinterleave u w = .ok t) ∧
      ∃ u, deinterleave t w = .ok u ∧ interleave u w = .ok t) ∧
    ∃ u, transpose t (some w) = .ok u ∧ u.Perm t := by
  refine ⟨fun h hh ht => ?_, fun hdvd => ?_, transpose_perm hw t⟩
  · rw [Nat.mul_comm] at ht
    obtain ⟨u, hu, hplaces, hback⟩ := transpose_inverse (Nat.mul_pos hh hw) ht
    refine ⟨u, hu, fun r hr c hc => ⟨ht ▸ place_lt hr hc, hplaces r hr c hc⟩, hback⟩
  · obtain ⟨n, rfl⟩ := Nat.exists_eq_add_of_le' hw
    obtain ⟨k, hk⟩ := hdvd
    exact interleave_inverse hk

/-- Two rows of three. -/
theorem rearrangements_invert_six :
    1 ≤ 3 ∧ 6 = 3 * 2 ∧ (∃ u, transpose [0, 1, 2, 3, 4, 5] (some 3) = .ok u ∧
      u[2 * 2 + 1]? = some 5 ∧ transpose u (some 2) = .ok [0, 1, 2, 3, 4, 5]) ∧
    2 * 3 ∣ 6 ∧ interleave [0, 1, 2, 3, 4, 5] 3 = .ok [0, 2, 4, 1, 3, 5] ∧
    deinterleave [0, 2, 4, 1, 3, 5] 3 = .ok [0, 1, 2, 3, 4, 5] := by
  obtain ⟨htranspose, hinterleave, -⟩ := rearrangements_invert [0, 1, 2, 3, 4, 5] 3 (by decide)
  obtain ⟨u, hu, hplaces, hback⟩ := htranspose 2 (by decide) rfl
  obtain ⟨⟨v, hv, hback'⟩, -⟩ := hinterleave (by decide)
  have hwoven : interleave [0, 1, 2, 3, 4, 5] 3 = .ok [0, 2, 4, 1, 3, 5] := by decide +kernel
  obtain rfl := Except.ok.inj (hwoven.symm.trans hv)
  have hlast := (hplaces 1 (by decide) 2 (by decide)).2
  exact ⟨by decide, rfl, ⟨u, hu, hlast, hback⟩, by decide, hwoven, hback'⟩

end Cartridge.Tile
