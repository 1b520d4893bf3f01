import Cartridge.Png.Strided
import Cartridge.Proofs.Fault
import Mathlib.Data.List.Nodup
import Mathlib.Data.List.Range

/-!
# Strided assignment, place by place

What `every` reads and `assign` leaves at each position of an array.

* `getElem?_every`: element `k` is the one at `start + k * step`.
* `exists_assign`: as many values as there are places go to their places, and the rest stays.
* `exists_foldlM_assign`: so it is for several assignments that do not touch the same places, such
  as those of the channels of an image.
-/

open List

namespace Cartridge.Png.Strided

variable {α : Type} {xs : Array α} {vs : List α} {start stop step k i : Nat} {es : List (Nat × α)}

/-! ### Places -/

theorem lt_count_iff (hstep : 0 < step) :
    k < (stop - start + step - 1) / step ↔ start + k * step < stop := by
  rw [Nat.lt_iff_add_one_le, Nat.le_div_iff_mul_le hstep, Nat.succ_mul]
  omega

theorem lt_length_positions_iff (hstep : 0 < step) :
    k < (positions start stop step).length ↔ start + k * step < stop := by
  rw [positions, length_map, length_range, lt_count_iff hstep]

theorem getElem_positions (h : k < (positions start stop step).length) :
    (positions start stop step)[k] = start + k * step := by
  simp only [positions, getElem_map, getElem_range]

theorem mem_positions_iff (hstep : 0 < step) :
    i ∈ positions start stop step ↔ i < stop ∧ ∃ k, i = start + k * step := by
  rw [mem_iff_getElem]
  constructor
  · rintro ⟨k, hk, rfl⟩
    rw [getElem_positions hk]
    exact ⟨(lt_length_positions_iff hstep).1 hk, k, rfl⟩
  · rintro ⟨hlt, k, rfl⟩
    have hk := (lt_length_positions_iff hstep).2 hlt
    exact ⟨k, hk, getElem_positions hk⟩

theorem nodup_positions (hstep : 0 < step) : (positions start stop step).Nodup := by
  refine List.Nodup.map (fun a b hab => ?_) nodup_range
  have hmul : a * step = b * step := Nat.add_left_cancel hab
  exact Nat.eq_of_mul_eq_mul_right hstep hmul

/-! ### Reading -/

theorem getElem?_filterMap_of_isSome {β : Type} {f : β → Option α} {l : List β}
    (h : ∀ b ∈ l, (f b).isSome) (k : Nat) : (l.filterMap f)[k]? = l[k]?.bind f := by
  induction l generalizing k with
  | nil => rfl
  | cons b l ih =>
    obtain ⟨hb, hl⟩ := forall_mem_cons.1 h
    obtain ⟨a, ha⟩ := Option.isSome_iff_exists.1 hb
    rw [filterMap_cons_some ha]
    cases k with
    | zero => exact ha.symm
    | succ k => exact ih hl k

theorem getElem?_every (hstep : 0 < step) (hstop : stop ≤ xs.size) (k : Nat) :
    (every xs start stop step)[k]? =
      if start + k * step < stop then xs[start + k * step]? else none := by
  have hsome : ∀ i ∈ positions start stop step, (xs[i]?).isSome := by
    intro i hi
    have hlt := ((mem_positions_iff hstep).1 hi).1
    rw [Array.getElem?_eq_getElem (by omega)]
    rfl
  rw [every, Nat.min_eq_left hstop, getElem?_filterMap_of_isSome hsome]
  have hcount : k < (positions start stop step).length ↔ start + k * step < stop :=
    lt_length_positions_iff hstep
  by_cases hk : start + k * step < stop
  · have hk' := hcount.2 hk
    rw [if_pos hk, getElem?_eq_getElem hk', getElem_positions hk', Option.bind_some]
  · rw [if_neg hk, getElem?_eq_none (Nat.le_of_not_lt fun h => hk (hcount.1 h)), Option.bind_none]

theorem length_every (hstep : 0 < step) (hstop : stop ≤ xs.size) :
    (every xs start stop step).length = (positions start stop step).length := by
  refine eq_of_forall_lt_iff fun k => ?_
  rw [lt_length_positions_iff hstep, ← not_iff_not, Nat.not_lt, ← List.getElem?_eq_none_iff,
    getElem?_every hstep hstop]
  by_cases hk : start + k * step < stop
  · simp [hk, Array.getElem?_eq_getElem (Nat.lt_of_lt_of_le hk hstop)]
  · simp [hk]

/-! ### Assigning -/

theorem size_foldl_setIfInBounds (es : List (Nat × α)) (xs : Array α) :
    (es.foldl (fun xs e => xs.setIfInBounds e.1 e.2) xs).size = xs.size := by
  induction es generalizing xs with
  | nil => rfl
  | cons e es ih => rw [foldl_cons, ih, Array.size_setIfInBounds]

theorem getElem?_foldl_setIfInBounds_of_notMem (h : i ∉ es.map Prod.fst) (xs : Array α) :
    (es.foldl (fun xs e => xs.setIfInBounds e.1 e.2) xs)[i]? = xs[i]? := by
  induction es generalizing xs with
  | nil => rfl
  | cons e es ih =>
    rw [map_cons, mem_cons, not_or] at h
    rw [foldl_cons, ih h.2, Array.getElem?_setIfInBounds_ne (Ne.symm h.1)]

theorem getElem?_foldl_setIfInBounds_of_mem (hnodup : (es.map Prod.fst).Nodup) {a : α}
    (h : (i, a) ∈ es) (hi : i < xs.size) :
    (es.foldl (fun xs e => xs.setIfInBounds e.1 e.2) xs)[i]? = some a := by
  induction es generalizing xs with
  | nil => cases h
  | cons e es ih =>
    rw [map_cons, nodup_cons] at hnodup
    rw [foldl_cons]
    obtain rfl | h := mem_cons.1 h
    · rw [getElem?_foldl_setIfInBounds_of_notMem hnodup.1]
      simp [hi]
    · exact ih hnodup.2 h (by rwa [Array.size_setIfInBounds])

/-- The array `ys` has the values `vs` at the places and the elements of `xs` elsewhere. -/
structure Filled (xs ys : Array α) (start step : Nat) (vs : List α) : Prop where
  size : ys.size = xs.size
  placed : ∀ k < vs.length, ys[start + k * step]? = vs[k]?
  kept : ∀ i, (∀ k < vs.length, i ≠ start + k * step) → ys[i]? = xs[i]?

theorem filled_append (hstart : start ≤ stop) (hstop : stop ≤ xs.size)
    (hvs : vs.length = stop - start) :
    Filled xs (xs.extract 0 start ++ vs.toArray ++ xs.extract stop xs.size) start 1 vs := by
  have hbefore : (xs.extract 0 start).size = start := by
    rw [Array.size_extract]
    omega
  have hfilled : (xs.extract 0 start ++ vs.toArray).size = stop := by
    rw [Array.size_append, hbefore, size_toArray]
    omega
  refine ⟨?_, ?_, ?_⟩
  · rw [Array.size_append, Array.size_extract]
    omega
  · intro k hk
    rw [Nat.mul_one, Array.getElem?_append_left (by omega), Array.getElem?_append_right (by omega),
      hbefore, Nat.add_sub_cancel_left, getElem?_toArray]
  · intro i hi
    by_cases hlt : i < start
    · rw [Array.getElem?_append_left (by omega), Array.getElem?_append_left (by omega),
        Array.getElem?_extract, if_pos (by omega), Nat.zero_add]
    · have hafter : stop ≤ i := by
        by_contra hin
        exact hi (i - start) (by omega) (by omega)
      rw [Array.getElem?_append_right (by omega), hfilled, Array.getElem?_extract,
        Nat.add_sub_cancel' hafter]
      by_cases hi : i < xs.size
      · rw [if_pos (by omega)]
      · rw [if_neg (by omega), Array.getElem?_eq_none (by omega)]

theorem exists_assign (hstep : 0 < step) (hstop : stop ≤ xs.size) (hne : vs ≠ [])
    (hlength : vs.length = (positions start stop step).length) :
    ∃ ys, assign xs start stop step vs = .ok ys ∧ Filled xs ys start step vs := by
  have hpos := length_pos_iff.2 hne
  have hlast : ∀ k, k < vs.length ↔ start + k * step < stop := fun k => by
    rw [hlength, lt_length_positions_iff hstep]
  have hstart : start < stop := by
    have := (hlast 0).1 hpos
    omega
  by_cases hone : step = 1
  · subst hone
    have hvs : vs.length = stop - start := by
      have hin := hlast (stop - start)
      have hbefore := hlast (stop - start - 1)
      omega
    refine ⟨_, ?_, filled_append hstart.le hstop hvs⟩
    rw [assign, if_pos rfl, Nat.min_eq_left hstop, Nat.max_eq_right hstart.le,
      Nat.min_eq_left (by omega)]
  · have hnodup : (positions start stop step).Nodup := nodup_positions hstep
    have hplaces : ((positions start stop step).zip vs).map Prod.fst = positions start stop step :=
      map_fst_zip hlength.ge
    refine ⟨_, by rw [assign, if_neg hone, Nat.min_eq_left hstop, isEmpty_eq_false_iff.2 hne,
      if_neg Bool.false_ne_true, if_neg (not_not_intro hlength)], ?_, ?_, ?_⟩
    · exact size_foldl_setIfInBounds _ _
    · intro k hk
      have hk' := hlength ▸ hk
      rw [getElem?_eq_getElem hk]
      refine getElem?_foldl_setIfInBounds_of_mem (hplaces.symm ▸ hnodup) ?_
        (Nat.lt_of_lt_of_le ((hlast k).1 hk) hstop)
      have hboth : k < ((positions start stop step).zip vs).length := by
        rw [length_zip]
        omega
      have hpair := getElem_mem hboth
      rwa [getElem_zip, getElem_positions hk'] at hpair
    · intro i hi
      refine getElem?_foldl_setIfInBounds_of_notMem ?_ _
      rw [hplaces, mem_positions_iff hstep]
      rintro ⟨hlt, k, rfl⟩
      exact hi k ((hlast k).2 hlt) rfl

theorem exists_foldlM_assign {f : Array α → Nat → Except Fault (Array α)} {is : List Nat}
    (starts : Nat → Nat) {vs : Nat → List α} (hnodup : is.Nodup) (hstep : 0 < step)
    (hstop : stop ≤ xs.size)
    (hf : ∀ out i, out.size = xs.size → f out i = assign out (starts i) stop step (vs i))
    (hne : ∀ i ∈ is, vs i ≠ [])
    (hlength : ∀ i ∈ is, (vs i).length = (positions (starts i) stop step).length)
    (hapart : ∀ i ∈ is, ∀ j ∈ is, ∀ k m, starts i + k * step = starts j + m * step → i = j) :
    ∃ ys, is.foldlM f xs = .ok ys ∧ ys.size = xs.size ∧
      (∀ i ∈ is, ∀ k < (vs i).length, ys[starts i + k * step]? = (vs i)[k]?) ∧
      ∀ n, (∀ i ∈ is, ∀ k < (vs i).length, n ≠ starts i + k * step) → ys[n]? = xs[n]? := by
  induction is generalizing xs with
  | nil => exact ⟨xs, rfl, rfl, fun i hi => absurd hi not_mem_nil, fun _ _ => rfl⟩
  | cons i is ih =>
    obtain ⟨hi, hnodup⟩ := nodup_cons.1 hnodup
    obtain ⟨zs, hzs, hfilled⟩ := exists_assign hstep hstop (hne i mem_cons_self)
      (hlength i mem_cons_self)
    have hstop' : stop ≤ zs.size := hfilled.size ▸ hstop
    obtain ⟨ys, hys, hsize, hplaced, hkept⟩ := ih hnodup hstop'
      (fun out j hout => hf out j (hout.trans hfilled.size))
      (fun j hj => hne j (mem_cons_of_mem _ hj))
      (fun j hj => hlength j (mem_cons_of_mem _ hj))
      (fun j hj k hk => hapart j (mem_cons_of_mem _ hj) k (mem_cons_of_mem _ hk))
    refine ⟨ys, ?_, hsize.trans hfilled.size, ?_, ?_⟩
    · rw [foldlM_cons, hf xs i rfl, hzs]
      exact hys
    · intro j hj k hk
      obtain rfl | hj := mem_cons.1 hj
      · -- the later channels leave alone what this one has written
        rw [hkept, hfilled.placed k hk]
        intro l hl m _ heq
        exact hi (hapart j mem_cons_self l (mem_cons_of_mem _ hl) k m heq ▸ hl)
      · exact hplaced j hj k hk
    · intro n hn
      obtain ⟨hfirst, hlater⟩ := forall_mem_cons.1 hn
      rw [hkept n hlater, hfilled.kept n hfirst]

end Cartridge.Png.Strided
