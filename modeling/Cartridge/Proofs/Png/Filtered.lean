import Cartridge.Png.Filter
import Cartridge.Proofs.Fault
import Cartridge.Proofs.Value
import Mathlib.Data.List.Induction

/-!
# Filters and their inverses

A filter replaces every byte of a line by its difference from a prediction, and undoing the filter
adds the predictions again.  The prediction for a byte looks at bytes to its left in the line and at
the line above (`Filter.guess`), so the bytes that are done are all that it needs, and the
differences of a line grow with the line (`Filter.differences_push`).

* `Filter.run_differences`: adding the predictions to the differences of a line gives the line.
* `Filter.exists_run`: what comes of any bytes has these bytes as its differences.

Main result: `filters_cancel`.
-/

open List

namespace Cartridge.Png

namespace Filter

variable {f : Filter} {unit i : Nat} {line above done xs : Array UInt8} {x : UInt8}

/-! ### Predictions -/

/-- The prediction for a position of a line, with zeros off the line. -/
def guess (f : Filter) (unit : Nat) (line above : Array UInt8) (i : Nat) : UInt8 :=
  f.predict (if unit ≤ i then line.getD (i - unit) 0 else 0) (above.getD i 0)
    (if unit ≤ i then above.getD (i - unit) 0 else 0)

def differences (f : Filter) (unit : Nat) (above line : Array UInt8) : List UInt8 :=
  (List.range line.size).map fun i => line.getD i 0 - f.guess unit line above i

theorem elementAt_of_lt (h : i < xs.size) :
    elementAt xs (i : Nat) = .ok (xs.getD i 0) := by
  have hpos : ¬(i : Int) < 0 := by omega
  rw [elementAt, if_neg hpos]
  simp [h]

theorem predictionAt_eq (hline : i < line.size) (habove : i < above.size) :
    predictionAt f unit line above i = .ok (f.guess unit line above i) := by
  have hup := elementAt_of_lt habove
  by_cases hunit : unit ≤ i
  · have hleft : (i : Int) - unit = (i - unit : Nat) := by omega
    have ha := elementAt_of_lt (show i - unit < line.size by omega)
    have hc := elementAt_of_lt (show i - unit < above.size by omega)
    simp only [predictionAt, hleft, hup, ha, hc, guess, if_pos hunit]
    cases f <;> rfl
  · have hleft : decide (0 ≤ (i : Int) - unit) = false := decide_eq_false (by omega)
    simp only [predictionAt, hleft, hup, guess, if_neg hunit, Bool.and_false, Bool.false_and]
    cases f <;> rfl

theorem nextPrediction_eq (h : done.size < above.size) :
    nextPrediction f unit above done = .ok (f.guess unit done above done.size) := by
  have hup := elementAt_of_lt h
  by_cases hunit : unit ≤ done.size
  · have hc := elementAt_of_lt (show done.size - unit < above.size by omega)
    simp only [nextPrediction, hup, hc, guess, if_pos hunit, decide_eq_true hunit]
    cases f <;> rfl
  · simp only [nextPrediction, hup, guess, if_neg hunit, decide_eq_false hunit, Bool.and_false,
      Bool.false_and]
    cases f <;> rfl

theorem guess_push (hunit : 1 ≤ unit) (h : i ≤ done.size) :
    f.guess unit (done.push x) above i = f.guess unit done above i := by
  rw [guess, guess]
  split_ifs with hleft
  · have hlt : i - unit < done.size := by omega
    simp [Array.getElem?_push_lt, hlt]
  · rfl

/-- **One more byte** has one more difference, and the others stay. -/
theorem differences_push (hunit : 1 ≤ unit) (done : Array UInt8) (x : UInt8) :
    f.differences unit above (done.push x) =
      f.differences unit above done ++ [x - f.guess unit done above done.size] := by
  rw [differences, Array.size_push, range_succ, map_append, map_singleton]
  refine congrArg₂ _ (map_congr_left fun i hi => ?_) ?_
  · have hlt := mem_range.1 hi
    rw [guess_push hunit (Nat.le_of_lt hlt)]
    simp [Array.getElem?_push_lt, hlt]
  · rw [guess_push hunit (Nat.le_refl _)]
    simp

/-! ### Undoing -/

/-- Adds the prediction for the next byte to its difference. -/
def next (f : Filter) (unit : Nat) (above done : Array UInt8) (x : UInt8) :
    Except Fault (Array UInt8) := do
  let p ← nextPrediction f unit above done
  return done.push (x + p)

theorem next_eq (h : done.size < above.size) (x : UInt8) :
    f.next unit above done x = .ok (done.push (x + f.guess unit done above done.size)) := by
  rw [next, nextPrediction_eq h]
  rfl

theorem exists_run (hunit : 1 ≤ unit) {stored : List UInt8} (h : stored.length ≤ above.size) :
    ∃ line, stored.foldlM (f.next unit above) #[] = .ok line ∧
      f.differences unit above line = stored := by
  induction stored using reverseRecOn with
  | nil => exact ⟨#[], rfl, rfl⟩
  | append_singleton stored x ih =>
    rw [length_append, length_singleton] at h
    obtain ⟨done, hdone, hstored⟩ := ih (by omega)
    have hsize : done.size = stored.length := by rw [← hstored, differences, length_map, length_range]
    refine ⟨done.push (x + f.guess unit done above done.size), ?_, ?_⟩
    · rw [foldlM_append, hdone]
      exact (bind_pure _).trans (next_eq (by omega) x)
    · rw [differences_push hunit, hstored, UInt8.add_sub_cancel]

theorem run_differences (hunit : 1 ≤ unit) (h : line.size ≤ above.size) :
    (f.differences unit above line).foldlM (f.next unit above) #[] = .ok line := by
  obtain ⟨xs, rfl⟩ : ∃ xs : List UInt8, line = xs.toArray := ⟨line.toList, rfl⟩
  induction xs using reverseRecOn with
  | nil => rfl
  | append_singleton xs x ih =>
    rw [← List.push_toArray, Array.size_push] at h
    rw [← List.push_toArray, differences_push hunit, foldlM_append, ih (by omega)]
    refine (bind_pure _).trans ((next_eq (by omega) _).trans ?_)
    rw [UInt8.sub_add_cancel]

/-- On the first line the filters that look up do the same as simpler ones. -/
theorem guess_onFirstLine (f : Filter) (unit : Nat) (line : Array UInt8) (n i : Nat) :
    f.onFirstLine.guess unit line (Array.replicate n 0) i =
      f.guess unit line (Array.replicate n 0) i := by
  have hzero : ∀ j, (Array.replicate n (0 : UInt8)).getD j 0 = 0 := by
    intro j
    by_cases hj : j < n <;> simp [hj]
  have hnearest : ∀ a : UInt8, (nearest a.toNat 0 0).toNat.toUInt8 = a := by
    intro a
    rw [nearest]
    simp
  simp only [guess, hzero, ite_self]
  cases f <;> simp [onFirstLine, predict, hnearest]

end Filter

/-! ### Whole lines -/

open Filter

variable {number unit : Nat} {f : Filter} {line above : Array UInt8}

/-- What counts as the line above one of `n` bytes: zeros where there is none. -/
def aboveOr (n : Nat) (above : Array UInt8) : Array UInt8 :=
  if above.isEmpty then Array.replicate n 0 else above

theorem size_aboveOr {n : Nat} (h : above = #[] ∨ above.size = n) : (aboveOr n above).size = n := by
  obtain rfl | rfl := h
  · simp [aboveOr]
  · rw [aboveOr]
    split_ifs <;> simp

/-- **A line is filtered** to its differences. -/
theorem applyFilter_eq (hf : ofNumber? number = some f)
    (h : above = #[] ∨ above.size = line.size) :
    applyFilter number line unit above =
      .ok (number.toUInt8 :: f.differences unit (aboveOr line.size above) line) := by
  have hsize := size_aboveOr h
  have hguess : ∀ i, (if above.isEmpty then f.onFirstLine else f).guess unit line
      (aboveOr line.size above) i = f.guess unit line (aboveOr line.size above) i := by
    intro i
    by_cases hempty : above.isEmpty
    · rw [aboveOr, if_pos hempty, if_pos hempty, guess_onFirstLine]
    · rw [if_neg hempty]
  rw [applyFilter, hf]
  refine bind_ok_iff.2 ⟨f, rfl, bind_ok_iff.2 ⟨_, mapM_ok_iff.2 ?_, rfl⟩⟩
  rw [differences, forall₂_map_right_iff, forall₂_iff_get]
  refine ⟨by simp, fun i hi hi' => ?_⟩
  have hlt : i < line.size := by simpa using hi'
  have hbyte : line.toList.zipIdx.get ⟨i, hi⟩ = (line.getD i 0, i) := by simp [hlt]
  have hplace : (List.range line.size).get ⟨i, hi'⟩ = i := by simp
  rw [hbyte, hplace, ← hguess i]
  exact bind_ok_iff.2 ⟨_, predictionAt_eq hlt (hsize.symm ▸ hlt), rfl⟩

/-- **A filter is undone** byte by byte, also the one that does nothing. -/
theorem undoForSize_eq (hf : ofNumber? number = some f) (hunit : 1 ≤ unit)
    (h : above = #[] ∨ above.size = line.size) :
    undoForSize number (.int unit) line above =
      line.toList.foldlM (f.next unit (aboveOr line.size above)) #[] := by
  by_cases hzero : number = 0
  · subst hzero
    obtain rfl := Option.some.inj hf
    have hnone : none.differences unit (aboveOr line.size above) line = line.toList := by
      refine ext_getElem (by simp [differences]) fun i hi hi' => ?_
      have hlt : i < line.size := by simpa using hi'
      simp [differences, guess, predict, hlt]
    have hrun := run_differences (f := .none) hunit (Nat.le_of_eq (size_aboveOr h).symm)
    rw [hnone] at hrun
    exact hrun.symm
  · have hne : f ≠ .none := by
      rintro rfl
      rw [ofNumber?, if_neg (by omega)] at hf
      split_ifs at hf <;> cases hf
    have hsize : undoForSize number (.int unit) line above = undoFilter f unit line above := by
      rw [undoForSize, if_neg (by omega), hf]
      simp only [Value.isAbove_int, Value.toInt]
      by_cases hone : (1 : Int) < unit
      · rw [decide_eq_true hone]
        rfl
      · rw [show unit = 1 by omega]
        rfl
    rw [hsize, undoFilter, if_neg hne]
    exact (Array.foldlM_toList ..).symm

/-- **Filters and their inverses cancel**, for every filter, every distance and every line, with a
line of the same length above it or none. -/
theorem filters_cancel (number unit : Nat) (line above : Array UInt8) (hnumber : number ≤ 4)
    (hunit : 1 ≤ unit) (habove : above = #[] ∨ above.size = line.size) :
    (∃ stored, applyFilter number line unit above = .ok (number.toUInt8 :: stored) ∧
      undoForSize number (.int unit) stored.toArray above = .ok line) ∧
    ∃ plain, undoForSize number (.int unit) line above = .ok plain ∧
      applyFilter number plain unit above = .ok (number.toUInt8 :: line.toList) := by
  obtain ⟨f, hf⟩ : ∃ f, Filter.ofNumber? number = some f := by
    have hall : ∀ n ≤ 4, (Filter.ofNumber? (n : Nat)).isSome := by decide
    exact Option.isSome_iff_exists.1 (hall number hnumber)
  have hroom : line.size ≤ (aboveOr line.size above).size := Nat.le_of_eq (size_aboveOr habove).symm
  constructor
  · refine ⟨_, applyFilter_eq hf habove, ?_⟩
    have hsize : (f.differences unit (aboveOr line.size above) line).toArray.size = line.size := by
      simp [differences]
    rw [undoForSize_eq hf hunit (hsize.symm ▸ habove), hsize]
    exact run_differences hunit hroom
  · obtain ⟨plain, hplain, hstored⟩ := exists_run (f := f) hunit
      (show line.toList.length ≤ _ from hroom)
    have hsize : plain.size = line.size := by simpa [differences] using congrArg length hstored
    refine ⟨plain, (undoForSize_eq hf hunit habove).trans hplain, ?_⟩
    rw [applyFilter_eq hf (hsize.symm ▸ habove), hsize, hstored]

/-- The average of a line that has a line above it. -/
theorem filters_cancel_average : 3 ≤ 4 ∧ 1 ≤ 2 ∧ #[9, 8, 255].size = #[1, 200, 7].size ∧
    (∃ stored, applyFilter 3 #[1, 200, 7] 2 #[9, 8, 255] = .ok (3 :: stored) ∧
      undoForSize 3 (.int 2) stored.toArray #[9, 8, 255] = .ok #[1, 200, 7]) ∧
    ∃ plain, undoForSize 3 (.int 2) #[1, 200, 7] #[9, 8, 255] = .ok plain ∧
      applyFilter 3 plain 2 #[9, 8, 255] = .ok [3, 1, 200, 7] :=
  ⟨by decide, by decide, rfl, filters_cancel 3 2 #[1, 200, 7] #[9, 8, 255] (by decide) (by decide)
    (.inr rfl)⟩

end Cartridge.Png
