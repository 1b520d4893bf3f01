import Cartridge.Value

/-!
# Integers among values

What the questions that a value is asked come to for an integer, and that a value which equals an
integer is cut to it.
-/

namespace Cartridge.Value

open Binary64

variable {n : Int} {v : Value}

theorem compareInt_int (k n : Int) : (int k).compareInt n = .ok (some (compare k n)) := rfl

@[simp] theorem isBelow_int (k n : Int) : (int k).isBelow n = .ok (decide (k < n)) := by
  have h : (some (compare k n) == some .lt) = decide (k < n) := by
    rw [Bool.eq_iff_iff]
    simp [Int.compare_eq_lt]
  rw [← h]
  rfl

@[simp] theorem isAbove_int (k n : Int) : (int k).isAbove n = .ok (decide (n < k)) := by
  have h : (some (compare k n) == some .gt) = decide (n < k) := by
    rw [Bool.eq_iff_iff]
    simp [Int.compare_eq_gt]
  rw [← h]
  rfl

@[simp] theorem isAtMost_int (k n : Int) : (int k).isAtMost n = .ok (decide (k ≤ n)) := by
  have h : (some (compare k n) == some .lt || some (compare k n) == some .eq) = decide (k ≤ n) := by
    rw [Bool.eq_iff_iff]
    simp [Int.compare_eq_lt]
    omega
  rw [← h]
  rfl

@[simp] theorem isInt_int (k n : Int) : (int k).isInt n = decide (k = n) := by
  rw [isInt, compareInt_int]
  rcases h : compare k n with _ | _ | _
  · simp [Int.ne_of_lt (Int.compare_eq_lt.1 h)]
  · simp [Int.compare_eq_eq.1 h]
  · simp [(Int.ne_of_lt (Int.compare_eq_gt.1 h)).symm]

@[simp] theorem isInteger_int (k : Int) : (int k).isInteger = .ok true := by
  simp [isInteger, toInt]

theorem isAtMost_of_whole? (h : v.whole? = some n) (k : Int) :
    v.isAtMost k = .ok (decide (n ≤ k)) := by
  cases v with
  | flag b =>
    obtain rfl := Option.some.inj h
    exact isAtMost_int _ k
  | int m =>
    obtain rfl := Option.some.inj h
    exact isAtMost_int m k
  | _ => cases h

theorem truncate_of_compareInt {negative : Bool} {m : Nat} {e : Int}
    (h : Binary64.compareInt negative m e n = .eq) : truncate negative m e = n := by
  have hpos : 0 < (quotient m e).2 := by
    rw [quotient]
    split
    · exact Nat.one_pos
    · exact Nat.two_pow_pos _
  rw [Binary64.compareInt, Int.compare_eq_eq] at h
  rw [truncate]
  generalize quotient m e = q at h hpos
  obtain ⟨a, b⟩ := q
  simp only [signed] at h hpos ⊢
  cases negative with
  | false =>
    simp only [Bool.false_eq_true, if_false] at h ⊢
    rw [Int.natCast_ediv, h, Int.mul_ediv_cancel _ (by omega)]
  | true =>
    simp only [if_true] at h ⊢
    have ha : (a : Int) = -n * b := by
      rw [Int.neg_mul, ← h, Int.neg_neg]
    rw [Int.natCast_ediv, ha, Int.mul_ediv_cancel _ (by omega), Int.neg_neg]

theorem isInt_eq_true_iff : v.isInt n = true ↔ v.compareInt n = .ok (some .eq) := by
  rw [isInt]
  split
  · simp_all
  · simp_all

theorem toInt_of_isInt (h : v.isInt n = true) : v.toInt = .ok n := by
  rw [isInt_eq_true_iff] at h
  cases v with
  | flag b | int k =>
    rw [compareInt, Except.ok.injEq, Option.some.injEq, Int.compare_eq_eq] at h
    rw [toInt, h]
  | real x =>
    rw [compareInt] at h
    rw [toInt]
    split at h
    · cases h
    · split at h <;> cases h
    · rw [Except.ok.injEq, Option.some.injEq] at h
      simp only [truncate_of_compareInt h, *]
  | _ => cases h

end Cartridge.Value
