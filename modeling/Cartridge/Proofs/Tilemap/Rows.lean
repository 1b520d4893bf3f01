import Cartridge.Tilemap.Expand
import Cartridge.Tilemap.Pack
import Mathlib.Tactic.SplitIfs
import Mathlib.Tactic.ByContra
import Mathlib.Data.List.Infix

/-!
# The rows of a map

A map is a list of rows with a row mark between any two of them and an end mark after the last
(`ofRows`).  Packing leaves out the mark after a full row (`flatRows`, `dropImplied_intercalate`),
and unpacking puts it back.  The two fit together exactly if the rows are `Tidy`
(`closeRows_laid_iff`):

* no empty row comes right after a full one, since its mark would pass for the implied one;
* the last row is not empty, since the mark before it would be dropped as one too many;
* the last row is not one cell short, since the end mark would then fill it and be cut off.

Whatever cells a packed map expands to, a map that unpacking ends with an end mark consists of rows
(`exists_rows_of_closeRows`).
-/

open List

namespace Cartridge.Tilemap

open Except

structure IsRow (r : List Int) : Prop where
  length_le : r.length ≤ rowSize
  no_mark : rowCell ∉ r

def ofRows (rows : List (List Int)) : List Int := [rowCell].intercalate rows ++ [endCell]

/-- The rows of a map one after the other, with a row mark only where no full row implies it. -/
def flatRows : List (List Int) → List Int
  | [] => []
  | [r] => r
  | r :: s :: rows => (if r.length = rowSize then r else r ++ [rowCell]) ++ flatRows (s :: rows)

/-- Rows that can be told apart without the marks that full rows imply: no empty row comes right
after a full row, and the last row is neither empty nor one cell short. -/
def Tidy : List (List Int) → Prop
  | [] => False
  | [r] => r ≠ [] ∧ r.length + 1 ≠ rowSize
  | r :: s :: rows => (r.length = rowSize → s ≠ []) ∧ Tidy (s :: rows)

variable {r s row rest cells done last d : List Int} {rows : List (List Int)}

theorem isRow_nil : IsRow [] := ⟨by simp, by simp⟩

/-! ### Leaving out implied marks -/

theorem dropImplied_append {n : Nat} (hr : rowCell ∉ r) (hn : n + r.length ≤ rowSize) :
    dropImplied n (r ++ rest) = (r ++ ·) <$> dropImplied (n + r.length) rest := by
  induction r generalizing n with
  | nil => simp
  | cons c r ih =>
    rw [mem_cons, not_or] at hr
    have hlen : n + (c :: r).length = n + 1 + r.length := by rw [length_cons]; omega
    rw [cons_append, dropImplied, if_neg (by omega), if_neg (Ne.symm hr.1),
      ih hr.2 (by omega), hlen, ← LawfulFunctor.comp_map]
    rfl

theorem dropImplied_intercalate (hne : rows ≠ []) (hrows : ∀ r ∈ rows, IsRow r) :
    dropImplied 0 ([rowCell].intercalate rows) = .ok (flatRows rows) := by
  induction rows with
  | nil => exact absurd rfl hne
  | cons r rows ih =>
    have hr := hrows r mem_cons_self
    have hle : 0 + r.length ≤ rowSize := by have := hr.length_le; omega
    cases rows with
    | nil =>
      rw [intercalate_singleton, ← append_nil r, dropImplied_append hr.no_mark hle]
      simp [dropImplied, flatRows]
    | cons s rows =>
      have ih := ih (by simp) fun r hr => hrows r (mem_cons_of_mem _ hr)
      rw [intercalate_cons_cons, append_assoc, dropImplied_append hr.no_mark hle,
        singleton_append, dropImplied, Nat.zero_add, flatRows, if_pos rfl, if_pos rfl, ih]
      split_ifs <;> simp

theorem flatRows_subset (rows : List (List Int)) : flatRows rows ⊆ [rowCell].intercalate rows := by
  induction rows with
  | nil => exact List.Subset.refl _
  | cons r rows ih =>
    cases rows with
    | nil => simp [flatRows]
    | cons s rows =>
      rw [intercalate_cons_cons]
      refine append_subset.2 ⟨?_, subset_append_of_subset_right _ ih⟩
      split_ifs
      · exact subset_append_of_subset_left _ (subset_append_left ..)
      · exact subset_append_left ..

theorem flatRows_ne_nil (h : Tidy rows) : flatRows rows ≠ [] := by
  cases rows with
  | nil => exact h.elim
  | cons r rows =>
    cases rows with
    | nil => exact h.1
    | cons s rows =>
      rw [flatRows]
      split_ifs with hfull
      · have : r ≠ [] := by rintro rfl; simp [rowSize] at hfull
        simp [this]
      · simp

/-! ### Full rows -/

theorem flatRows_of_full (hfull : ∀ r ∈ rows, r.length = rowSize) :
    flatRows rows = rows.flatten := by
  induction rows with
  | nil => rfl
  | cons r rows ih =>
    cases rows with
    | nil => simp [flatRows]
    | cons s rows =>
      rw [flatRows, if_pos (hfull r mem_cons_self), ih fun q hq => hfull q (mem_cons_of_mem _ hq)]
      rfl

theorem tidy_of_full (hne : rows ≠ []) (hfull : ∀ r ∈ rows, r.length = rowSize) : Tidy rows := by
  have hpos : ∀ r ∈ rows, r ≠ [] := by
    rintro r hr rfl
    simpa [rowSize] using hfull [] hr
  induction rows with
  | nil => exact absurd rfl hne
  | cons r rows ih =>
    cases rows with
    | nil => exact ⟨hpos r mem_cons_self, by rw [hfull r mem_cons_self]; decide⟩
    | cons s rows =>
      exact ⟨fun _ => hpos s (by simp), ih (by simp)
        (fun q hq => hfull q (mem_cons_of_mem _ hq))
        fun q hq => hpos q (mem_cons_of_mem _ hq)⟩

theorem length_flatten_of_full (hfull : ∀ r ∈ rows, r.length = rowSize) :
    rows.flatten.length % rowSize = 0 := by
  induction rows with
  | nil => rfl
  | cons r rows ih =>
    rw [flatten_cons, length_append, hfull r mem_cons_self, Nat.add_mod_left,
      ih fun q hq => hfull q (mem_cons_of_mem _ hq)]

theorem exists_rows_of_length (h : cells.length % rowSize = 0) :
    ∃ rows : List (List Int), (∀ r ∈ rows, r.length = rowSize) ∧ rows.flatten = cells := by
  obtain ⟨k, hk⟩ := Nat.dvd_of_mod_eq_zero h
  clear h
  induction k generalizing cells with
  | zero => exact ⟨[], by simp, (length_eq_zero_iff.1 hk).symm⟩
  | succ k ih =>
    have hrest : (cells.drop rowSize).length = rowSize * k := by
      rw [length_drop, hk, Nat.mul_succ, Nat.add_sub_cancel]
    obtain ⟨rows, hfull, hflat⟩ := ih hrest
    refine ⟨cells.take rowSize :: rows, forall_mem_cons.2 ⟨?_, hfull⟩, ?_⟩
    · rw [length_take, hk]
      exact Nat.min_eq_left (Nat.le_mul_of_pos_right _ k.succ_pos)
    · rw [flatten_cons, hflat, take_append_drop]

/-! ### Laying out one row -/

theorem isFull_eq_false (h : row.length < rowSize) : isFull row = false := by
  rcases row with _ | ⟨c, row⟩
  · rfl
  · rw [isFull, Nat.mod_eq_of_lt h]
    simp

theorem isFull_of_length_eq (h : row.length = rowSize) : isFull row = true := by
  rcases row with _ | ⟨c, row⟩
  · simp [rowSize] at h
  · rw [isFull, h]
    rfl

theorem layRows_append (hr : rowCell ∉ r) (hle : row.length + r.length ≤ rowSize) :
    layRows row (r ++ rest) = layRows (row ++ r) rest := by
  induction r generalizing row with
  | nil => simp
  | cons c r ih =>
    rw [mem_cons, not_or] at hr
    rw [length_cons] at hle
    rw [cons_append, layRows, isFull_eq_false (by omega),
      if_neg (by simpa using Ne.symm hr.1), ih hr.2 (by simp; omega), append_assoc,
      singleton_append]

theorem layRows_row_mark (hr : IsRow r) :
    layRows [] (r ++ rowCell :: rest) =
      (r ++ rowCell :: (layRows [] rest).1, (layRows [] rest).2) := by
  rw [layRows_append hr.no_mark (by simpa using hr.length_le), layRows]
  simp

theorem layRows_full_row {t : Int} (hr : IsRow r) (hfull : r.length = rowSize) (ht : t ≠ rowCell) :
    layRows [] (r ++ t :: rest) =
      (r ++ rowCell :: (layRows [] (t :: rest)).1, (layRows [] (t :: rest)).2) := by
  have ht' : (t == rowCell) = false := by simpa using ht
  rw [layRows_append hr.no_mark (by simpa using hr.length_le), nil_append, layRows, layRows,
    isFull_of_length_eq hfull, ht']
  rfl

theorem layRows_end (hr : IsRow r) (hfull : r.length ≠ rowSize) :
    layRows [] (r ++ [endCell]) = ([], r ++ [endCell]) := by
  have hlt : r.length + 1 ≤ rowSize := by have := hr.length_le; omega
  have hmark : rowCell ∉ r ++ [endCell] := by
    rw [mem_append, not_or]
    exact ⟨hr.no_mark, by decide⟩
  rw [← append_nil (r ++ [endCell]), layRows_append hmark (by simpa using hlt)]
  simp [layRows]

/-! ### Laying out the rows of a map -/

def laid (rows : List (List Int)) : List Int × List Int := layRows [] (flatRows rows ++ [endCell])

theorem exists_flatRows_cons (s : List Int) (rows : List (List Int)) :
    ∃ rest, flatRows (s :: rows) = s ++ rest := by
  cases rows with
  | nil => exact ⟨[], by simp [flatRows]⟩
  | cons t rows =>
    rw [flatRows]
    split_ifs
    · exact ⟨_, rfl⟩
    · exact ⟨_, append_assoc ..⟩

theorem laid_singleton_full (hr : IsRow r) (hfull : r.length = rowSize) :
    laid [r] = (r ++ [rowCell], [endCell]) :=
  layRows_full_row hr hfull (by decide)

theorem laid_singleton (hr : IsRow r) (hfull : r.length ≠ rowSize) :
    laid [r] = ([], r ++ [endCell]) :=
  layRows_end hr hfull

theorem laid_cons (hr : IsRow r) (hs : IsRow s) (hrs : r.length = rowSize → s ≠ []) :
    laid (r :: s :: rows) = (r ++ rowCell :: (laid (s :: rows)).1, (laid (s :: rows)).2) := by
  rw [laid, flatRows]
  split_ifs with hfull
  · obtain ⟨tail, htail⟩ := exists_flatRows_cons s rows
    cases s with
    | nil => exact absurd rfl (hrs hfull)
    | cons c s =>
      have hc : c ≠ rowCell := fun h => hs.no_mark (h ▸ mem_cons_self)
      rw [laid, htail, append_assoc]
      exact layRows_full_row hr hfull hc
  · rw [append_assoc, append_assoc]
    exact layRows_row_mark hr

theorem laid_full_nil (hr : IsRow r) (hfull : r.length = rowSize) :
    laid (r :: [] :: s :: rows) = (r ++ rowCell :: (laid (s :: rows)).1, (laid (s :: rows)).2) := by
  rw [laid, flatRows, if_pos hfull, append_assoc]
  exact layRows_row_mark hr

theorem laid_of_tidy (h : Tidy rows) (hrows : ∀ r ∈ rows, IsRow r) :
    laid rows = ([rowCell].intercalate rows ++ [rowCell], [endCell]) ∨
      (laid rows).1 ++ (laid rows).2 = ofRows rows ∧
        2 ≤ (laid rows).2.length ∧ (laid rows).2.length < rowSize := by
  induction rows with
  | nil => exact h.elim
  | cons r rows ih =>
    have hr := hrows r mem_cons_self
    cases rows with
    | nil =>
      by_cases hfull : r.length = rowSize
      · simp [laid_singleton_full hr hfull]
      · right
        have hle := hr.length_le
        have hpos := length_pos_iff.2 h.1
        have hshort := h.2
        rw [laid_singleton hr hfull]
        refine ⟨by simp [ofRows], ?_, ?_⟩ <;> simp <;> omega
    | cons s rows =>
      have hrows' : ∀ q ∈ s :: rows, IsRow q := fun q hq => hrows q (mem_cons_of_mem _ hq)
      rw [laid_cons hr (hrows' s mem_cons_self) h.1]
      rcases ih h.2 hrows' with hlaid | ⟨hlaid, hlast⟩
      · simp [hlaid]
      · right
        refine ⟨?_, hlast⟩
        rw [append_assoc, cons_append, hlaid]
        simp [ofRows]

theorem closeRows_laid (h : Tidy rows) (hrows : ∀ r ∈ rows, IsRow r) :
    closeRows (laid rows).1 (laid rows).2 = .ok (ofRows rows) := by
  rcases laid_of_tidy h hrows with hlaid | ⟨hlaid, h₂, h₃⟩
  · simp [hlaid, closeRows, ofRows]
  · rw [closeRows, if_neg (by omega), take_of_length_le (by omega), hlaid]

/-! ### The length of a closed map -/

/-- The length of the map that `closeRows` gives, if it gives one. -/
def closedLength (done last : List Int) : Nat :=
  done.length + if last.length = 1 then 0 else min (rowSize - 1) last.length

theorem length_of_closeRows (h : closeRows done last = .ok d) :
    d.length = closedLength done last := by
  unfold closeRows at h
  unfold closedLength
  split_ifs at h ⊢ with h₁ h₂ h₃
  · obtain rfl := ok.inj h
    have : 0 < done.length := by simpa [length_pos_iff] using h₃
    simp; omega
  · obtain rfl := ok.inj h
    simp

theorem closedLength_cons (r done last : List Int) :
    closedLength (r ++ rowCell :: done) last = r.length + 1 + closedLength done last := by
  simp only [closedLength, length_append, length_cons]
  omega

theorem length_ofRows_cons (r s : List Int) (rows : List (List Int)) :
    (ofRows (r :: s :: rows)).length = r.length + 1 + (ofRows (s :: rows)).length := by
  simp only [ofRows, intercalate_cons_cons, length_append, length_singleton]
  omega

/-- **A closed map is shorter than the rows it was made of unless they are tidy.** -/
theorem closedLength_laid : ∀ {rows : List (List Int)}, rows ≠ [] → (∀ r ∈ rows, IsRow r) →
    closedLength (laid rows).1 (laid rows).2 < (ofRows rows).length ∨ Tidy rows
  | [], hne, _ => absurd rfl hne
  | [r], _, hrows => by
    have hr := hrows r mem_cons_self
    by_cases hnil : r = []
    · subst hnil; left; decide
    by_cases hshort : r.length + 1 = rowSize
    · left
      rw [laid_singleton hr (by omega)]
      simp [closedLength, ofRows, hshort, rowSize]
    · exact .inr ⟨hnil, hshort⟩
  | r :: s :: rows, _, hrows => by
    have hr := hrows r (by simp)
    have hrows' : ∀ q ∈ s :: rows, IsRow q := fun q hq => hrows q (mem_cons_of_mem _ hq)
    rw [length_ofRows_cons]
    by_cases hrs : r.length = rowSize → s ≠ []
    · simp only [laid_cons hr (hrows' s mem_cons_self) hrs, closedLength_cons]
      rcases closedLength_laid (by simp) hrows' with h | h
      · exact .inl (Nat.add_lt_add_left h _)
      · exact .inr ⟨hrs, h⟩
    · rw [Classical.not_imp, not_not] at hrs
      obtain ⟨hfull, rfl⟩ := hrs
      left
      -- the mark of the empty row is lost, whether or not it is the last row
      cases rows with
      | nil =>
        have hlaid : laid [r, []] = (r ++ [rowCell], [endCell]) := by
          rw [laid, flatRows, if_pos hfull, flatRows, append_nil]
          exact laid_singleton_full hr hfull
        simp only [hlaid, closedLength_cons]
        exact Nat.add_lt_add_left (by decide) _
      | cons t rows =>
        have hrows'' : ∀ q ∈ t :: rows, IsRow q := fun q hq => hrows' q (mem_cons_of_mem _ hq)
        have hle : closedLength (laid (t :: rows)).1 (laid (t :: rows)).2 ≤
            (ofRows (t :: rows)).length := by
          rcases closedLength_laid (by simp) hrows'' with h | h
          · exact h.le
          · exact (length_of_closeRows (closeRows_laid h hrows'')).ge
        simp only [laid_full_nil hr hfull, closedLength_cons, length_ofRows_cons, length_nil]
        omega

/-- **Closing a map gives its rows back exactly if they are tidy.** -/
theorem closeRows_laid_iff (hne : rows ≠ []) (hrows : ∀ r ∈ rows, IsRow r) :
    closeRows (laid rows).1 (laid rows).2 = .ok (ofRows rows) ↔ Tidy rows := by
  refine ⟨fun h => ?_, fun h => closeRows_laid h hrows⟩
  rcases closedLength_laid hne hrows with hlt | htidy
  · exact absurd (length_of_closeRows h) hlt.ne'
  · exact htidy

/-! ### The rows of any cells -/

theorem flatMap_marked_append (rows : List (List Int)) (last : List Int) :
    rows.flatMap (· ++ [rowCell]) ++ last = [rowCell].intercalate (rows ++ [last]) := by
  induction rows with
  | nil => simp
  | cons r rows ih =>
    rw [cons_append, intercalate_cons_of_ne_nil (by simp), ← ih]
    simp

theorem exists_layRows (cells : List Int) (hrow : IsRow row) :
    ∃ rows : List (List Int), (layRows row cells).1 = rows.flatMap (· ++ [rowCell]) ∧
      (∀ r ∈ rows, IsRow r) ∧ IsRow (layRows row cells).2 := by
  induction cells generalizing row with
  | nil => exact ⟨[], rfl, by simp, hrow⟩
  | cons t cells ih =>
    rw [layRows]
    split_ifs with hend ht
    · obtain ⟨rows, h₁, h₂, h₃⟩ := ih isRow_nil
      exact ⟨row :: rows, by simp [h₁], by simpa using ⟨hrow, h₂⟩, h₃⟩
    · have hcell : IsRow [t] := by
        refine ⟨by simp [rowSize], fun hm => ht ?_⟩
        rw [mem_singleton.1 hm]
        exact beq_self_eq_true _
      obtain ⟨rows, h₁, h₂, h₃⟩ := ih hcell
      exact ⟨row :: rows, by simp [h₁], by simpa using ⟨hrow, h₂⟩, h₃⟩
    · rw [Bool.or_eq_true, not_or] at hend
      have hlen : row.length ≠ rowSize := fun h => hend.1 (isFull_of_length_eq h)
      have hle := hrow.length_le
      refine ih ⟨by simp; omega, ?_⟩
      rw [mem_append, not_or]
      refine ⟨hrow.no_mark, fun hm => hend.2 ?_⟩
      rw [mem_singleton.1 hm]
      exact beq_self_eq_true _

theorem exists_rows_of_closeRows (hrows : ∀ r ∈ rows, IsRow r) (hlast : IsRow last)
    (h : closeRows (rows.flatMap (· ++ [rowCell])) last = .ok d) (hd : d.getLast? = some endCell) :
    ∃ rows : List (List Int), rows ≠ [] ∧ (∀ r ∈ rows, IsRow r) ∧ d = ofRows rows := by
  unfold closeRows at h
  split_ifs at h with h₁ h₂ h₃
  · obtain rfl := ok.inj h
    have hl : last = [endCell] := by simpa using h₂
    have hne : rows ≠ [] := by rintro rfl; simp at h₃
    refine ⟨rows, hne, hrows, ?_⟩
    obtain ⟨init, r, rfl⟩ := eq_nil_or_concat rows |>.resolve_left hne
    rw [hl, ofRows, concat_eq_append, ← flatMap_marked_append]
    simp [← append_assoc]
  · obtain rfl := ok.inj h
    have hne : last.take (rowSize - 1) ≠ [] := by
      intro hnil
      rw [hnil] at hd
      rcases eq_nil_or_concat rows with rfl | ⟨init, r, rfl⟩
      · simp at hd
      · simp [rowCell, endCell] at hd
    -- what is left of the last row ends with the end mark, and the cells before that are a row
    obtain ⟨init, c, hc⟩ := eq_nil_or_concat _ |>.resolve_left hne
    rw [concat_eq_append] at hc
    have hce : c = endCell := by simpa [hc] using hd
    have hinit : IsRow init := by
      have hsub : init ++ [c] <+: last := hc ▸ take_prefix ..
      have hlen := hsub.length_le
      have hle := hlast.length_le
      refine ⟨by simp at hlen; omega, fun hm => hlast.no_mark (hsub.subset (by simp [hm]))⟩
    refine ⟨rows ++ [init], by simp, ?_, ?_⟩
    · intro r hr
      rcases mem_append.1 hr with hr | hr
      · exact hrows r hr
      · rw [mem_singleton.1 hr]; exact hinit
    · rw [hc, hce, ← append_assoc, flatMap_marked_append, ofRows]

/-- **Laying out changes nothing but row marks.** -/
theorem filter_layRows (row cells : List Int) :
    ((layRows row cells).1 ++ (layRows row cells).2).filter (· != rowCell) =
      (row ++ cells).filter (· != rowCell) := by
  induction cells generalizing row with
  | nil => simp [layRows]
  | cons t cells ih =>
    rw [layRows]
    split_ifs with hend ht
    · have hmark : t = rowCell := by simpa using ht
      simp [ih, hmark]
    · have hcell : ¬ t = rowCell := by simpa using ht
      simp [ih, hcell]
    · rw [ih, append_assoc, singleton_append]

theorem mem_of_mem_layRows {c : Int} (hc : c ∈ (layRows [] cells).1 ++ (layRows [] cells).2) :
    c = rowCell ∨ c ∈ cells := by
  by_cases hmark : c = rowCell
  · exact .inl hmark
  · have hfilter : c ∈ ([] ++ cells).filter (· != rowCell) := by
      rw [← filter_layRows]
      exact mem_filter.2 ⟨hc, by simpa using hmark⟩
    exact .inr (mem_of_mem_filter hfilter)

theorem subset_of_closeRows (h : closeRows done last = .ok d) : d ⊆ done ++ last := by
  unfold closeRows at h
  split_ifs at h
  · obtain rfl := ok.inj h
    exact append_subset.2 ⟨fun c hc => mem_append_left _ (mem_of_mem_dropLast hc),
      subset_append_right ..⟩
  · obtain rfl := ok.inj h
    exact append_subset.2 ⟨subset_append_left ..,
      fun c hc => mem_append_right _ (mem_of_mem_take hc)⟩

end Cartridge.Tilemap
