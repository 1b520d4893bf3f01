import Cartridge.Text.Lines
import Mathlib.Data.List.Basic

/-!
# Line ends and separators

* `unified_eq_iff`: unifying line ends changes a text exactly if it holds a carriage return.
* `lines_append_line`: what becomes of a line that is added to a text.
* `parts_of_notMem` and `parts_append`: where a text is cut at a separator.
* `replaceAll_append_of_notMem`: what stands in front of the first occurrence of a word is kept.
-/

open List

namespace Cartridge.Text

variable {a s x l t y : List Char} {c : Char}

/-! ### Line ends -/

def unified (s : String) : String := String.ofList (unifyNewlines s.toList)

theorem unifyNewlines_cons_of_ne (hc : c ≠ '\r') (s : List Char) :
    unifyNewlines (c :: s) = c :: unifyNewlines s := by
  rw [unifyNewlines]
  · rintro rest rfl
    exact absurd rfl hc
  · rintro rfl
    exact absurd rfl hc

theorem unifyNewlines_of_notMem (h : '\r' ∉ s) : unifyNewlines s = s := by
  induction s with
  | nil => rfl
  | cons c s ih =>
    rw [mem_cons, not_or] at h
    rw [unifyNewlines_cons_of_ne (Ne.symm h.1), ih h.2]

theorem notMem_unifyNewlines (s : List Char) : '\r' ∉ unifyNewlines s := by
  fun_induction unifyNewlines s with
  | case1 => exact not_mem_nil
  | case2 rest ih | case3 rest h ih => simp [ih]
  | case4 c rest h h' ih =>
    rw [mem_cons, not_or]
    exact ⟨fun hc => h' hc.symm, ih⟩

theorem unified_eq_iff {s : String} : unified s = s ↔ '\r' ∉ s.toList := by
  constructor
  · intro h
    rw [← h, unified, String.toList_ofList]
    exact notMem_unifyNewlines _
  · intro h
    rw [unified, unifyNewlines_of_notMem h, String.ofList_toList]

theorem unifyNewlines_append_of_notMem (h : '\r' ∉ s) (t : List Char) :
    unifyNewlines (s ++ t) = s ++ unifyNewlines t := by
  induction s with
  | nil => rfl
  | cons c s ih =>
    rw [mem_cons, not_or] at h
    rw [cons_append, unifyNewlines_cons_of_ne (Ne.symm h.1), ih h.2, cons_append]

theorem unifyNewlines_append (ht : t.head? ≠ some '\n') (s : List Char) :
    unifyNewlines (s ++ t) = unifyNewlines s ++ unifyNewlines t := by
  fun_induction unifyNewlines s with
  | case1 => rfl
  | case2 rest ih => rw [cons_append, cons_append, unifyNewlines, ih, cons_append]
  | case3 rest hrest ih =>
    rw [cons_append, unifyNewlines, ih, cons_append]
    intro others hothers
    cases rest with
    | nil =>
      rw [nil_append] at hothers
      exact ht (by rw [hothers]; rfl)
    | cons d rest =>
      rw [cons_append, List.cons.injEq] at hothers
      exact hrest rest (by rw [hothers.1])
  | case4 c rest h h' ih =>
    rw [cons_append, unifyNewlines_cons_of_ne (fun hc => h' hc), ih, cons_append]

/-! ### Lines -/

theorem lines_cons_of_ne (hc : c ≠ '\n') (s : List Char) :
    lines (c :: s) = consLine c (lines s) := by
  rw [lines]
  rintro rfl
  exact hc rfl

theorem lines_newline (s : List Char) : lines ('\n' :: s) = ['\n'] :: lines s := rfl

theorem lines_append_newline (h : '\n' ∉ x) (s : List Char) :
    lines (x ++ '\n' :: s) = (x ++ ['\n']) :: lines s := by
  induction x with
  | nil => rfl
  | cons c x ih =>
    rw [mem_cons, not_or] at h
    rw [cons_append, lines_cons_of_ne (Ne.symm h.1), ih h.2]
    rfl

theorem flatten_consLine (c : Char) (ls : List (List Char)) :
    (consLine c ls).flatten = c :: ls.flatten := by
  cases ls with
  | nil | cons l ls => rfl

theorem flatten_lines (s : List Char) : (lines s).flatten = s := by
  induction s with
  | nil => rfl
  | cons c s ih =>
    by_cases hc : c = '\n'
    · rw [hc, lines_newline, flatten_cons, ih]
      rfl
    · rw [lines_cons_of_ne hc, flatten_consLine, ih]

theorem mem_of_mem_lines (hl : l ∈ lines s) (hc : c ∈ l) : c ∈ s := by
  induction s generalizing l with
  | nil => cases hl
  | cons d s ih =>
    by_cases hd : d = '\n'
    · subst hd
      obtain rfl | hl := mem_cons.1 hl
      · exact mem_cons.2 (.inl (mem_singleton.1 hc))
      · exact mem_cons_of_mem _ (ih hl hc)
    · rw [lines_cons_of_ne hd] at hl
      rcases hlines : lines s with _ | ⟨first, others⟩
      · rw [hlines, consLine, mem_singleton] at hl
        subst hl
        exact mem_cons.2 (.inl (mem_singleton.1 hc))
      · rw [hlines] at hl
        rw [hlines] at ih
        obtain rfl | hl := mem_cons.1 hl
        · obtain rfl | hc := mem_cons.1 hc
          · exact mem_cons_self
          · exact mem_cons_of_mem _ (ih mem_cons_self hc)
        · exact mem_cons_of_mem _ (ih (mem_cons_of_mem _ hl) hc)

theorem lines_append_line (hy : lines y = [y]) (s : List Char) :
    lines (s ++ y) = lines s ++ [y] ∨
      ∃ front last, lines s = front ++ [last] ∧ lines (s ++ y) = front ++ [last ++ y] := by
  induction s with
  | nil => exact .inl hy
  | cons c s ih =>
    by_cases hc : c = '\n'
    · subst hc
      rw [cons_append, lines_newline, lines_newline]
      obtain hs | ⟨front, last, hs, hsy⟩ := ih
      · exact .inl (by rw [hs]; rfl)
      · exact .inr ⟨['\n'] :: front, last, by rw [hs]; rfl, by rw [hsy]; rfl⟩
    · rw [cons_append, lines_cons_of_ne hc, lines_cons_of_ne hc]
      obtain hs | ⟨front, last, hs, hsy⟩ := ih
      · rcases hlines : lines s with _ | ⟨first, others⟩
        · rw [hs, hlines]
          exact .inr ⟨[], [c], rfl, rfl⟩
        · rw [hs, hlines]
          exact .inl rfl
      · cases front with
        | nil => exact .inr ⟨[], c :: last, by rw [hs]; rfl, by rw [hsy]; rfl⟩
        | cons first front =>
          exact .inr ⟨(c :: first) :: front, last, by rw [hs]; rfl, by rw [hsy]; rfl⟩

/-! ### Separators -/

variable {sep : Char}

theorem splitOn_of_notMem (h : sep ∉ s) : splitOn sep s = [s] := by
  induction s with
  | nil => rfl
  | cons c s ih =>
    rw [mem_cons, not_or] at h
    rw [splitOn, if_neg (Ne.symm h.1), ih h.2]
    rfl

theorem splitOn_append (h : sep ∉ s) (t : List Char) :
    splitOn sep (s ++ sep :: t) = s :: splitOn sep t := by
  induction s with
  | nil => rw [nil_append, splitOn, if_pos rfl]
  | cons c s ih =>
    rw [mem_cons, not_or] at h
    rw [cons_append, splitOn, if_neg (Ne.symm h.1), ih h.2]
    rfl

theorem splitOn_ne_nil (sep : Char) (s : List Char) : splitOn sep s ≠ [] := by
  cases s with
  | nil => exact cons_ne_nil _ _
  | cons c s =>
    rw [splitOn]
    split
    · exact cons_ne_nil _ _
    · cases splitOn sep s <;> exact cons_ne_nil _ _

theorem splitOn_append_cons (sep : Char) (s t : List Char) :
    splitOn sep (s ++ sep :: t) = splitOn sep s ++ splitOn sep t := by
  induction s with
  | nil => exact splitOn_append not_mem_nil t
  | cons c s ih =>
    rw [cons_append, splitOn, splitOn, ih]
    obtain ⟨first, rest, hparts⟩ := exists_cons_of_ne_nil (splitOn_ne_nil sep s)
    rw [hparts]
    by_cases hc : c = sep
    · rw [if_pos hc, if_pos hc]
      rfl
    · rw [if_neg hc, if_neg hc]
      rfl

theorem exists_of_splitOn {rest : List (List Char)} (h : splitOn sep s = a :: rest)
    (hrest : rest ≠ []) :
    ∃ t, s = a ++ sep :: t ∧ sep ∉ a ∧ splitOn sep t = rest := by
  induction s generalizing a with
  | nil =>
    cases h
    exact absurd rfl hrest
  | cons c s ih =>
    rw [splitOn] at h
    by_cases hc : c = sep
    · rw [if_pos hc] at h
      cases h
      exact ⟨s, by rw [hc]; rfl, not_mem_nil, rfl⟩
    · rw [if_neg hc] at h
      obtain ⟨first, others, hparts⟩ := exists_cons_of_ne_nil (splitOn_ne_nil sep s)
      rw [hparts] at h
      obtain ⟨rfl, rfl⟩ := List.cons.inj h
      obtain ⟨t, rfl, hnotMem, ht⟩ := ih hparts
      refine ⟨t, rfl, ?_, ht⟩
      rw [mem_cons, not_or]
      exact ⟨Ne.symm hc, hnotMem⟩

theorem eq_of_splitOn_singleton (h : splitOn sep s = [a]) : s = a := by
  induction s generalizing a with
  | nil => exact (List.cons.inj h).1
  | cons c s ih =>
    rw [splitOn] at h
    by_cases hc : c = sep
    · rw [if_pos hc] at h
      exact absurd (List.cons.inj h).2 (splitOn_ne_nil sep s)
    · rw [if_neg hc] at h
      obtain ⟨first, others, hparts⟩ := exists_cons_of_ne_nil (splitOn_ne_nil sep s)
      rw [hparts] at h
      obtain ⟨rfl, rfl⟩ := List.cons.inj h
      rw [ih hparts]

theorem splitFirst_append (h : sep ∉ s) (t : List Char) :
    splitFirst sep (s ++ sep :: t) = (s, some t) := by
  induction s with
  | nil => rw [nil_append, splitFirst, if_pos rfl]
  | cons c s ih =>
    rw [mem_cons, not_or] at h
    rw [cons_append, splitFirst, if_neg (Ne.symm h.1), ih h.2]

theorem parts_of_notMem {s : String} (h : sep ∉ s.toList) : parts sep s = [s] := by
  rw [parts, splitOn_of_notMem h, map_singleton, String.ofList_toList]

theorem parts_append {s mark : String} (hmark : mark.toList = [sep]) (h : sep ∉ s.toList)
    (t : String) : parts sep (s ++ mark ++ t) = s :: parts sep t := by
  rw [parts, String.toList_append, String.toList_append, append_assoc, hmark,
    singleton_append, splitOn_append h, map_cons, String.ofList_toList]
  rfl

theorem notMem_intercalate {sep : String} (hsep : c ∉ sep.toList) {items : List String}
    (h : ∀ item ∈ items, c ∉ item.toList) : c ∉ (String.intercalate sep items).toList := by
  induction items with
  | nil => exact not_mem_nil
  | cons item items ih =>
    obtain ⟨hitem, hitems⟩ := forall_mem_cons.1 h
    cases items with
    | nil => rwa [String.intercalate_singleton]
    | cons next items =>
      rw [String.intercalate_cons_cons, String.toList_append, String.toList_append, mem_append,
        mem_append, not_or, not_or]
      exact ⟨⟨hitem, hsep⟩, ih hitems⟩

/-! ### Replacement -/

theorem replaceAll_append_of_notMem (h : c ∉ s) (old new t : List Char) :
    replaceAll (c :: old) new (s ++ t) = s ++ replaceAll (c :: old) new t := by
  induction s with
  | nil => rfl
  | cons x s ih =>
    have hne : (c == x) = false := by
      rw [beq_eq_false_iff_ne]
      rintro rfl
      exact h mem_cons_self
    rw [cons_append, replaceAll, List.isPrefixOf, hne, ih fun hmem => h (mem_cons_of_mem _ hmem)]
    rfl

end Cartridge.Text
