import Cartridge.Text.Escape
import Mathlib.Data.List.Basic

/-!
# Plain literals

Text in which no character means anything in a literal is read as it is (`readQuoted_of_plain`).
-/

namespace Cartridge.Text

variable {s : List Char}

def literalMarks : List Char := [Char.ofNat 0, '\\', '\'']

variable (h : ∀ c ∈ s, c ∉ literalMarks)

include h

theorem escapeQuotes_of_plain : escapeQuotes s = s := by
  induction s with
  | nil => rfl
  | cons c s ih =>
    obtain ⟨hc, hs⟩ := List.forall_mem_cons.1 h
    rw [escapeQuotes, ih hs]
    rintro rfl
    exact hc (by decide)

theorem body?_of_plain : body? '\'' (s ++ ['\'']) = some (s, []) := by
  induction s with
  | nil => rfl
  | cons c s ih =>
    obtain ⟨hc, hs⟩ := List.forall_mem_cons.1 h
    have hquote : c ≠ '\'' := by
      rintro rfl
      exact hc (by decide)
    rw [List.cons_append, body?, if_neg hquote, ih hs]
    · rfl
    · rintro d rest rfl -
      exact hc (by decide)

theorem unescape_of_plain : unescape s = .ok s := by
  induction s with
  | nil =>
    rw [unescape]
  | cons c s ih =>
    obtain ⟨hc, hs⟩ := List.forall_mem_cons.1 h
    rw [unescape, ih hs]
    · rfl
    · rintro d rest rfl -
      exact hc (by decide)

theorem readQuoted_of_plain : readQuoted s = .ok s := by
  have hzero : s.contains (Char.ofNat 0) = false := by
    rw [← Bool.not_eq_true, List.contains_iff_mem]
    intro hmem
    exact h _ hmem (by decide)
  rw [readQuoted, hzero, escapeQuotes_of_plain h, body?_of_plain h]
  exact unescape_of_plain h

end Cartridge.Text
