import Cartridge.Proofs.Png.Filtered
import Cartridge.Proofs.Png.Written

/-!
# Lines do not depend on blocks

`Yields` says which lines a stream of image data has and how they end, without a word on the blocks in
which the stream comes.

* `Yields.of_complete`: what is made of a stream that comes at once.
* `Scanlines.run_eq`: blocks are read as the stream that they make up.

Main result: `linesOf_blocks`.
-/

open List

namespace Cartridge.Png

open Scan

variable {l : Layout} {above : Array UInt8} {stored stream data : List UInt8} {r r' : Reader}

/-- The lines of a stream behind the line `above`, each after the number of its filter.  They end
with the stream, at a line with an unknown filter, or where too little is left for a line. -/
inductive Yields (l : Layout) :
    Array UInt8 → List UInt8 → List (Array UInt8) → Except Fault Unit → Prop
  | done {above : Array UInt8} : Yields l above [] [] (.ok ())
  | short {above : Array UInt8} {stream : List UInt8} (hne : stream ≠ [])
      (hshort : stream.length ≤ l.rowBytes) :
      Yields l above stream [] (.error (formatFault "Wrong size for decompressed IDAT chunk."))
  | unknown {above : Array UInt8} {number : UInt8} {stored rest : List UInt8}
      (hstored : stored.length = l.rowBytes) (hnumber : 4 < number.toNat) :
      Yields l above (number :: (stored ++ rest)) [] (.error unknownFilter)
  | line {above line : Array UInt8} {number : UInt8} {stored rest : List UInt8}
      {lines : List (Array UInt8)} {outcome : Except Fault Unit}
      (hstored : stored.length = l.rowBytes)
      (hline : undoNumbered number.toNat l.unit stored.toArray above = .ok line)
      (hrest : Yields l line rest lines outcome) :
      Yields l above (number :: (stored ++ rest)) (line :: lines) outcome

/-! ### One line -/

theorem exists_undoFilter (f : Filter) (l : Layout)
    (h : above = #[] ∨ above.size = stored.length) :
    ∃ line, undoFilter f l.unit stored.toArray above = .ok line ∧ line.size = stored.length := by
  by_cases hf : f = .none
  · exact ⟨stored.toArray, by rw [undoFilter, if_pos hf], size_toArray ..⟩
  · have hsize : (aboveOr stored.length above).size = stored.length := size_aboveOr h
    obtain ⟨line, hline, hstored⟩ := Filter.exists_run (f := f) (Nat.le_max_left 1 _) hsize.ge
    refine ⟨line, ?_, by simpa [Filter.differences] using congrArg length hstored⟩
    rw [undoFilter, if_neg hf, ← hline, ← Array.foldlM_toList]
    rfl

theorem undoNumbered_cases (number : UInt8) (l : Layout)
    (h : above = #[] ∨ above.size = stored.length) :
    (4 < number.toNat ∧
      undoNumbered number.toNat l.unit stored.toArray above = .error unknownFilter) ∨
    ∃ line, undoNumbered number.toNat l.unit stored.toArray above = .ok line ∧
      line.size = stored.length := by
  rw [undoNumbered]
  rcases hf : Filter.ofNumber? number.toNat with _ | f
  · refine .inl ⟨?_, rfl⟩
    by_contra hle
    have hall : ∀ n ≤ 4, Filter.ofNumber? (n : Nat) ≠ none := by decide
    exact hall _ (Nat.le_of_not_lt hle) hf
  · exact .inr (exists_undoFilter f l h)

/-! ### Streams and blocks -/

theorem Yields.of_complete (habove : above = #[] ∨ above.size = l.rowBytes) :
    Yields l above stream (Scanlines.complete l.rowBytes l.unit stream above).1
      ((Scanlines.complete l.rowBytes l.unit stream above).2 >>= Scanlines.finish) := by
  fun_induction Scanlines.complete l.rowBytes l.unit stream above with
  | case1 above => exact .done
  | case2 above number rest hshort => exact .short (cons_ne_nil _ _) hshort
  | case3 above number rest hlong fault hundo =>
    have hlength : (rest.take l.rowBytes).length = l.rowBytes :=
      length_take_of_le (Nat.le_of_not_lt hlong)
    obtain ⟨hnumber, hfault⟩ | ⟨line, hline, -⟩ :=
      undoNumbered_cases number l (hlength.symm ▸ habove)
    · obtain rfl := Except.error.inj (hundo.symm.trans hfault)
      rw [← take_append_drop l.rowBytes rest]
      exact .unknown hlength hnumber
    · cases hundo.symm.trans hline
  | case4 above number rest hlong line hundo lines outcome hnext ih =>
    have hlength : (rest.take l.rowBytes).length = l.rowBytes :=
      length_take_of_le (Nat.le_of_not_lt hlong)
    obtain ⟨-, hfault⟩ | ⟨line', hline, hsize⟩ :=
      undoNumbered_cases number l (hlength.symm ▸ habove)
    · cases hundo.symm.trans hfault
    · obtain rfl := Except.ok.inj (hundo.symm.trans hline)
      have ih := ih (.inr (hsize.trans hlength))
      rw [hnext] at ih
      rw [← take_append_drop l.rowBytes rest]
      exact .line hlength hundo ih

/-- **Blocks are read as the stream that they make up**: what is held carries over each cut. -/
theorem Scanlines.run_eq (l : Layout) {s : Scanlines} (hs : s.Settled l.rowBytes l.unit)
    (blocks : List (List UInt8)) :
    s.run l blocks = ((complete l.rowBytes l.unit (s.held ++ blocks.flatten) s.above).1,
      (complete l.rowBytes l.unit (s.held ++ blocks.flatten) s.above).2 >>= finish) := by
  induction blocks generalizing s with
  | nil =>
    rw [flatten_nil, append_nil, hs]
    rfl
  | cons block blocks ih =>
    rcases hfeed : s.feed l block with ⟨lines, fault | s'⟩
    · rw [flatten_cons, ← append_assoc, complete_append hfeed, run, hfeed]
      simp only [after, append_nil]
      rfl
    · rw [flatten_cons, ← append_assoc, complete_append hfeed, run, hfeed]
      simp only [ih (settled_of_complete hfeed)]
      rfl

theorem exists_layout_of_takeHeader (h : (Reader.takeHeader data).on r = (.ok (), r')) :
    ∃ l, r'.layout = some l := by
  rw [Reader.takeHeader] at h
  split_ifs at h with hlength
  · cases h
  · rw [on_bind_of_ok (on_modify ..)] at h
    rw [on_bind] at h
    split at h
    · split_ifs at h <;> cases h
      exact ⟨_, rfl⟩
    · cases h

/-- **The lines of an image do not depend on the blocks in which its data comes.**  For a reader
that has taken a header, blocks that make up the same stream give the same lines and end alike, as
the stream says. -/
theorem linesOf_blocks (hheader : (Reader.takeHeader data).on r = (.ok (), r')) :
    ∃ l, r'.layout = some l ∧ ∀ blocks blocks' : List (List UInt8),
      blocks.flatten = blocks'.flatten → linesOf l blocks = linesOf l blocks' ∧
        Yields l #[] blocks.flatten (linesOf l blocks).1 (linesOf l blocks).2 := by
  obtain ⟨l, hl⟩ := exists_layout_of_takeHeader hheader
  have hstart : ({} : Scanlines).Settled l.rowBytes l.unit := by
    rw [Scanlines.Settled, Scanlines.complete]
  have hlines : ∀ blocks : List (List UInt8), linesOf l blocks =
      ((Scanlines.complete l.rowBytes l.unit blocks.flatten #[]).1,
        (Scanlines.complete l.rowBytes l.unit blocks.flatten #[]).2 >>= Scanlines.finish) :=
    Scanlines.run_eq l hstart
  refine ⟨l, hl, fun blocks blocks' hflatten => ⟨?_, ?_⟩⟩
  · rw [hlines, hlines, hflatten]
  · rw [hlines]
    exact .of_complete (.inl rfl)

/-- Two lines of two grey pixels and one with an unknown filter, cut inside a line and not at all. -/
theorem linesOf_blocks_grey :
    ∃ r l, (Reader.takeHeader [0, 0, 0, 2, 0, 0, 0, 3, 8, 0, 0, 0, 0]).on { data := .empty } =
        (.ok (), r) ∧ r.layout = some l ∧
      linesOf l [[0, 1], [], [2, 1, 3], [4, 9, 5, 6]] = linesOf l [[0, 1, 2, 1, 3, 4, 9, 5, 6]] := by
  have hheader : (Reader.takeHeader [0, 0, 0, 2, 0, 0, 0, 3, 8, 0, 0, 0, 0]).on
      { data := .empty } = (.ok (), _) := rfl
  obtain ⟨l, hl, hlines⟩ := linesOf_blocks hheader
  exact ⟨_, l, hheader, hl, (hlines _ _ (by rfl)).1⟩

end Cartridge.Png
