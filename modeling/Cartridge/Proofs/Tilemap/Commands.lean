import Cartridge.Proofs.Fault
import Cartridge.Tilemap.Expand
import Cartridge.Tilemap.Pack
import Mathlib.Tactic.SplitIfs
import Mathlib.Data.List.Infix

/-!
# Packing cells into commands and back

Packing cuts cells into steps, each the longest run at hand, and writes a command for every run and
for every stretch of literal cells.  This file follows the cells through both directions.

Main results: `flatMap_run_steps`, `flatMap_cells_steps` and `expand_commands`.

A command has six bits for its count and the top four bytes stand for themselves, so steps fit if
no more than 64 literal cells come together and no falling run goes on for more than 60 cells.  A
falling run must not start at `0xFF` either: it is unpacked modulo `0xFF`, which takes that cell to
zero.
-/

open List

namespace Cartridge.Tilemap

open Mode Step

def IsByte (c : Int) : Prop := 0 ≤ c ∧ c < 0x100

/-- The cell that a run from `cell` has `j` places on; a literal cell stands alone. -/
def Mode.place (m : Mode) (cell : Int) (j : Nat) : Int :=
  match m with
  | literal | repeated => cell
  | rising => cell + j
  | falling => cell - j

/-- The run that a step stands for. -/
def Step.run (s : Step) : List Int :=
  (List.range (s.more + 1)).map fun j => s.mode.place s.cell j

/-- The cells that are unpacked from a step. -/
def Step.cells (s : Step) : List Int := runCells s.mode s.cell (s.more + 1)

/-- A step as packing takes it: a literal cell stands alone, and a run goes on for at most 64
cells. -/
structure Step.Sound (s : Step) : Prop where
  literal : s.mode = .literal → s.more = 0
  run : s.mode ≠ .literal → 0 < s.more ∧ s.more ≤ longestRun

/-- Steps that fit their commands: at most 64 literal cells come together, and no falling run goes
on for more than 60 cells. -/
structure Fit (ss : List Step) : Prop where
  literal : ∀ g, g <:+: ss → (∀ s ∈ g, s.isLiteral = true) → g.length ≤ 64
  falling : ∀ s ∈ ss, s.mode = .falling → s.more ≤ 60

variable {m : Mode} {b c cell : Int} {rest l cells bytes : List Int} {s : Step} {ss ts : List Step}
  {n : Nat}

/-! ### Carrying out one command -/

theorem expand_bare (hb : isBare b = true) : expand (b :: rest) = (b :: ·) <$> expand rest := by
  rw [expand.eq_def]
  exact if_pos hb

theorem expand_literal (hb : isBare b = false) (hm : ofCommand b = .literal)
    (hl : l.length = countOf b + 1) : expand (b :: (l ++ rest)) = (l ++ ·) <$> expand rest := by
  rw [expand.eq_def]
  simp only [hb, hm, ← hl, take_left, drop_left, Nat.lt_irrefl, if_false, Bool.false_eq_true]

theorem expand_run (hb : isBare b = false) (hm : ofCommand b = m) (hne : m ≠ .literal) :
    expand (b :: cell :: rest) = (runCells m cell (countOf b + 2) ++ ·) <$> expand rest := by
  rw [expand.eq_def]
  simp only [hb, hm, Bool.false_eq_true, if_false]

/-! ### The runs at hand -/

theorem runLength_le (m : Mode) (cell : Int) (rest : List Int) :
    runLength m cell rest ≤ min longestRun rest.length := by
  have h := (List.takeWhile_prefix (fun e : Int × Nat => m.follows cell e.2 == some e.1)
    (l := (rest.take longestRun).zipIdx 1)).length_le
  rwa [length_zipIdx, length_take] at h

theorem follows_eq_of_lt_runLength {j : Nat} (hj : j < runLength m cell rest) :
    m.follows cell (j + 1) = rest[j]? := by
  have hpre := List.takeWhile_prefix (fun e : Int × Nat => m.follows cell e.2 == some e.1)
    (l := (rest.take longestRun).zipIdx 1)
  have hall := all_takeWhile (p := fun e : Int × Nat => m.follows cell e.2 == some e.1)
    (l := (rest.take longestRun).zipIdx 1)
  have hp := all_eq_true.1 hall _ (getElem_mem hj)
  rw [hpre.getElem hj, getElem_zipIdx, getElem_take, beq_iff_eq] at hp
  rw [Nat.add_comm, hp, getElem?_eq_getElem]

@[simp] theorem runLength_literal (cell : Int) (rest : List Int) :
    runLength .literal cell rest = 0 := by
  by_contra h
  have hj := follows_eq_of_lt_runLength (Nat.pos_of_ne_zero h)
  have hle := runLength_le .literal cell rest
  rw [getElem?_eq_getElem (by omega)] at hj
  exact absurd hj (by simp [follows])

theorem foldl_longer (ms : List Mode) {best : Mode × Nat}
    (hbest : best.2 = runLength best.1 cell rest) (hpos : best.1 ≠ .literal → 0 < best.2) :
    let r := ms.foldl (fun best m =>
      let n := runLength m cell rest
      if best.2 < n then (m, n) else best) best
    r.2 = runLength r.1 cell rest ∧ (r.1 ≠ .literal → 0 < r.2) := by
  induction ms generalizing best with
  | nil => exact ⟨hbest, hpos⟩
  | cons m ms ih =>
    rw [foldl_cons]
    simp only
    split_ifs with hlt
    · exact ih rfl fun _ => Nat.zero_lt_of_lt hlt
    · exact ih hbest hpos

theorem bestRun_snd (cell : Int) (rest : List Int) :
    (bestRun cell rest).2 = runLength (bestRun cell rest).1 cell rest :=
  (foldl_longer all (by simp) (by simp)).1

theorem bestRun_pos (cell : Int) (rest : List Int) (h : (bestRun cell rest).1 ≠ .literal) :
    0 < (bestRun cell rest).2 :=
  (foldl_longer all (by simp) (by simp)).2 h

theorem follows_eq_some_iff (hm : m ≠ .literal) (hcell : IsByte cell) (j : Nat) :
    m.follows cell j = some c ↔ c = m.place cell j ∧ IsByte c := by
  obtain ⟨h0, h255⟩ := hcell
  cases m with
  | literal => exact absurd rfl hm
  | repeated =>
    simp only [follows, place, IsByte, Option.some.injEq]
    omega
  | rising | falling =>
    simp only [follows, place, IsByte]
    split_ifs <;> simp <;> omega

/-! ### The steps of cells -/

theorem sound_of_mem_steps (h : s ∈ steps cells) : s.Sound := by
  fun_induction steps cells with
  | case1 => simp at h
  | case2 cell rest mode more hbest ih =>
    rcases mem_cons.1 h with rfl | h
    · have hsnd := bestRun_snd cell rest
      have hpos := bestRun_pos cell rest
      have hle := runLength_le mode cell rest
      rw [hbest] at hsnd hpos
      refine ⟨fun hlit => ?_, fun hlit => ⟨hpos hlit, ?_⟩⟩
      · obtain rfl : mode = .literal := hlit
        simpa using hsnd
      · exact (hsnd.trans_le hle).trans (Nat.min_le_left ..)
    · exact ih h

theorem cell_mem_of_mem_steps (h : s ∈ steps cells) : s.cell ∈ cells := by
  fun_induction steps cells with
  | case1 => simp at h
  | case2 cell rest mode more hbest ih =>
    rcases mem_cons.1 h with rfl | h
    · exact mem_cons_self
    · exact mem_cons_of_mem _ (mem_of_mem_drop (ih h))

theorem Step.run_eq_cons (hcell : IsByte s.cell) (h : s.more = runLength s.mode s.cell rest) :
    s.run = s.cell :: rest.take s.more := by
  have hle : s.more ≤ rest.length := h ▸ (runLength_le ..).trans (Nat.min_le_right ..)
  refine ext_getElem (by simp [run, hle]) fun j hj hj' => ?_
  cases j with
  | zero => cases hm : s.mode <;> simp [run, place, hm]
  | succ j =>
    have hlt : j < s.more := by simpa [run] using hj
    have hm : s.mode ≠ .literal := by
      intro hm
      rw [hm, runLength_literal] at h
      omega
    have hfollows := follows_eq_of_lt_runLength (h ▸ hlt)
    rw [getElem?_eq_getElem (by omega), follows_eq_some_iff hm hcell] at hfollows
    simp [run, hfollows.1]

/-- **The steps stand for the cells they were cut from.** -/
theorem flatMap_run_steps (hcells : ∀ c ∈ cells, IsByte c) :
    (steps cells).flatMap run = cells := by
  fun_induction steps cells with
  | case1 => rfl
  | case2 cell rest mode more hbest ih =>
    have hmore : more = runLength mode cell rest := by simpa [hbest] using bestRun_snd cell rest
    obtain ⟨hcell, hrest⟩ := forall_mem_cons.1 hcells
    rw [flatMap_cons, run_eq_cons hcell hmore, ih fun c hc => hrest c (mem_of_mem_drop hc)]
    simp

theorem Step.cells_eq_run (hrun : ∀ c ∈ s.run, IsByte c)
    (htop : s.mode = .falling → s.cell ≠ 0xFF) : s.cells = s.run := by
  obtain ⟨m, more, cell⟩ := s
  have hbyte : ∀ j ∈ List.range (more + 1), IsByte (m.place cell j) := fun j hj =>
    hrun _ (mem_map_of_mem hj)
  cases m with
  | literal | repeated => simp [cells, run, runCells, place]
  | rising => exact map_congr_left fun j hj => Int.emod_eq_of_lt (hbyte j hj).1 (hbyte j hj).2
  | falling =>
    refine map_congr_left fun j hj => Int.emod_eq_of_lt (hbyte j hj).1 ?_
    -- from below the top, the smaller modulus changes nothing
    have hfirst := (hbyte 0 (by simp)).2
    have htop := htop rfl
    simp only [place] at hfirst htop ⊢
    omega

/-- **The steps write the cells they were cut from.** -/
theorem flatMap_cells_steps (hcells : ∀ c ∈ cells, IsByte c)
    (htop : ∀ s ∈ steps cells, s.mode = .falling → s.cell ≠ 0xFF) :
    (steps cells).flatMap Step.cells = cells := by
  have hruns := flatMap_run_steps hcells
  refine (flatMap_congr fun s hs => ?_).trans hruns
  refine cells_eq_run (fun c hc => hcells c ?_) (htop s hs)
  rw [← hruns]
  exact mem_flatMap_of_mem hs hc

/-! ### The commands of steps -/

theorem Fit.of_length_le (hlen : ss.length ≤ 64)
    (hfall : ∀ s ∈ ss, s.mode = .falling → s.more ≤ 60) : Fit ss :=
  ⟨fun _ hg _ => hg.length_le.trans hlen, hfall⟩

theorem Fit.of_suffix (h : Fit ss) (hts : ts <:+ ss) : Fit ts :=
  ⟨fun g hg => h.literal g (hg.trans hts.isInfix), fun s hs => h.falling s (hts.subset hs)⟩

/-- The byte `b` is no byte that stands for itself, and it is read as a command of the mode `m` with
the count `n`. -/
structure IsCommand (b : Int) (m : Mode) (n : Nat) : Prop where
  not_bare : isBare b = false
  mode : ofCommand b = m
  count : countOf b = n
  isByte : IsByte b

theorem isCommand (hn : n < 64) (hfall : m = .falling → n < 60) :
    IsCommand (m.code * 64 + n) m n := by
  have hmode : ((m.code * 64 + n) / 64 % 4).toNat = m.code.toNat := by
    cases m <;> simp only [code] <;> omega
  refine ⟨?_, ?_, ?_, ?_⟩
  · cases m <;> simp [isBare, code] at hfall ⊢ <;> omega
  · rw [ofCommand, hmode]
    cases m <;> rfl
  · cases m <;> simp [countOf, code] <;> omega
  · cases m <;> simp [IsByte, code] <;> omega

theorem isCommand_literal (hfit : Fit (s :: ss)) (hlit : s.isLiteral = true) :
    IsCommand (ss.takeWhile isLiteral).length .literal
      (ss.takeWhile isLiteral).length := by
  have hg : s :: ss.takeWhile isLiteral <:+: s :: ss :=
    (prefix_cons_inj s |>.2 (List.takeWhile_prefix _)).isInfix
  have hlen : (ss.takeWhile isLiteral).length < 64 := by
    refine hfit.literal _ hg fun t ht => ?_
    rcases mem_cons.1 ht with rfl | ht
    · exact hlit
    · exact all_eq_true.1 all_takeWhile t ht
  simpa [code] using isCommand (m := .literal) hlen (by simp)

theorem isCommand_run (hs : s.Sound) (hfit : Fit (s :: ss)) (hlit : ¬ s.isLiteral = true) :
    IsCommand (s.mode.code * 64 + (s.more - 1)) s.mode (s.more - 1) := by
  have hne : s.mode ≠ .literal := by simpa [isLiteral] using hlit
  obtain ⟨hpos, hle⟩ := hs.run hne
  rw [longestRun] at hle
  have hcode : ((s.more - 1 : Nat) : Int) = s.more - 1 := by omega
  rw [← hcode]
  refine isCommand (by omega) fun h => ?_
  have := hfit.falling s mem_cons_self h
  omega

theorem cells_of_isLiteral (hs : s.Sound) (h : s.isLiteral = true) : s.cells = [s.cell] := by
  have hmode : s.mode = .literal := by simpa [isLiteral] using h
  simp [cells, hs.literal hmode, hmode, runCells]

theorem flatMap_cells_of_isLiteral (hss : ∀ s ∈ ss, s.Sound) (h : ∀ s ∈ ss, s.isLiteral = true) :
    ss.flatMap Step.cells = ss.map Step.cell := by
  induction ss with
  | nil => rfl
  | cons s ss ih =>
    rw [flatMap_cons, cells_of_isLiteral (hss s mem_cons_self) (h s mem_cons_self),
      ih (fun t ht => hss t (mem_cons_of_mem _ ht)) fun t ht => h t (mem_cons_of_mem _ ht)]
    rfl

theorem takeWhile_append_drop (ss : List Step) :
    ss.takeWhile isLiteral ++ ss.drop (ss.takeWhile isLiteral).length = ss := by
  conv_lhs => lhs; rw [prefix_iff_eq_take.1 (List.takeWhile_prefix isLiteral)]
  exact take_append_drop ..

/-- **The commands of steps that fit expand to the cells of the steps.** -/
theorem expand_commands (hss : ∀ s ∈ ss, s.Sound) (hfit : Fit ss) (rest : List Int) :
    expand (commands ss ++ rest) = (ss.flatMap Step.cells ++ ·) <$> expand rest := by
  fun_induction commands ss with
  | case1 => simp
  | case2 s ss hlit more ih =>
    -- the literal steps that follow share the command of the first
    have hcmd := isCommand_literal hfit hlit
    have hdrop : ss.drop more.length <:+ s :: ss :=
      (drop_suffix ..).trans (suffix_cons ..)
    have hmore : more.flatMap Step.cells = more.map Step.cell :=
      flatMap_cells_of_isLiteral
        (fun t ht => hss t (mem_cons_of_mem _ (takeWhile_subset _ ht)))
        (all_eq_true.1 all_takeWhile)
    have hcells : (s :: ss).flatMap Step.cells =
        (s.cell :: more.map Step.cell) ++ (ss.drop more.length).flatMap Step.cells := by
      conv_lhs => rw [← takeWhile_append_drop ss]
      rw [flatMap_cons, flatMap_append, hmore, cells_of_isLiteral (hss s mem_cons_self) hlit]
      rfl
    rw [append_assoc, cons_append,
      expand_literal hcmd.not_bare hcmd.mode (by simp [hcmd.count, more]),
      ih (fun t ht => hss t (hdrop.subset ht)) (hfit.of_suffix hdrop), hcells]
    simp
  | case3 s ss hlit ih =>
    have hs := hss s mem_cons_self
    have hcmd := isCommand_run hs hfit hlit
    have hne : s.mode ≠ .literal := by simpa [Step.isLiteral] using hlit
    have hlen : s.more - 1 + 2 = s.more + 1 := by have := (hs.run hne).1; omega
    rw [cons_append, cons_append, expand_run hcmd.not_bare hcmd.mode hne, hcmd.count,
      hlen, ih (fun t ht => hss t (mem_cons_of_mem _ ht)) (hfit.of_suffix (suffix_cons ..))]
    simp [Step.cells]

theorem isByte_of_mem_commands (hss : ∀ s ∈ ss, s.Sound) (hfit : Fit ss)
    (hcells : ∀ s ∈ ss, IsByte s.cell) (hb : b ∈ commands ss) : IsByte b := by
  fun_induction commands ss with
  | case1 => simp at hb
  | case2 s ss hlit more ih =>
    have hdrop : ss.drop more.length <:+ s :: ss :=
      (drop_suffix ..).trans (suffix_cons ..)
    have hmore : more <:+: s :: ss :=
      (List.takeWhile_prefix _).isInfix.trans (suffix_cons ..).isInfix
    rw [cons_append, cons_append, mem_cons, mem_cons, mem_append, mem_map] at hb
    rcases hb with rfl | rfl | ⟨t, ht, rfl⟩ | hb
    · exact (isCommand_literal hfit hlit).isByte
    · exact hcells s mem_cons_self
    · exact hcells t (hmore.subset ht)
    · exact ih (fun t ht => hss t (hdrop.subset ht)) (hfit.of_suffix hdrop)
        (fun t ht => hcells t (hdrop.subset ht)) hb
  | case3 s ss hlit ih =>
    rw [mem_cons, mem_cons] at hb
    rcases hb with rfl | rfl | hb
    · exact (isCommand_run (hss s mem_cons_self) hfit hlit).isByte
    · exact hcells s mem_cons_self
    · exact ih (fun t ht => hss t (mem_cons_of_mem _ ht))
        (hfit.of_suffix (suffix_cons ..)) (fun t ht => hcells t (mem_cons_of_mem _ ht)) hb

/-- **Packed cells expand to themselves** if their steps fit and no falling run starts at `0xFF`. -/
theorem expand_commands_steps (hcells : ∀ c ∈ cells, IsByte c) (hfit : Fit (steps cells))
    (htop : ∀ s ∈ steps cells, s.mode = .falling → s.cell ≠ 0xFF) :
    expand (commands (steps cells) ++ [endCell]) = .ok (cells ++ [endCell]) := by
  rw [expand_commands (fun s => sound_of_mem_steps) hfit, flatMap_cells_steps hcells htop,
    expand_bare (by decide)]
  simp [expand]

/-! ### Expanding bytes -/

theorem isByte_of_mem_runCells (hcell : IsByte cell) (hc : c ∈ runCells m cell n) : IsByte c := by
  cases m with
  | literal | repeated => rwa [eq_of_mem_replicate hc]
  | rising | falling =>
    simp only [runCells, mem_map] at hc
    constructor <;> omega

theorem isByte_of_mem_expand (hbytes : ∀ b ∈ bytes, IsByte b) (h : expand bytes = .ok cells) :
    ∀ c ∈ cells, IsByte c := by
  fun_induction expand bytes generalizing cells with
  | case1 =>
    obtain rfl := Except.ok.inj h
    simp
  | case2 b rest hbare ih =>
    obtain ⟨tail, htail, rfl⟩ := map_ok_iff.1 h
    have ih := ih (fun c hc => hbytes c (mem_cons_of_mem _ hc)) htail
    exact forall_mem_cons.2 ⟨hbytes b mem_cons_self, ih⟩
  | case3 => simp at h
  | case4 b hbare rest hmode n hlen =>
    rename_i ih
    have hrest : ∀ c ∈ rest, IsByte c := fun c hc => hbytes c (mem_cons_of_mem _ hc)
    obtain ⟨tail, htail, rfl⟩ := map_ok_iff.1 h
    have ih := ih (fun c hc => hrest c (mem_of_mem_drop hc)) htail
    exact forall_mem_append.2 ⟨fun c hc => hrest c (mem_of_mem_take hc), ih⟩
  | case5 => simp at h
  | case6 b hbare cell rest hmode ih =>
    obtain ⟨tail, htail, rfl⟩ := map_ok_iff.1 h
    have ih := ih (fun c hc => hbytes c (by simp [hc])) htail
    exact forall_mem_append.2 ⟨fun c hc => isByte_of_mem_runCells (hbytes cell (by simp)) hc, ih⟩

end Cartridge.Tilemap
