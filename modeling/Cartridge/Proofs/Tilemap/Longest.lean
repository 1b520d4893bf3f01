import Cartridge.Proofs.Tilemap.Commands
import Mathlib

/-!
# The longest runs

At every place of the cells each kind of run is followed as far as the cells go on with it, up to 64
cells (`isGreatest_runLength`).  Packing takes a run of greatest length at each of its steps and goes
on behind it (`steps_drop`).

Main result: `runs_longest`.
-/

open List

namespace Cartridge.Tilemap

variable {m : Mode} {cell : Int} {rest cells body bytes : List Int} {i k : Nat} {s : Step}
  {ss before : List Step}

/-- The `k` cells behind the place `i` go on with a run from there, inside the byte range. -/
def GoesOn (m : Mode) (cells : List Int) (i k : Nat) : Prop :=
  k ≤ 64 ∧ ∀ j, 1 ≤ j → j ≤ k → ∃ cell, cells[i]? = some cell ∧
    cells[i + j]? = some (m.place cell j) ∧ 0 ≤ m.place cell j ∧ m.place cell j ≤ 0xFF

/-! ### The runs at a place -/

theorem le_runLength (hk : k ≤ longestRun)
    (h : ∀ j < k, ∃ c, rest[j]? = some c ∧ m.follows cell (j + 1) = some c) :
    k ≤ runLength m cell rest := by
  set xs := (rest.take longestRun).zipIdx 1 with hxs
  have hlength : k ≤ rest.length := by
    by_contra hlt
    obtain ⟨c, hc, -⟩ := h rest.length (by omega)
    simp at hc
  have hall : ∀ e ∈ xs.take k, m.follows cell e.2 == some e.1 := by
    intro e he
    obtain ⟨j, hj, rfl⟩ := mem_take_iff_getElem.1 he
    obtain ⟨c, hc, hfollows⟩ := h j (by omega)
    have hj' : j < rest.length := by omega
    rw [getElem?_eq_getElem hj'] at hc
    simp [hxs, Nat.add_comm 1 j, hfollows, hc]
  rw [runLength, ← hxs, ← take_append_drop k xs, takeWhile_append_of_pos hall, length_append,
    length_take, length_zipIdx, length_take]
  omega

/-- **A run is followed as far as the cells go on with it.** -/
theorem isGreatest_runLength (hcells : ∀ c ∈ cells, IsByte c) (hm : m ≠ .literal)
    (hcell : cells[i]? = some cell) :
    IsGreatest {k | GoesOn m cells i k} (runLength m cell (cells.drop (i + 1))) := by
  have hbyte := hcells cell (mem_of_getElem? hcell)
  have hle := runLength_le m cell (cells.drop (i + 1))
  constructor
  · refine ⟨hle.trans (Nat.min_le_left ..), fun j hj hjk => ⟨cell, hcell, ?_⟩⟩
    obtain ⟨j, rfl⟩ := Nat.exists_eq_add_of_le' hj
    have hlt : j < (cells.drop (i + 1)).length := by omega
    have hfollows := follows_eq_of_lt_runLength (show j < _ from hjk)
    rw [getElem?_eq_getElem hlt, follows_eq_some_iff hm hbyte] at hfollows
    obtain ⟨hplace, hlow, hhigh⟩ := hfollows
    rw [← hplace, ← getElem?_eq_getElem hlt, getElem?_drop]
    exact ⟨by rw [Nat.add_right_comm, Nat.add_assoc], hlow, by omega⟩
  · rintro k ⟨hk, hplaces⟩
    refine le_runLength hk fun j hj => ?_
    obtain ⟨cell', hcell', hthere, hlow, hhigh⟩ := hplaces (j + 1) (by omega) hj
    obtain rfl := Option.some.inj (hcell'.symm.trans hcell)
    refine ⟨_, ?_, (follows_eq_some_iff hm hbyte (j + 1)).2 ⟨rfl, hlow, by omega⟩⟩
    rw [getElem?_drop, ← hthere, Nat.add_right_comm, Nat.add_assoc]

theorem runLengths_eq (hcell : cells[i]? = some cell) :
    runLengths cells i = .ok (Mode.all.map fun m => runLength m cell (cells.drop (i + 1))) := by
  have hlt := (List.getElem?_eq_some_iff.1 hcell).1
  have hfirst : ¬(i : Int) < 0 := by omega
  have hnext : ¬(i : Int) + 1 < 0 := by omega
  have hlast : ¬(cells.length : Int) ≤ i := by omega
  have hat : cellAt? cells i = some (cell, cells.drop (i + 1)) := by
    simp only [cellAt?, hfirst, hnext, hlast, or_self, if_false, Int.toNat_natCast, hcell]
    rfl
  rw [runLengths, hat]
  rfl

theorem runLength_le_bestRun (m : Mode) (cell : Int) (rest : List Int) :
    runLength m cell rest ≤ (bestRun cell rest).2 := by
  simp only [bestRun, Mode.all, foldl_cons, foldl_nil]
  cases m <;> simp only [runLength_literal] <;> split_ifs <;> omega

/-! ### The steps of packing -/

theorem steps_eq_cons (h : steps cells = s :: ss) : ∃ rest, cells = s.cell :: rest ∧
    bestRun s.cell rest = (s.mode, s.more) ∧ steps (rest.drop s.more) = ss := by
  cases cells with
  | nil => simp [steps] at h
  | cons cell rest =>
    rcases hbest : bestRun cell rest with ⟨mode, more⟩
    simp only [steps, hbest] at h
    obtain ⟨rfl, rfl⟩ := cons.inj h
    exact ⟨rest, rfl, hbest, rfl⟩

/-- **Packing goes on behind the runs that it took.** -/
theorem steps_drop (h : steps cells = before ++ ss) :
    steps (cells.drop (before.flatMap Step.run).length) = ss := by
  induction before generalizing cells with
  | nil => exact h
  | cons s before ih =>
    obtain ⟨rest, rfl, -, hrest⟩ := steps_eq_cons h
    have hlength : s.run.length = s.more + 1 := by simp [Step.run]
    rw [flatMap_cons, length_append, hlength, Nat.add_right_comm, drop_succ_cons, ← drop_drop]
    exact ih hrest

theorem dropImplied_sublist {n : Nat} (h : dropImplied n cells = .ok body) : body <+ cells := by
  fun_induction dropImplied n cells generalizing body with
  | case1 =>
    obtain rfl := Except.ok.inj h
    exact .refl _
  | case2 rest ih => exact (ih h).cons _
  | case3 => cases h
  | case4 n b rest hfull ih =>
    obtain ⟨tail, htail, rfl⟩ := map_ok_iff.1 h
    exact (ih htail).cons_cons b

theorem exists_of_packCells (h : packCells cells = .ok bytes) :
    ∃ body, dropImplied 0 cells.dropLast = .ok body ∧
      bytes = commands (steps body) ++ [endCell] := by
  unfold packCells at h
  split at h
  · cases h
  · split_ifs at h
    obtain ⟨body, hbody, hbytes⟩ := bind_ok_iff.1 h
    exact ⟨body, hbody, (pure_ok_iff.1 hbytes).symm⟩

/-- **The longest runs.**  At every place of byte cells each kind of run is followed as far as it
goes on, up to 64 cells.  Packing cuts the cells without their implied marks into the runs that its
steps stand for, where each step takes the mode that goes furthest at its place. -/
theorem runs_longest (hcells : ∀ c ∈ cells, IsByte c) :
    (∀ i < cells.length, ∃ n : Mode → Nat, runLengths cells i = .ok (Mode.all.map n) ∧
      n .literal = 0 ∧ ∀ m ≠ .literal, IsGreatest {k | GoesOn m cells i k} (n m)) ∧
    ∀ bytes, packCells cells = .ok bytes → ∃ body, dropImplied 0 cells.dropLast = .ok body ∧
      bytes = commands (steps body) ++ [endCell] ∧ (steps body).flatMap Step.run = body ∧
      ∀ before s after, steps body = before ++ s :: after → ∃ n : Mode → Nat,
        runLengths body (before.flatMap Step.run).length = .ok (Mode.all.map n) ∧
        n s.mode = s.more ∧ ∀ m, n m ≤ s.more := by
  constructor
  · intro i hi
    have hcell := getElem?_eq_getElem hi
    exact ⟨_, runLengths_eq hcell, by simp, fun m hm => isGreatest_runLength hcells hm hcell⟩
  · intro bytes hpack
    obtain ⟨body, hbody, rfl⟩ := exists_of_packCells hpack
    have hsub : body <+ cells := (dropImplied_sublist hbody).trans (dropLast_sublist _)
    refine ⟨body, hbody, rfl, flatMap_run_steps fun c hc => hcells c (hsub.subset hc), ?_⟩
    intro before s after hsteps
    obtain ⟨rest, hdrop, hbest, -⟩ := steps_eq_cons (steps_drop hsteps)
    have hcell : body[(before.flatMap Step.run).length]? = some s.cell := by
      rw [← head?_drop, hdrop, head?_cons]
    have hrest : body.drop ((before.flatMap Step.run).length + 1) = rest := by
      rw [← drop_drop, hdrop, drop_one, tail_cons]
    refine ⟨_, runLengths_eq hcell, ?_, fun m => ?_⟩
    · have hmore := bestRun_snd s.cell rest
      rw [hbest] at hmore
      rw [hrest]
      exact hmore.symm
    · rw [hrest]
      exact (runLength_le_bestRun m s.cell rest).trans_eq (by rw [hbest])

/-- A rising run that a run of equal cells ends. -/
theorem runs_longest_rising :
    let cells : List Int := [5, 6, 7, 7, 7, 0, 0xFF]
    (∀ c ∈ cells, IsByte c) ∧ IsGreatest {k | GoesOn .rising cells 0 k} 2 ∧
      packCells cells = .ok [0x81, 5, 0x40, 7, 0, 0, 0xFF] ∧
      ∃ body, dropImplied 0 cells.dropLast = .ok body ∧ (steps body).flatMap Step.run = body := by
  intro cells
  have hcells : ∀ c ∈ cells, IsByte c := by simp [cells, IsByte]
  have hlengths : runLengths cells (0 : Nat) = .ok [0, 0, 2, 0] := by cbv
  have hpack : packCells cells = .ok [0x81, 5, 0x40, 7, 0, 0, 0xFF] := by cbv
  obtain ⟨hruns, hsteps⟩ := runs_longest hcells
  obtain ⟨n, hn, -, hgreatest⟩ := hruns 0 (by decide)
  obtain ⟨body, hbody, -, hcut, -⟩ := hsteps _ hpack
  have htwo : n .rising = 2 := by
    have hall := Except.ok.inj (hlengths.symm.trans hn)
    simp only [Mode.all, map_cons, cons.injEq] at hall
    exact hall.2.2.1.symm
  exact ⟨hcells, htwo ▸ hgreatest .rising (by decide), hpack, body, hbody, hcut⟩

end Cartridge.Tilemap
