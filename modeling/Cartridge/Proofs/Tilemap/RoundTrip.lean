import Mathlib
import Cartridge.Proofs.Tilemap.Commands
import Cartridge.Proofs.Tilemap.Rows

/-!
# Packing a map and unpacking it again

Packing sees the rows of a map without the marks that full rows imply, and unpacking puts those
marks back.

Main results: `unpack_pack_full_rows` and `unpack_pack_iff`.
-/

namespace Cartridge.Tilemap

def rowsOf (d : List Int) : List (List Int) := d.dropLast.splitOn rowCell

/-- Steps whose commands are read back as the steps: they fit, and no falling run starts at the top
of the byte range. -/
structure Readable (ss : List Step) : Prop extends Fit ss where
  below_top : ∀ s ∈ ss, s.mode = .falling → s.cell ≠ 0xFF

variable {bytes stored cells d : List Int} {rows : List (List Int)}

/-! ### What packing and unpacking check -/

theorem unpack_ok_iff : unpack bytes = .ok d ↔ ∃ cells, expand bytes = .ok cells ∧
    cells.getLast? = some endCell ∧ (cells.length - 1) % rowSize = 0 ∧ 1 < cells.length ∧
      closeRows (layRows [] cells).1 (layRows [] cells).2 = .ok d := by
  simp only [unpack, bind_ok_iff, demand_ok_iff, require_ok_iff, exists_const, beq_iff_eq,
    decide_eq_true_eq]
  refine exists_congr fun cells => and_congr_right fun _ => ?_
  constructor
  · rintro ⟨last, hlast, rfl, h⟩
    exact ⟨hlast, h⟩
  · rintro ⟨hlast, h⟩
    exact ⟨_, hlast, rfl, h⟩

theorem pack_eq_pure_iff : pack cells = pure bytes ↔ packCells cells = .ok bytes := by
  unfold pack
  cases packCells cells with
  | ok packed =>
    constructor
    · intro h
      have := congrArg (fun job : Job (List Int) => (job.on {}).1) h
      simpa using this
    · intro h
      rw [Except.ok.inj h]
  | error e =>
    refine ⟨fun h => absurd h ?_, fun h => by simp at h⟩
    cases e with
    | empty | unterminated | overlongRow => exact ne_pure_of_on_eq_error rfl bytes

theorem getLast?_of_packCells (h : packCells cells = .ok bytes) :
    cells.getLast? = some endCell := by
  unfold packCells at h
  split at h
  · simp [throw, throwThe, MonadExceptOf.throw] at h
  · rename_i last hlast
    by_cases hend : last = endCell
    · rw [hlast, hend]
    · simp [hend, throw, throwThe, MonadExceptOf.throw] at h

section

variable (hne : rows ≠ []) (hrows : ∀ r ∈ rows, IsRow r)

include hne hrows

theorem packCells_ofRows :
    packCells (ofRows rows) = .ok (commands (steps (flatRows rows)) ++ [endCell]) := by
  simp [packCells, ofRows, dropImplied_intercalate hne hrows, pure, Except.pure, bind, Except.bind]

theorem rowsOf_ofRows : rowsOf (ofRows rows) = rows := by
  rw [rowsOf, ofRows, List.dropLast_concat,
    List.splitOn_intercalate _ (fun r hr => (hrows r hr).no_mark) hne]

/-- **Rows whose implied marks were left out unpack to themselves** exactly if they are tidy and
fill a number of rows. -/
theorem unpack_eq_ofRows_iff (hexpand : expand bytes = .ok (flatRows rows ++ [endCell])) :
    unpack bytes = .ok (ofRows rows) ↔ Tidy rows ∧ (flatRows rows).length % rowSize = 0 := by
  rw [unpack_ok_iff]
  constructor
  · rintro ⟨cells, h, -, hsize, -, hclose⟩
    obtain rfl := Except.ok.inj (h.symm.trans hexpand)
    rw [List.length_append] at hsize
    exact ⟨(closeRows_laid_iff hne hrows).1 hclose, hsize⟩
  · rintro ⟨htidy, hsize⟩
    refine ⟨_, hexpand, by simp, by simpa using hsize, ?_, closeRows_laid htidy hrows⟩
    have hpos := List.length_pos_iff.2 (flatRows_ne_nil htidy)
    simp only [List.length_append, List.length_singleton]
    omega

theorem unpack_of_full (hfull : ∀ r ∈ rows, r.length = rowSize)
    (hexpand : expand bytes = .ok (rows.flatten ++ [endCell])) :
    unpack bytes = .ok (ofRows rows) := by
  have hflat := flatRows_of_full hfull
  rw [← hflat] at hexpand
  refine (unpack_eq_ofRows_iff hne hrows hexpand).2 ⟨tidy_of_full hne hfull, ?_⟩
  rw [hflat]
  exact length_flatten_of_full hfull

end

/-! ### Maps of full rows -/

theorem rowCell_mem_of_falling {s : Step} (hs : s ∈ steps cells) (hmode : s.mode = .falling)
    (htop : s.cell = 0xFF) : rowCell ∈ cells := by
  fun_induction steps cells with
  | case1 => simp at hs
  | case2 cell rest mode more hbest ih =>
    rcases List.mem_cons.1 hs with rfl | hs
    · have hsnd := bestRun_snd cell rest
      have hpos := bestRun_pos cell rest
      rw [hbest] at hsnd hpos
      obtain ⟨rfl, rfl⟩ : mode = .falling ∧ cell = 0xFF := ⟨hmode, htop⟩
      have hnext := follows_eq_of_lt_runLength (hsnd ▸ hpos (by simp))
      exact List.mem_cons_of_mem _ (List.mem_of_getElem? hnext.symm)
    · exact List.mem_cons_of_mem _ (List.mem_of_mem_drop (ih hs))

/-- **A map of full rows is packed to bytes and unpacks to itself** if at most 64 literal cells come
together and no falling run goes on for more than 60 cells. -/
theorem unpack_pack_full_rows (hne : rows ≠ []) (hfull : ∀ r ∈ rows, r.length = rowSize)
    (hcells : ∀ r ∈ rows, ∀ c ∈ r, IsByte c ∧ c ≠ rowCell) (hfit : Fit (steps rows.flatten)) :
    ∃ bytes, pack (ofRows rows) = pure bytes ∧ (∀ b ∈ bytes, IsByte b) ∧
      unpack bytes = .ok (ofRows rows) := by
  have hrows : ∀ r ∈ rows, IsRow r := fun r hr =>
    ⟨(hfull r hr).le, fun hm => (hcells r hr _ hm).2 rfl⟩
  have hflat : ∀ c ∈ rows.flatten, IsByte c ∧ c ≠ rowCell := by
    intro c hc
    obtain ⟨r, hr, hcr⟩ := List.mem_flatten.1 hc
    exact hcells r hr c hcr
  -- a falling run from the top of the byte range would go through a row mark
  have htop : ∀ s ∈ steps rows.flatten, s.mode = .falling → s.cell ≠ 0xFF := fun s hs hmode htop =>
    (hflat _ (rowCell_mem_of_falling hs hmode htop)).2 rfl
  have hexpand := expand_commands_steps (fun c hc => (hflat c hc).1) hfit htop
  have hpacked := packCells_ofRows hne hrows
  rw [flatRows_of_full hfull] at hpacked
  refine ⟨_, pack_eq_pure_iff.2 hpacked, ?_, unpack_of_full hne hrows hfull hexpand⟩
  intro b hb
  rcases List.mem_append.1 hb with hb | hb
  · exact isByte_of_mem_commands (fun s => sound_of_mem_steps) hfit
      (fun s hs => (hflat _ (cell_mem_of_mem_steps hs)).1) hb
  · rw [List.mem_singleton.1 hb]
    exact ⟨by decide, by decide⟩

/-- A rising run that crosses from one row into the next, a falling run, and literal cells. -/
theorem unpack_pack_two_rows :
    let rows : List (List Int) :=
      [List.replicate 16 7 ++ [0, 1, 2, 3, 4, 5, 6, 7, 8, 9, 10, 11, 12, 13, 14, 15],
        [16, 17, 18, 19, 20, 21, 22, 23, 24, 25, 26, 27, 28, 29, 30, 31] ++
          [40, 39, 38, 37, 36, 35, 34, 33] ++ [1, 4, 0xFF, 2, 7, 200, 0xFC, 3]]
    ∃ bytes, pack (ofRows rows) = pure bytes ∧ (∀ b ∈ bytes, IsByte b) ∧
      unpack bytes = .ok (ofRows rows) := by
  intro rows
  have hsteps : steps rows.flatten = [⟨.repeated, 15, 7⟩, ⟨.rising, 31, 0⟩, ⟨.falling, 7, 40⟩,
      ⟨.literal, 0, 1⟩, ⟨.literal, 0, 4⟩, ⟨.literal, 0, 0xFF⟩, ⟨.literal, 0, 2⟩, ⟨.literal, 0, 7⟩,
      ⟨.literal, 0, 200⟩, ⟨.literal, 0, 0xFC⟩, ⟨.literal, 0, 3⟩] := by cbv
  refine unpack_pack_full_rows (by simp [rows]) (by decide) (by simp [rows, IsByte, rowCell]) ?_
  rw [hsteps]
  exact Fit.of_length_le (by decide) (by decide)

/-! ### Maps that were unpacked -/

theorem exists_rows_of_unpack (h : unpack stored = .ok d) (hd : d.getLast? = some endCell) :
    ∃ rows : List (List Int), rows ≠ [] ∧ (∀ r ∈ rows, IsRow r) ∧ d = ofRows rows := by
  obtain ⟨cells, -, -, -, -, hclose⟩ := unpack_ok_iff.1 h
  obtain ⟨rows, hdone, hrows, hlast⟩ := exists_layRows cells isRow_nil
  rw [hdone] at hclose
  exact exists_rows_of_closeRows hrows hlast hclose hd

theorem isByte_of_mem_unpack (hbytes : ∀ b ∈ stored, IsByte b) (h : unpack stored = .ok d) :
    ∀ c ∈ d, IsByte c := by
  obtain ⟨cells, hexpand, -, -, -, hclose⟩ := unpack_ok_iff.1 h
  intro c hc
  rcases mem_of_mem_layRows (subset_of_closeRows hclose hc) with rfl | hc
  · exact ⟨by decide, by decide⟩
  · exact isByte_of_mem_expand hbytes hexpand c hc

/-- **Packing a map that was unpacked.**  It can be packed exactly if it ends with its end mark.  If
its steps can be read back, it unpacks to itself again exactly if its rows are tidy and its cells
and written marks fill a number of rows. -/
theorem unpack_pack_iff (hbytes : ∀ b ∈ stored, IsByte b) (h : unpack stored = .ok d) :
    ((∃ bytes, pack d = pure bytes) ↔ d.getLast? = some endCell) ∧
      (Readable (steps (flatRows (rowsOf d))) →
        ((∃ bytes, pack d = pure bytes ∧ unpack bytes = .ok d) ↔
          d.getLast? = some endCell ∧ Tidy (rowsOf d) ∧
            (flatRows (rowsOf d)).length % rowSize = 0)) := by
  have hends : ∀ bytes, pack d = pure bytes → d.getLast? = some endCell :=
    fun bytes hp => getLast?_of_packCells (pack_eq_pure_iff.1 hp)
  by_cases hd : d.getLast? = some endCell
  · obtain ⟨rows, hne, hrows, rfl⟩ := exists_rows_of_unpack h hd
    have hpacked := packCells_ofRows hne hrows
    have hcells : ∀ c ∈ flatRows rows, IsByte c := fun c hc =>
      isByte_of_mem_unpack hbytes h c (List.mem_append_left _ (flatRows_subset rows hc))
    rw [rowsOf_ofRows hne hrows]
    refine ⟨⟨fun _ => hd, fun _ => ⟨_, pack_eq_pure_iff.2 hpacked⟩⟩, fun hread => ?_⟩
    have hexpand := expand_commands_steps hcells hread.toFit hread.below_top
    rw [← unpack_eq_ofRows_iff hne hrows hexpand]
    constructor
    · rintro ⟨bytes, hp, hu⟩
      rw [← Except.ok.inj ((pack_eq_pure_iff.1 hp).symm.trans hpacked)]
      exact ⟨hd, hu⟩
    · rintro ⟨-, hu⟩
      exact ⟨_, pack_eq_pure_iff.2 hpacked, hu⟩
  · refine ⟨⟨fun ⟨bytes, hp⟩ => hends bytes hp, fun hd' => absurd hd' hd⟩, fun _ => ⟨?_, ?_⟩⟩
    · rintro ⟨bytes, hp, -⟩
      exact absurd (hends bytes hp) hd
    · rintro ⟨hd', -⟩
      exact absurd hd' hd

/-- Two rows of which the first is short, so that its mark is written. -/
theorem unpack_pack_short_row :
    let stored : List Int := [0x48, 1, 0xFE, 0x53, 7, 0xFF]
    let d := ofRows [List.replicate 10 1, List.replicate 21 7]
    unpack stored = .ok d ∧ ∃ bytes, pack d = pure bytes ∧ unpack bytes = .ok d := by
  intro stored d
  have hstored : unpack stored = .ok d := by cbv
  have hrows : rowsOf d = [List.replicate 10 1, List.replicate 21 7] := by cbv
  have hsteps : steps (flatRows (rowsOf d)) =
      [⟨.repeated, 9, 1⟩, ⟨.literal, 0, 0xFE⟩, ⟨.repeated, 20, 7⟩] := by cbv
  have hread : Readable (steps (flatRows (rowsOf d))) := by
    rw [hsteps]
    exact ⟨Fit.of_length_le (by decide) (by decide), by decide⟩
  have hbytes : ∀ b ∈ stored, IsByte b := by simp [stored, IsByte]
  refine ⟨hstored, ((unpack_pack_iff hbytes hstored).2 hread).2 ⟨by cbv, ?_, by cbv⟩⟩
  rw [hrows]
  simp [Tidy, rowSize]

/-- A falling run of 64 cells is written with the command `0xFE`, which is taken for a row mark. -/
theorem not_unpack_pack_falling :
    let stored : List Int := [0xFB, 0x3F, 0x02, 0x02, 0x01, 0x00, 0xFF]
    let d := ofRows [runCells .falling 63 32, runCells .falling 31 32]
    (∀ b ∈ stored, IsByte b) ∧ unpack stored = .ok d ∧
      ¬ ∃ bytes, pack d = pure bytes ∧ unpack bytes = .ok d := by
  intro stored d
  have hpacked : packCells d = .ok [0xFE, 0x3F, 0xFF] := by cbv
  have hagain : unpack [0xFE, 0x3F, 0xFF] = .error (.plain .exhausted) := by cbv
  refine ⟨by simp [stored, IsByte], by cbv, ?_⟩
  rintro ⟨bytes, hp, hu⟩
  rw [← Except.ok.inj (hpacked.symm.trans (pack_eq_pure_iff.1 hp)), hagain] at hu
  simp at hu

end Cartridge.Tilemap
