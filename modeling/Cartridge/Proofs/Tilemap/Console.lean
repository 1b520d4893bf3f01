import Cartridge.Proofs.Tilemap.RoundTrip
import Mathlib.Data.List.Iterate

/-!
# Unpacking a map as the console does

The console carries out the commands of a packed map one by one and writes bytes to the screen.  The
top two bits of a command choose what is written and the other six hold a count, and a run goes on
modulo `0x100` in both directions.  `readCommands` and `Command.cells` say this on bytes, apart from
`expand`.

Main result: `unpack_eq_rows_of_commands`.
-/

open List

namespace Cartridge.Tilemap

def asCells (bytes : List UInt8) : List Int := bytes.map fun b => (b.toNat : Int)

/-- A command of a packed map: its code, and the bytes that it reads. -/
structure Command where
  code : UInt8
  args : List UInt8
  deriving DecidableEq, Repr

def argCount (code : UInt8) : Nat := if code >>> 6 = 0 then (code &&& 0x3F).toNat + 1 else 1

/-- The bytes that a command writes.  A command that reads nothing writes itself. -/
def Command.cells (c : Command) : List UInt8 :=
  match c.args with
  | [] => [c.code]
  | v :: _ =>
    let n := (c.code &&& 0x3F).toNat + 2
    if c.code >>> 6 = 0 then c.args
    else if c.code >>> 6 = 1 then List.replicate n v
    else if c.code >>> 6 = 2 then List.iterate (· + 1) v n
    else List.iterate (· - 1) v n

/-- Whether a command is a falling run that goes on below zero. -/
def Command.BelowZero (c : Command) : Prop :=
  c.code >>> 6 = 3 ∧ ∃ v ∈ c.args.head?, v.toNat < (c.code &&& 0x3F).toNat + 1

instance : DecidablePred Command.BelowZero := fun c =>
  inferInstanceAs (Decidable (c.code >>> 6 = 3 ∧ ∃ v ∈ c.args.head?, _))

/-- The commands of a packed map up to the end mark, which has to be its last byte.  The bytes in
`own` stand for themselves where a command is expected. -/
def readCommands (own : List UInt8) (stream : List UInt8) : Option (List Command) :=
  match stream with
  | [] => none
  | b :: rest =>
    if b = 0xFF then if rest.isEmpty then some [] else none
    else
      let n := if b ∈ own then 0 else argCount b
      if rest.length < n then none else (⟨b, rest.take n⟩ :: ·) <$> readCommands own (rest.drop n)
termination_by stream.length
decreasing_by simp only [length_drop, length_cons]; omega

/-- The bytes other than the end mark that stand for themselves when a map is unpacked. -/
def ownBytes : List UInt8 := [0xFC, 0xFD, 0xFE]

variable {b v : UInt8} {n : Nat} {args stream l own : List UInt8} {cmds : List Command}
  {rest : List Int}

/-! ### Bytes as cells -/

@[simp] theorem asCells_append (l l' : List UInt8) : asCells (l ++ l') = asCells l ++ asCells l' :=
  map_append

@[simp] theorem length_asCells (l : List UInt8) : (asCells l).length = l.length :=
  length_map _

theorem mem_asCells : (b.toNat : Int) ∈ asCells l ↔ b ∈ l :=
  mem_map_of_injective fun _ _ h => UInt8.toNat_inj.1 (Int.ofNat.inj h)

theorem toNat_shiftRight_six (b : UInt8) : (b >>> 6).toNat = b.toNat / 64 := by
  exact Nat.shiftRight_eq_div_pow b.toNat 6

theorem toNat_and_mask (b : UInt8) : (b &&& 0x3F).toNat = b.toNat % 64 := by
  exact Nat.and_two_pow_sub_one_eq_mod b.toNat 6

@[simp] theorem countOf_toNat (b : UInt8) : countOf b.toNat = (b &&& 0x3F).toNat := by
  rw [toNat_and_mask, countOf]
  omega

theorem isBare_toNat (b : UInt8) : isBare b.toNat = true ↔ b = 0xFF ∨ b ∈ ownBytes := by
  simp only [isBare, ownBytes, Bool.or_eq_true, beq_iff_eq, mem_cons, not_mem_nil,
    ← UInt8.toNat_inj, or_false]
  simp only [UInt8.reduceToNat]
  omega

theorem ofCommand_toNat (b : UInt8) : Mode.ofCommand b.toNat =
    if b >>> 6 = 0 then .literal else if b >>> 6 = 1 then .repeated
      else if b >>> 6 = 2 then .rising else .falling := by
  have hbits : ((b.toNat : Int) / 64 % 4).toNat = (b >>> 6).toNat := by
    rw [toNat_shiftRight_six]
    have := b.toNat_lt
    omega
  simp only [Mode.ofCommand, hbits, ← UInt8.toNat_inj]
  split <;> simp_all

/-! ### Runs of bytes -/

theorem toNat_iterate_add (v : UInt8) (i : Nat) :
    ((· + 1)^[i] v).toNat = (v.toNat + i) % 0x100 := by
  induction i with
  | zero => exact (Nat.mod_eq_of_lt v.toNat_lt).symm
  | succ i ih =>
    rw [Function.iterate_succ_apply', UInt8.toNat_add, UInt8.toNat_one]
    omega

theorem toNat_iterate_sub {i : Nat} (h : i ≤ v.toNat) : ((· - 1)^[i] v).toNat = v.toNat - i := by
  induction i with
  | zero => rfl
  | succ i ih =>
    rw [Function.iterate_succ_apply', UInt8.toNat_sub, UInt8.toNat_one]
    have := v.toNat_lt
    omega

theorem asCells_iterate_add (v : UInt8) (n : Nat) :
    asCells (List.iterate (· + 1) v n) = runCells .rising v.toNat n := by
  refine ext_getElem (by simp [runCells]) fun i hi hi' => ?_
  simp only [asCells, runCells, getElem_map, getElem_iterate, getElem_range, toNat_iterate_add]
  omega

theorem asCells_iterate_sub (hn : n ≤ v.toNat + 1) (htop : v ≠ 0xFF) :
    asCells (List.iterate (· - 1) v n) = runCells .falling v.toNat n := by
  have hlt : v.toNat < 0xFF := by
    have := v.toNat_lt
    have : v.toNat ≠ 0xFF := fun h => htop (UInt8.toNat_inj.1 h)
    omega
  refine ext_getElem (by simp [runCells]) fun i hi hi' => ?_
  have hi : i < n := by simpa using hi
  simp only [asCells, runCells, getElem_map, getElem_iterate, getElem_range]
  rw [toNat_iterate_sub (by omega), Int.emod_eq_of_lt (by omega) (by omega)]
  omega

/-! ### Carrying out one command -/

theorem asCells_cells_run (hmode : b >>> 6 ≠ 0) (hbelow : ¬ (Command.mk b [v]).BelowZero)
    (hmark : 0xFE ∉ (Command.mk b [v]).cells) :
    asCells (Command.mk b [v]).cells =
      runCells (Mode.ofCommand b.toNat) v.toNat (countOf b.toNat + 2) := by
  rw [ofCommand_toNat, countOf_toNat]
  simp only [Command.cells, if_neg hmode] at hmark ⊢
  split_ifs at hmark ⊢ with h1 h2
  · simp [asCells, runCells]
  · exact asCells_iterate_add v _
  · have hfall : b >>> 6 = 3 := by
      have := b.toNat_lt
      simp only [ne_eq, ← UInt8.toNat_inj, toNat_shiftRight_six, UInt8.reduceToNat] at hmode h1 h2 ⊢
      omega
    have hn : ¬ v.toNat < (b &&& 0x3F).toNat + 1 := fun h => hbelow ⟨hfall, v, rfl, h⟩
    refine asCells_iterate_sub (by omega) ?_
    rintro rfl
    -- the second byte of the run would be the row mark
    exact hmark (mem_cons_of_mem _ mem_cons_self)

/-- **One command.**  Unpacking writes the bytes that the command writes. -/
theorem expand_command (hbare : isBare b.toNat = false) (hargs : args.length = argCount b)
    (hbelow : ¬ (Command.mk b args).BelowZero) (hmark : 0xFE ∉ (Command.mk b args).cells) :
    expand (asCells (b :: args) ++ rest) =
      (asCells (Command.mk b args).cells ++ ·) <$> expand rest := by
  by_cases hmode : b >>> 6 = 0
  · rw [argCount, if_pos hmode] at hargs
    have hcells : (Command.mk b args).cells = args := by
      cases args with
      | nil => simp at hargs
      | cons v args => simp [Command.cells, hmode]
    rw [hcells]
    exact expand_literal hbare (by rw [ofCommand_toNat, if_pos hmode]) (by simpa using hargs)
  · rw [argCount, if_neg hmode] at hargs
    obtain ⟨v, rfl⟩ := length_eq_one_iff.1 hargs
    rw [asCells_cells_run hmode hbelow hmark]
    refine expand_run hbare rfl ?_
    rw [ofCommand_toNat]
    split_ifs <;> simp

/-! ### Carrying out all commands -/

/-- **A whole map.**  Unpacking writes the bytes that its commands write, and the end mark. -/
theorem expand_of_readCommands (h : readCommands ownBytes stream = some cmds)
    (hbelow : ∀ c ∈ cmds, ¬ c.BelowZero) (hmark : 0xFE ∉ cmds.flatMap Command.cells) :
    expand (asCells stream) = .ok (asCells (cmds.flatMap Command.cells) ++ [endCell]) := by
  fun_induction readCommands ownBytes stream generalizing cmds with
  | case1 => simp at h
  | case2 rest hempty =>
    obtain rfl := Option.some.inj h
    obtain rfl := List.isEmpty_iff.1 hempty
    exact (expand_bare (by decide)).trans (by simp [expand, endCell, asCells])
  | case3 | case4 => simp at h
  | case5 b rest hend n hlen =>
    rename_i ih
    obtain ⟨cmds, hread, rfl⟩ := Option.map_eq_some_iff.1 h
    obtain ⟨hbelow, hbelows⟩ := forall_mem_cons.1 hbelow
    rw [flatMap_cons, mem_append, not_or] at hmark
    have ih := ih hread hbelows hmark.2
    have hsplit : asCells (b :: rest) = asCells (b :: rest.take n) ++ asCells (rest.drop n) := by
      rw [← asCells_append, cons_append, take_append_drop]
    rw [hsplit, flatMap_cons, asCells_append, append_assoc]
    by_cases hown : b ∈ ownBytes
    · have hn : n = 0 := if_pos hown
      rw [hn]
      rw [hn] at ih
      exact (expand_bare ((isBare_toNat b).2 (.inr hown))).trans (congrArg _ ih)
    · have hn : n = argCount b := if_neg hown
      have hbare : isBare b.toNat = false := by
        rw [Bool.eq_false_iff, ne_eq, isBare_toNat, not_or]
        exact ⟨hend, hown⟩
      have hargs : (rest.take n).length = argCount b := by
        rw [length_take]
        omega
      rw [expand_command hbare hargs hbelow hmark.1, ih]
      rfl

theorem readCommands_nil (h : readCommands own stream = some cmds)
    (hown : ∀ c ∈ cmds, c.code ∉ own) : readCommands [] stream = some cmds := by
  fun_induction readCommands own stream generalizing cmds with
  | case1 => simp at h
  | case2 rest hempty => rwa [readCommands, if_pos hempty]
  | case3 | case4 => simp at h
  | case5 b rest hend n hlen =>
    rename_i ih
    obtain ⟨cmds, hread, rfl⟩ := Option.map_eq_some_iff.1 h
    obtain ⟨hb, hcmds⟩ := forall_mem_cons.1 hown
    have hn : n = argCount b := if_neg hb
    rw [hn] at ih hread hlen ⊢
    rw [readCommands, if_neg hend]
    simp only [not_mem_nil, if_false, if_neg hlen, ih hread hcmds]
    rfl

end Cartridge.Tilemap
