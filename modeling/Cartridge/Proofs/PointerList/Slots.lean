import Cartridge.PointerList.Dump
import Cartridge.Proofs.Bytes
import Mathlib

/-!
# Slots of pointer lists

The pointers of a list are read one after another up to the first empty one, and every one is to be
kept as what its slot says, since entries are numbered by their place among those kept.

Main result: `listed_stored_iff`.

An address in memory is passed over if entries have no fixed size: the sum of the sizes that says
how far to move on for the bytes in its place does not exist then.
-/

open List

namespace Cartridge.PointerList

open Bytes

/-- Whether a slot says what a pointer is that comes after the pointers `before`. -/
def Slot.Stored.Describes (size : Option Nat) (before : List Nat) (p : Nat) : Slot.Stored → Prop
  | .entry pointer => pointer = p ∧ p ≤ 0x7FFF ∧ p ∉ before
  | .repeated i => before.idxOf? p = some i ∧ p ≤ 0x7FFF
  | .memory address pointer => address = p ∧ 0x7FFF < p ∧
    ∃ last n, before.getLast? = some last ∧ size = some n ∧ pointer = last + n

/-- Every pointer has a slot of its own, in order, that says what it is. -/
inductive Listed (size : Option Nat) : List Nat → List Slot.Stored → Prop
  | nil : Listed size [] []
  | snoc {ps slots p slot} : Listed size ps slots → slot.Describes size ps p →
    Listed size (ps ++ [p]) (slots ++ [slot])

/-- Whether a pointer gets a slot: an address in memory gets one only in a list of entries of a
fixed size. -/
def getsSlot (size : Option Nat) (p : Nat) : Bool := decide (p ≤ 0x7FFF) || size.any (0 < ·)

/-- The pointers of a table up to the first empty one. -/
def pointersOf (empty : Int) (words : List Nat) : List Nat :=
  words.takeWhile fun p => decide ((p : Int) ≠ empty)

variable {image : ByteArray} {f : Faces} {s : Spec} {d : Dumped} {size : Option Nat} {empty : Int}
  {pos n p last : Nat} {ps ps' words : List Nat} {slot : Slot.Stored}
  {slots slots' : List Slot.Stored}

/-! ### Slots and pointers -/

theorem forall_getsSlot_iff : (∀ p ∈ ps, getsSlot size p = true) ↔
    (∀ p ∈ ps, p ≤ 0x7FFF) ∨ ∃ n, size = some n ∧ 0 < n := by
  simp only [getsSlot, Bool.or_eq_true, Option.any_eq_true, decide_eq_true_eq]
  by_cases hfixed : ∃ n, size = some n ∧ 0 < n
  · simp [hfixed]
  · simp [hfixed]

theorem Listed.length_eq (h : Listed size ps slots) : slots.length = ps.length := by
  induction h with
  | nil => rfl
  | snoc _ _ ih => rw [length_append, length_append, ih]; rfl

theorem Listed.indexOf?_eq (h : Listed size ps slots) (p : Nat) :
    indexOf? p slots = if p ≤ 0x7FFF then ps.idxOf? p else none := by
  induction h with
  | nil => simp [indexOf?]
  | @snoc ps slots q slot hrest hslot ih =>
    unfold indexOf? List.idxOf? at ih ⊢
    rw [findIdx?_append, ih, hrest.length_eq]
    cases slot with
    | entry pointer =>
      obtain ⟨rfl, hle, -⟩ := hslot
      by_cases heq : pointer = p
      · subst heq
        simp [hle]
      · simp [heq]
    | repeated i =>
      -- What is repeated stands further in front.
      obtain ⟨hfirst, hle⟩ := hslot
      by_cases heq : q = p
      · subst heq
        simp [hle, List.idxOf?] at hfirst ⊢
        simp [hfirst]
      · simp [heq]
    | memory address pointer =>
      obtain ⟨rfl, hlt, -⟩ := hslot
      by_cases hle : p ≤ 0x7FFF
      · have hne : address ≠ p := by omega
        simp [hle, hne]
      · simp [hle]

theorem Listed.getLast?_of_entry (h : Listed size ps slots)
    (hlast : slots.getLast? = some (.entry last)) : ps.getLast? = some last := by
  cases h with
  | nil => cases hlast
  | snoc _ hslot =>
    rw [getLast?_concat] at hlast ⊢
    cases Option.some.inj hlast
    exact congrArg some hslot.1.symm

/-! ### Reading pointers -/

/-- **One pointer** is passed over, or gets a slot that says what it is. -/
theorem addPointer_cases (hslots : Listed size ps slots)
    (h : addPointer size slots p = .ok slots') :
    getsSlot size p = false ∧ slots' = slots ∨
    getsSlot size p = true ∧ ∃ slot, slots' = slots ++ [slot] ∧ slot.Describes size ps p := by
  unfold addPointer at h
  rw [hslots.indexOf?_eq] at h
  by_cases hle : p ≤ 0x7FFF
  · have hgets : getsSlot size p = true := by simp [getsSlot, hle]
    rw [if_pos hle] at h
    split at h
    · case h_1 i hi =>
      cases h
      exact .inr ⟨hgets, .repeated i, rfl, hi, hle⟩
    · case h_2 hnone =>
      rw [if_neg (Nat.not_lt.2 hle)] at h
      cases h
      exact .inr ⟨hgets, .entry p, rfl, rfl, hle, idxOf?_eq_none_iff.1 hnone⟩
  · -- An address in memory: without a size it is passed over, with one it needs an entry before it.
    simp only [if_neg hle, if_pos (Nat.lt_of_not_le hle)] at h
    split at h
    · cases h
      exact .inl ⟨by simp [getsSlot, hle], rfl⟩
    · cases h
      exact .inl ⟨by simp [getsSlot, hle], rfl⟩
    · case h_3 n hn =>
      have hgets : getsSlot (some n) p = true := by
        simp [getsSlot, Nat.pos_of_ne_zero hn]
      split at h
      · case h_1 last hlast =>
        cases h
        exact .inr ⟨hgets, .memory p (last + n), rfl, rfl, Nat.lt_of_not_le hle, last, n,
          hslots.getLast?_of_entry hlast, rfl, rfl⟩
      · cases h
      · cases h

/-- **All pointers**: those that are not passed over get their slots in order. -/
theorem Listed.foldlM (hslots : Listed size ps slots)
    (h : ps'.foldlM (addPointer size) slots = .ok slots') :
    Listed size (ps ++ ps'.filter (getsSlot size)) slots' := by
  induction ps' generalizing ps slots with
  | nil =>
    cases h
    simpa using hslots
  | cons p ps' ih =>
    rw [foldlM_cons, bind_ok_iff] at h
    obtain ⟨slots₁, hfirst, hrest⟩ := h
    obtain ⟨hgets, rfl⟩ | ⟨hgets, slot, rfl, hslot⟩ := addPointer_cases hslots hfirst
    · rw [filter_cons_of_neg (by simp [hgets])]
      exact ih hslots hrest
    · rw [filter_cons_of_pos hgets, append_cons]
      exact ih (hslots.snoc hslot) hrest

theorem wordsAt_succ (image : ByteArray) (pos n : Nat) :
    wordsAt image pos (n + 1) = (do
      let first ← wordAt image pos
      let rest ← wordsAt image (pos + 2) n
      return first :: rest) := by
  have hshift : (fun i => wordAt image (pos + 2 * i)) ∘ Nat.succ =
      fun i => wordAt image (pos + 2 + 2 * i) := by
    funext i
    rw [Function.comp, Nat.mul_succ, Nat.add_comm (2 * i), Nat.add_assoc]
  rw [wordsAt, range_succ_eq_map, mapM_cons, mapM_map, hshift]
  rfl

theorem readStored_eq (hwords : wordsAt image pos n = .ok words) :
    readStored image size empty pos n slots =
      (pointersOf empty words).foldlM (addPointer size) slots := by
  induction n generalizing pos slots words with
  | zero =>
    cases hwords
    rfl
  | succ n ih =>
    simp only [wordsAt_succ, bind_ok_iff, pure_ok_iff] at hwords
    obtain ⟨first, hfirst, rest, hrest, rfl⟩ := hwords
    rw [readStored, hfirst, pointersOf]
    by_cases hempty : (first : Int) = empty
    · simp [bind, Except.bind, hempty]
    · rw [takeWhile_cons_of_pos (by simp [hempty]), foldlM_cons, ← pointersOf]
      simp only [← ih hrest]
      simp [bind, Except.bind, hempty]

theorem exists_wordsAt (hlast : wordAt image last = .ok p)
    (hle : ∀ i < n, pos + 2 * i ≤ last) :
    ∃ words, wordsAt image pos n = .ok words := by
  have hsize := lt_size_of_wordAt hlast
  refine exists_mapM_eq_ok fun i hi => ?_
  have hpos := hle i (mem_range.1 hi)
  exact ⟨_, dif_pos (by omega)⟩

theorem foldlM_of_readSlots {table : Slots} (h : readSlots image s = .ok table) :
    ∃ start words, position s.address.flat = .ok start ∧
      wordsAt image start table.count.toNat = .ok words ∧
      (pointersOf table.empty words).foldlM (addPointer s.entrySize?) [] = .ok table.stored := by
  simp only [readSlots, readEmpty, bind_ok_iff, pure_ok_iff] at h
  obtain ⟨start, hstart, first, -, last, -, empty, ⟨a, ha, -⟩, stored, hstored, rfl⟩ := h
  obtain ⟨words, hwords⟩ : ∃ words,
      wordsAt image start (((last : Int) - start) / 2 + 1).toNat = .ok words :=
    exists_wordsAt ha fun i hi => by omega
  exact ⟨start, words, hstart, hwords, readStored_eq hwords ▸ hstored⟩

/-- **One slot for each pointer.**  Reading a list that is read at all goes through the pointers of
its table up to the first empty one and keeps those that get a slot, each with what it is, and an
entry for each slot.  So every pointer has a slot at its own index exactly if there is no address in
memory among them, or entries have a fixed size and are not empty. -/
theorem listed_stored_iff (h : Dumped.read image f s = .ok d) :
    ∃ start words, Bytes.position s.address.flat = .ok start ∧
      Bytes.wordsAt image start d.slots.count.toNat = .ok words ∧
      Listed s.entrySize? ((pointersOf d.slots.empty words).filter (getsSlot s.entrySize?))
        d.slots.stored ∧
      List.Forall₂ (fun slot fields => readEntry image f s slot = .ok fields) d.slots.stored
        d.entries ∧
      (Listed s.entrySize? (pointersOf d.slots.empty words) d.slots.stored ↔
        (∀ p ∈ pointersOf d.slots.empty words, p ≤ 0x7FFF) ∨
          ∃ n, s.entrySize? = some n ∧ 0 < n) := by
  simp only [Dumped.read, bind_ok_iff, pure_ok_iff] at h
  obtain ⟨table, htable, entries, hentries, rfl⟩ := h
  obtain ⟨start, words, hstart, hwords, hstored⟩ := foldlM_of_readSlots htable
  have hlisted := Listed.nil.foldlM hstored
  rw [List.nil_append] at hlisted
  refine ⟨start, words, hstart, hwords, hlisted, mapM_ok_iff.1 hentries, ?_⟩
  rw [← forall_getsSlot_iff, ← List.filter_eq_self]
  constructor
  · -- A pointer that is passed over is missed in the number of slots.
    intro hall
    refine List.Sublist.eq_of_length List.filter_sublist ?_
    rw [← hlisted.length_eq, hall.length_eq]
  · intro heq
    rwa [heq] at hlisted

/-- An address in memory, a repeated pointer and empty slots in a list of entries of two bytes. -/
theorem listed_stored_iff_fixed_entries :
    let s : Spec := { name := "", address := ⟨1, 0⟩, labels := [], fields := [.numbers 2] }
    let image : ByteArray := ⟨#[0x0A, 0x00, 0x00, 0xC0, 0x0A, 0x00, 0x0E, 0x00, 0x0E, 0x00,
      0x01, 0x02, 0x03, 0x04]⟩
    let d : Dumped := ⟨⟨5, 0x0E, [.entry 0x0A, .memory 0xC000 0x0C, .repeated 0]⟩,
      [["\\x01\\x02"], ["##&C000=\\x03\\x04"], ["##=0"]]⟩
    Dumped.read image ⟨∅, ∅⟩ s = .ok d ∧
      Bytes.wordsAt image 0 5 = .ok [0x0A, 0xC000, 0x0A, 0x0E, 0x0E] ∧
      Listed s.entrySize? [0x0A, 0xC000, 0x0A] d.slots.stored := by
  intro s image d
  have hread : Dumped.read image ⟨∅, ∅⟩ s = .ok d := by cbv
  have htable : Bytes.wordsAt image 0 5 = .ok [0x0A, 0xC000, 0x0A, 0x0E, 0x0E] := by decide
  refine ⟨hread, htable, ?_⟩
  obtain ⟨start, words, hstart, hwords, -, -, hiff⟩ := listed_stored_iff hread
  obtain rfl : 0 = start := Except.ok.inj hstart
  obtain rfl : [0x0A, 0xC000, 0x0A, 0x0E, 0x0E] = words := Except.ok.inj (htable.symm.trans hwords)
  exact hiff.2 (.inr ⟨2, by decide⟩)

/-- Entries of varying size: of the slots `0006`, `C000` and `0008` the second is passed over, and
the entry of the third is at index 1. -/
theorem not_listed_text_entries :
    let s : Spec := { name := "", address := ⟨1, 0⟩, labels := [], fields := [.text] }
    let f : Faces := ⟨⟨[(1, "A"), (2, "B")]⟩, ∅⟩
    let image : ByteArray := ⟨#[0x06, 0x00, 0x00, 0xC0, 0x08, 0x00, 0x01, 0xCB, 0x02, 0xCB]⟩
    let d : Dumped := ⟨⟨3, -1, [.entry 0x06, .entry 0x08]⟩, [["A"], ["B"]]⟩
    Dumped.read image f s = .ok d ∧ Bytes.wordsAt image 0 3 = .ok [0x06, 0xC000, 0x08] ∧
      pointersOf (-1) [0x06, 0xC000, 0x08] = [0x06, 0xC000, 0x08] ∧
      ¬Listed s.entrySize? [0x06, 0xC000, 0x08] d.slots.stored := by
  refine ⟨?_, by decide, by decide, fun hlisted => absurd hlisted.length_eq (by decide)⟩
  cbv

end Cartridge.PointerList
