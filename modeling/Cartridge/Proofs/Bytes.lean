import Cartridge.Link
import Cartridge.Proofs.Fault
import Cartridge.Proofs.Tileset.Tokens

/-!
# Words in a file

What is written as words is read back as the same numbers.

* `words_ok_iff`: numbers are written as words exactly if they fit, and then as their bytes.
* `wordsAt_of_holds`: words that stand somewhere in a file are read from there.
* `Link.offsetsOf_wordsAt`: linking sees the offsets in a table of offsets and lengths.
-/

open List

namespace Cartridge

open Tileset (Holds)

namespace Bytes

variable {data : ByteArray} {pos : Nat} {n : Int} {ns : List Int} {l r : List UInt8}

theorem word_ok_iff : word n = .ok l ↔ (0 ≤ n ∧ n < 0x10000) ∧ l = wordBytes n.toNat := by
  unfold word
  split_ifs with hn
  · simp [hn, eq_comm]
  · simp [hn]

theorem byteOf_toNat (b : UInt8) : byteOf b.toNat = .ok b := by
  have hb := b.toNat_lt
  rw [byteOf, if_pos (by omega)]
  simp

theorem words_ok_iff : words ns = .ok l ↔
    (∀ n ∈ ns, 0 ≤ n ∧ n < 0x10000) ∧ l = ns.flatMap fun n => wordBytes n.toNat := by
  simp only [words, map_ok_iff, mapM_ok_iff]
  constructor
  · rintro ⟨ls, hls, rfl⟩
    induction hls with
    | nil => simp
    | cons hword hrest ih =>
      obtain ⟨hn, rfl⟩ := word_ok_iff.1 hword
      obtain ⟨hns, hflat⟩ := ih
      exact ⟨forall_mem_cons.2 ⟨hn, hns⟩, by rw [flatten_cons, hflat, flatMap_cons]⟩
  · rintro ⟨hns, rfl⟩
    refine ⟨ns.map fun n => wordBytes n.toNat, ?_, flatMap_def.symm⟩
    induction ns with
    | nil => exact .nil
    | cons n ns ih =>
      obtain ⟨hn, hns⟩ := forall_mem_cons.1 hns
      exact .cons (word_ok_iff.2 ⟨hn, rfl⟩) (ih hns)

theorem length_flatMap_wordBytes (ns : List Nat) :
    (ns.flatMap wordBytes).length = 2 * ns.length := by
  induction ns with
  | nil => rfl
  | cons n ns ih =>
    rw [flatMap_cons, length_append, ih]
    exact (Nat.mul_succ ..).symm ▸ Nat.add_comm ..

theorem length_of_words (h : words ns = .ok l) : l.length = 2 * ns.length := by
  obtain ⟨-, rfl⟩ := words_ok_iff.1 h
  rw [← length_map Int.toNat, ← length_flatMap_wordBytes, flatMap_map]

/-! ### Reading -/

theorem lt_of_wordAt {n : Nat} (h : wordAt data pos = .ok n) : n < 0x10000 := by
  unfold wordAt at h
  split at h
  · cases h
    have hlow := data[pos].toNat_lt
    have hhigh := data[pos + 1].toNat_lt
    omega
  · cases h

theorem lt_size_of_wordAt {n : Nat} (h : wordAt data pos = .ok n) : pos + 1 < data.size := by
  unfold wordAt at h
  split at h
  · assumption
  · cases h

theorem eq_field_of_wordAt {e : Fault} (h : wordAt data pos = .error e) : e = .plain .field := by
  unfold wordAt at h
  split at h
  · cases h
  · cases h
    rfl

theorem wordAt_of_holds {n : Nat} (hn : n < 0x10000) (h : Holds data pos (wordBytes n)) :
    wordAt data pos = .ok n := by
  obtain ⟨hpos, hword⟩ := h.word hn
  rw [wordAt, dif_pos hpos, hword]

theorem wordsAt_of_holds {ns : List Nat} (hns : ∀ n ∈ ns, n < 0x10000)
    (h : Holds data pos (ns.flatMap wordBytes)) : wordsAt data pos ns.length = .ok ns := by
  rw [wordsAt, mapM_ok_iff, forall₂_iff_get]
  refine ⟨length_range, fun i hi hi' => ?_⟩
  have hsplit : ns = ns.take i ++ ns[i] :: ns.drop (i + 1) := by
    rw [cons_getElem_drop_succ, take_append_drop]
  have hlength : ((ns.take i).flatMap wordBytes).length = 2 * i := by
    rw [length_flatMap_wordBytes, length_take, Nat.min_eq_left (Nat.le_of_lt hi')]
  rw [hsplit, flatMap_append, flatMap_cons, Tileset.holds_append, hlength,
    Tileset.holds_append] at h
  simpa using wordAt_of_holds (hns _ (getElem_mem hi')) h.2.1

theorem bytesAt_of_holds (h : Holds data pos l) :
    ((List.range l.length).mapM fun i => byteAt data (pos + i)) = .ok (l.map UInt8.toNat) := by
  rw [mapM_ok_iff, forall₂_iff_get]
  refine ⟨by simp, fun i hi hi' => ?_⟩
  rw [length_map] at hi'
  have hsplit : l = l.take i ++ l[i] :: l.drop (i + 1) := by
    rw [cons_getElem_drop_succ, take_append_drop]
  rw [hsplit, Tileset.holds_append, length_take, Nat.min_eq_left (Nat.le_of_lt hi')] at h
  obtain ⟨hpos, hbyte⟩ := h.2.getElem
  simp [byteAt, hpos, hbyte]

theorem toList_rest (h : data.data.toList = l ++ r) : (rest data l.length).data.toList = r := by
  have hsize : data.size = (l ++ r).length := by rw [← h]; rfl
  rw [rest, ByteArray.data_extract, Array.toList_extract, h, extract_eq_take_drop,
    drop_left, hsize, length_append, Nat.add_sub_cancel_left, take_length]

end Bytes

namespace Link

variable {σ : Type} {offset length : σ → Int} {spans : List σ} {data : ByteArray} {pos : Nat}
  {table : List UInt8}

theorem length_of_spans
    (hwords : Bytes.words (spans.flatMap fun s => [offset s, length s]) = .ok table) :
    table.length = 4 * spans.length := by
  rw [Bytes.length_of_words hwords]
  simp [length_flatMap]
  omega

theorem offsetsOf_wordsAt
    (hwords : Bytes.words (spans.flatMap fun s => [offset s, length s]) = .ok table)
    (hheld : Holds data pos table) :
    ∃ ns, Bytes.wordsAt data pos (2 * spans.length) = .ok ns ∧
      offsetsOf ns = spans.map fun s => (offset s).toNat := by
  obtain ⟨hfit, rfl⟩ := Bytes.words_ok_iff.1 hwords
  refine ⟨(spans.flatMap fun s => [offset s, length s]).map Int.toNat, ?_, ?_⟩
  · have hlength : ((spans.flatMap fun s => [offset s, length s]).map Int.toNat).length =
        2 * spans.length := by
      simp [length_flatMap, Nat.mul_comm]
    rw [← hlength]
    refine Bytes.wordsAt_of_holds ?_ ?_
    · intro n hn
      obtain ⟨m, hm, rfl⟩ := mem_map.1 hn
      obtain ⟨hnonneg, hlt⟩ := hfit m hm
      exact (Int.toNat_lt hnonneg).2 hlt
    · rw [flatMap_map]
      exact hheld
  · clear hwords hfit hheld
    induction spans with
    | nil => rfl
    | cons s spans ih =>
      rw [map_cons, ← ih]
      rfl

end Link

end Cartridge
