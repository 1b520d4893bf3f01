import Cartridge.Deflate.Inflate
import Cartridge.Deflate.Store
import Cartridge.Proofs.Tile.Chunks
import Mathlib.Data.Nat.Bits
import Mathlib.Tactic.IntervalCases

/-!
# Stored streams are read back

A stream of blocks that store their bytes is read back however much of it is there.  What can be
read of the first bytes of such a stream is the start of what went into it (`available`), and it
only grows with the stream, so a reader may take it out piece by piece.

* `readBlock_storedBlock`: one block, complete or cut off.
* `inflate_output`: the output from a stream of which only the start is there.
* `inflate_ne_malformed`: no start of a stream breaks the format.
* `inflate_deflate`: the whole stream gives back all bytes.
-/

open List

namespace Cartridge.Deflate

open Checksum

variable {data more : ByteArray} {k n pos N fuel m : Nat} {out : Array UInt8} {p r : List UInt8}
  {ps parts : List (List UInt8)} {a b c d : UInt8}

/-! ### Bits -/

theorem getElem?_eq_drop (data : ByteArray) (k i : Nat) :
    data[k + i]? = (data.data.toList.drop k)[i]? := by
  rw [getElem?_drop, Array.getElem?_toList]
  rfl

theorem size_sub_of_drop (h : data.data.toList.drop k = r) : data.size - k = r.length := by
  rw [← h, length_drop]
  rfl

theorem foldl_bits (N n : Nat) :
    (List.range n).foldl (fun v i => v + ((N >>> i) % 2) <<< i) 0 = N % 2 ^ n := by
  induction n with
  | zero => simp [Nat.mod_one]
  | succ n ih =>
    rw [range_succ, foldl_append, ih, foldl_cons, foldl_nil, Nat.mod_pow_succ,
      Nat.shiftLeft_eq, Nat.shiftRight_eq_div_pow, Nat.mul_comm]

theorem bitsAt_eq (hn : n ≠ 0) (h : ∀ i < n, bitAt? data (pos + i) = some ((N >>> i) % 2)) :
    bitsAt data pos n = .ok (N % 2 ^ n) := by
  have hin : ¬ data.size * 8 < pos + n := by
    obtain ⟨b, hb, -⟩ := Option.map_eq_some_iff.1 (h (n - 1) (by omega))
    have hlt : (pos + (n - 1)) / 8 < data.size := by
      by_contra hge
      rw [getElem?_neg _ _ (by simpa using hge)] at hb
      cases hb
    omega
  rw [bitsAt, if_neg hin, ← foldl_bits]
  congr 1
  refine foldl_ext _ _ 0 fun v i hi => ?_
  rw [h i (mem_range.1 hi), Option.getD_some]

theorem bitsAt_short (h : data.size * 8 < pos + n) :
    bitsAt data pos n = .error .short := by rw [bitsAt, if_pos h]

theorem bitsAt_byte (h : data.data.toList.drop k = b :: r) :
    bitsAt data (8 * k) 3 = .ok (b.toNat % 8) := by
  refine bitsAt_eq (by decide) fun i hi => ?_
  have hbyte : data[(8 * k + i) / 8]? = some b := by
    rw [show (8 * k + i) / 8 = k + 0 by omega, getElem?_eq_drop, h]
    rfl
  rw [bitAt?, hbyte, show (8 * k + i) % 8 = i by omega]
  rfl

theorem bitsAt_word (h : data.data.toList.drop k = a :: b :: c :: d :: r) :
    bitsAt data (k * 8) 32 =
      .ok (a.toNat + 0x100 * b.toNat + 0x10000 * c.toNat + 0x1000000 * d.toNat) := by
  have ha := a.toNat_lt
  have hb := b.toNat_lt
  have hc := c.toNat_lt
  have hd := d.toNat_lt
  set N := a.toNat + 0x100 * b.toNat + 0x10000 * c.toNat + 0x1000000 * d.toNat with hN
  have hword : N % 2 ^ 32 = N := Nat.mod_eq_of_lt (by omega)
  rw [← hword]
  refine bitsAt_eq (by decide) fun i hi => ?_
  rw [bitAt?, show (k * 8 + i) / 8 = k + i / 8 by omega, show (k * 8 + i) % 8 = i % 8 by omega,
    getElem?_eq_drop, h]
  interval_cases i <;>
    simp only [Nat.reduceDiv, Nat.reduceMod, getElem?_cons_zero, getElem?_cons_succ,
      Option.map_some, Nat.shiftRight_eq_div_pow, Nat.reducePow, Nat.pow_zero, Nat.div_one] <;>
    congr 1 <;> omega

/-! ### One block -/

theorem length_storedBlock (last : Bool) (p : List UInt8) :
    (storedBlock last p).length = 5 + p.length := by
  simp [storedBlock, wordBytes]
  omega

theorem toNat_wordBytes (hn : n ≤ 0xFFFF) :
    (n % 0x100).toUInt8.toNat + 0x100 * (n / 0x100 % 0x100).toUInt8.toNat = n := by
  have hlow : (n % 0x100).toUInt8.toNat = n % 0x100 := by simp
  have hhigh : (n / 0x100 % 0x100).toUInt8.toNat = n / 0x100 % 0x100 := by simp
  omega

theorem readStored_of_drop (pos : Nat) (out : Array UInt8) (hpos : (pos + 7) / 8 = k)
    (h : data.data.toList.drop k = a :: b :: c :: d :: (p ++ r).take n)
    (hsize : a.toNat + 0x100 * b.toNat = p.length)
    (hcheck : c.toNat + 0x100 * d.toNat = 0xFFFF - p.length) :
    readStored data pos out =
      (if data.size < k + 4 + p.length then .error .short else .ok ((k + 4 + p.length) * 8),
        out ++ (p.take n).toArray) := by
  have hp : p.length ≤ 0xFFFF := by
    have := a.toNat_lt
    have := b.toNat_lt
    omega
  have hlow : (a.toNat + 0x100 * b.toNat + 0x10000 * c.toNat + 0x1000000 * d.toNat) % 0x10000 =
      p.length := by omega
  have hhigh : (a.toNat + 0x100 * b.toNat + 0x10000 * c.toNat + 0x1000000 * d.toNat) / 0x10000 =
      0xFFFF - p.length := by omega
  have hbytes : (data.extract (k + 4) (k + 4 + p.length)).data = (p.take n).toArray := by
    have hdrop : data.data.toList.drop (k + 4) = (p ++ r).take n := by
      rw [← drop_drop, h]
      rfl
    apply Array.toList_inj.1
    rw [ByteArray.data_extract, Array.toList_extract, extract_eq_take_drop, hdrop,
      take_take, Nat.add_sub_cancel_left]
    by_cases hn : n ≤ p.length
    · rw [Nat.min_eq_right hn, take_append_of_le_length hn]
    · rw [Nat.min_eq_left (by omega), take_left', take_of_length_le (by omega)]
      rfl
  have hcut : (data.extract (k + 4) (k + 4 + p.length)).size < p.length ↔
      data.size < k + 4 + p.length := by
    have hin := size_sub_of_drop h
    simp only [length_cons] at hin
    rw [ByteArray.size_extract]
    omega
  simp only [readStored, hpos, bitsAt_word h, hlow, hhigh, ne_eq, not_true, if_false, hbytes, hcut]

theorem readBlock_storedBlock {last : Bool} (out : Array UInt8) (hp : p.length ≤ blockSize)
    (h : data.data.toList.drop k = (storedBlock last p ++ r).take n) :
    readBlock data (8 * k) out =
      (if data.size < k + 5 + p.length then .error .short else .ok (last, 8 * (k + 5 + p.length)),
        out ++ (p.take (n - 5)).toArray) := by
  have hlength := size_sub_of_drop h
  rw [length_take] at hlength
  rcases n with _ | m
  · rw [readBlock, bitsAt_short (by omega), if_pos (by omega)]
    simp
  have hfirst : readBlock data (8 * k) out =
      ((readStored data (8 * k + 3) out).1.map fun q => (last, q),
        (readStored data (8 * k + 3) out).2) := by
    rw [readBlock, bitsAt_byte h]
    cases last <;> rfl
  rw [hfirst]
  have hnext := congrArg (List.drop 1) h
  rw [drop_drop] at hnext
  rcases Nat.lt_or_ge m 4 with hm | hm
  · have hshort : readStored data (8 * k + 3) out = (.error .short, out) := by
      rw [readStored, bitsAt_short (by omega)]
    rw [hshort, if_pos (by omega), Nat.sub_eq_zero_of_le (by omega)]
    simp [Except.map]
  · obtain ⟨m, rfl⟩ := Nat.exists_eq_add_of_le' hm
    have hread := readStored_of_drop (p := p) (8 * k + 3) out (by omega) hnext
      (toNat_wordBytes hp) (toNat_wordBytes (by omega))
    rw [hread, Nat.mul_comm 8]
    split_ifs <;> rfl

/-! ### Whole streams -/

/-- What can be read of stored pieces if `n` bytes of their blocks are there. -/
def available : List (List UInt8) → Nat → List UInt8
  | [], _ => []
  | p :: ps, n => p.take (n - 5) ++ available ps (n - (5 + p.length))

@[simp] theorem available_zero (ps : List (List UInt8)) : available ps 0 = [] := by
  induction ps with
  | nil => rfl
  | cons p ps ih => simp [available, ih]

theorem available_mono (ps : List (List UInt8)) (h : n ≤ m) :
    available ps n <+: available ps m := by
  induction ps generalizing n m with
  | nil => exact prefix_rfl
  | cons p ps ih =>
    rw [available, available]
    by_cases hn : n < 5 + p.length
    · rw [Nat.sub_eq_zero_of_le (Nat.le_of_lt hn), available_zero, append_nil]
      exact (take_prefix_take_left (by omega)).trans (prefix_append ..)
    · rw [take_of_length_le (by omega), take_of_length_le (by omega)]
      exact (prefix_append_right_inj p).2 (ih (by omega))

theorem available_all (ps : List (List UInt8))
    (h : (ps.flatMap (storedBlock false)).length ≤ n) : available ps n = ps.flatten := by
  induction ps generalizing n with
  | nil => rfl
  | cons p ps ih =>
    rw [flatMap_cons, length_append, length_storedBlock] at h
    rw [available, take_of_length_le (by omega), ih (by omega), flatten_cons]

theorem adler32_lt (bytes : Array UInt8) : adler32 bytes < 0x100000000 := by
  have hsums : ∀ (l : List UInt8) (s : Nat × Nat), s.1 < 65521 → s.2 < 65521 →
      (l.foldl (fun (s : Nat × Nat) x =>
        ((s.1 + x.toNat) % 65521, (s.2 + (s.1 + x.toNat) % 65521) % 65521)) s).1 < 65521 ∧
      (l.foldl (fun (s : Nat × Nat) x =>
        ((s.1 + x.toNat) % 65521, (s.2 + (s.1 + x.toNat) % 65521) % 65521)) s).2 < 65521 := by
    intro l
    induction l with
    | nil => exact fun s h₁ h₂ => ⟨h₁, h₂⟩
    | cons x l ih =>
      intro s _ _
      exact ih _ (Nat.mod_lt _ (by decide)) (Nat.mod_lt _ (by decide))
  obtain ⟨h₁, h₂⟩ := hsums bytes.toList (1, 0) (by decide) (by decide)
  simp only [adler32, adlerModulus, ← Array.foldl_toList]
  omega

theorem checkSum_sumBytes
    (h : data.data.toList.drop k = (sumBytes (adler32 out)).take n) :
    checkSum data (8 * k) out = if n < 4 then .short else .complete := by
  have hlength : data.size - k = min n 4 := by rw [size_sub_of_drop h, length_take]; rfl
  rw [checkSum, word32At?, show (8 * k + 7) / 8 = k by omega]
  by_cases hn : n < 4
  · rw [if_neg (by omega), if_pos hn]
  · have hsum : (data.extract k (k + 4)).data.foldl (fun n b => n * 0x100 + b.toNat) 0 =
        adler32 out := by
      have hlt := adler32_lt out
      rw [take_of_length_le (by simpa [sumBytes] using hn)] at h
      rw [← Array.foldl_toList, ByteArray.data_extract, Array.toList_extract,
        extract_eq_take_drop, h]
      simp [sumBytes]
      omega
    rw [if_pos (by omega), if_neg hn, hsum]
    simp

theorem readBlocks_streamEnd (fuel : Nat)
    (h : data.data.toList.drop k = (streamEnd out.toList).take n) :
    readBlocks data (fuel + 1) (8 * k) out = ⟨out, if n < 9 then .short else .complete⟩ := by
  have hlength : data.size - k = min n 9 := by rw [size_sub_of_drop h, length_take]; rfl
  have hblock := readBlock_storedBlock out (p := []) (Nat.zero_le _) h
  rw [take_nil, length_nil] at hblock
  rw [readBlocks, hblock]
  by_cases hn : n < 5
  · rw [if_pos (by omega), if_pos (by omega)]
    simp [Stop.status]
  · have hrest : data.data.toList.drop (k + 5) = (sumBytes (adler32 out)).take (n - 5) := by
      rw [← drop_drop, h, drop_take]
      rfl
    rw [if_neg (by omega)]
    simp only [Array.append_empty, checkSum_sumBytes hrest]
    split_ifs <;> first | rfl | omega

theorem readBlocks_blocks (hps : ∀ p ∈ ps, p.length ≤ blockSize)
    (hn : n < fuel) (h : data.data.toList.drop k =
      (ps.flatMap (storedBlock false) ++ streamEnd (out.toList ++ ps.flatten)).take n) :
    (readBlocks data fuel (8 * k) out).output.toList = out.toList ++ available ps n ∧
      (readBlocks data fuel (8 * k) out).status =
        if n < (ps.flatMap (storedBlock false)).length + 9 then .short else .complete := by
  induction ps generalizing fuel k n out with
  | nil =>
    obtain ⟨fuel, rfl⟩ := Nat.exists_eq_add_one_of_ne_zero (Nat.ne_of_gt (Nat.zero_lt_of_lt hn))
    rw [flatMap_nil, nil_append, flatten_nil, append_nil] at h
    rw [readBlocks_streamEnd fuel h]
    simp [available]
  | cons p ps ih =>
    obtain ⟨fuel, rfl⟩ := Nat.exists_eq_add_one_of_ne_zero (Nat.ne_of_gt (Nat.zero_lt_of_lt hn))
    obtain ⟨hp, hps⟩ := forall_mem_cons.1 hps
    rw [flatMap_cons, append_assoc] at h
    have hlength := size_sub_of_drop h
    rw [length_take, length_append, length_storedBlock] at hlength
    rw [flatMap_cons, length_append, length_storedBlock, readBlocks, available,
      readBlock_storedBlock out hp h]
    by_cases hcut : n < 5 + p.length
    · rw [if_pos (by omega), if_pos (by omega), Nat.sub_eq_zero_of_le (Nat.le_of_lt hcut)]
      simp [Stop.status]
    · rw [if_neg (by omega), take_of_length_le (by omega)]
      have hrest : data.data.toList.drop (k + 5 + p.length) = (ps.flatMap (storedBlock false) ++
          streamEnd ((out ++ p.toArray).toList ++ ps.flatten)).take (n - (5 + p.length)) := by
        rw [Nat.add_assoc, ← drop_drop, h, drop_take, drop_left' (length_storedBlock ..)]
        simp
      have hnext : n - (5 + p.length) < fuel := by omega
      obtain ⟨hout, hstatus⟩ := ih hps hnext hrest
      refine ⟨hout.trans (by simp), hstatus.trans ?_⟩
      split_ifs <;> first | rfl | omega

def piecesOf (parts : List (List UInt8)) : List (List UInt8) :=
  parts.flatMap (Tile.chunks (blockSize - 1))

theorem flatten_piecesOf (parts : List (List UInt8)) : (piecesOf parts).flatten = parts.flatten :=
  Tile.flatten_flatMap_chunks ..

theorem length_le_of_mem_piecesOf (hp : p ∈ piecesOf parts) : p.length ≤ blockSize := by
  obtain ⟨part, -, hp⟩ := mem_flatMap.1 hp
  exact Tile.length_le_of_mem_chunks hp

theorem flatten_deflateParts (all head : List UInt8) (parts : List (List UInt8)) :
    (deflateParts all head parts).flatten =
      head ++ (piecesOf parts).flatMap (storedBlock false) ++ streamEnd all := by
  fun_induction deflateParts all head parts with
  | case1 head => simp [piecesOf]
  | case2 head part => simp [piecesOf, storedBlocks]
  | case3 head part rest _ ih =>
    rw [flatten_cons, ih]
    simp [piecesOf, storedBlocks, flatMap_append]

theorem flatten_deflate (parts : List (List UInt8)) :
    (deflate parts).flatten = streamHead ++
      ((piecesOf parts).flatMap (storedBlock false) ++ streamEnd (piecesOf parts).flatten) := by
  rw [deflate, flatten_deflateParts, flatten_piecesOf, append_assoc]

theorem length_flatten_deflate (parts : List (List UInt8)) : (deflate parts).flatten.length =
    2 + ((piecesOf parts).flatMap (storedBlock false)).length + 9 := by
  rw [flatten_deflate, length_append, length_append]
  rfl

theorem inflate_of_start (h : data.data.toList <+: (deflate parts).flatten) :
    (inflate data).output.toList = available (piecesOf parts) (data.size - 2) ∧
      (inflate data).status =
        if data.size < (deflate parts).flatten.length then .short else .complete := by
  have hdata : data.data.toList.length = data.size := Array.length_toList
  have hle := h.length_le
  rw [prefix_iff_eq_take, flatten_deflate, hdata] at h
  rw [length_flatten_deflate] at hle ⊢
  -- Without its two bytes of head nothing is read of a stream.
  by_cases hsize : 1 < data.size
  · obtain ⟨m, hm⟩ := Nat.exists_eq_add_of_le' hsize
    rw [hm, streamHead] at h
    have hfirst : data[0]? = some 0x78 := by rw [← Nat.zero_add 0, getElem?_eq_drop, h]; rfl
    have hsecond : data[1]? = some 0x01 := by rw [← Nat.zero_add 1, getElem?_eq_drop, h]; rfl
    have hrest : data.data.toList.drop 2 = ((piecesOf parts).flatMap (storedBlock false) ++
        streamEnd (#[].toList ++ (piecesOf parts).flatten)).take m := by
      rw [h]
      rfl
    obtain ⟨hout, hstatus⟩ := readBlocks_blocks (fun p hp => length_le_of_mem_piecesOf hp)
      (by omega : m < data.size * 8) hrest
    have hread : inflate data = readBlocks data (data.size * 8) (8 * 2) #[] := by
      rw [inflate, dif_pos hsize]
      rw [getElem?_pos data 0 (by omega), Option.some.injEq] at hfirst
      rw [getElem?_pos data 1 hsize, Option.some.injEq] at hsecond
      simp [hfirst, hsecond]
    rw [hread, hout, hstatus, hm]
    refine ⟨by simp, ?_⟩
    split_ifs <;> first | rfl | omega
  · rw [inflate, dif_neg hsize, Nat.sub_eq_zero_of_le (by omega), available_zero, if_pos (by omega)]
    exact ⟨rfl, rfl⟩

theorem inflate_ne_malformed (h : data.data.toList <+: (deflate parts).flatten) :
    (inflate data).status ≠ .malformed := by
  rw [(inflate_of_start h).2]
  split_ifs <;> decide

theorem inflate_mono (hdata : data.data.toList <+: more.data.toList)
    (hmore : more.data.toList <+: (deflate parts).flatten) :
    (inflate data).output.toList <+: (inflate more).output.toList := by
  rw [(inflate_of_start (hdata.trans hmore)).1, (inflate_of_start hmore).1]
  have hle := hdata.length_le
  exact available_mono _ (Nat.sub_le_sub_right hle 2)

theorem inflate_deflate (parts : List (List UInt8)) :
    inflate ⟨(deflate parts).flatten.toArray⟩ = ⟨parts.flatten.toArray, .complete⟩ := by
  have hsize : (⟨(deflate parts).flatten.toArray⟩ : ByteArray).size =
      (deflate parts).flatten.length := size_toArray
  have hwhole : (⟨(deflate parts).flatten.toArray⟩ : ByteArray).data.toList <+:
      (deflate parts).flatten := prefix_rfl
  obtain ⟨hout, hstatus⟩ := inflate_of_start hwhole
  rw [available_all _ (by rw [hsize, length_flatten_deflate]; omega), flatten_piecesOf] at hout
  rw [hsize, if_neg (Nat.lt_irrefl _)] at hstatus
  rw [← hstatus, ← hout]

end Cartridge.Deflate
