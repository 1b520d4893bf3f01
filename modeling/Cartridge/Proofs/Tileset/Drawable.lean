import Cartridge.Proofs.Tileset.Complete
import Cartridge.Proofs.Tileset.Extent

/-!
# Tilesets that can be drawn

Nothing about a tileset that was read stands in the way of its picture or its place in source.

* `exists_ofFlat`: the position of an entry has a bank and an address.
-/

namespace Cartridge.Tileset

open Address Except

variable {image : ByteArray} {total n pos : Nat} {ls : List Listing} {l : Listing} {t : Decoded}

/-! ### Sizes -/

theorem Token.length_write_le (data : List UInt8) (t : Token) :
    (t.write data).length ≤ data.length + 34 := by
  cases t with
  | literal b => simp [write]
  | copy m =>
    rw [write, length_repeatBack]
    exact Nat.add_le_add_left m.length_le _

/-- **Packed data** goes past its size by the tokens of one group at most. -/
theorem Run.length_expand_le {flags : List Bool} {data bytes : List UInt8} {ts : List Token}
    (h : Run total flags data ts bytes)
    (hdata : data.length + 34 * flags.length ≤ total + 34 * 16) :
    (Token.expand data ts).length ≤ total + 34 * 16 := by
  induction h with
  | done _ => exact Nat.le_of_add_right_le hdata
  | @group w data bytes ts _ _ _ ih =>
    have hlength : (flagsOf w).length = 16 := by rw [flagsOf, List.length_map, List.length_range]
    exact ih (by omega)
  | @token flags data bytes t ts _ _ ih =>
    have hwrite := t.length_write_le data
    rw [List.length_cons] at hdata
    refine ih ?_
    split_ifs
    · rw [List.length_nil]
      omega
    · omega

theorem size_decode_le {start : Nat} (h : decode image start = .ok t) :
    t.data.size ≤ 0xFFFF + 34 * 16 := by
  obtain ⟨hwhole, -⟩ := decode_ok_iff.1 h
  cases hwhole with
  | plain hsize => exact Nat.le_add_right_of_le hsize
  | packed _ htotal hrun =>
    exact (hrun.length_expand_le (by simp)).trans (Nat.add_le_add_right htotal _)

/-- **A tileset of whole tiles can be drawn.** -/
theorem exists_encode_of_readAt {position : Int} (hread : readAt image position = .ok t)
    (hsize : t.data.size = 16 * n) (hn : 0 < n) :
    ∃ file, Picture.encode t.data.toList none none = .ok file := by
  obtain ⟨start, -, hdecode⟩ := bind_ok_iff.1 hread
  have hle : t.data.size ≤ 0xFFFF + 34 * 16 := by
    split at hdecode
    · rename_i d hd
      obtain rfl := ok.inj hdecode
      exact size_decode_le hd
    · cases hdecode
  exact exists_encode_tiles (by rw [Array.length_toList, hsize]) hn (by omega)

/-! ### Places -/

theorem roundTo53_of_lt (h : n < 2 ^ 53) : roundTo53 n = n := by
  have hextra : n.log2 + 1 - 53 = 0 := by
    rcases Nat.eq_zero_or_pos n with rfl | hpos
    · rfl
    · have hlog := (Nat.log2_lt (Nat.ne_of_gt hpos)).2 h
      omega
  simp [roundTo53, hextra, Nat.mod_one]

theorem exists_ofFlat {p : Int} (h : p.natAbs < 2 ^ 53) : ∃ a, ofFlat p = .ok a := by
  rw [ofFlat, roundTo53_of_lt h, if_neg]
  · exact ⟨_, rfl⟩
  · have hpow : ∀ k, 53 ≤ k → 2 ^ 53 ≤ Nat.pow 2 k := fun k => Nat.pow_le_pow_right (by decide)
    exact Nat.not_le.2 (Nat.lt_of_lt_of_le h (hpow 1038 (by decide)))

theorem lt_of_byteAt (h : Bytes.byteAt image pos = .ok n) : n < 0x100 := by
  unfold Bytes.byteAt at h
  split at h
  · obtain rfl := ok.inj h
    exact UInt8.toNat_lt _
  · cases h

theorem lt_of_readInfo {info : List (Nat × Nat × Nat)} (h : readInfo image pos n = .ok info) :
    ∀ e ∈ info, e.1 < 0x100 := by
  induction n generalizing pos info with
  | zero =>
    cases h
    exact fun e he => absurd he List.not_mem_nil
  | succ n ih =>
    simp only [readInfo, bind_ok_iff, pure_ok_iff] at h
    obtain ⟨bank, hbank, _, -, _, -, rest, hrest, rfl⟩ := h
    exact List.forall_mem_cons.2 ⟨lt_of_byteAt hbank, ih hrest⟩

theorem exists_ofFlat_position (h : readListings image = .ok ls) (hl : l ∈ ls) :
    ∃ a, ofFlat l.position = .ok a := by
  simp only [readListings, bind_ok_iff, pure_ok_iff] at h
  obtain ⟨pointers, hpointers, info, hinfo, rfl⟩ := h
  obtain ⟨⟨pointer, bank, rest⟩, hmem, rfl⟩ := List.mem_map.1 hl
  obtain ⟨hpointer, hbank⟩ := List.of_mem_zip hmem
  have hbank' := lt_of_readInfo hinfo _ hbank
  obtain ⟨i, -, hword⟩ := exists_of_mem_mapM hpointers hpointer
  have hpointer' := Bytes.lt_of_wordAt hword
  refine exists_ofFlat ?_
  simp only [Listing.position, flat, bankSize]
  omega

end Cartridge.Tileset
