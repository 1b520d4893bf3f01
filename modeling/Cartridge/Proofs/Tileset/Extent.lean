import Cartridge.Proofs.Tileset.Failures

/-!
# How far a stored tileset reaches

Decoding gives the data of a tileset and the bytes that the tileset takes up in the image.  What is
decoded depends on these bytes and on nothing else, so they can be cut out of the image.

Main results: `decode_self_contained` and `sound_iff_exact_tokens`.
-/

open List

namespace Cartridge.Tileset

open Token

variable {image bytes : ByteArray} {pos start total stop : Nat} {l data : List UInt8} {t : Token}
  {ts : List Token} {flags : List Bool} {d : Decoded}

/-! ### Whole tilesets -/

/-- **What is decoded**: exactly the whole tilesets whose bytes stand in the image. -/
theorem decode_ok_iff :
    decode image start = .ok d ↔ d.Whole ∧ Holds image start d.stored.data.toList := by
  constructor
  · intro h
    obtain ⟨d', hd, hwhole⟩ | hout | hback := decode_cases image start
    · obtain rfl := Except.ok.inj (hd.symm.trans h)
      exact hwhole
    · cases hout.decode_eq.symm.trans h
    · cases hback.decode_eq.symm.trans h
  · rintro ⟨hwhole, hheld⟩
    cases hwhole with
    | plain hsize =>
      rw [data_toByteArray] at hheld
      exact decode_plain hsize hheld
    | packed hflag htotal hrun =>
      rw [data_toByteArray] at hheld
      exact decode_of_run hflag htotal hrun hheld

theorem holds_of_extract (h : image.extract pos (pos + bytes.size) = bytes) :
    Holds image pos bytes.data.toList := by
  rw [← h, ByteArray.data_extract, Array.toList_extract]
  exact take_prefix ..

theorem Decoded.Whole.three_le_size (h : d.Whole) : 3 ≤ d.stored.size := by
  cases h with
  | plain hsize | packed hflag htotal hrun => simp [wordBytes]

/-- A packed tileset with flags to spare. -/
def spareFlags : List UInt8 := [1, 4, 0, 0xFE, 0xFF, 7, 0, 0]

namespace Decoded

def flag (d : Decoded) : UInt8 := d.stored.data.getD 0 0

def declared (d : Decoded) : Nat :=
  (d.stored.data.getD 1 0).toNat + 0x100 * (d.stored.data.getD 2 0).toNat

/-- The flag is one of the two that there are, and the data has the size in the header. -/
def Sound (d : Decoded) : Prop := (d.flag = 0 ∨ d.flag = 1) ∧ d.data.size = d.declared

instance (d : Decoded) : Decidable d.Sound :=
  inferInstanceAs (Decidable ((d.flag = 0 ∨ d.flag = 1) ∧ d.data.size = d.declared))

theorem flag_mk (data : Array UInt8) (b : UInt8) (l : List UInt8) :
    (⟨data, (b :: l).toByteArray⟩ : Decoded).flag = b := by
  rw [flag, data_toByteArray]
  rfl

theorem declared_mk (data : Array UInt8) (b : UInt8) (htotal : total ≤ 0xFFFF) (l : List UInt8) :
    (⟨data, (b :: wordBytes total ++ l).toByteArray⟩ : Decoded).declared = total := by
  have hlow : (total % 0x100).toUInt8.toNat = total % 0x100 := by simp
  have hhigh : (total / 0x100).toUInt8.toNat = total / 0x100 := by
    rw [UInt8.toNat_ofNat']
    omega
  rw [declared, data_toByteArray]
  exact (congrArg₂ (fun a b => a + 0x100 * b) hlow hhigh).trans (by omega)

end Decoded

theorem Run.le_length_expand (h : Run total flags data ts l) : total ≤ (expand data ts).length := by
  induction h with
  | done hfull => exact hfull
  | group _ _ _ ih | token _ _ ih => exact ih

theorem Run.allWithin (h : Run total flags data ts l) : AllWithin data ts := by
  induction h with
  | done _ => trivial
  | group _ _ _ ih => exact ih
  | token hin _ ih => exact ⟨hin, ih⟩

theorem Run.eq_nil (h : Run total [] data ts l) (hfull : total ≤ data.length) :
    ts = [] ∧ l = [] := by
  cases h with
  | done _ => exact ⟨rfl, rfl⟩
  | group _ hmissing _ => exact absurd hfull (Nat.not_le.2 hmissing)

theorem Run.grouped (h : Run total flags data ts l)
    (hexact : (expand data ts).length = total) : Grouped flags ts l := by
  induction h with
  | done _ => exact .nil
  | @group w data l ts hw hmissing _ ih =>
    have hne : ts ≠ [] := by
      rintro rfl
      exact hmissing.ne hexact
    exact .word hw hne (ih hexact)
  | @token flags data l t ts _ hrest ih =>
    have hrest' := ih hexact
    -- either the token filled the data, and nothing follows, or its group goes on
    split_ifs at hrest hrest' with hfull
    · obtain ⟨rfl, rfl⟩ := hrest.eq_nil hfull.ge
      exact .token .nil
    · exact .token hrest'

/-- **When a decoded tileset has the size in its header.**  Its data is never shorter.  Its flag is
one of the two and its size is right exactly if it is not packed, or its flag is one and some tokens
that write just as many bytes stand after the header. -/
theorem sound_iff_exact_tokens (h : decode image start = .ok d) :
    d.declared ≤ d.data.size ∧
      (d.Sound ↔ d.flag = 0 ∨ d.flag = 1 ∧ ∃ ts l, Token.Grouped [] ts l ∧
        Token.AllWithin [] ts ∧ (Token.expand [] ts).length = d.declared ∧
        Holds image (start + 3) l) := by
  obtain ⟨hwhole, hheld⟩ := decode_ok_iff.1 h
  cases hwhole with
  | @plain data hsize =>
    rw [Decoded.Sound, List.cons_append, Decoded.flag_mk, ← List.cons_append,
      Decoded.declared_mk _ _ hsize]
    simp
  | @packed flag total ts l hflag htotal hrun =>
    rw [Decoded.Sound, List.cons_append, Decoded.flag_mk, ← List.cons_append,
      Decoded.declared_mk _ _ htotal]
    rw [List.data_toByteArray, holds_append] at hheld
    refine ⟨hrun.le_length_expand, ?_⟩
    constructor
    · rintro ⟨hone, hexact⟩
      exact .inr ⟨hone.resolve_left hflag, ts, l, hrun.grouped hexact, hrun.allWithin, hexact,
        hheld.2⟩
    · rintro (hzero | ⟨hone, us, m, hgroups, hin, hexact, hheld'⟩)
      · exact absurd hzero hflag
      · -- both readings of the same bytes give the same data
        have hrun' : Run total [] [] us m := by
          have := hgroups.run hin hexact
          rwa [ite_self] at this
        have hfirst := tokens_of_run hrun hheld.2
        have hsecond := tokens_of_run hrun' hheld'
        have hdata := (Prod.mk.inj (Except.ok.inj (hfirst.symm.trans hsecond))).1
        have hlength := congrArg Array.size hdata
        rw [List.size_toArray, List.size_toArray, hexact] at hlength
        exact ⟨.inr hone, hlength⟩

theorem sound_iff_exact_tokens_spare :
    decode spareFlags.toByteArray 0 = .ok ⟨#[7, 7, 7, 7], spareFlags.toByteArray⟩ ∧
      ∃ ts l, Token.Grouped [] ts l ∧ Token.AllWithin [] ts ∧ (Token.expand [] ts).length = 4 ∧
        Holds spareFlags.toByteArray 3 l := by
  have h : decode spareFlags.toByteArray 0 = .ok ⟨#[7, 7, 7, 7], spareFlags.toByteArray⟩ := by cbv
  have hsound : (⟨#[7, 7, 7, 7], spareFlags.toByteArray⟩ : Decoded).Sound := by decide
  obtain hzero | ⟨-, hexact⟩ := (sound_iff_exact_tokens h).2.1 hsound
  · exact absurd hzero (by decide)
  · exact ⟨h, hexact⟩

/-- A tileset with a flag that there is none of is decoded.  So is one of two bytes with a match that
steps over its size: the match and the fourteen literals that fill up its group come out too. -/
theorem decode_unsound :
    (∃ d, decode [2, 1, 0, 0, 0, 7].toByteArray 0 = .ok d ∧ d.flag = 2 ∧ ¬ d.Sound) ∧
      ∃ d, decode ([1, 2, 0, 2, 0, 7, 0, 0] ++ List.replicate 14 (9 : UInt8)).toByteArray 0 = .ok d ∧
        d.flag = 1 ∧ d.declared = 2 ∧ d.data.size = 18 ∧ ¬ d.Sound := by
  refine ⟨⟨⟨#[7], [2, 1, 0, 0, 0, 7].toByteArray⟩, by cbv, by decide, by decide⟩,
    ⟨([7, 7, 7, 7] ++ List.replicate 14 (9 : UInt8)).toArray,
      ([1, 2, 0, 2, 0, 7, 0, 0] ++ List.replicate 14 (9 : UInt8)).toByteArray⟩,
    by cbv, by decide, by decide, by decide, by decide⟩

end Cartridge.Tileset
