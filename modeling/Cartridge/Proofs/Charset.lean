import Cartridge.Proofs.Text.Numeral
import Cartridge.Proofs.Workspace
import Mathlib

/-!
# Codes read back from their texts

`Charset.decode` puts the texts of codes one after another, without a mark between them, and
`Charset.encode` has to find out again where one ends and the next begins.

Main result: `encodePadded_decode`.
-/

open List

namespace Cartridge.Charset

open Text.Numeral

variable {set : Charset} {codes : Table String Int} {code : Int} {text rest : List Char} {n m : Nat}

/-- Texts of one to four characters, none the beginning of another, and none that starts like an
escape. -/
structure Readable (set : Charset) : Prop where
  length_pos : ∀ e ∈ set.entries, 1 ≤ e.2.length
  length_le : ∀ e ∈ set.entries, e.2.length ≤ longestText
  apart : ∀ e ∈ set.entries, ∀ e' ∈ set.entries, e.2.toList <+: e'.2.toList → e = e'
  plain : ∀ e ∈ set.entries, e.2.toList.head? ≠ some '\\'

/-! ### Cutting off one text -/

theorem longest?_eq_some (hpos : 0 < m) (hle : m ≤ n) (hlength : m ≤ text.length)
    (hfind : codes.find? (String.ofList (text.take m)) = some code)
    (hlonger : ∀ k, m < k → k ≤ text.length → codes.find? (String.ofList (text.take k)) = none) :
    longest? codes text n = some (code, m) := by
  induction n with
  | zero => omega
  | succ n ih =>
    unfold longest?
    obtain rfl | hlt := Nat.eq_or_lt_of_le hle
    · rw [if_neg (Nat.not_lt.2 hlength), hfind]
    · have hrest := ih (Nat.le_of_lt_succ hlt)
      split_ifs with hshort
      · exact hrest
      · rw [hlonger (n + 1) hlt (Nat.le_of_not_lt hshort)]
        exact hrest

/-- **A text of the set** is cut off whole.  Were a longer one found, it would start with this
one. -/
theorem pieces_known (hset : set.Readable) {s : String} (hs : set.find? code = some s)
    (rest : List Char) :
    pieces set.swap (s.toList ++ rest) = .known code :: pieces set.swap rest := by
  have hmem := Table.mem_of_find? hs
  have hswap : set.swap.find? s = some code := by
    refine Table.find?_swap (fun e he e' he' heq => ?_) hs
    rw [hset.apart e he e' he' (by rw [heq])]
  have hlength_pos : 1 ≤ s.toList.length := hset.length_pos _ hmem
  have hlength_le : s.toList.length ≤ longestText := hset.length_le _ hmem
  obtain ⟨c, tail, hcons⟩ := exists_cons_of_length_pos hlength_pos
  have hplain : c ≠ '\\' := by
    have := hset.plain _ hmem
    simpa [hcons] using this
  have hfound : longest? set.swap ((s.toList ++ rest).take longestText) longestText =
      some (code, s.toList.length) := by
    refine longest?_eq_some hlength_pos hlength_le ?_ ?_ ?_
    · rw [length_take, length_append]
      omega
    · rw [take_take, Nat.min_eq_left hlength_le, take_left, String.ofList_toList]
      exact hswap
    · intro k hk hkl
      by_contra hsome
      obtain ⟨other, hother⟩ := Option.ne_none_iff_exists'.1 hsome
      obtain ⟨e, he, htext⟩ := Table.exists_of_find?_swap hother
      rw [length_take, length_append] at hkl
      have htaken : e.2.toList = (s.toList ++ rest).take k := by
        rw [htext, String.toList_ofList, take_take, Nat.min_eq_left (by omega)]
      have hbegins : s.toList <+: e.2.toList := by
        rw [htaken, take_append, take_of_length_le hk.le]
        exact prefix_append _ _
      have hsame := congrArg (fun e => e.2.toList.length) (hset.apart _ hmem e he hbegins)
      simp only [htaken, length_take, length_append] at hsame
      omega
  rw [hcons, cons_append] at hfound ⊢
  rw [pieces]
  · simp only [hfound, length_cons, Nat.add_sub_cancel, drop_left]
  · intro a b r hescape
    exact absurd hescape hplain

theorem toList_hex_two (hn : n < 0x100) :
    (hex 2 n).toList = [n / 16, n % 16].map (hexDigit false) := by
  have hpos : ¬((n : Int) < 0) := by omega
  rw [hex, write]
  simp only [if_neg hpos, String.toList_ofList, nil_append, length_nil, Nat.sub_zero,
    Int.natAbs_natCast, digitsOf]
  by_cases hsmall : n < 16
  · rw [Nat.toDigits_of_lt_base hsmall, Nat.div_eq_of_lt hsmall, Nat.mod_eq_of_lt hsmall]
    rfl
  · rw [Nat.toDigits_of_base_le (by omega) (by omega), Nat.toDigits_of_lt_base (by omega)]
    rfl

/-- The piece that the text of a code is cut off as. -/
def pieceOf (set : Charset) (code : Int) : Piece :=
  if set.contains code then .known code else .escaped (hex 2 code).toList

/-- **One code.**  Of what it shows just that is cut off. -/
theorem pieces_shown (hset : set.Readable) (hcode : 0 ≤ code ∧ code < 0x100) (rest : List Char) :
    pieces set.swap (set.shown code ++ rest) = set.pieceOf code :: pieces set.swap rest := by
  unfold shown pieceOf Table.contains
  cases hs : set.find? code with
  | some s => exact pieces_known hset hs rest
  | none =>
    obtain ⟨n, rfl⟩ := Int.eq_ofNat_of_zero_le hcode.1
    have hn : n < 0x100 := by omega
    simp only [toList_hex_two hn, map_cons, map_nil, cons_append, nil_append,
      Option.isSome_none, Bool.false_eq_true, if_false]
    rw [pieces]

theorem pieces_decode (hset : set.Readable) {codes : List Int}
    (hcodes : ∀ n ∈ codes, 0 ≤ n ∧ n < 0x100) :
    pieces set.swap (set.decode codes) = codes.map set.pieceOf := by
  induction codes with
  | nil => rw [decode, flatMap_nil, pieces, map_nil]
  | cons code codes ih =>
    obtain ⟨hcode, hrest⟩ := forall_mem_cons.1 hcodes
    rw [decode, flatMap_cons, pieces_shown hset hcode, map_cons, ← ih hrest, decode]

/-! ### The codes of pieces -/

theorem on_code_pieceOf (hcode : 0 ≤ code ∧ code < 0x100) (w : Workspace) :
    (set.pieceOf code).code.on w = (.ok code, w) := by
  unfold pieceOf
  split_ifs with hknown
  · rfl
  · obtain ⟨n, rfl⟩ := Int.eq_ofNat_of_zero_le hcode.1
    have hn : n < 0x100 := by omega
    rw [Piece.code]
    rw [toList_hex_two hn, read?_hexDigits false (cons_ne_nil _ _)]
    · simp [ofDigits, Nat.div_add_mod']
    · simp only [mem_cons, not_mem_nil, or_false]
      rintro d (rfl | rfl)
      · omega
      · omega

theorem on_encode_decode (hset : set.Readable) {codes : List Int}
    (hcodes : ∀ n ∈ codes, 0 ≤ n ∧ n < 0x100) (w : Workspace) :
    (encode set.swap (set.decode codes)).on w = (.ok codes, w) := by
  rw [encode, pieces_decode hset hcodes]
  induction codes with
  | nil => rfl
  | cons code codes ih =>
    obtain ⟨hcode, hrest⟩ := forall_mem_cons.1 hcodes
    rw [map_cons, mapM_cons, Job.on_bind_ok_iff]
    refine ⟨code, w, on_code_pieceOf hcode w, Job.on_bind_ok_iff.2 ⟨codes, w, ih hrest, rfl⟩⟩

/-- **Codes are read back from their texts**, however these stand beside each other and beside
escapes, and nothing is reported. -/
theorem encodePadded_decode (hset : set.Readable) {codes : List Int}
    (hcodes : ∀ n ∈ codes, 0 ≤ n ∧ n < 0x100) (fill : Int) (w : Workspace) :
    (encodePadded set.swap (set.decode codes) 0 fill).on w = (.ok codes, w) := by
  rw [encodePadded, Job.on_bind_ok_iff]
  exact ⟨codes, w, on_encode_decode hset hcodes w, by rw [if_pos rfl, Job.on_pure]⟩

/-- A text of two characters, one with a backslash inside in front of an escape, and a line end. -/
theorem encodePadded_decode_adjacent :
    let set : Charset := ⟨[(0x41, "ab"), (0x42, "c\\x"), (0xFE, "\n")]⟩
    let codes : List Int := [0x41, 0x00, 0x42, 0x1F, 0xFE, 0x41]
    set.Readable ∧ (∀ n ∈ codes, 0 ≤ n ∧ n < 0x100) ∧
      set.decode codes = "ab\\x00c\\x\\x1f\nab".toList ∧
      (encodePadded set.swap (set.decode codes) 0 0).on {} = (.ok codes, {}) := by
  intro set codes
  have hset : set.Readable := ⟨by decide, by decide, by decide, by decide⟩
  have hcodes : ∀ n ∈ codes, 0 ≤ n ∧ n < 0x100 := by decide
  exact ⟨hset, hcodes, by decide, encodePadded_decode hset hcodes 0 {}⟩

end Cartridge.Charset
