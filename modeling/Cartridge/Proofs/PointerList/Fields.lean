import Cartridge.PointerList.Dump
import Cartridge.PointerList.Field
import Cartridge.Proofs.Bytes
import Cartridge.Proofs.Charset
import Cartridge.Proofs.Value

/-!
# Fields read and built again

A field of a pointer list is read from an image as text and built from the text again.  Its codes
stand for themselves or for a kanji, in pairs with a mark in front (`unitsOf`).

Main result: `encodeField_of_readCodes`.

The end code of a field of varying size is no part of its text and is added when it is built; that
of a field of fixed size is part of the text and has to be found there, or it would come twice.
-/

open List

namespace Cartridge.PointerList

open FieldSpec Text.Numeral Table
open Lettering (Code kanjiMark)
open Tileset (Holds)

variable {f : Faces} {spec : FieldSpec} {image : ByteArray} {pos last next n stop : Nat}
  {ns : List Nat} {t : List Char} {text : String} {u : Code} {us : List Code} {c : Char}
  {code : Int} {parts : List (List Char)}

/-! ### Units -/

/-- Codes with those of kanji in pairs. -/
def unitsOf : List Nat → List Code
  | 0xD3 :: code :: rest => .kanji code :: unitsOf rest
  | code :: rest => .letter code :: unitsOf rest
  | [] => []

/-- The units of a field's codes; among numbers there are no pairs. -/
def FieldSpec.units (spec : FieldSpec) (ns : List Nat) : List Code :=
  if spec.numeric then ns.map fun n : Nat => .letter n else unitsOf ns

/-- The text of a unit: a mark alone and an unknown kanji have none. -/
def Faces.face? (f : Faces) : Code → Option (List Char)
  | .letter n =>
    if n = kanjiMark then none
    else some (((f.letters.find? n).map String.toList).getD (escaped n.toNat))
  | .kanji n => (f.kanji.find? n).map String.toList

/-- The text of a unit of a field; numbers are always escaped. -/
def FieldSpec.face? (spec : FieldSpec) (f : Faces) (u : Code) : Option (List Char) :=
  if spec.numeric then some (u.numbers.flatMap fun n => escaped n.toNat) else f.face? u

/-- Letters and kanji of one character each, of which none is both or starts an escape. -/
structure Faces.Legible (f : Faces) : Prop where
  single : ∀ e ∈ f.letters.entries ++ f.kanji.entries, ∃ c : Char, e.2 = c.toString ∧ c ≠ '\\'
  apart : ∀ e ∈ f.letters.entries, ∀ e' ∈ f.kanji.entries, e.2 ≠ e'.2

/-- Letters and kanji that can be told apart, none of which ends a line. -/
structure Faces.Distinct (f : Faces) : Prop extends f.Legible where
  letters : ∀ e ∈ f.letters.entries, ∀ e' ∈ f.letters.entries, e.2 = e'.2 → e.1 = e'.1
  kanji : ∀ e ∈ f.kanji.entries, ∀ e' ∈ f.kanji.entries, e.2 = e'.2 → e.1 = e'.1
  unbroken : ∀ e ∈ f.letters.entries ++ f.kanji.entries, ∀ c ∈ ['\r', '\n'], c ∉ e.2.toList

def Faces.lettering (f : Faces) : Lettering := ⟨f.letters.swap, f.kanji.swap⟩

theorem numbers_unitsOf (ns : List Nat) :
    (unitsOf ns).flatMap Code.numbers = ns.map fun n : Nat => (n : Int) := by
  fun_induction unitsOf ns with
  | case1 code rest ih => simp [Code.numbers, kanjiMark, ih]
  | case2 code rest _ ih => simp [Code.numbers, ih]
  | case3 => rfl

theorem FieldSpec.numbers_units (spec : FieldSpec) (ns : List Nat) :
    (spec.units ns).flatMap Code.numbers = ns.map fun n : Nat => (n : Int) := by
  unfold units
  split
  · rw [flatMap_map]
    exact (map_eq_flatMap ..).symm
  · exact numbers_unitsOf ns

theorem FieldSpec.exists_of_mem_units (hu : u ∈ spec.units ns) :
    (∃ n ∈ ns, u = .letter (n : Nat)) ∨ spec.numeric = false ∧ ∃ n ∈ ns, u = .kanji (n : Nat) := by
  have hmem : ∀ m ∈ u.numbers, ∃ n ∈ ns, (n : Int) = m := by
    intro m hm
    rw [← mem_map, ← spec.numbers_units]
    exact mem_flatMap.2 ⟨u, hu, hm⟩
  cases u with
  | letter m =>
    obtain ⟨n, hn, rfl⟩ := hmem m (by simp [Code.numbers])
    exact .inl ⟨n, hn, rfl⟩
  | kanji m =>
    obtain ⟨n, hn, rfl⟩ := hmem m (by simp [Code.numbers])
    refine .inr ⟨?_, n, hn, rfl⟩
    cases hnumeric : spec.numeric with
    | false => rfl
    | true => simp [units, hnumeric] at hu

/-! ### The text of a field -/

theorem showCodes_ok_iff : showCodes f ns = .ok t ↔
    ∃ parts, List.Forall₂ (fun u p => f.face? u = some p) (unitsOf ns) parts ∧
      parts.flatten = t := by
  fun_induction unitsOf ns generalizing t with
  | case1 code rest ih =>
    simp only [showCodes, bind_ok_iff, demand_ok_iff, pure_ok_iff, ih,
      forall₂_cons_left_iff, Faces.face?, Option.map_eq_some_iff]
    constructor
    · rintro ⟨c, hc, _, ⟨parts, hparts, rfl⟩, rfl⟩
      exact ⟨_, ⟨_, parts, ⟨c, hc, rfl⟩, hparts, rfl⟩, rfl⟩
    · rintro ⟨_, ⟨_, parts, ⟨c, hc, rfl⟩, hparts, rfl⟩, rfl⟩
      exact ⟨c, hc, _, ⟨parts, hparts, rfl⟩, rfl⟩
  | case2 code rest hpair ih =>
    by_cases hmark : code = 0xD3
    · -- A mark is taken for a letter only if nothing follows it.
      subst hmark
      cases rest with
      | nil => simp [showCodes, forall₂_cons_left_iff, Faces.face?, kanjiMark]
      | cons next rest => exact absurd rfl (hpair next rest rfl)
    · have hcode : ¬((code : Int) = kanjiMark) := fun h => hmark (Int.ofNat.inj h)
      simp only [showCodes_of_ne hmark, bind_ok_iff, pure_ok_iff, ih, forall₂_cons_left_iff,
        Faces.face?, if_neg hcode, Option.some.injEq, Int.toNat_natCast]
      constructor
      · rintro ⟨_, ⟨parts, hparts, rfl⟩, rfl⟩
        exact ⟨_, ⟨_, parts, rfl, hparts, rfl⟩, rfl⟩
      · rintro ⟨_, ⟨_, parts, rfl, hparts, rfl⟩, rfl⟩
        exact ⟨_, ⟨parts, hparts, rfl⟩, rfl⟩
  | case3 => simp [showCodes, eq_comm]

theorem showField_ok_iff : showField f spec ns = .ok text ↔
    ∃ parts, List.Forall₂ (fun u p => spec.face? f u = some p) (spec.units ns) parts ∧
      parts.flatten = text.toList := by
  unfold showField units face?
  split_ifs with hnumeric
  · simp only [Option.some.injEq, forall₂_map_left_iff, Code.numbers, flatMap_cons,
      flatMap_nil, append_nil, Int.toNat_natCast, Except.ok.injEq]
    constructor
    · rintro rfl
      refine ⟨ns.map escaped, ?_, by rw [String.toList_ofList, flatMap_def]⟩
      rw [forall₂_map_right_iff]
      exact forall₂_same.2 fun _ _ => rfl
    · rintro ⟨parts, hparts, hflat⟩
      have hmap : ns.map escaped = parts := by
        rwa [← forall₂_eq_eq_eq, forall₂_map_left_iff]
      rw [flatMap_def, hmap, hflat, String.ofList_toList]
  · simp only [map_ok_iff, showCodes_ok_iff]
    constructor
    · rintro ⟨_, ⟨parts, hparts, rfl⟩, rfl⟩
      exact ⟨parts, hparts, String.toList_ofList.symm⟩
    · rintro ⟨parts, hparts, hflat⟩
      exact ⟨_, ⟨parts, hparts, rfl⟩, by rw [hflat, String.ofList_toList]⟩

theorem exists_forall₂_face_iff {g : Code → Option (List Char)} :
    (∃ parts, List.Forall₂ (fun u p => g u = some p) us parts) ↔ ∀ u ∈ us, (g u).isSome := by
  induction us with
  | nil => simp
  | cons u us ih =>
    rw [forall_mem_cons, ← ih, Option.isSome_iff_exists]
    constructor
    · rintro ⟨_, hall⟩
      obtain ⟨p, parts, hp, hparts, rfl⟩ := forall₂_cons_left_iff.1 hall
      exact ⟨⟨p, hp⟩, parts, hparts⟩
    · rintro ⟨⟨p, hp⟩, parts, hparts⟩
      exact ⟨p :: parts, .cons hp hparts⟩

/-- **When a field has a text**: it holds numbers, or every mark in it has a known kanji behind
it. -/
theorem exists_showField_iff : (∃ text, showField f spec ns = .ok text) ↔
    spec.numeric = true ∨ ∀ u ∈ unitsOf ns, (f.face? u).isSome := by
  have hparts : (∃ text, showField f spec ns = .ok text) ↔
      ∃ parts, List.Forall₂ (fun u p => spec.face? f u = some p) (spec.units ns) parts := by
    simp only [showField_ok_iff]
    constructor
    · rintro ⟨_, parts, hparts, -⟩
      exact ⟨parts, hparts⟩
    · rintro ⟨parts, hparts⟩
      exact ⟨_, parts, hparts, String.toList_ofList.symm⟩
  rw [hparts, exists_forall₂_face_iff, units]
  unfold face?
  split_ifs with hnumeric
  · simp [hnumeric]
  · simp [hnumeric]

theorem face_cases (hu : u ∈ spec.units ns) (hface : spec.face? f u = some t) :
    (∃ n ∈ ns, u = .letter (n : Nat) ∧ t = escaped n) ∨
    (∃ (n : Nat) (text : String), f.letters.find? n = some text ∧ u = .letter n ∧ t = text.toList) ∨
    (∃ (n : Nat) (text : String), f.kanji.find? n = some text ∧ u = .kanji n ∧
      t = text.toList) := by
  unfold face? at hface
  obtain ⟨n, hn, rfl⟩ | ⟨hnumeric, n, hn, rfl⟩ := exists_of_mem_units hu
  · split_ifs at hface with hnumeric
    · obtain rfl := Option.some.inj hface
      exact .inl ⟨n, hn, rfl, by simp [Code.numbers]⟩
    · simp only [Faces.face?] at hface
      split_ifs at hface with hmark
      obtain rfl := Option.some.inj hface
      cases htext : f.letters.find? n with
      | none => exact .inl ⟨n, hn, rfl, rfl⟩
      | some text => exact .inr (.inl ⟨n, text, htext, rfl, rfl⟩)
  · rw [hnumeric] at hface
    obtain ⟨text, htext, rfl⟩ := Option.map_eq_some_iff.1 hface
    exact .inr (.inr ⟨n, text, htext, rfl, rfl⟩)

/-! ### Codes of the text -/

theorem escaped_eq (hn : n < 0x100) :
    escaped n = '\\' :: 'x' :: [n / 16, n % 16].map (hexDigit false) := by
  rw [escaped, Charset.toList_hex_two hn]

theorem codes_escaped (hn : n < 0x100) (l : Lettering) (rest : List Char) :
    codes l (escaped n ++ rest) = (Code.letter n :: ·) <$> codes l rest := by
  have hread : read? 16 ([n / 16, n % 16].map (hexDigit false)) = some (n : Int) := by
    rw [read?_hexDigits false (cons_ne_nil _ _)]
    · simp [ofDigits, Nat.div_add_mod']
    · simp only [mem_cons, not_mem_nil, or_false]
      rintro d (rfl | rfl)
      · omega
      · omega
  rw [escaped_eq hn]
  simp only [map_cons, map_nil] at hread ⊢
  simp only [cons_append, nil_append, codes, hread]
  rfl

theorem codes_char {l : Lettering} (hc : c ≠ '\\') (hcode : l.code? c = some u) (rest : List Char) :
    codes l (c.toString.toList ++ rest) = (u :: ·) <$> codes l rest := by
  rw [show c.toString.toList ++ rest = c :: rest by simp, codes_of_ne hc, codeOf, hcode]
  rfl

theorem codes_letter (hf : f.Distinct) (htext : f.letters.find? code = some text) (rest : List Char) :
    codes f.lettering (text.toList ++ rest) =
      (Code.letter code :: ·) <$> codes f.lettering rest := by
  have hmem := mem_of_find? htext
  obtain ⟨c, rfl, hplain⟩ := hf.single _ (mem_append_left _ hmem)
  refine codes_char hplain ?_ rest
  have hkanji : f.lettering.kanji.find? c.toString = none := by
    by_contra hsome
    obtain ⟨k, hk⟩ := Option.ne_none_iff_exists'.1 hsome
    obtain ⟨e, he, heq⟩ := exists_of_find?_swap hk
    exact hf.apart _ hmem e he heq.symm
  rw [Lettering.code?, hkanji]
  exact congrArg (Option.map Code.letter) (find?_swap hf.letters htext)

theorem codes_kanji (hf : f.Distinct) (htext : f.kanji.find? code = some text) (rest : List Char) :
    codes f.lettering (text.toList ++ rest) =
      (Code.kanji code :: ·) <$> codes f.lettering rest := by
  obtain ⟨c, rfl, hplain⟩ := hf.single _ (mem_append_right _ (mem_of_find? htext))
  refine codes_char hplain ?_ rest
  have hkanji : f.lettering.kanji.find? c.toString = some code := find?_swap hf.kanji htext
  rw [Lettering.code?, hkanji]

/-- **The text of a unit** gives the unit back, whatever follows. -/
theorem codes_face (hf : f.Distinct) (hns : ∀ n ∈ ns, n < 0x100) (hu : u ∈ spec.units ns)
    (hface : spec.face? f u = some t) (rest : List Char) :
    codes f.lettering (t ++ rest) = (u :: ·) <$> codes f.lettering rest := by
  obtain ⟨n, hn, rfl, rfl⟩ | ⟨n, text, htext, rfl, rfl⟩ | ⟨n, text, htext, rfl, rfl⟩ :=
    face_cases hu hface
  · exact codes_escaped (hns n hn) f.lettering rest
  · exact codes_letter hf htext rest
  · exact codes_kanji hf htext rest

theorem codes_flatten (hf : f.Distinct) (hns : ∀ n ∈ ns, n < 0x100) (hus : us ⊆ spec.units ns)
    (hparts : List.Forall₂ (fun u p => spec.face? f u = some p) us parts) :
    codes f.lettering parts.flatten = .ok us := by
  induction hparts with
  | nil => rfl
  | cons hface _ ih =>
    obtain ⟨hu, hus⟩ := cons_subset.1 hus
    rw [flatten_cons, codes_face hf hns hu hface, ih hus]
    rfl

/-- **The text of a field gives its codes back**, unit by unit. -/
theorem codes_showField (hf : f.Distinct) (hns : ∀ n ∈ ns, n < 0x100)
    (hshow : showField f spec ns = .ok text) :
    codes f.lettering text.toList = .ok (spec.units ns) := by
  obtain ⟨parts, hparts, hflat⟩ := showField_ok_iff.1 hshow
  rw [← hflat, codes_flatten hf hns (List.Subset.refl _) hparts]

/-! ### Line ends -/

theorem notMem_escaped (hc : c ∈ ['\r', '\n']) (hn : n < 0x100) : c ∉ escaped n := by
  have hdigit : ∀ d < 16, hexDigit false d ∉ ['\r', '\n'] := by decide
  rw [escaped_eq hn]
  simp only [map_cons, map_nil, mem_cons, not_mem_nil, or_false]
  rintro (rfl | rfl | rfl | rfl)
  · revert hc
    decide
  · revert hc
    decide
  · exact hdigit _ (by omega) hc
  · exact hdigit _ (by omega) hc

theorem notMem_face (hf : ∀ e ∈ f.letters.entries ++ f.kanji.entries, c ∉ e.2.toList)
    (hns : ∀ n ∈ ns, n < 0x100) (hc : c ∈ ['\r', '\n']) (hu : u ∈ spec.units ns)
    (hface : spec.face? f u = some t) : c ∉ t := by
  obtain ⟨n, hn, -, rfl⟩ | ⟨n, text, htext, -, rfl⟩ | ⟨n, text, htext, -, rfl⟩ :=
    face_cases hu hface
  · exact notMem_escaped hc (hns n hn)
  · exact hf _ (mem_append_left _ (mem_of_find? htext))
  · exact hf _ (mem_append_right _ (mem_of_find? htext))

theorem notMem_showField (hf : ∀ e ∈ f.letters.entries ++ f.kanji.entries, c ∉ e.2.toList)
    (hns : ∀ n ∈ ns, n < 0x100) (hc : c ∈ ['\r', '\n']) (hshow : showField f spec ns = .ok text) :
    c ∉ text.toList := by
  obtain ⟨parts, hparts, hflat⟩ := showField_ok_iff.1 hshow
  rw [← hflat, mem_flatten]
  rintro ⟨t, ht, hmem⟩
  obtain ⟨u, hu, hface⟩ := exists_of_forall₂ hparts ht
  exact notMem_face hf hns hc hu hface hmem

theorem trim_showField (hf : f.Distinct) (hns : ∀ n ∈ ns, n < 0x100)
    (hshow : showField f spec ns = .ok text) :
    Text.trim (fun c => c == '\r' || c == '\n') text.toList = text.toList := by
  refine trim_eq_self fun c hc => ?_
  by_contra hend
  have hmem : c ∈ ['\r', '\n'] := by
    rw [Bool.not_eq_false] at hend
    simpa using hend
  exact notMem_showField (fun e he => hf.unbroken e he c hmem) hns hmem hshow hc

/-! ### Codes in the image -/

/-- The code that is added behind codes: the end code if it is not among them. -/
def FieldSpec.ending (spec : FieldSpec) (ns : List Nat) : List Nat :=
  spec.stop.toList.filter fun stop => .letter stop ∉ spec.units ns

theorem stopAt?_eq_some (h : stopAt? image stop pos = some last) :
    ∃ body, Holds image pos (body ++ [stop.toUInt8]) ∧ last = pos + body.length ∧ stop < 0x100 ∧
      stop ∉ body.map UInt8.toNat := by
  fun_induction stopAt? image stop pos with
  | case1 pos hpos hbyte =>
    obtain rfl := Option.some.inj h
    refine ⟨[], ?_, rfl, hbyte ▸ image[pos].toNat_lt, not_mem_nil⟩
    rw [← hbyte]
    simpa using Tileset.holds_singleton hpos
  | case2 pos hpos hbyte ih =>
    obtain ⟨body, hheld, rfl, hlt, hbody⟩ := ih h
    refine ⟨image[pos] :: body, ?_, ?_, hlt, ?_⟩
    · exact Tileset.holds_append (l := [image[pos]]).2 ⟨Tileset.holds_singleton hpos, hheld⟩
    · rw [length_cons]
      omega
    · rw [map_cons, mem_cons, not_or]
      exact ⟨Ne.symm hbyte, hbody⟩
  | case3 pos hpos => cases h

theorem holds_of_bytesAt
    (h : ((List.range n).mapM fun i => Bytes.byteAt image (pos + i)) = .ok ns) :
    ∃ bytes, Holds image pos bytes ∧ bytes.length = n ∧ bytes.map UInt8.toNat = ns := by
  have hlength : n ≤ image.size - pos := by
    cases n with
    | zero => exact Nat.zero_le _
    | succ k =>
      obtain ⟨b, -, hb⟩ := exists_mem_of_mapM h (mem_range.2 (Nat.lt_succ_self k))
      unfold Bytes.byteAt at hb
      split_ifs at hb with hlt
      omega
  have hheld : Holds image pos ((image.data.toList.drop pos).take n) := take_prefix _ _
  have htaken : ((image.data.toList.drop pos).take n).length = n := by
    rw [length_take, length_drop]
    exact Nat.min_eq_left hlength
  have hread := Bytes.bytesAt_of_holds hheld
  rw [htaken, h] at hread
  exact ⟨_, hheld, htaken, (Except.ok.inj hread).symm⟩

/-- **What is read of a field**: as many codes as its size says, or those before its end code; in
their place the end code itself if there are none. -/
theorem readCodes_cases (hread : readCodes image spec pos = .ok (ns, next)) :
    ∃ bytes, Holds image pos bytes ∧ next = pos + bytes.length ∧
      (spec.size = some bytes.length ∧ bytes.map UInt8.toNat = ns ∨
        spec.size = none ∧ ∃ stop, spec.stop = some stop ∧
          (bytes.map UInt8.toNat = [stop] ∧ ns = [stop] ∨
            bytes.map UInt8.toNat = ns ++ [stop] ∧ stop ∉ ns)) := by
  unfold readCodes at hread
  cases hsize : spec.size with
  | some n =>
    simp only [hsize, bind_ok_iff, pure_ok_iff, Prod.mk.injEq] at hread
    obtain ⟨ns', hbytes, rfl, rfl⟩ := hread
    obtain ⟨bytes, hheld, rfl, rfl⟩ := holds_of_bytesAt hbytes
    exact ⟨bytes, hheld, rfl, .inl ⟨rfl, rfl⟩⟩
  | none =>
    simp only [hsize, bind_ok_iff, demand_ok_iff, pure_ok_iff, Prod.mk.injEq] at hread
    obtain ⟨stop, hstop, last, hlast, hcodes, rfl⟩ := hread
    obtain ⟨body, hheld, rfl, hlt, hbody⟩ := stopAt?_eq_some hlast
    refine ⟨body ++ [stop.toUInt8], hheld, ?_, .inr ⟨rfl, stop, hstop, ?_⟩⟩
    · rw [length_append, length_singleton, Nat.add_assoc]
    · rw [(Tileset.holds_append.1 hheld).1.extract, data_toByteArray] at hcodes
      have hbyte : [stop.toUInt8].map UInt8.toNat = [stop] := by
        simp [Nat.mod_eq_of_lt hlt]
      rw [map_append, hbyte]
      -- A field that has no codes is read as its end code.
      cases body with
      | nil => exact .inl ⟨rfl, hcodes.symm⟩
      | cons b body =>
        obtain rfl : (b :: body).map UInt8.toNat = ns := hcodes
        exact .inr ⟨rfl, hbody⟩

theorem lt_of_readCodes (hread : readCodes image spec pos = .ok (ns, next)) :
    ∀ n ∈ ns, n < 0x100 := by
  obtain ⟨bytes, -, -, hcases⟩ := readCodes_cases hread
  have hsubset : ns ⊆ bytes.map UInt8.toNat := by
    obtain ⟨-, hbytes⟩ | ⟨-, stop, -, ⟨hbytes, rfl⟩ | ⟨hbytes, -⟩⟩ := hcases
    · rw [hbytes]
      exact List.Subset.refl _
    · rw [hbytes]
      exact List.Subset.refl _
    · rw [hbytes]
      exact subset_append_left _ _
  intro n hn
  obtain ⟨b, -, rfl⟩ := mem_map.1 (hsubset hn)
  exact b.toNat_lt

theorem FieldSpec.letter_mem_units_singleton (spec : FieldSpec) (n : Nat) :
    .letter n ∈ spec.units [n] := by
  unfold units
  split <;> simp [unitsOf]

theorem FieldSpec.mem_of_letter_mem_units (h : .letter n ∈ spec.units ns) : n ∈ ns := by
  obtain ⟨m, hm, heq⟩ | ⟨-, m, -, heq⟩ := exists_of_mem_units h
  · obtain rfl := Int.ofNat.inj (Code.letter.inj heq)
    exact hm
  · cases heq

theorem FieldSpec.ending_eq_nil (h : ∀ stop ∈ spec.stop, .letter (stop : Nat) ∈ spec.units ns) :
    spec.ending ns = [] := by
  refine filter_eq_nil_iff.2 fun stop hmem => ?_
  simpa using h stop (by simpa using hmem)

theorem FieldSpec.ending_eq_stop (hstop : spec.stop = some stop)
    (h : .letter stop ∉ spec.units ns) : spec.ending ns = [stop] := by
  simp [ending, hstop, h]

/-- **The bytes of a field** are its codes and the end code that these lack, as many as its size
says if that is fixed. -/
theorem holds_of_readCodes (hread : readCodes image spec pos = .ok (ns, next))
    (hstop : spec.size.isSome → ∀ stop ∈ spec.stop, .letter (stop : Nat) ∈ spec.units ns) :
    ∃ bytes, Holds image pos bytes ∧ next = pos + bytes.length ∧
      bytes.map UInt8.toNat = ns ++ spec.ending ns ∧ ∀ n ∈ spec.size, bytes.length = n := by
  obtain ⟨bytes, hheld, hnext, hcases⟩ := readCodes_cases hread
  refine ⟨bytes, hheld, hnext, ?_⟩
  obtain ⟨hsize, hbytes⟩ | ⟨hsize, stop, hspec, hcases⟩ := hcases
  · rw [hsize] at hstop ⊢
    rw [ending_eq_nil (hstop rfl), append_nil]
    exact ⟨hbytes, fun n hn => Option.some.inj hn⟩
  · refine ⟨?_, by simp [hsize]⟩
    obtain ⟨hbytes, rfl⟩ | ⟨hbytes, hmem⟩ := hcases
    · rw [hbytes, ending_eq_nil, append_nil]
      intro stop' hstop'
      obtain rfl := Option.some.inj (hspec.symm.trans hstop')
      exact spec.letter_mem_units_singleton stop
    · rw [hbytes, ending_eq_stop hspec fun h => hmem (mem_of_letter_mem_units h)]

/-! ### Building -/

@[simp] theorem Spec.number_none : number none = .none := rfl

@[simp] theorem Spec.number_some (n : Nat) : number (some n) = .int n := rfl

theorem same_number (u : Code) (n : Nat) : (valueOf u).same (.int n) = decide (u = .letter n) := by
  cases u with
  | letter m => simp [valueOf, Value.same, Value.whole?, eq_comm]
  | kanji m => simp [valueOf, Value.same, Value.whole?]

theorem ended_units (spec : FieldSpec) (ns : List Nat) :
    ended (spec.units ns) (Spec.number spec.stop) =
      (ns ++ spec.ending ns).map fun n : Nat => .int n := by
  rw [ended, spec.numbers_units]
  cases hstop : spec.stop with
  | none => simp [Value.isNone, ending, hstop]
  | some stop =>
    have hany : (spec.units ns).any (fun u => (valueOf u).same (.int stop)) =
        decide (.letter stop ∈ spec.units ns) := by
      rw [Bool.eq_iff_iff]
      simp [same_number]
    simp only [Spec.number_some, Value.isNone, Bool.false_or, hany, decide_eq_true_eq]
    split_ifs with hmem
    · rw [ending_eq_nil, append_nil, map_map]
      · rfl
      · rintro stop' hstop'
        obtain rfl := Option.some.inj (hstop.symm.trans hstop')
        exact hmem
    · rw [ending_eq_stop hstop hmem, map_append, map_map]
      rfl

theorem filled_number {size : Option Nat} {values : List Value}
    (h : ∀ n ∈ size, values.length = n) (fill : Value) :
    filled values (Spec.number size) fill = .ok values := by
  cases size with
  | none => rfl
  | some n =>
    obtain rfl := h n rfl
    simp [filled, Except.mapError, bind, Except.bind, pure, Except.pure]

theorem mapM_toByte (bytes : List UInt8) :
    ((bytes.map UInt8.toNat).map fun n : Nat => Value.int n).mapM Value.toByte = .ok bytes := by
  induction bytes with
  | nil => rfl
  | cons b bytes ih =>
    have hbyte : Value.toByte (.int b.toNat) = .ok b := Bytes.byteOf_toNat b
    rw [map_cons, map_cons, mapM_cons, ih, hbyte]
    rfl

/-- **Fields are built as they were read.**  With characters that can be told apart a field of any
kind has a text exactly if it holds numbers or every mark in it has a known kanji behind it, and
building the text gives the bytes from the start of the field to where reading went on.  For a field
of fixed size its end code, if it has one, must be in it, and not as part of a kanji. -/
theorem encodeField_of_readCodes (hf : f.Distinct)
    (hread : readCodes image spec pos = .ok (ns, next))
    (hstop : spec.size.isSome → ∀ stop ∈ spec.stop, .letter (stop : Nat) ∈ spec.units ns) :
    ((∃ text, showField f spec ns = .ok text) ↔
      spec.numeric = true ∨ ∀ u ∈ unitsOf ns, (f.face? u).isSome) ∧
    ∃ bytes, Holds image pos bytes ∧ next = pos + bytes.length ∧
      ∀ text, showField f spec ns = .ok text →
        Text.trim (fun c => c == '\r' || c == '\n') text.toList = text.toList ∧
        encodeField f.lettering text.toList (Spec.number spec.stop)
          (.tuple [Spec.number spec.size, Spec.number spec.fill]) = .ok bytes := by
  obtain ⟨bytes, hheld, hnext, hbytes, hsize⟩ := holds_of_readCodes hread hstop
  have hns := lt_of_readCodes hread
  refine ⟨exists_showField_iff, bytes, hheld, hnext, fun text hshow => ?_⟩
  refine ⟨trim_showField hf hns hshow, ?_⟩
  have hfilled : filled (ended (spec.units ns) (Spec.number spec.stop)) (Spec.number spec.size)
      (Spec.number spec.fill) = .ok ((bytes.map UInt8.toNat).map fun n : Nat => .int n) := by
    rw [ended_units, ← hbytes]
    exact filled_number (by simpa using hsize) _
  rw [encodeField, codes_showField hf hns hshow]
  simp only [Value.isNone, Bool.and_false, Bool.false_eq_true, if_false, sizeOf, Value.elements,
    bind, Except.bind, Except.mapError, pure, Except.pure, hfilled, mapM_toByte]

/-- A letter, a kanji, an escape, the end code and a filling. -/
theorem encodeField_of_readCodes_filled :
    let f : Faces := ⟨⟨[(0, " "), (1, "A")]⟩, ⟨[(5, "木")]⟩⟩
    let spec := FieldSpec.fixedText 6
    let stored : List UInt8 := [0x01, 0xD3, 0x05, 0xFE, 0xCB, 0x00]
    let ns := [0x01, 0xD3, 0x05, 0xFE, 0xCB, 0x00]
    f.Distinct ∧ readCodes stored.toByteArray spec 0 = .ok (ns, 6) ∧
      (∀ stop ∈ spec.stop, .letter (stop : Nat) ∈ spec.units ns) ∧
      showField f spec ns = .ok "A木\\xfe\\xcb " ∧
      encodeField f.lettering "A木\\xfe\\xcb ".toList (.int 0xCB) (.tuple [.int 6, .int 0]) =
        .ok stored := by
  intro f spec stored ns
  have hf : f.Distinct := by
    refine ⟨⟨?_, by decide⟩, by decide, by decide, by simp [f]⟩
    simp only [f, List.cons_append, List.nil_append, List.forall_mem_cons]
    exact ⟨⟨' ', by decide⟩, ⟨'A', by decide⟩, ⟨'木', by decide⟩, by simp⟩
  have hread : readCodes stored.toByteArray spec 0 = .ok (ns, 6) := by decide
  have hstop : ∀ stop ∈ spec.stop, .letter (stop : Nat) ∈ spec.units ns := by decide
  have hshow : showField f spec ns = .ok "A木\\xfe\\xcb " := by decide
  refine ⟨hf, hread, hstop, hshow, ?_⟩
  obtain ⟨-, bytes, hheld, hnext, hbuild⟩ := encodeField_of_readCodes hf hread fun _ => hstop
  have hbytes : bytes = stored := by
    refine List.IsPrefix.eq_of_length ?_ (by rw [Nat.zero_add] at hnext; exact hnext.symm)
    simpa [Holds] using hheld
  rw [← hbytes]
  exact (hbuild _ hshow).2

end Cartridge.PointerList
