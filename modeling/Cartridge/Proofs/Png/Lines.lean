import Cartridge.Proofs.Png.Written

/-!
# Lines of samples and their bytes

A line of samples takes as many bytes as its depth asks for (`lineBytes`), and it is found in them
again.  A sink gives a line these bytes, and if the samples are none that it can take in full it says
so: a line that it takes always has as many bytes as a reader expects.

* `unpackLine_lineBytes`: a line is found in its bytes again.
* `unpackLines_eq`: the two ways of taking samples out of the bytes of one line agree.
* `Sink.adds_ofDepth`: samples that fit the depth are added as these bytes.
* `Sink.length_added`: whatever is added without a fault has the length of a line.
-/

open List

namespace Cartridge.Png

open Row

variable {depth : Nat} {sink : Sink}

/-! ### Bytes of a line -/

section Bytes

variable {width n : Nat} {ns : List Nat} {bytes : List UInt8}

def IsDepth (depth : Nat) : Prop := depth ∈ [1, 2, 4, 8, 16]

theorem IsDepth.cases (h : IsDepth depth) :
    depth = 8 ∨ depth = 16 ∨ depth < 8 ∧ depth ≠ 0 ∧ depth * perByte depth = 8 := by
  simp only [IsDepth, mem_cons, not_mem_nil, or_false] at h
  rcases h with rfl | rfl | rfl | rfl | rfl <;> decide

def lineBytes (depth : Nat) (ns : List Nat) : List UInt8 :=
  if depth = 8 then ns.map Nat.toUInt8
  else if depth = 16 then ns.flatMap (bigEndian 2)
  else (packSamples depth ns).map Nat.toUInt8

theorem length_flatMap_bigEndian (size : Nat) (ns : List Nat) :
    (ns.flatMap (bigEndian size)).length = ns.length * size := by
  induction ns with
  | nil => simp
  | cons n ns ih =>
    rw [flatMap_cons, length_append, length_bigEndian, ih, length_cons, Nat.succ_mul, Nat.add_comm]

theorem length_lineBytes (hdepth : IsDepth depth) (ns : List Nat) :
    (lineBytes depth ns).length = (ns.length * depth + 7) / 8 := by
  rw [lineBytes]
  obtain rfl | rfl | ⟨hlt, -, hfull⟩ := hdepth.cases
  · rw [if_pos rfl, length_map]
    omega
  · rw [if_neg (by decide), if_pos rfl, length_flatMap_bigEndian]
    omega
  · rw [if_neg (by omega), if_neg (by omega), length_map, length_packSamples hfull]

/-! ### Samples of a line -/

theorem unpackWords_flatMap (h : ∀ n ∈ ns, n < 2 ^ 16) :
    unpackWords (ns.flatMap (bigEndian 2)) = .ok ns := by
  induction ns with
  | nil => rfl
  | cons n ns ih =>
    obtain ⟨hn, hns⟩ := forall_mem_cons.1 h
    have hword : (n / 0x100 % 0x100).toUInt8.toNat * 0x100 + (n % 0x100).toUInt8.toNat = n := by
      simp
      omega
    have hbytes : bigEndian 2 n = [(n / 0x100 % 0x100).toUInt8, (n % 0x100).toUInt8] := by
      simp [bigEndian]
    rw [flatMap_cons, hbytes]
    simp only [cons_append, nil_append, unpackWords, ih hns, hword]
    rfl

theorem exists_unpackWords (h : bytes.length = 2 * n) :
    ∃ ns, unpackWords bytes = .ok ns ∧ ns.length = n := by
  induction n generalizing bytes with
  | zero =>
    obtain rfl := eq_nil_of_length_eq_zero h
    exact ⟨[], rfl, rfl⟩
  | succ n ih =>
    obtain ⟨a, tail, rfl⟩ := exists_cons_of_length_eq_add_one (n := 2 * n + 1) h
    rw [length_cons, Nat.mul_succ, Nat.add_right_cancel_iff] at h
    obtain ⟨b, rest, rfl⟩ := exists_cons_of_length_eq_add_one h
    obtain ⟨ns, hns, hlength⟩ := ih (Nat.add_right_cancel h)
    refine ⟨(a.toNat * 0x100 + b.toNat) :: ns, ?_, by rw [length_cons, hlength]⟩
    rw [unpackWords, hns]
    rfl

theorem length_mul_perByte (hlt : depth < 8) (hpos : depth ≠ 0) (hfull : depth * perByte depth = 8)
    (hbytes : bytes.length = (width * depth + 7) / 8) :
    width ≤ bytes.length * perByte depth ∧
      bytes.length * perByte depth < width + perByte depth := by
  interval_cases depth <;>
    simp only [perByte, Nat.reduceDiv, Nat.reduceMul] at hfull hpos ⊢ <;> omega

theorem length_unpackSamples (depth : Nat) (bytes : List UInt8) :
    (unpackSamples depth bytes).length = bytes.length * perByte depth := by
  have hone : ∀ b ∈ bytes, (samplesOf depth b).length = perByte depth := fun b _ => by
    simp [samplesOf]
  rw [unpackSamples, length_flatMap, map_congr_left hone, map_const', sum_replicate_nat]

theorem unpackLine_lineBytes (hdepth : IsDepth depth) (hns : ∀ n ∈ ns, n < 2 ^ depth)
    (hwidth : depth < 8 → ns.length = width) :
    unpackLine depth width (lineBytes depth ns) = .ok ns := by
  obtain rfl | rfl | ⟨hlt, -, hfull⟩ := hdepth.cases
  · have hbytes : (ns.map Nat.toUInt8).map UInt8.toNat = ns := by
      rw [map_map]
      exact (map_congr_left fun n hn => Nat.mod_eq_of_lt (hns n hn)).trans (map_id ns)
    rw [unpackLine, if_pos rfl, lineBytes, if_pos rfl, hbytes]
  · rw [unpackLine, if_neg (by decide), if_pos rfl, lineBytes, if_neg (by decide), if_pos rfl,
      unpackWords_flatMap hns]
  · rw [lineBytes, if_neg (by omega), if_neg (by omega), ← hwidth hlt,
      unpackLine_packSamples hfull hlt hns]

theorem exists_unpackLine (hdepth : IsDepth depth) (hbytes : bytes.length = (n * depth + 7) / 8)
    (hwidth : depth < 8 → n = width) :
    ∃ ns, unpackLine depth width bytes = .ok ns ∧ ns.length = n := by
  obtain rfl | rfl | ⟨hlt, hpos, hfull⟩ := hdepth.cases
  · refine ⟨bytes.map UInt8.toNat, by rw [unpackLine, if_pos rfl], ?_⟩
    rw [length_map]
    omega
  · exact exists_unpackWords (by omega)
  · obtain rfl := hwidth hlt
    refine ⟨_, by rw [unpackLine, if_neg (by omega), if_neg (by omega), if_neg (by omega),
      if_neg hpos], ?_⟩
    have hwhole := (length_mul_perByte hlt hpos hfull hbytes).1
    rw [length_take, length_unpackSamples, Nat.min_eq_left hwhole]

theorem signedTake_natCast {α : Type} (xs : List α) (n : Nat) : Signed.take xs n = xs.take n := by
  rw [Signed.take, Signed.cutAt, if_neg (by omega), Int.toNat_natCast, ← take_eq_take_min]

theorem takeLines_eq {left : Nat} (hleft : bytes.length * perByte depth < left + perByte depth)
    (width : Int) :
    takeLines depth width left bytes = (unpackSamples depth bytes).take left := by
  induction bytes generalizing left with
  | nil => rw [takeLines, unpackSamples, flatMap_nil, take_nil]
  | cons b rest ih =>
    have hone : (samplesOf depth b).length = perByte depth := by simp [samplesOf]
    rw [length_cons, Nat.succ_mul] at hleft
    rw [takeLines, signedTake_natCast, unpackSamples, flatMap_cons, ← unpackSamples,
      take_append, hone]
    by_cases hlast : left ≤ perByte depth
    · -- no byte follows the last sample
      have hrest : rest.length = 0 := by
        by_contra hne
        have := Nat.mul_le_mul_right (perByte depth) (Nat.one_le_iff_ne_zero.2 hne)
        omega
      obtain rfl := eq_nil_of_length_eq_zero hrest
      rw [takeLines, unpackSamples, flatMap_nil, take_nil]
    · have hnext : (left : Int) - (perByte depth : Nat) = ((left - perByte depth : Nat) : Int) := by
        omega
      rw [hnext, if_neg (by omega), ih (by omega)]

theorem unpackLines_eq (hdepth : IsDepth depth)
    (hbytes : depth < 8 → bytes.length = (width * depth + 7) / 8) :
    unpackLines depth width bytes = unpackLine depth width bytes := by
  obtain rfl | rfl | ⟨hlt, hpos, hfull⟩ := hdepth.cases
  · rfl
  · rfl
  · have hwhole := (length_mul_perByte hlt hpos hfull (hbytes hlt)).2
    rw [unpackLines, if_neg (by omega), if_neg (by omega), if_neg (by omega), if_neg (by omega),
      if_neg (by omega), Int.toNat_natCast, takeLines_eq hwhole, unpackLine, if_neg (by omega),
      if_neg (by omega), if_neg (by omega), if_neg hpos]

end Bytes

/-! ### Rows -/

section Rows

variable {α : Type} {f : Value → Except Fault α} {row : Row} {vs : List Value}

def widthOf (depth : Nat) : Width := if 8 < depth then .short else .byte

/-- A row that can be read as often as needed, with its elements: a list, or an array of the width
that the depth asks for. -/
inductive Row.Plain (depth : Nat) : Row → List Value → Prop
  | list (vs : List Value) : Plain depth (.whole (.list vs)) vs
  | array (ns : List Nat) : Plain depth (.whole (.array (widthOf depth) ns))
      (ns.map fun (n : Nat) => .int n)

theorem Row.forall_of_readWhile (h : (readWhile f (vs.map .ok)).2.1 = .ok ()) :
    List.Forall₂ (fun v a => f v = .ok a) vs (readWhile f (vs.map .ok)).1 := by
  induction vs with
  | nil => exact .nil
  | cons v vs ih =>
    have hbind : (Except.ok v : Except Fault Value).bind f = f v := rfl
    rw [map_cons, readWhile, hbind] at h ⊢
    cases hv : f v with
    | error fault =>
      simp only [hv] at h
      cases h
    | ok a =>
      simp only [hv] at h ⊢
      exact .cons hv (ih h)

theorem Row.length_readWhile (h : (readWhile f (vs.map .ok)).2.1 = .ok ()) :
    (readWhile f (vs.map .ok)).1.length = vs.length :=
  (forall_of_readWhile h).length_eq.symm

theorem Row.readWhile_cutToInt (ks : List Int) :
    readWhile cutToInt ((ks.map Value.int).map .ok) = (ks.map .int, .ok (), []) := by
  refine readWhile_of_forall ?_
  rw [forall₂_same]
  intro v hv
  obtain ⟨k, -, rfl⟩ := mem_map.1 hv
  rfl

end Rows

theorem length_fieldOf {n : Nat} {v : Value} {field : List UInt8} (h : fieldOf n v = .ok field) :
    field.length = n := by
  rw [fieldOf] at h
  split at h
  · cases h
  · split_ifs at h
    obtain rfl := Except.ok.inj h
    exact length_bigEndian ..

/-! ### Sinks -/

namespace Sink

variable {row : Row} {vs : List Value} {g : Value → Except Fault Value} {fault : Fault}

def ofDepth (depth : Nat) : Sink :=
  if depth == 8 then bytes else if depth == 16 then words else packed depth

theorem ofDepth_of_lt (h : depth < 8) : ofDepth depth = packed depth := by
  have h8 : (depth == 8) = false := beq_eq_false_iff_ne.2 (by omega)
  have h16 : (depth == 16) = false := beq_eq_false_iff_ne.2 (by omega)
  rw [ofDepth, h8, h16]
  rfl

theorem packed_plain (hrow : row.Plain depth vs) (n : Nat) :
    packed n row =
      match (readWhile (numberBelow 0x100) (vs.map .ok)).2.1 with
      | .error fault => ⟨[], .error fault, row⟩
      | .ok _ => numbers row (packSamples n (readWhile (numberBelow 0x100) (vs.map .ok)).1) := by
  cases hrow <;> rfl

theorem words_plain (hrow : row.Plain depth vs) :
    words row =
      match vs.mapM (fieldOf 2) with
      | .error fault => ⟨[], .error fault, row⟩
      | .ok fields => ⟨fields.flatten, .ok (), row⟩ := by
  cases hrow <;> rfl

theorem mapped_plain (hrow : row.Plain depth vs) (g : Value → Except Fault Value) (sink : Sink) :
    mapped g sink row =
      match (readWhile g (vs.map .ok)).2.1 with
      | .error fault => ⟨[], .error fault, row⟩
      | .ok _ => ⟨(sink (.whole (.list (readWhile g (vs.map .ok)).1))).added,
          (sink (.whole (.list (readWhile g (vs.map .ok)).1))).outcome, row⟩ := by
  cases hrow <;> rfl

/-- What a writer relies on: a line that is added without a fault has its full length, the row can be
read again, and a fault is a matter of the elements only. -/
structure Faithful (sink : Sink) (depth : Nat) : Prop where
  length : ∀ {row vs}, row.Plain depth vs → (sink row).outcome = .ok () →
    (sink row).added.length = (vs.length * depth + 7) / 8
  left : ∀ {row vs}, row.Plain depth vs → (sink row).left = row
  list : ∀ {row vs fault}, row.Plain depth vs → (sink row).outcome = .error fault →
    (sink (.whole (.list vs))).outcome = .error fault

theorem faithful_bytes : Faithful bytes 8 where
  length := by
    intro row vs hrow hok
    have hlength : (bytes row).added.length = vs.length := by
      cases hrow with
      | list vs => exact length_readWhile hok
      | array ns => exact (length_map _).trans (length_map _).symm
    omega
  left := by
    intro row vs hrow
    cases hrow <;> rfl
  list := by
    intro row vs fault hrow hfail
    cases hrow with
    | list vs => exact hfail
    | array ns => cases hfail

theorem faithful_words : Faithful words 16 where
  length := by
    intro row vs hrow hok
    rw [words_plain hrow] at hok ⊢
    cases hfields : vs.mapM (fieldOf 2) with
    | error fault =>
      rw [hfields] at hok
      cases hok
    | ok fields =>
      have htwo : ∀ field ∈ fields, field.length = 2 := by
        intro field hfield
        obtain ⟨v, -, hv⟩ := exists_of_mem_mapM hfields hfield
        exact length_fieldOf hv
      have hlength : fields.flatten.length = vs.length * 2 := by
        rw [(mapM_ok_iff.1 hfields).length_eq, List.length_flatten, map_congr_left htwo,
          map_const', sum_replicate_nat]
      simp only [hlength]
      omega
  left := by
    intro row vs hrow
    rw [words_plain hrow]
    split <;> rfl
  list := by
    intro row vs fault hrow hfail
    have hlist : Plain 16 (.whole (.list vs)) vs := .list vs
    rw [words_plain hlist]
    rw [words_plain hrow] at hfail
    split at hfail <;> exact hfail

theorem faithful_packed (hfull : depth * perByte depth = 8) : Faithful (packed depth) depth where
  length := by
    intro row vs hrow hok
    rw [packed_plain hrow] at hok ⊢
    cases hread : (readWhile (numberBelow 0x100) (vs.map .ok)).2.1 with
    | error fault =>
      rw [hread] at hok
      cases hok
    | ok u =>
      rw [hread] at hok
      rw [← length_readWhile hread, ← length_packSamples hfull]
      simp only [numbers] at hok ⊢
      split_ifs at hok with hfine
      rw [length_map, hfine]
  left := by
    intro row vs hrow
    rw [packed_plain hrow]
    split <;> rfl
  list := by
    intro row vs fault hrow hfail
    have hlist : Plain depth (.whole (.list vs)) vs := .list vs
    rw [packed_plain hlist]
    rw [packed_plain hrow] at hfail
    split at hfail <;> exact hfail

theorem faithful_ofDepth (hdepth : IsDepth depth) : Faithful (ofDepth depth) depth := by
  obtain rfl | rfl | ⟨hlt, -, hfull⟩ := hdepth.cases
  · exact faithful_bytes
  · exact faithful_words
  · rw [ofDepth_of_lt hlt]
    exact faithful_packed hfull

theorem Faithful.mapped (h : sink.Faithful depth) (g : Value → Except Fault Value) :
    (Sink.mapped g sink).Faithful depth where
  length := by
    intro row vs hrow hok
    rw [mapped_plain hrow] at hok ⊢
    cases hread : (readWhile g (vs.map .ok)).2.1 with
    | error fault =>
      rw [hread] at hok
      cases hok
    | ok u =>
      rw [hread] at hok
      rw [← length_readWhile hread]
      exact h.length (.list _) hok
  left := by
    intro row vs hrow
    rw [mapped_plain hrow]
    split <;> rfl
  list := by
    intro row vs fault hrow hfail
    have hlist : Plain depth (.whole (.list vs)) vs := .list vs
    rw [mapped_plain hlist]
    rw [mapped_plain hrow] at hfail
    split at hfail <;> exact hfail

theorem Faithful.fails_again (h : sink.Faithful depth) {ks : List Int}
    (hrow : row.Plain depth (ks.map .int)) (hfail : (sink row).outcome = .error fault) :
    (Sink.mapped cutToInt sink (sink row).left).outcome = .error fault := by
  rw [h.left hrow, mapped_plain hrow, readWhile_cutToInt]
  exact h.list hrow hfail

theorem adds_ofDepth {ns : List Nat} (hdepth : IsDepth depth) (hns : ∀ n ∈ ns, n < 2 ^ depth)
    (hrow : row.Plain depth vs) (hvs : vs = ns.map fun (n : Nat) => Value.int n) :
    (ofDepth depth).Adds row (lineBytes depth ns) := by
  have hread : ∀ {bound}, 2 ^ depth ≤ bound →
      List.Forall₂ (fun v n => numberBelow bound v = .ok n) vs ns := by
    intro bound hbound
    rw [hvs, forall₂_map_left_iff, forall₂_same]
    exact fun n hn => numberBelow_int (Nat.lt_of_lt_of_le (hns n hn) hbound)
  rw [lineBytes]
  obtain rfl | rfl | ⟨hlt, -, hfull⟩ := hdepth.cases
  · cases hrow with
    | list vs =>
      have hbytes : List.Forall₂ (fun v b => byteOf v = .ok b) vs (ns.map Nat.toUInt8) := by
        rw [forall₂_map_right_iff]
        exact (hread Nat.le.refl).imp fun v n hn => map_ok_iff.2 ⟨n, hn, rfl⟩
      have hwhole := readWhile_of_forall hbytes
      exact ⟨congrArg Prod.fst hwhole, congrArg (·.2.1) hwhole⟩
    | array ms =>
      obtain rfl : ms = ns := map_injective_iff.2 (fun a b hab => by simpa using hab) hvs
      exact ⟨rfl, rfl⟩
  · have hfields : vs.mapM (fieldOf 2) = .ok (ns.map (bigEndian 2)) := by
      rw [mapM_ok_iff, hvs, forall₂_map_left_iff, forall₂_map_right_iff, forall₂_same]
      exact fun n hn => fieldOf_int (hns n hn)
    show words.Adds row _
    constructor <;> rw [words_plain hrow, hfields]
    exact flatMap_def.symm
  · have hbound : 2 ^ depth ≤ 0x100 := Nat.pow_le_pow_right (n := 2) (by decide) hlt.le
    have hfine : (packSamples depth ns).takeWhile (· < 0x100) = packSamples depth ns := by
      rw [takeWhile_eq_self_iff]
      exact fun b hb => decide_eq_true (lt_of_mem_packSamples hfull hns hb)
    rw [if_neg (by omega), if_neg (by omega), ofDepth_of_lt hlt]
    constructor <;> rw [packed_plain hrow, readWhile_of_forall (hread hbound)] <;>
      simp only [numbers, hfine, if_true]

end Sink

/-! ### Writers -/

namespace Writer

variable {w : Writer} {sink : Sink} {rows : List Row} {parts : List (List UInt8)} {n : Nat}
  {left : Rows}

theorem sink_eq (w : Writer) : w.sink false =
    match w.rescale with
    | none => Sink.ofDepth w.depth
    | some (given, target) =>
      Sink.mapped (scaled (scaleFactor given target)) (Sink.ofDepth w.depth) := rfl

theorem faithful_sink (hdepth : IsDepth w.depth) : (w.sink false).Faithful w.depth := by
  rw [sink_eq]
  split
  · exact Sink.faithful_ofDepth hdepth
  · exact (Sink.faithful_ofDepth hdepth).mapped _

theorem exists_of_addRows {data : Array UInt8} {count : Nat}
    (h : w.addRows sink data count (rows.map .ok) = (.ok (parts, n), left)) :
    ∃ bytes, List.Forall₂ sink.Adds rows bytes ∧
      parts.flatten = data.toList ++ bytes.flatMap (0 :: ·) ∧ n = count + rows.length := by
  induction rows generalizing data count parts n with
  | nil =>
    obtain ⟨hparts, rfl⟩ := Prod.mk.inj h
    obtain ⟨rfl, rfl⟩ := Prod.mk.inj (Except.ok.inj hparts)
    exact ⟨[], .nil, by simp, rfl⟩
  | cons row rows ih =>
    rw [map_cons, addRows] at h
    cases hout : (sink row).outcome with
    | error fault =>
      rw [hout] at h
      cases (Prod.mk.inj h).1
    | ok u =>
      set data' := data.push 0 ++ (sink row).added.toArray with hdata'
      have hdata : data'.toList = data.toList ++ 0 :: (sink row).added := by simp [hdata']
      rw [hout] at h
      cases hbelow : w.chunkLimit.isBelow data'.size with
      | error fault =>
        rw [hbelow] at h
        cases (Prod.mk.inj h).1
      | ok below =>
        rw [hbelow] at h
        cases below with
        | false =>
          obtain ⟨bytes, hall, hflat, rfl⟩ := ih h
          refine ⟨(sink row).added :: bytes, .cons ⟨rfl, hout⟩ hall, ?_, ?_⟩
          · rw [hflat, hdata, flatMap_cons, append_assoc]
          · rw [length_cons]
            omega
        | true =>
          -- the bytes so far are a part of their own
          obtain ⟨hresult, rfl⟩ := Prod.mk.inj h
          obtain ⟨r, hr, hparts⟩ := map_ok_iff.1 hresult
          obtain ⟨rfl, rfl⟩ := Prod.mk.inj hparts
          obtain ⟨bytes, hall, hflat, hcount⟩ := ih (Prod.ext hr rfl)
          refine ⟨(sink row).added :: bytes, .cons ⟨rfl, hout⟩ hall, ?_, ?_⟩
          · rw [flatten_cons, hflat, hdata, append_assoc]
            rfl
          · rw [length_cons]
            omega

theorem exists_of_encodeRows (hdepth : IsDepth w.depth)
    (hrows : ∀ row ∈ rows, ∃ ks : List Int, row.Plain w.depth (ks.map .int))
    (h : w.encodeRows false (rows.map .ok) = (.ok (parts, n), left)) :
    rows ≠ [] ∧ ∃ bytes, List.Forall₂ (w.sink false).Adds rows bytes ∧
      parts.flatten = bytes.flatMap (0 :: ·) ∧ n = rows.length := by
  cases rows with
  | nil => cases (Prod.mk.inj h).1
  | cons row rows =>
    refine ⟨cons_ne_nil _ _, ?_⟩
    rw [map_cons, encodeRows] at h
    simp only at h
    cases hout : (w.sink false row).outcome with
    | error fault =>
      obtain ⟨ks, hrow⟩ := hrows row mem_cons_self
      rw [hout, (faithful_sink hdepth).fails_again hrow hout] at h
      cases (Prod.mk.inj h).1
    | ok u =>
      rw [hout] at h
      obtain ⟨bytes, hall, hflat, rfl⟩ := exists_of_addRows h
      refine ⟨(w.sink false row).added :: bytes, .cons ⟨rfl, hout⟩ hall, ?_, ?_⟩
      · rw [hflat]
        simp
      · rw [length_cons, Nat.add_comm]

theorem allSamples_ok_iff {lines : List (List Value)} {ns : List Nat} :
    w.allSamples (lines.map fun vs => .ok (.whole (.list vs))) = .ok ns ↔
      ∃ samples, List.Forall₂ (List.Forall₂ fun v n => numberBelow w.sampleBound v = .ok n)
        lines samples ∧ samples.flatten = ns := by
  have hrows : (lines.map fun vs => (.ok (.whole (.list vs)) : Except Fault Row)).mapM id =
      .ok (lines.map fun vs => .whole (.list vs)) := by
    rw [mapM_ok_iff, forall₂_map_left_iff, forall₂_map_right_iff, forall₂_same]
    exact fun _ _ => rfl
  rw [allSamples, hrows]
  refine map_ok_iff.trans (exists_congr fun samples => and_congr_left' ?_)
  rw [mapM_ok_iff, forall₂_map_left_iff]
  constructor <;> refine fun hall => hall.imp fun vs as h => ?_
  · obtain ⟨u, hread, hsamples⟩ := bind_ok_iff.1 h
    obtain rfl := Except.ok.inj hsamples
    exact forall_of_readWhile hread
  · show ((readWhile (numberBelow w.sampleBound) (vs.map .ok)).2.1 >>= fun _ =>
      pure (readWhile (numberBelow w.sampleBound) (vs.map .ok)).1) = .ok as
    rw [readWhile_of_forall h]
    rfl

end Writer

end Cartridge.Png
