import Cartridge.Proofs.Png.Stored

/-!
# Rows that are not of integers

A writer tries the first row as it is.  If that fails it tries the row again, and takes all others,
with the samples cut to integers, but what the first attempt has added stays where it is.

Main result: `Writer.write_ints_iff`.
-/

open List

namespace Cartridge.Png

open Deflate Sink

/-! ### Samples -/

section Samples

variable {v : Value} {n : Nat} {vs : List Value} {ns : List Nat}

/-- The value is a byte once it is cut to an integer. -/
structure CutsTo (v : Value) (n : Nat) : Prop where
  cut : v.toInt = .ok (n : Int)
  lt : n < 0x100

theorem CutsTo.byteOf_eq (h : CutsTo v n) :
    byteOf v = if v.whole?.isSome then .ok n.toUInt8 else .error (.plain .kind) := by
  obtain ⟨hint, hlt⟩ := h
  cases hv : v.whole? with
  | none => simp [byteOf, numberBelow, hv]
  | some k =>
    have hk : k = n := by
      cases v <;> simp_all [Value.whole?, Value.toInt]
    have hn : numberBelow 0x100 v = numberBelow 0x100 (.int n) := by
      rw [numberBelow, hv, hk]
      rfl
    rw [byteOf, hn, numberBelow_int hlt]
    rfl

def listRows (lines : List (List Value)) : List Row := lines.map fun vs => .whole (.list vs)

def intLine (ns : List Nat) : List Value := ns.map fun n : Nat => .int n

theorem cutsTo_intLine (h : Forall₂ CutsTo vs ns) : Forall₂ CutsTo (intLine ns) ns := by
  rw [intLine, forall₂_map_left_iff, forall₂_same]
  intro n hn
  obtain ⟨v, -, hv⟩ := exists_of_forall₂ h hn
  exact ⟨rfl, hv.lt⟩

namespace Sink

theorem bytes_list (vs : List Value) : bytes (.whole (.list vs)) =
    ⟨(Row.readWhile byteOf (vs.map .ok)).1, (Row.readWhile byteOf (vs.map .ok)).2.1,
      .whole (.list vs)⟩ := rfl

theorem whole_of_bytes (h : Forall₂ CutsTo vs ns)
    (hout : (bytes (.whole (.list vs))).outcome = .ok ()) : ∀ v ∈ vs, v.whole?.isSome := by
  intro v hv
  obtain ⟨b, -, hb⟩ := exists_of_forall₂ (Row.forall_of_readWhile hout).flip hv
  obtain ⟨n, -, hn⟩ := exists_of_forall₂ h.flip hv
  rw [hn.byteOf_eq] at hb
  by_contra hnone
  rw [if_neg hnone] at hb
  cases hb

theorem adds_bytes (h : Forall₂ CutsTo vs ns) (hwhole : ∀ v ∈ vs, v.whole?.isSome) :
    bytes.Adds (.whole (.list vs)) (ns.map Nat.toUInt8) := by
  have hread : Forall₂ (fun v b => byteOf v = .ok b) vs (ns.map Nat.toUInt8) := by
    rw [forall₂_map_right_iff]
    refine ((forall₂_and_left _ _).2 ⟨hwhole, h⟩).imp fun v n hv => ?_
    rw [hv.2.byteOf_eq, if_pos hv.1]
  constructor <;> rw [bytes_list, Row.readWhile_of_forall hread]

theorem added_bytes_eq_nil_iff (h : CutsTo v n) (vs : List Value) :
    (bytes (.whole (.list (v :: vs)))).added = [] ↔ ¬ v.whole?.isSome := by
  have hbind : (Except.ok v : Except Fault Value).bind byteOf = byteOf v := rfl
  rw [bytes_list, map_cons, Row.readWhile, hbind, h.byteOf_eq]
  by_cases hv : v.whole?.isSome = true <;> simp [hv]

theorem adds_intLine (h : Forall₂ CutsTo vs ns) :
    bytes.Adds (.whole (.list (intLine ns))) (ns.map Nat.toUInt8) := by
  refine adds_bytes (cutsTo_intLine h) fun v hv => ?_
  obtain ⟨n, -, rfl⟩ := mem_map.1 hv
  rfl

theorem adds_mapped_cutToInt (h : Forall₂ CutsTo vs ns) :
    (mapped cutToInt bytes).Adds (.whole (.list vs)) (ns.map Nat.toUInt8) := by
  have hread : Row.readWhile cutToInt (vs.map .ok) = (intLine ns, .ok (), []) := by
    refine Row.readWhile_of_forall ?_
    rw [intLine, forall₂_map_right_iff]
    refine h.imp fun v n hv => ?_
    rw [cutToInt, hv.cut]
    rfl
  have hmapped : mapped cutToInt bytes (.whole (.list vs)) =
      ⟨(bytes (.whole (.list (intLine ns)))).added, (bytes (.whole (.list (intLine ns)))).outcome,
        .whole (.list vs)⟩ := by
    simp only [mapped, Row.read, Value.elements, hread]
  obtain ⟨hadded, hout⟩ := adds_intLine h
  exact ⟨by rw [hmapped, hadded], by rw [hmapped, hout]⟩

end Sink

end Samples

/-! ### Chunks -/

theorem Chunk.encode_append_inj {c c' : Chunk} {l l' : List UInt8} (hc : c.Sound) (hc' : c'.Sound)
    (h : c.encode ++ l = c'.encode ++ l') : c = c' ∧ l = l' := by
  have hlongest : longestData < 0x100 ^ 4 := by decide
  simp only [encode, append_assoc] at h
  obtain ⟨hlength, h⟩ := append_inj h (by simp)
  have hdata : c.data.length = c'.data.length := by
    rw [← ofBigEndian_bigEndian (n := 4) (Nat.lt_of_le_of_lt hc.data hlongest), hlength,
      ofBigEndian_bigEndian (n := 4) (Nat.lt_of_le_of_lt hc'.data hlongest)]
  obtain ⟨htag, h⟩ := append_inj h (hc.tag.trans hc'.tag.symm)
  obtain ⟨hdata, h⟩ := append_inj h hdata
  cases c
  subst htag hdata
  exact ⟨rfl, append_cancel_left h⟩

theorem Chunk.flatMap_encode_inj {cs cs' : List Chunk} (hcs : ∀ c ∈ cs, c.Sound)
    (hcs' : ∀ c ∈ cs', c.Sound) (h : cs.flatMap encode = cs'.flatMap encode) : cs = cs' := by
  have hpos : ∀ c : Chunk, c.encode ≠ [] := by simp [encode, bigEndian]
  induction cs generalizing cs' with
  | nil =>
    cases cs' with
    | nil => rfl
    | cons c cs' => simp [hpos] at h
  | cons c cs ih =>
    cases cs' with
    | nil => simp [hpos] at h
    | cons c' cs' =>
      obtain ⟨rfl, hrest⟩ := encode_append_inj (hcs c mem_cons_self) (hcs' c' mem_cons_self) h
      rw [ih (fun c hc => hcs c (mem_cons_of_mem _ hc))
        (fun c hc => hcs' c (mem_cons_of_mem _ hc)) hrest]

/-! ### Files -/

namespace Writer

variable {w : Writer} {parts parts' : List (List UInt8)}

theorem sound_of_mem_dataChunks {c : Chunk} (hc : c ∈ dataChunks parts) : c.Sound := by
  obtain ⟨pieces, hpieces, -, hlength, -⟩ := exists_pieces parts
  rw [hpieces] at hc
  obtain ⟨piece, hpiece, rfl⟩ := mem_map.1 hc
  exact Reader.sound_dataChunk (hlength piece hpiece)

theorem flatten_eq_of_dataChunks (h : dataChunks parts = dataChunks parts') :
    parts.flatten = parts'.flatten := by
  have hdata : ∀ parts, (dataChunks parts).flatMap Chunk.data = (deflate parts).flatten := by
    intro parts
    obtain ⟨pieces, hpieces, -, -, hflat⟩ := exists_pieces parts
    rw [hpieces, flatMap_map, ← hflat]
    exact flatMap_id'
  have hinflate := inflate_deflate parts
  rw [← hdata, h, hdata, inflate_deflate] at hinflate
  simpa using (congrArg Inflated.output hinflate).symm

theorem flatten_eq_of_encodeFile {head : List Chunk}
    (h : encodeFile (head ++ dataChunks parts ++ [Reader.endChunk]) =
      encodeFile (head ++ dataChunks parts' ++ [Reader.endChunk])) :
    parts.flatten = parts'.flatten := by
  refine flatten_eq_of_dataChunks (Chunk.flatMap_encode_inj
    (fun c => sound_of_mem_dataChunks) (fun c => sound_of_mem_dataChunks) ?_)
  simpa [encodeFile] using h

theorem write_ok_iff {rows : Rows} {file : File} (hplain : w.interlaced = false) :
    (w.write rows).1 = .ok file ↔ ∃ head parts, w.headChunks = .ok head ∧
      (w.encodeRows false rows).1 = .ok (parts, file.rows) ∧
      file.bytes = encodeFile (head ++ dataChunks parts ++ [Reader.endChunk]) ∧
      w.height.isInt file.rows = true := by
  constructor
  · intro h
    rw [write, hplain, writePasses] at h
    cases hhead : w.headChunks with
    | error fault =>
      rw [hhead] at h
      cases h
    | ok head =>
      cases hencode : w.encodeRows false rows with
      | mk result left =>
        rw [hhead, hencode] at h
        cases result with
        | error fault => cases h
        | ok result =>
          by_cases hheight : w.height.isInt result.2
          · simp only [hheight, if_true] at h
            obtain rfl := Except.ok.inj h
            exact ⟨head, result.1, rfl, rfl, rfl, hheight⟩
          · simp only [hheight] at h
            cases h
  · rintro ⟨head, parts, hhead, hencode, hbytes, hheight⟩
    have hpasses : w.writePasses false rows = (.ok file, (w.encodeRows false rows).2) := by
      rw [writePasses, hhead, ← Prod.eta (w.encodeRows false rows), hencode]
      cases file
      subst hbytes
      rfl
    rw [write_of_writePasses hplain hpasses hheight]

theorem addRows_congr {sink sink' : Sink} {rows rows' : List Row} {bytes : List (List UInt8)}
    (h : Forall₂ sink.Adds rows bytes) (h' : Forall₂ sink'.Adds rows' bytes) (data : Array UInt8)
    (count : Nat) : (w.addRows sink data count (rows.map .ok)).1 =
      (w.addRows sink' data count (rows'.map .ok)).1 := by
  induction h generalizing rows' data count with
  | nil =>
    cases h'
    rfl
  | @cons row added rows bytes hrow hrows ih =>
    cases h' with
    | cons hrow' hrows' =>
      simp only [map_cons, addRows, hrow.added, hrow.outcome, hrow'.added, hrow'.outcome,
        Except.bind]
      cases w.chunkLimit.isBelow (data.push 0 ++ added.toArray).size with
      | error fault => rfl
      | ok below =>
        cases below with
        | false => exact ih hrows' _ _
        | true =>
          rw [ih hrows']

section Rows

variable {lines : List (List Value)} {ints : List (List Nat)} {vs : List Value} {ns : List Nat}

theorem adds_listRows {sink : Sink} (hcut : Forall₂ (Forall₂ CutsTo) lines ints)
    (h : ∀ vs ∈ lines, ∀ ns, Forall₂ CutsTo vs ns →
      sink.Adds (.whole (.list vs)) (ns.map Nat.toUInt8)) :
    Forall₂ sink.Adds (listRows lines) (ints.map (·.map Nat.toUInt8)) := by
  rw [listRows, forall₂_map_left_iff, forall₂_map_right_iff]
  exact ((forall₂_and_left _ _).2 ⟨h, hcut⟩).imp fun vs ns hrow => hrow.1 ns hrow.2

theorem adds_intLines (hcut : Forall₂ (Forall₂ CutsTo) lines ints) :
    Forall₂ bytes.Adds (listRows (ints.map intLine)) (ints.map (·.map Nat.toUInt8)) := by
  rw [listRows, forall₂_map_left_iff, forall₂_map_left_iff, forall₂_map_right_iff, forall₂_same]
  intro ns hns
  obtain ⟨vs, -, hvs⟩ := exists_of_forall₂ hcut hns
  exact adds_intLine hvs

theorem encodeRows_ints (hsink : w.sink false = bytes) (hfirst : Forall₂ CutsTo vs ns) :
    w.encodeRows false ((listRows ((ns :: ints).map intLine)).map .ok) =
      w.addRows bytes (#[0] ++ (ns.map Nat.toUInt8).toArray) 1
        ((listRows (ints.map intLine)).map .ok) := by
  obtain ⟨hadded, hout⟩ := adds_intLine hfirst
  simp only [listRows, map_cons, encodeRows, hsink, hadded, hout]

/-- **Rows are written as those of their integers, behind bytes that an attempt at the first row
has left.**  There are none if the row is of integers only, or if it starts with none. -/
theorem exists_extra (hsink : w.sink false = bytes) (hfirst : Forall₂ CutsTo vs ns)
    (hcut : Forall₂ (Forall₂ CutsTo) lines ints) {result : List (List UInt8) × Nat}
    (h : (w.encodeRows false ((listRows (vs :: lines)).map .ok)).1 = .ok result) :
    ∃ extra, (extra = [] ↔
        ∀ v rest, vs = v :: rest → v.whole?.isSome → ∀ u ∈ rest, u.whole?.isSome) ∧
      (w.addRows bytes (#[0] ++ (extra ++ ns.map Nat.toUInt8).toArray) 1
        ((listRows (ints.map intLine)).map .ok)).1 = .ok result := by
  rw [listRows, map_cons, ← listRows, map_cons, encodeRows, hsink] at h
  cases hout : (bytes (.whole (.list vs))).outcome with
  | ok u =>
    have hwhole := whole_of_bytes hfirst hout
    rw [hout, (adds_bytes hfirst hwhole).added] at h
    refine ⟨[], iff_of_true rfl ?_, ?_⟩
    · rintro v rest rfl - u hu
      exact hwhole u (mem_cons_of_mem _ hu)
    · -- the other rows were taken as they are, so they are of integers as well
      obtain ⟨bytes, hadds, -, -⟩ := exists_of_addRows (Prod.ext h rfl)
      rw [← h]
      refine addRows_congr (adds_intLines hcut) (adds_listRows hcut fun vs' hvs' ns' hns' => ?_) _ _
      obtain ⟨b, -, hb⟩ := exists_of_forall₂ hadds.flip (mem_map_of_mem hvs')
      exact adds_bytes hns' (whole_of_bytes hns' hb.outcome)
  | error fault =>
    obtain ⟨hadded, hagain⟩ := adds_mapped_cutToInt hfirst
    have hleft : (bytes (.whole (.list vs))).left = .whole (.list vs) := rfl
    rw [hout] at h
    simp only [hleft, hagain, hadded] at h
    refine ⟨(bytes (.whole (.list vs))).added, ?_, ?_⟩
    · cases hfirst with
      | nil => cases hout
      | @cons v n vs ns hv hvs =>
        rw [added_bytes_eq_nil_iff hv]
        constructor
        · intro hnone v' rest hcons hwhole
          rw [← (cons.inj hcons).1] at hwhole
          exact absurd hwhole hnone
        · intro hall hwhole
          rw [(adds_bytes (.cons hv hvs)
            (forall_mem_cons.2 ⟨hwhole, hall v vs rfl hwhole⟩)).outcome] at hout
          cases hout
    · rw [← h, addRows_congr (adds_intLines hcut)
        (adds_listRows hcut fun _ _ _ => adds_mapped_cutToInt)]
      simp

end Rows

/-- **Rows whose samples cut to bytes give the file of these bytes exactly if their first row, when
it starts with an integer, has nothing but integers.** -/
theorem write_ints_iff {lines : List (List Value)} {ints : List (List Nat)} {file : File}
    (hplain : w.interlaced = false) (hdepth : w.depth = 8) (hscale : w.rescale = none)
    (hcut : Forall₂ (Forall₂ CutsTo) lines ints)
    (h : (w.write ((listRows lines).map .ok)).1 = .ok file) :
    (w.write ((listRows (ints.map intLine)).map .ok)).1 = .ok file ↔
      ∀ v rest, lines.head? = some (v :: rest) → v.whole?.isSome → ∀ u ∈ rest, u.whole?.isSome := by
  have hsink : w.sink false = Sink.bytes := by simp [sink, hdepth, hscale]
  obtain ⟨head, parts, hhead, hencode, hbytes, hheight⟩ := (write_ok_iff hplain).1 h
  cases hcut with
  | nil => cases hencode
  | @cons vs ns lines ints hfirst hcut =>
    obtain ⟨extra, hextra, hadd⟩ := exists_extra hsink hfirst hcut hencode
    simp only [head?_cons, Option.some.injEq]
    rw [← hextra, write_ok_iff hplain, encodeRows_ints hsink hfirst]
    constructor
    · rintro ⟨head', parts', hhead', hencode', hbytes', -⟩
      obtain rfl := Except.ok.inj (hhead.symm.trans hhead')
      have hflat := flatten_eq_of_encodeFile (hbytes.symm.trans hbytes')
      obtain ⟨added, hadds, hparts, -⟩ := exists_of_addRows (Prod.ext hadd rfl)
      obtain ⟨added', hadds', hparts', -⟩ := exists_of_addRows (Prod.ext hencode' rfl)
      have hunique : Relator.RightUnique Sink.bytes.Adds :=
        fun row b b' hb hb' => hb.added.symm.trans hb'.added
      obtain rfl := hunique.forall₂ hadds hadds'
      rw [hparts, hparts'] at hflat
      simpa using hflat
    · rintro rfl
      exact ⟨head, parts, hhead, hadd, hbytes, hheight⟩

def pairWriter : Writer where
  width := .int 2
  height := .int 1
  transparent := .none
  background := .none
  gamma := .none
  grey := true
  alpha := false
  palette := none
  depth := 8
  compression := .none
  chunkLimit := .int 0x100000
  interlaced := false
  xPerUnit := .none
  yPerUnit := .none
  unitIsMetre := false
  rescale := none

/-- The file with the given image data. -/
def pairFile (data : List UInt8) : File :=
  ⟨encodeFile ([Reader.headerChunk ⟨2, 1, 8, 0, 0, 0, 0⟩] ++ dataChunks [data] ++
    [Reader.endChunk]), 1⟩

theorem write_ints_real_first :
    (pairWriter.write ((listRows [[.real 2.5, .int 1]]).map .ok)).1 = .ok (pairFile [0, 2, 1]) ∧
    (pairWriter.write ((listRows [[.int 2, .int 1]]).map .ok)).1 = .ok (pairFile [0, 2, 1]) := by
  have hcut : Forall₂ (Forall₂ CutsTo) [[.real 2.5, .int 1]] [[2, 1]] :=
    .cons (.cons ⟨rfl, by decide⟩ (.cons ⟨rfl, by decide⟩ .nil)) .nil
  have hfile : (pairWriter.write ((listRows [[.real 2.5, .int 1]]).map .ok)).1 =
      .ok (pairFile [0, 2, 1]) := rfl
  refine ⟨hfile, (write_ints_iff rfl rfl rfl hcut hfile).2 ?_⟩
  rintro v rest hhead hwhole
  obtain ⟨rfl, -⟩ := cons.inj (Option.some.inj hhead)
  cases hwhole

theorem not_write_ints_mixed :
    Forall₂ (Forall₂ CutsTo) [[.int 1, .real 2.5]] [[1, 2]] ∧
    (pairWriter.write ((listRows [[.int 1, .real 2.5]]).map .ok)).1 = .ok (pairFile [0, 1, 1, 2]) ∧
    (pairWriter.write ((listRows [[.int 1, .int 2]]).map .ok)).1 = .ok (pairFile [0, 1, 2]) ∧
    pairFile [0, 1, 1, 2] ≠ pairFile [0, 1, 2] := by
  refine ⟨.cons (.cons ⟨rfl, by decide⟩ (.cons ⟨rfl, by decide⟩ .nil)) .nil, rfl, rfl, ?_⟩
  intro h
  have hdata := flatten_eq_of_encodeFile (congrArg File.bytes h)
  cases hdata

end Writer

end Cartridge.Png
