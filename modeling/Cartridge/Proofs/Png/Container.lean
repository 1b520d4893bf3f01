import Cartridge.Proofs.Png.Chunks

/-!
# Files of chunks

A file of chunks that the end chunk closes is read back chunk by chunk.  A file that is cut off gives
the chunks that are whole in it and then a fault, which depends on where in the next chunk the file
ends (`Reader.cutFault`).

* `Reader.At.run_read`: chunks before more bytes are read one after the other.
* `Reader.At.on_chunk_cut`: a chunk that is cut off.

Main result: `Reader.chunksRead_encodeFile`.
-/

open List

namespace Cartridge.Png

open Scan Chunk

variable {r r' : Reader} {rest : List UInt8} {c e : Chunk} {cs read : List Chunk} {m n pos : Nat}

theorem Scan.on_take_short (hn : (r.data.data.toList.drop r.pos).length < n) :
    ∃ pos, (take n).on r = (.ok (r.data.data.toList.drop r.pos), { r with pos }) := by
  have hsize : r.data.data.toList.length = r.data.size := Array.length_toList
  rw [length_drop] at hn
  refine ⟨_, Prod.ext (congrArg Except.ok ?_) rfl⟩
  rw [ByteArray.data_extract, Array.toList_extract, extract_eq_take_drop,
    take_of_length_le (by rw [length_drop]; omega)]

namespace Reader

/-! ### Chunks that are cut off -/

/-- Why a chunk cannot be read of which the file has `m` bytes: the file ends before it, or in its
head, its data or its check. -/
def cutFault (c : Chunk) (m : Nat) : Fault :=
  if m = 0 then .plain .kind
  else if m < 8 then formatFault "End of file whilst reading chunk length and type."
  else if m < 8 + c.data.length then
    chunkFault ("Chunk " ++ Text.quoteBytes c.tag ++ " too short for required " ++
      toString c.data.length ++ " octets.")
  else chunkFault ("Chunk " ++ Text.quoteBytes c.tag ++ " too short for checksum.")

theorem on_body_cut_head (hpending : r.pending = none)
    (hm : (r.data.data.toList.drop r.pos).length = m) (hshort : m < 8) :
    ∃ r', body.on r = (.error (cutFault c m), r') := by
  obtain ⟨pos, htake⟩ := on_take_short (hm ▸ hshort : _ < 8)
  by_cases hnone : m = 0
  · have hempty := length_eq_zero_iff.1 (hm.trans hnone)
    have hnext : nextHead.on r = (.ok none, { r with pos }) := by
      rw [nextHead, on_bind_of_ok htake, hempty]
      rfl
    rw [body, on_bind_of_ok ((on_head_eq hpending).trans (on_bind_of_ok hnext _)),
      cutFault, if_pos hnone]
    exact ⟨{ r with pos, pending := none }, rfl⟩
  · have hnext : nextHead.on r = (.error (cutFault c m), { r with pos }) := by
      rw [nextHead, on_bind_of_ok htake, if_neg (by rw [isEmpty_iff_length_eq_zero]; omega),
        if_pos (by omega), cutFault, if_neg hnone, if_pos hshort]
      rfl
    exact ⟨_, on_bind_of_error ((on_head_eq hpending).trans (on_bind_of_error hnext _)) _⟩

theorem on_body_cut_tail (hhead : head.on r =
      (.ok (some (c.data.length, c.tag)), { r with pos, pending := some (c.data.length, c.tag) }))
    (h : r.data.data.toList.drop pos = c.tail.take m) (hm : m < c.tail.length) :
    ∃ r', body.on r = (.error (cutFault c (8 + m)), r') := by
  set r₁ : Reader := { r with pos, pending := none } with hr₁
  have hlength : (r₁.data.data.toList.drop r₁.pos).length = m := by
    rw [hr₁, h, length_take]
    omega
  rw [body, on_bind_of_ok hhead, on_bind_of_ok (on_demand rfl _ _),
    on_bind_of_ok (on_modify ..), cutFault, if_neg (by omega), if_neg (by omega)]
  simp only
  by_cases hdata : m < c.data.length
  · obtain ⟨pos, htake⟩ := on_take_short (hlength ▸ hdata : _ < c.data.length)
    rw [on_bind_of_ok htake, if_pos (by omega), if_pos (by omega)]
    exact ⟨_, rfl⟩
  · have hparts : r₁.data.data.toList.drop r₁.pos = c.data ++
        (bigEndian 4 (checkOf c.tag c.data).toNat).take (m - c.data.length) := by
      rw [hr₁, h, Chunk.tail, take_append, take_of_length_le (by omega)]
    have hcheck : (r₁.data.data.toList.drop (r₁.pos + c.data.length)).length < 4 := by
      rw [Chunk.tail, length_append, length_bigEndian] at hm
      rw [← drop_drop, hparts, drop_left, length_take, length_bigEndian]
      omega
    obtain ⟨pos', htake⟩ := on_take_short (r := { r₁ with pos := r₁.pos + c.data.length }) hcheck
    rw [on_bind_of_ok (on_take rfl hparts), if_neg (by simp), on_bind_of_ok htake,
      if_pos (Nat.ne_of_lt hcheck), if_neg (by omega)]
    exact ⟨_, rfl⟩

/-! ### One chunk after the other -/

/-- Once the reader has looked at the signature it is between two chunks, with these bytes to come. -/
def At (r : Reader) (bytes : List UInt8) : Prop :=
  ∃ r₁, checkSignature.on r = (.ok (), r₁) ∧ r₁.signature ≠ [] ∧ r₁.pending = none ∧
    r₁.data.data.toList.drop r₁.pos = bytes

theorem At.on_chunk (hc : c.Sound) (h : r.At (c.encode ++ rest)) :
    ∃ r', (chunk none false).on r = (.ok c, r') ∧ r'.At rest := by
  obtain ⟨r₁, hsignature, hseen, hpending, hbytes⟩ := h
  rw [encode_eq, append_assoc] at hbytes
  obtain ⟨hhead, hdrop⟩ := on_head_start hc hpending hbytes
  obtain ⟨pos, hbody, hrest⟩ := on_body hhead hdrop
  exact ⟨_, on_chunk_of_body false hsignature hbody, _, on_checkSignature hseen, hseen, rfl, hrest⟩

theorem At.on_chunk_cut (hc : c.Sound) (h : r.At (c.encode.take m)) (hm : m < c.encode.length) :
    ∃ r', (chunk none false).on r = (.error (cutFault c m), r') := by
  obtain ⟨r₁, hsignature, -, hpending, hbytes⟩ := h
  obtain ⟨r', hbody⟩ : ∃ r', body.on r₁ = (.error (cutFault c m), r') := by
    by_cases hhead : m < 8
    · exact on_body_cut_head hpending (by rw [hbytes, length_take]; omega) hhead
    · have hstart : (bigEndian 4 c.data.length ++ c.tag).length = 8 := by simp [hc.tag]
      rw [encode_eq, length_append] at hm
      rw [encode_eq, take_append, take_of_length_le (by omega), hstart] at hbytes
      obtain ⟨hhead, hdrop⟩ := on_head_start hc hpending hbytes
      have hcut := on_body_cut_tail hhead hdrop (by omega)
      rwa [show 8 + (m - 8) = m by omega] at hcut
  exact ⟨r', by rw [on_chunk_eq false hsignature, on_bind_of_error hbody]⟩

theorem run_of_error {f : Fault} (h : (chunk none false).on r = (.error f, r')) (fuel : Nat) :
    (chunksWithin (fuel + 1)).run r = (([], .error f), r') := by
  have hrun : (chunk none false).run.run r = (.error f, r') := h
  rw [chunksWithin, StateT.run_bind, hrun]
  rfl

theorem run_of_ok (h : (chunk none false).on r = (.ok c, r')) (fuel : Nat) :
    (chunksWithin (fuel + 1)).run r = if c.tag = tagOf "IEND" then (([c], .ok ()), r') else
      ((c :: ((chunksWithin fuel).run r').1.1, ((chunksWithin fuel).run r').1.2),
        ((chunksWithin fuel).run r').2) := by
  have hrun : (chunk none false).run.run r = (.ok c, r') := h
  rw [chunksWithin, StateT.run_bind, hrun]
  show StateT.run (if c.tag = tagOf "IEND" then _ else _) r' = _
  split_ifs
  · rfl
  · rfl

/-- **Chunks before more bytes** are read one after the other. -/
theorem At.run_read {read : List Chunk} (hsound : ∀ c ∈ read, c.Sound)
    (hopen : ∀ c ∈ read, c.tag ≠ tagOf "IEND") (h : r.At (read.flatMap Chunk.encode ++ rest))
    (fuel : Nat) :
    ∃ r', r'.At rest ∧ (chunksWithin (fuel + read.length)).run r =
      ((read ++ ((chunksWithin fuel).run r').1.1, ((chunksWithin fuel).run r').1.2),
        ((chunksWithin fuel).run r').2) := by
  induction read generalizing r with
  | nil => exact ⟨r, h, rfl⟩
  | cons c read ih =>
    obtain ⟨hc, hsound⟩ := forall_mem_cons.1 hsound
    obtain ⟨htag, hopen⟩ := forall_mem_cons.1 hopen
    rw [flatMap_cons, append_assoc] at h
    obtain ⟨r₁, hchunk, h⟩ := h.on_chunk hc
    obtain ⟨r', hrest, hrun⟩ := ih hsound hopen h
    refine ⟨r', hrest, ?_⟩
    rw [length_cons, ← Nat.add_assoc, run_of_ok hchunk, if_neg htag, hrun]
    rfl

/-! ### Whole files and files that are cut off -/

theorem exists_cut (cs : List Chunk) (hn : n < (cs.flatMap encode).length) :
    ∃ read c rest m, cs = read ++ c :: rest ∧ n = (read.flatMap encode).length + m ∧
      m < c.encode.length ∧
      (cs.flatMap encode).take n = read.flatMap encode ++ c.encode.take m := by
  induction cs generalizing n with
  | nil => simp at hn
  | cons c cs ih =>
    by_cases hfirst : n < c.encode.length
    · refine ⟨[], c, cs, n, rfl, by simp, hfirst, ?_⟩
      rw [flatMap_cons, take_append_of_le_length (Nat.le_of_lt hfirst)]
      rfl
    · rw [flatMap_cons, length_append] at hn
      obtain ⟨read, c', rest, m, rfl, hlength, hm, htake⟩ :=
        ih (n := n - c.encode.length) (by omega)
      refine ⟨c :: read, c', rest, m, rfl, ?_, hm, ?_⟩
      · rw [flatMap_cons, length_append]
        omega
      · rw [flatMap_cons, take_append, htake, take_of_length_le (by omega), flatMap_cons,
          append_assoc]

/-- What the first `n` bytes of a file of chunks give: the chunks that are whole in them, and why
there are no more. -/
inductive CutOff (cs : List Chunk) (n : Nat) : List Chunk → Fault → Prop
  | signature (h : n < 8) : CutOff cs n [] (formatFault "PNG file has invalid signature.")
  | chunk {read rest : List Chunk} {c : Chunk} {m : Nat} (hcs : cs = read ++ c :: rest)
      (hn : n = (encodeFile read).size + m) (hm : m < c.encode.length) :
      CutOff cs n read (cutFault c m)

theorem at_of_signature {data : ByteArray} (h : data.data.toList = Png.signature ++ rest) :
    ({ data } : Reader).At rest := by
  refine ⟨_, on_checkSignature_start h, cons_ne_nil _ _, rfl, ?_⟩
  rw [h]
  exact drop_left' rfl

theorem size_encodeFile (cs : List Chunk) :
    (encodeFile cs).size = 8 + (cs.flatMap encode).length := by
  rw [encodeFile, ByteArray.size, size_toArray, length_append]
  rfl

theorem on_chunk_short {data : ByteArray} (h : data.data.toList.length < 8) :
    ∃ r, (chunk none false).on { data } =
      (.error (formatFault "PNG file has invalid signature."), r) := by
  obtain ⟨pos, htake⟩ := on_take_short (r := { data }) h
  have hne : data.data.toList ≠ Png.signature := fun heq => absurd (heq ▸ h) (by decide)
  have hsignature : ∃ r, checkSignature.on { data } =
      (.error (formatFault "PNG file has invalid signature."), r) := by
    rw [checkSignature, on_bind_of_ok (on_get _)]
    simp only [isEmpty_nil, if_true]
    rw [on_bind_of_ok htake, drop_zero,
      decide_eq_false hne]
    exact ⟨_, rfl⟩
  obtain ⟨r, hsignature⟩ := hsignature
  exact ⟨r, by rw [chunk, on_bind_of_error hsignature]⟩

section

variable {data : ByteArray} (hsound : ∀ c ∈ cs ++ [e], c.Sound)
  (hopen : ∀ c ∈ cs, c.tag ≠ tagOf "IEND")

include hsound hopen

/-- **The chunks before some bytes of a file** are read, and then what the bytes are made of. -/
theorem exists_run (hread : read <+: cs)
    (hdata : data.data.toList = Png.signature ++ (read.flatMap encode ++ rest)) :
    ∃ r fuel, r.At rest ∧ chunksRead.run { data } =
      ((read ++ ((chunksWithin (fuel + 1)).run r).1.1, ((chunksWithin (fuel + 1)).run r).1.2),
        ((chunksWithin (fuel + 1)).run r).2) := by
  have hfuel : read.length ≤ data.size := by
    have hsize : data.data.toList.length = data.size := Array.length_toList
    have hlength := length_le_encode read
    rw [← hsize, hdata, length_append, length_append]
    omega
  obtain ⟨fuel, hfuel⟩ := Nat.exists_eq_add_of_le' hfuel
  obtain ⟨r, hr, hrun⟩ := (at_of_signature hdata).run_read
    (fun c hc => hsound c (mem_append_left _ (hread.subset hc)))
    (fun c hc => hopen c (hread.subset hc)) (fuel + 1)
  rw [Nat.add_right_comm, ← hfuel] at hrun
  exact ⟨r, fuel, hr, hrun⟩

theorem exists_run_whole (hend : e.tag = tagOf "IEND") :
    ∃ r, chunksRead.run { data := encodeFile (cs ++ [e]) } = ((cs ++ [e], .ok ()), r) := by
  have hdata : (encodeFile (cs ++ [e])).data.toList =
      Png.signature ++ (cs.flatMap encode ++ (e.encode ++ [])) := by
    rw [append_nil, ← flatMap_singleton encode e, ← flatMap_append]
    rfl
  obtain ⟨r, fuel, hr, hrun⟩ := exists_run hsound hopen prefix_rfl hdata
  obtain ⟨r', hchunk, -⟩ := hr.on_chunk (hsound e (by simp))
  rw [run_of_ok hchunk, if_pos hend] at hrun
  exact ⟨r', hrun⟩

theorem exists_run_cut (hn : n < (encodeFile (cs ++ [e])).size)
    (hdata : data.data.toList = (Png.signature ++ (cs ++ [e]).flatMap encode).take n) :
    ∃ read fault r, chunksRead.run { data } = ((read, .error fault), r) ∧ read <+: cs ++ [e] ∧
      CutOff (cs ++ [e]) n read fault := by
  by_cases hshort : n < 8
  · have hlength : data.data.toList.length < 8 := by
      rw [hdata, length_take]
      omega
    obtain ⟨r, hchunk⟩ := on_chunk_short hlength
    exact ⟨[], _, r, run_of_error hchunk _, nil_prefix, .signature hshort⟩
  · rw [size_encodeFile] at hn
    obtain ⟨read, c, rest, m, hcs, hlength, hm, htake⟩ :=
      exists_cut (cs ++ [e]) (n := n - 8) (by omega)
    have hread : read <+: cs := by
      refine ⟨(c :: rest).dropLast, ?_⟩
      rw [← dropLast_append_cons, ← hcs, dropLast_concat]
    have hlength₈ : Png.signature.length = 8 := rfl
    rw [take_append, take_of_length_le (by omega), hlength₈, htake] at hdata
    obtain ⟨r, fuel, hr, hrun⟩ := exists_run hsound hopen hread hdata
    obtain ⟨r', hchunk⟩ := hr.on_chunk_cut (hsound c (by simp [hcs])) hm
    rw [run_of_error hchunk, append_nil] at hrun
    refine ⟨read, _, r', hrun, hread.trans (prefix_append ..), .chunk hcs ?_ hm⟩
    rw [size_encodeFile]
    omega

end

/-- **A file of chunks is read back**, and a file that is cut off anywhere gives the chunks before
the cut and then a fault. -/
theorem chunksRead_encodeFile (hsound : ∀ c ∈ cs ++ [e], c.Sound)
    (hopen : ∀ c ∈ cs, c.tag ≠ tagOf "IEND") (hend : e.tag = tagOf "IEND") :
    (∃ r, chunksRead.run { data := encodeFile (cs ++ [e]) } = ((cs ++ [e], .ok ()), r)) ∧
    ∀ n < (encodeFile (cs ++ [e])).size, ∃ read fault r,
      chunksRead.run { data := (encodeFile (cs ++ [e])).extract 0 n } = ((read, .error fault), r) ∧
        read <+: cs ++ [e] ∧ CutOff (cs ++ [e]) n read fault := by
  refine ⟨exists_run_whole hsound hopen hend, fun n hn => exists_run_cut hsound hopen hn ?_⟩
  rw [ByteArray.data_extract, Array.toList_extract]
  rfl

/-- A text and the end chunk, whole and cut off in the head of the end chunk. -/
theorem chunksRead_encodeFile_text :
    let cs : List Chunk := [.named "tEXt" [1, 2]]
    let e : Chunk := .named "IEND" []
    (∀ c ∈ cs ++ [e], c.Sound) ∧ (∀ c ∈ cs, c.tag ≠ tagOf "IEND") ∧
      (∃ r, chunksRead.run { data := encodeFile (cs ++ [e]) } = ((cs ++ [e], .ok ()), r)) ∧
      ∃ read fault r, chunksRead.run { data := (encodeFile (cs ++ [e])).extract 0 23 } =
        ((read, .error fault), r) ∧ read <+: cs ++ [e] := by
  intro cs e
  have hsound : ∀ c ∈ cs ++ [e], c.Sound := by
    simp only [cs, e, cons_append, nil_append, forall_mem_cons]
    exact ⟨⟨by decide, by decide⟩, ⟨by decide, by decide⟩, by simp⟩
  have hopen : ∀ c ∈ cs, c.tag ≠ tagOf "IEND" := by
    simp only [cs, forall_mem_cons]
    exact ⟨by decide, by simp⟩
  have hn : 23 < (encodeFile (cs ++ [e])).size := by
    have htags : (tagOf "tEXt").length = 4 ∧ (tagOf "IEND").length = 4 := by decide
    rw [size_encodeFile]
    simp [cs, e, Chunk.encode, Chunk.named, htags]
  obtain ⟨hwhole, hcut⟩ := chunksRead_encodeFile hsound hopen rfl
  obtain ⟨read, fault, r, hrun, hread, -⟩ := hcut 23 hn
  exact ⟨hsound, hopen, hwhole, read, fault, r, hrun, hread⟩

end Reader

end Cartridge.Png
