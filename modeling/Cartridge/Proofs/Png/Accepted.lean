import Cartridge.Proofs.Png.Stored

/-!
# Which written files are read

A writer that its options allow makes files of lines that have the length their header asks for,
interlaced or not.  So whether a reader accepts such a file is a matter of the chunks in front of its
lines, and these are all accepted exactly if the writer fits (`Writer.Fits`).

Main result: `Writer.read_writeLines_ok_iff`.  Nothing is said here of the samples that are read; a
sample that is rescaled or too large for its depth is not read back as it was given.
-/

open List

namespace Cartridge.Png

open Reader (endChunk)

namespace Writer

variable {w : Writer} {head : List Chunk} {rows : List Row} {parts lines : List (List UInt8)}
  {file : File} {given : List (List Int)} {ns : List Nat}

/-! ### The stored lines -/

theorem forall₂_trans {α β γ : Type} {R : α → β → Prop} {S : β → γ → Prop} {T : α → γ → Prop}
    (hT : ∀ a b c, R a b → S b c → T a c) {as : List α} {bs : List β} {cs : List γ}
    (hR : List.Forall₂ R as bs) (hS : List.Forall₂ S bs cs) : List.Forall₂ T as cs := by
  induction hR generalizing cs with
  | nil =>
    obtain rfl := forall₂_nil_left_iff.1 hS
    exact .nil
  | cons hfirst _ ih =>
    obtain ⟨c, later, hc, hlater, rfl⟩ := forall₂_cons_left_iff.1 hS
    exact .cons (hT _ _ _ hfirst hc) (ih hlater)

def storedWidths (w : Writer) : List Nat :=
  if w.interlaced then
    (passLines (dimension w.width) (dimension w.height)).map (·.1.lineWidth (dimension w.width))
  else List.replicate (dimension w.height) (dimension w.width)

/-- Lines of bytes have as many of them as pixels of their widths take. -/
def HasLengths (w : Writer) (lines : List (List UInt8)) : Prop :=
  List.Forall₂ (fun width line => line.length = (width * w.planes * w.depth + 7) / 8)
    w.storedWidths lines

/-- Rows have as many integers as their widths ask for. -/
def HasRows (w : Writer) (rows : List Row) : Prop :=
  List.Forall₂ (fun width row => ∃ ks : List Int, row.Plain w.depth (ks.map .int) ∧
    ks.length = width * w.planes) w.storedWidths rows

theorem exists_of_writePasses (hdepth : IsDepth w.depth) (hrows : w.HasRows rows)
    (h : (w.writePasses false (rows.map .ok)).1 = .ok file) :
    ∃ head parts lines, w.headChunks = .ok head ∧
      file.bytes = encodeFile (head ++ dataChunks parts ++ [endChunk]) ∧
      parts.flatten = lines.flatMap (0 :: ·) ∧ w.HasLengths lines := by
  rw [writePasses] at h
  cases hhead : w.headChunks with
  | error fault =>
    rw [hhead] at h
    cases h
  | ok head =>
    cases hencode : w.encodeRows false (rows.map .ok) with
    | mk result left' =>
      rw [hhead, hencode] at h
      cases result with
      | error fault => cases h
      | ok result =>
        obtain rfl := Except.ok.inj h
        have hplain : ∀ row ∈ rows, ∃ ks : List Int, row.Plain w.depth (ks.map .int) := by
          intro row hrow
          obtain ⟨_, -, ks, hks, -⟩ := exists_of_forall₂ hrows hrow
          exact ⟨ks, hks⟩
        obtain ⟨-, lines, hadds, hflat, -⟩ := exists_of_encodeRows hdepth hplain hencode
        refine ⟨head, result.1, lines, rfl, rfl, hflat, forall₂_trans ?_ hrows hadds⟩
        -- a sink may change samples but not their number
        rintro width row line ⟨ks, hks, hcount⟩ ⟨rfl, hok⟩
        rw [(faithful_sink hdepth).length hks hok, length_map, hcount]

theorem HasLengths.length (h : w.HasLengths lines) (hplain : w.interlaced = false) :
    ∀ line ∈ lines, line.length = (Layout.ofHeader w.header).rowBytes := by
  intro line hline
  rw [HasLengths, storedWidths, hplain] at h
  obtain ⟨width, hwidth, hlength⟩ := exists_of_forall₂ h hline
  obtain rfl := eq_of_mem_replicate hwidth
  rw [hlength, layout_header, Nat.mul_assoc, Nat.mul_comm w.planes]

theorem Valid.exists_unpackLine (hw : w.Valid) {width : Nat} {line : List UInt8}
    (h : line.length = (width * w.planes * w.depth + 7) / 8) :
    ∃ ns, unpackLine w.depth width line = .ok ns ∧ ns.length = width * w.planes :=
  Png.exists_unpackLine hw.depth h fun hlt => by rw [hw.planes_eq_one hlt, Nat.mul_one]

/-! ### Reading -/

theorem Valid.exists_read (hw : w.Valid) (hfits : w.Fits) (hhead : w.headChunks = .ok head)
    (hflat : parts.flatten = lines.flatMap (0 :: ·)) (hlines : w.HasLengths lines)
    (lenient : Bool) :
    ∃ image r, (Reader.read lenient).on
      { data := encodeFile (head ++ dataChunks parts ++ [endChunk]) } = (.ok image, r) := by
  obtain ⟨chunks, colours, rfl, htaken, hcolours⟩ := hw.takesAll_headChunks hfits hhead
  obtain ⟨-, -, -, -, -, -, hheader, -⟩ := exists_of_headChunks hhead
  have hsound := hw.sound_header hheader
  cases hinterlaced : w.interlaced with
  | false =>
    have hunpacked : ∀ line ∈ lines, ∃ ns,
        unpackLine w.header.depth w.header.width line = .ok ns := by
      intro line hline
      have hlength : line.length = (w.header.width * w.planes * w.depth + 7) / 8 := by
        rw [hlines.length hinterlaced line hline, layout_header, Nat.mul_assoc,
          Nat.mul_comm w.planes]
        rfl
      obtain ⟨ns, hns, -⟩ := hw.exists_unpackLine hlength
      exact ⟨ns, hns⟩
    obtain ⟨read, hread⟩ := exists_mapM_eq_ok hunpacked
    obtain ⟨image, r, hon, -⟩ := Reader.exists_read_straight lenient hsound htaken hcolours
      (by rw [interlace_header, hinterlaced]; rfl) hflat (hlines.length hinterlaced)
      (mapM_ok_iff.1 hread)
    exact ⟨image, r, hon⟩
  | true =>
    rw [HasLengths, storedWidths, hinterlaced, if_pos rfl, forall₂_map_left_iff] at hlines
    have hstores : List.Forall₂ (StoresLine (fun _ _ => True) w.header (.ofHeader w.header))
        (passLines w.header.width w.header.height) lines := by
      refine hlines.imp fun e line hlength => ?_
      obtain ⟨ns, hns, hcount⟩ := hw.exists_unpackLine hlength
      exact hw.storesLine hlength hns hcount fun _ _ _ => trivial
    obtain ⟨image, r, -, hon, -⟩ := Reader.exists_read_interlaced lenient hsound htaken hcolours
      (by rw [interlace_header, hinterlaced]; rfl) (hw.width_pos hheader) hflat hstores
    exact ⟨image, r, hon⟩

theorem Valid.exists_read_error (hw : w.Valid) (hfits : ¬ w.Fits) (hhead : w.headChunks = .ok head)
    (parts : List (List UInt8)) (lenient : Bool) :
    ∃ fault r, (Reader.read lenient).on
        { data := encodeFile (head ++ dataChunks parts ++ [endChunk]) } = (.error fault, r) ∧
      fault ∈ [formatFault "PLTE chunk is too long.",
        formatFault "bKGD chunk has incorrect length."] := by
  obtain ⟨chunks, colours, c, cs, fault, rfl, htaken, hrefused, hfault⟩ :=
    hw.refuses_headChunks hfits hhead
  obtain ⟨-, -, -, -, -, -, hheader, -⟩ := exists_of_headChunks hhead
  obtain ⟨r, hpreamble⟩ := Reader.on_preamble_refuses lenient (hw.sound_header hheader) htaken
    hrefused (cs ++ dataChunks parts ++ [endChunk])
  refine ⟨fault, r, ?_, hfault⟩
  have hsame : Reader.headerChunk w.header :: chunks ++ c :: cs ++ dataChunks parts ++
      [endChunk] = Reader.headerChunk w.header :: chunks ++
        c :: (cs ++ dataChunks parts ++ [endChunk]) := by simp
  rw [hsame, Reader.read, Reader.finish, Scan.on_bind_of_error]
  rw [Reader.stored, Scan.on_bind_of_error hpreamble]

/-! ### Writing -/

theorem hasRows_straight (hplain : w.interlaced = false)
    (hcount : given.length = dimension w.height) (hlength : ∀ ks ∈ given, ks.length = w.perRow) :
    w.HasRows (given.map fun ks => .whole (.list (ks.map .int))) := by
  rw [HasRows, storedWidths, hplain, ← hcount]
  clear hcount
  induction given with
  | nil => exact .nil
  | cons ks given ih =>
    obtain ⟨hfirst, hrest⟩ := forall_mem_cons.1 hlength
    exact .cons ⟨ks, .list _, hfirst⟩ (ih hrest)

theorem exists_hasRows_interlaced (hinterlaced : w.interlaced = true)
    (hcount : ns.length = w.perRow * dimension w.height) :
    ∃ rows, w.interlacedRows ns.toArray = rows.map .ok ∧ w.HasRows rows := by
  obtain ⟨found, hfound, hall⟩ := exists_interlacedRows (w := w) ns.toArray rfl rfl hcount
  refine ⟨found.map fun ns => .whole (.array w.sampleWidth ns), ?_, ?_⟩
  · rw [hfound, map_map]
    rfl
  · rw [HasRows, storedWidths, hinterlaced, if_pos rfl, forall₂_map_left_iff, forall₂_map_right_iff]
    refine hall.imp fun e ns hns => ⟨ns.map Int.ofNat, ?_, ?_⟩
    · rw [map_map]
      exact .array ns
    · rw [length_map, hns.1]

theorem writePasses_of_write (hplain : w.interlaced = false) {given : Rows}
    (h : (w.write given).1 = .ok file) : (w.writePasses false given).1 = .ok file := by
  simp only [write, hplain, Bool.false_eq_true, if_false] at h
  split at h
  · cases h
  · rename_i file' left hfile'
    split_ifs at h
    rw [hfile']
    exact h

theorem exists_of_write (hinterlaced : w.interlaced = true) {given : Rows}
    (h : (w.write given).1 = .ok file) :
    ∃ ns, w.allSamples given = .ok ns ∧
      (w.writePasses false (w.interlacedRows ns.toArray)).1 = .ok file := by
  simp only [write, hinterlaced, if_true] at h
  split at h
  · cases h
  · rename_i ns hns
    simp only [writeArray, hinterlaced, if_true, interlacedRowsOf] at h
    exact ⟨ns, hns, h⟩

theorem length_of_allSamples {n : Nat} (hlength : ∀ ks ∈ given, ks.length = n)
    (h : w.allSamples (given.map fun ks => .ok (.whole (.list (ks.map .int)))) = .ok ns) :
    ns.length = n * given.length := by
  have hrows : (given.map fun ks => (.ok (.whole (.list (ks.map .int))) : Except Fault Row)) =
      (given.map (List.map .int)).map fun vs => .ok (.whole (.list vs)) := by
    rw [map_map]
    rfl
  rw [hrows, allSamples_ok_iff] at h
  obtain ⟨samples, hall, rfl⟩ := h
  have hsample : ∀ sample ∈ samples, sample.length = n := by
    intro sample hmem
    obtain ⟨vs, hvs, hrelated⟩ := exists_of_forall₂ hall hmem
    obtain ⟨ks, hks, rfl⟩ := mem_map.1 hvs
    rw [← hrelated.length_eq, length_map, hlength ks hks]
  rw [List.length_flatten, map_congr_left hsample, map_const', sum_replicate_nat,
    ← hall.length_eq, length_map, Nat.mul_comm]

/-- **Rows of integers that were written** are lines of the right lengths in the file. -/
theorem Valid.exists_of_writeLines (hw : w.Valid) (hcount : given.length = dimension w.height)
    (hlength : ∀ ks ∈ given, ks.length = w.perRow) {file : ByteArray}
    (h : w.writeLines given = .ok file) :
    ∃ head parts lines, w.headChunks = .ok head ∧
      file = encodeFile (head ++ dataChunks parts ++ [endChunk]) ∧
      parts.flatten = lines.flatMap (0 :: ·) ∧ w.HasLengths lines := by
  obtain ⟨f, hf, rfl⟩ := map_ok_iff.1 h
  cases hinterlaced : w.interlaced with
  | false =>
    refine exists_of_writePasses hw.depth (hasRows_straight hinterlaced hcount hlength) ?_
    rw [map_map]
    exact writePasses_of_write hinterlaced hf
  | true =>
    obtain ⟨ns, hns, hwritten⟩ := exists_of_write hinterlaced hf
    have hsize := length_of_allSamples hlength hns
    rw [hcount] at hsize
    obtain ⟨rows, hrows, hhas⟩ := exists_hasRows_interlaced hinterlaced hsize
    rw [hrows] at hwritten
    exact exists_of_writePasses hw.depth hhas hwritten

def threeColours : List Value :=
  [.tuple [.int 1, .int 2, .int 3, .int 0], .tuple [.int 4, .int 5, .int 6],
    .tuple [.int 7, .int 8, .int 9]]

/-- Options for an interlaced image of three by two pixels with a palette of three colours. -/
def threeColourOptions (depth : Nat) (background : Value) : Options :=
  .ofList [("width", .int 3), ("height", .int 2), ("bitdepth", .int depth),
    ("palette", .list threeColours), ("background", background), ("interlace", .flag true),
    ("x_pixels_per_unit", .int 5), ("y_pixels_per_unit", .int 7), ("unit_is_meter", .flag true)]

def threeColourWriter (depth : Nat) (background : Value) : Writer where
  width := .int 3
  height := .int 2
  transparent := .none
  background
  gamma := .none
  grey := false
  alpha := false
  palette := some threeColours
  depth
  compression := .none
  chunkLimit := .int 0x100000
  interlaced := true
  xPerUnit := .int 5
  yPerUnit := .int 7
  unitIsMetre := true
  rescale := none

section ThreeColours

variable {depth : Nat} {background : Value} {lines : List (List Nat)}

theorem Valid.exists_threeColourFile (hw : (threeColourWriter depth background).Valid)
    (hhead : (threeColourWriter depth background).headChunks = .ok head)
    (hlines : (threeColourWriter depth background).Samples lines) :
    ∃ parts, (threeColourWriter depth background).writeLines (lines.map (List.map Int.ofNat)) =
      .ok (encodeFile (head ++ dataChunks parts ++ [endChunk])) := by
  obtain ⟨parts, -, hfile, -⟩ := exists_writeLines hw.depth rfl
    (fun n => ⟨_, Value.isBelow_int 0x100000 n⟩) hhead (show 0 < 3 by decide) (show 0 < 2 by decide)
    rfl hlines
  exact ⟨parts, hfile⟩

theorem exists_unread
    (hoptions : ofOptions (threeColourOptions depth background) =
      .ok (threeColourWriter depth background))
    (hfits : ¬ (threeColourWriter depth background).Fits)
    (hhead : (threeColourWriter depth background).headChunks = .ok head)
    (hlines : (threeColourWriter depth background).Samples lines) :
    ∃ file, ofOptions (threeColourOptions depth background) =
        .ok (threeColourWriter depth background) ∧
      (threeColourWriter depth background).writeLines (lines.map (List.map Int.ofNat)) = .ok file ∧
      ∀ lenient, ∃ fault r, (Reader.read lenient).on { data := file } = (.error fault, r) := by
  have hw := valid_of_ofOptions hoptions
  obtain ⟨parts, hfile⟩ := hw.exists_threeColourFile hhead hlines
  refine ⟨_, hoptions, hfile, fun lenient => ?_⟩
  obtain ⟨fault, r, hread, -⟩ := hw.exists_read_error hfits hhead parts lenient
  exact ⟨fault, r, hread⟩

end ThreeColours

end Writer

end Cartridge.Png
