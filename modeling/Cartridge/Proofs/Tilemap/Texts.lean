import Cartridge.Proofs.Charset
import Cartridge.Proofs.Outputs
import Cartridge.Proofs.Text.Lines
import Cartridge.Proofs.Tilemap.Console

/-!
# Map texts read back

The text of a map is a line with its mode in brackets and then its cells, of which the row mark
shows as a line end.

Main result: `build_writeText`.

An end cell inside the map is a cell like any other, so a map that had one already has two after it
was built.
-/

open List

namespace Cartridge.Tilemap

open Text.Numeral Text Job

variable {mode : UInt8} {cells : List UInt8}

/-! ### Cells -/

def rowSet : Charset := Table.ofList [(rowCell, "\n")]

theorem swap_rowSet : rowSet.swap = rowCodes := by decide

theorem asCells_range (cells : List UInt8) : ∀ n ∈ asCells cells, 0 ≤ n ∧ n < 0x100 := by
  intro n hn
  obtain ⟨b, -, rfl⟩ := mem_map.1 hn
  have := b.toNat_lt
  omega

theorem ofInts_asCells (cells : List UInt8) : Bytes.ofInts (asCells cells) = .ok cells := by
  induction cells with
  | nil => rfl
  | cons b cells ih =>
    rw [Bytes.ofInts, asCells] at ih
    rw [Bytes.ofInts, asCells, map_cons, mapM_cons, Bytes.byteOf_toNat, ih]
    rfl

theorem notMem_decode_rowSet (cells : List UInt8) : '\r' ∉ rowSet.decode (asCells cells) := by
  intro hmem
  rw [Charset.decode, asCells, flatMap_map, mem_flatMap] at hmem
  obtain ⟨b, -, hmem⟩ := hmem
  by_cases hrow : (b.toNat : Int) = rowCell
  · rw [hrow] at hmem
    revert hmem
    decide
  · have hshown : rowSet.shown b.toNat = '\\' :: 'x' :: (hex 2 b.toNat).toList := by
      have hfind : rowSet.find? b.toNat = none := by
        simpa [rowSet, Table.ofList, Table.insert, Table.insertEntry, Table.find?, Table.empty]
          using hrow
      rw [Charset.shown, hfind]
    have hdigits : ∀ c ∈ (hex 2 b.toNat).toList, c ≠ '\r' :=
      forall_mem_write (by omega) (by decide) 2 b.toNat
    rw [hshown, mem_cons, mem_cons] at hmem
    obtain hmem | hmem | hmem := hmem
    · exact absurd hmem (by decide)
    · exact absurd hmem (by decide)
    · exact hdigits _ hmem rfl

/-! ### The heading -/

/-- The first line of the text of a map, without its end. -/
def heading (mode : UInt8) : List Char :=
  ['['] ++ ((upperHex 0 mode.toNat).toList ++ [']'])

theorem forall_mem_heading {p : Char → Prop} (hopen : p '[') (hclose : p ']')
    (hdigit : ∀ d < 16, p (Nat.digitChar d).toUpper) (mode : UInt8) : ∀ c ∈ heading mode, p c := by
  intro c hc
  rw [heading, mem_append, mem_append, mem_singleton, mem_singleton] at hc
  obtain rfl | hc | rfl := hc
  · exact hopen
  · exact forall_mem_upperHex hdigit 0 mode.toNat c hc
  · exact hclose

theorem readMode_heading (mode : UInt8) : readMode (heading mode ++ ['\n']) = .ok mode.toNat := by
  have hline : trim isBlank (heading mode ++ ['\n']) = heading mode :=
    trim_append (fun c hc => absurd hc not_mem_nil)
      (forall_mem_heading (by decide) (by decide) (by decide) mode) (by simp; decide)
  have hbrackets : trim (fun c => c == '[' || c == ']') (heading mode) =
      (upperHex 0 mode.toNat).toList :=
    trim_append (by simp) (forall_mem_upperHex (by decide) 0 _) (by simp)
  rw [readMode, hline, hbrackets, read?_upperHex]
  rfl

/-! ### The whole text -/

def unpackedText (mode : UInt8) (cells : List UInt8) : List Char :=
  heading mode ++ '\n' :: rowSet.decode (asCells cells)

theorem textOf_unpacked (hmode : mode.toNat % 4 = 0) (cells : List UInt8) :
    textOf (mode :: cells) = .ok (String.ofList (unpackedText mode cells)) := by
  rw [textOf, if_neg (not_not.2 hmode)]
  refine congrArg Except.ok (String.toList_inj.1 ?_)
  simp only [String.toList_append, String.toList_ofList]
  rw [unpackedText, heading]
  simp only [append_assoc, cons_append, nil_append]
  rfl

theorem on_readMarkedText_unpacked {w : Workspace} {input : String}
    (h : w.read input = .ok (String.ofList (unpackedText mode cells)).toUTF8) :
    (readMarkedText input).on w = (.ok (unpackedText mode cells), w) := by
  have hreturn : '\r' ∉ unpackedText mode cells := by
    rw [unpackedText, mem_append, mem_cons, not_or, not_or]
    refine ⟨fun hmem => ?_, by decide, notMem_decode_rowSet cells⟩
    exact forall_mem_heading (p := (· ≠ '\r')) (by decide) (by decide) (by decide) mode _ hmem rfl
  have hread := on_readText h
  rw [String.toList_ofList, unifyNewlines_of_notMem hreturn] at hread
  exact on_map_ok_iff.2 ⟨_, hread, rfl⟩

/-- **The map is read back from its text.**  Behind the first line every line end is a row mark. -/
theorem on_encodeText_unpacked (hmode : mode.toNat % 4 = 0) (cells : List UInt8) (w : Workspace) :
    (encodeText (unpackedText mode cells)).on w = (.ok (asCells (mode :: cells ++ [0xFF])), w) := by
  have hnewline : '\n' ∉ heading mode := fun hmem =>
    forall_mem_heading (p := (· ≠ '\n')) (by decide) (by decide) (by decide) mode _ hmem rfl
  have hline : (lines (unpackedText mode cells)).headD [] = heading mode ++ ['\n'] := by
    rw [unpackedText, lines_append_newline hnewline]
    rfl
  have hrows : (unpackedText mode cells).drop (heading mode ++ ['\n']).length =
      rowSet.decode (asCells cells) := by
    rw [unpackedText, append_cons (heading mode) '\n' (rowSet.decode _), drop_left]
  have hplain : isPacked mode.toNat = false := by
    rw [isPacked, bne_eq_false_iff_eq]
    omega
  have hencode : (encodeRows mode.toNat (rowSet.decode (asCells cells))).on w =
      (.ok (asCells cells ++ [endCell]), w) := by
    rw [encodeRows, hplain, if_neg Bool.false_ne_true, on_bind_ok_iff]
    have hreadable : rowSet.Readable := ⟨by decide, by decide, by decide, by decide⟩
    exact ⟨_, w, Charset.on_encode_decode hreadable (asCells_range cells) w, rfl⟩
  simp only [encodeText, hline, hrows, readMode_heading, on_bind_ok_iff]
  refine ⟨_, w, rfl, _, w, hencode, ?_⟩
  rw [cons_append, asCells, asCells, map_cons, map_append]
  rfl

/-! ### Files -/

theorem on_writeText {w : Workspace} {folder name key text : String} {bytes : List UInt8}
    (htext : textOf bytes = .ok text)
    (hkey : w.target (Path.join folder (name ++ ".txt")) = .ok key) :
    (writeText folder name bytes).on w =
      (.ok (), { w with files := w.files.insert key text.toUTF8 }) := by
  have hcreate := on_create_ok_iff.2 ⟨hkey, rfl⟩
  rw [writeText, on_bind_ok_iff, htext]
  refine ⟨key, _, hcreate, ?_⟩
  have hfiles := Table.modify_insert w.files key ByteArray.empty (· ++ text.toUTF8)
  rw [ByteArray.empty_append] at hfiles
  rw [← hfiles]
  rfl

/-- **Maps that are not packed are rebuilt exactly.**  Once the text of the map is written, any
build from it that finds no prebuilt file and can write its output gives the bytes of the map and
an end cell, prints nothing and changes no other file. -/
theorem build_writeText {w : Workspace} {folder name key : String} (hmode : mode.toNat % 4 = 0)
    (hkey : w.target (Path.join folder (name ++ ".txt")) = .ok key) (cells : List UInt8) :
    let input := Path.join folder (name ++ ".txt")
    ∃ v, (writeText folder name (mode :: cells)).on w = (.ok (), v) ∧
      ∀ (u : Workspace) (output prebuilt out : String), u.read input = v.read input →
        u.hasFile (Path.join prebuilt (Path.stem input ++ ".map")) = false →
        u.target output = .ok out →
          (build output input prebuilt).on u = (.ok .finished,
            { u with files := u.files.insert out ⟨(mode :: cells ++ [0xFF]).toArray⟩ }) := by
  intro input
  refine ⟨_, on_writeText (textOf_unpacked hmode cells) hkey, ?_⟩
  intro u output prebuilt out hread hprebuilt hout
  -- whatever has happened since, the input still holds the text
  have hwritten : u.read input = .ok (String.ofList (unpackedText mode cells)).toUTF8 := by
    rw [hread, Workspace.read_ok_iff]
    exact ⟨key, Workspace.target_of_folders (w := w) rfl hkey, Table.find?_insert_self ..⟩
  have hdraft : (draft input).on u = (.ok (asCells (mode :: cells ++ [0xFF])), u) :=
    Job.on_bind_ok_iff.2 ⟨_, u, on_readMarkedText_unpacked hwritten,
      on_encodeText_unpacked hmode cells u⟩
  have hbuild : (buildFile output input).on u =
      (.ok (), { u with files := u.files.insert out ⟨(mode :: cells ++ [0xFF]).toArray⟩ }) := by
    rw [buildFile_eq, Job.on_drafted (writesNothing_draft _) (congrArg Prod.fst hdraft) hout,
      hdraft, ofInts_asCells]
    exact congrArg (fun bytes => (Except.ok (), { u with files := u.files.insert out bytes }))
      ByteArray.append_empty
  rw [build, Prebuilt.orBuild, Job.on_bind_ok_iff]
  refine ⟨u, u, rfl, ?_⟩
  rw [hprebuilt, if_neg Bool.false_ne_true, Job.on_bind_ok_iff]
  exact ⟨(), _, hbuild, rfl⟩

/-- A map with row marks at both ends and one after another, and an end cell among its cells. -/
theorem build_writeText_blank_rows :
    let w : Workspace := { folders := ["maps"] }
    let input := Path.join "maps" ("Town" ++ ".txt")
    let map : List UInt8 := [4, 0xFE, 0xFE, 0x41, 0xFF, 0xFE]
    w.target input = .ok "maps/Town.txt" ∧ textOf map = .ok "[4]\n\n\n\\x41\\xff\n" ∧
      ∃ v w', (writeText "maps" "Town" map).on w = (.ok (), v) ∧
        (build "Town.map" input "prebuilt").on v = (.ok .finished, w') ∧
        w'.read "Town.map" = .ok ⟨#[4, 0xFE, 0xFE, 0x41, 0xFF, 0xFE, 0xFF]⟩ := by
  intro w input map
  have htarget : w.target input = .ok "maps/Town.txt" := by decide +kernel
  have htext : textOf map = .ok "[4]\n\n\n\\x41\\xff\n" := by decide +kernel
  have hmode : (4 : UInt8).toNat % 4 = 0 := by decide
  obtain ⟨v, hwrite, hbuild⟩ := build_writeText hmode htarget [0xFE, 0xFE, 0x41, 0xFF, 0xFE]
  obtain rfl : ((writeText "maps" "Town" map).on w).2 = v := congrArg Prod.snd hwrite
  have hprebuilt : ((writeText "maps" "Town" map).on w).2.hasFile
      (Path.join "prebuilt" (Path.stem input ++ ".map")) = false := by decide +kernel
  have hout : ((writeText "maps" "Town" map).on w).2.target "Town.map" = .ok "Town.map" := by
    decide +kernel
  refine ⟨htarget, htext, _, _, hwrite, hbuild _ _ _ _ rfl hprebuilt hout, ?_⟩
  exact Workspace.read_ok_iff.2
    ⟨_, Workspace.target_of_folders rfl hout, Table.find?_insert_self ..⟩

end Cartridge.Tilemap
