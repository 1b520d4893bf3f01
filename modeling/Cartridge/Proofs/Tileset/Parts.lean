import Cartridge.Proofs.Tilemap.Tables
import Cartridge.Proofs.Tileset.Complete
import Cartridge.Proofs.Tileset.Regions

/-!
# The places of partial tilesets

The source of a bank of tilesets has a label and a file for each tileset, in the order of its table.
If both versions have the same image, the tilesets are common to both.

* `foldl_mergePart_twice`: equal versions have no tileset of their own.

Main result: `parts_in_place_iff`.
-/

open List

namespace Cartridge.Tileset

open Workspace Job Assembly DumpedBank PartBank

variable {image : ByteArray} {Bs : List PartBank} {data : List (String × List UInt8)} {key : String}
  {t : PartTable}

/-! ### The tilesets of two equal versions -/

theorem foldl_mergePart_of_nodup (h : (t.keys ++ data.map Prod.fst).Nodup) :
    (data.foldl mergePart t).entries = t.entries ++ data.map fun e => (e.1, .common e.2) := by
  induction data generalizing t with
  | nil => simp
  | cons e data ih =>
    have hnew : e.1 ∉ t.keys := fun hmem => (nodup_append.1 h).2.2 _ hmem e.1 (by simp) rfl
    have hnone : t.find? e.1 = none := by
      rw [Option.eq_none_iff_forall_ne_some]
      exact fun v hv => hnew (Table.mem_keys_iff.2 ⟨v, hv⟩)
    have hmerge : mergePart t e = t.insert e.1 (.common e.2) := by rw [mergePart, hnone]
    rw [foldl_cons, hmerge, ih, Table.insert, Table.map_fst_insertEntry hnew, append_assoc]
    · rfl
    · rwa [Table.keys_insert_of_notMem hnew, append_assoc]

theorem foldl_mergePart_of_common (h : ∀ e ∈ data, t.find? e.1 = some (.common e.2)) :
    data.foldl mergePart t = t := by
  induction data with
  | nil => rfl
  | cons e data ih =>
    obtain ⟨he, h⟩ := forall_mem_cons.1 h
    have hmerge : mergePart t e = t := by rw [mergePart, he]; exact if_pos rfl
    rw [foldl_cons, hmerge, ih h]

theorem foldl_mergePart_twice (h : (data.map Prod.fst).Nodup) :
    (data ++ data).foldl mergePart ∅ = ⟨data.map fun e => (e.1, .common e.2)⟩ := by
  have hfirst : data.foldl mergePart ∅ = ⟨data.map fun e => (e.1, .common e.2)⟩ :=
    congrArg Table.mk (foldl_mergePart_of_nodup (t := ∅) h)
  rw [foldl_append, hfirst]
  refine foldl_mergePart_of_common fun e he => ?_
  rw [Table.find?_eq_some_iff]
  · exact mem_map.2 ⟨e, he, rfl⟩
  · simpa [Table.keys, Function.comp_def] using h

def partSource (output name : String) : List Line :=
  [.label name, .binary (quoted (Path.join output name ++ ".2bpp"))]

namespace DumpedBank

variable {d : DumpedBank}

theorem Of.nodup_labels (h : d.Of image) : (d.toBank.data.map Prod.fst).Nodup := by
  have hlabels : d.toBank.data.map Prod.fst = (partAddresses d.pointers d.stop).map d.label := by
    rw [← h.addresses, map_map, toBank, map_map]
    rfl
  rw [hlabels]
  refine (nodup_cons_partAddresses _ _).of_cons.map_on fun a ha b hb heq => ?_
  rw [mem_partAddresses] at ha hb
  rw [label, labelOf, if_neg ha.2, label, labelOf, if_neg hb.2, partName,
    partName, String.append_right_inj] at heq
  exact (idxOf_inj ha.1).1 (Text.Numeral.upperHex_inj heq)

def source (output : String) (d : DumpedBank) : List Line :=
  .place ("Partial Tilesets Table " ++ toString d.index) (banked 0x4000 d.bank) ::
    .label ("PartialTilesets" ++ toString d.index) :: (d.pointers.map fun a => .word (d.label a)) ++
    [.blank] ++
    (d.blocks.flatMap fun block => partSource output (d.label block.1)) ++
    [.label (d.label d.stop), .blank]

theorem getLastD_targets (h : d.pointers ≠ []) : d.toBank.targets.getLastD "" = d.label d.stop := by
  rw [toBank, stop, getLastD_eq_getLast?, getLastD_eq_getLast?, getLast?_map,
    getLast?_eq_some_getLast h]
  rfl

end DumpedBank

/-! ### The dump -/

variable {w w' : Workspace} {program pictures output folder name : String} {banks : List Nat}

theorem of_dumpPart {tiles : List UInt8} {r : List String × Line}
    (h : (dumpPart pictures output name (.common tiles)).on w = (.ok r, w')) :
    SameBut (EndsIn · ".png") w w' ∧
      r = ([], .binary (quoted (Path.join output name ++ ".2bpp"))) := by
  simp only [dumpPart, on_bind_ok_iff, on_pure, Prod.mk.injEq, Except.ok.injEq] at h
  obtain ⟨⟨⟩, _, hsave, rfl, rfl⟩ := h
  exact ⟨(Dump.of_savePicture hsave).of_eq
    (endsIn_plainPath_join _ (endsIn_append ..) (by decide)), rfl⟩

theorem of_dumpBank {d : DumpedBank} {lines : PartLines} (hd : d.Of image)
    (h : (dumpBank pictures output d.index (.ofBanks d.bank [d.toBank, d.toBank])).on w =
      (.ok lines, w')) :
    SameBut (EndsIn · ".png") w w' ∧ d.blocks ≠ [] ∧ d.source output = lines.shared := by
  simp only [dumpBank, PartEntry.ofBanks, flatMap_cons, flatMap_nil, append_nil, head?_cons,
    Option.map_some, Option.getD_some, foldl_mergePart_twice hd.nodup_labels, on_bind_ok_iff,
    on_demand_ok_iff, on_pure, Prod.mk.injEq, Except.ok.injEq] at h
  obtain ⟨table, _, ⟨htable, rfl⟩, parts, _, hparts, rfl, rfl⟩ := h
  by_cases hempty : d.toBank.data ++ d.toBank.data = []
  · simp [hempty] at htable
  rw [if_neg (by simpa using hempty), Option.some.injEq] at htable
  subst htable
  obtain ⟨hsame, hlines⟩ := of_mapM (P := (EndsIn · ".png"))
    (Q := fun e part => ([], partSource output e.1) = part) (fun e he w part w' h => by
      obtain ⟨block, -, rfl⟩ := mem_map.1 he
      simp only [on_bind_ok_iff, on_pure, Prod.mk.injEq, Except.ok.injEq] at h
      obtain ⟨r, _, hpart, rfl, rfl⟩ := h
      obtain ⟨hsame, rfl⟩ := of_dumpPart hpart
      exact ⟨hsame, rfl⟩) hparts
  have hne : d.blocks ≠ [] := by
    intro hblocks
    simp [toBank, hblocks] at hempty
  have hpointers : d.pointers ≠ [] := by
    intro hpointers
    have hblocks := hd.addresses
    rw [hpointers] at hblocks
    exact hne (map_eq_nil_iff.1 hblocks)
  have hall := forall₂_eq_eq_eq ▸ forall₂_map_left_iff.2 hlines
  refine ⟨hsame, hne, ?_⟩
  rw [← hall, flatMap_map, d.getLastD_targets hpointers, toBank, map_map, flatMap_map,
    flatMap_map]
  rfl

def sharedPath (folder : String) : String := Path.join folder "partial_tilesets_table.asm"

def versionPath (folder : String) (v : Version) : String :=
  Path.join (Path.join folder v.name) "partial_tilesets_table.asm"

theorem sharedPath_ne_versionPath (folder : String) (v : Version) :
    plainPath (sharedPath folder) ≠ plainPath (versionPath folder v) := by
  have hfile : FileName "partial_tilesets_table.asm" := by decide
  rw [versionPath, join_version hfile.startsWith]
  exact plainPath_join_ne hfile (fileName_version v)

theorem exists_dumped (h : banks.zipIdx.mapM (fun e => read image e.2 e.1) = .ok Bs) :
    ∃ dumped : List DumpedBank, (dumped.map fun d => (d.bank, d.index)) = banks.zipIdx ∧
      dumped.map toBank = Bs ∧ (∀ d ∈ dumped, d.Of image) ∧
      (banks.zipIdx.map fun e => PartEntry.ofBanks e.1 ([Bs, Bs].filterMap (·[e.2]?))).zipIdx =
        dumped.map fun d => (.ofBanks d.bank [d.toBank, d.toBank], d.index) := by
  have hread : ∀ e ∈ banks.zipIdx, ∃ d : DumpedBank, (d.bank, d.index) = e ∧ d.Of image := by
    intro e he
    obtain ⟨B, -, hB⟩ := exists_mem_of_mapM h he
    obtain ⟨d, hd, -, hof⟩ := exists_of_read hB
    exact ⟨d, hd, hof⟩
  choose! f hf using hread
  have hBs : Bs = banks.zipIdx.map fun e => (f e).toBank := by
    refine (forall₂_eq_eq_eq ▸ forall₂_map_left_iff.2 ?_).symm
    refine ((forall₂_and_left (p := (· ∈ banks.zipIdx)) _ _).2
      ⟨fun _ => id, mapM_ok_iff.1 h⟩).imp fun e B hB => ?_
    have hread := (hf e hB.1).2.read
    rw [← (hf e hB.1).1] at hB
    exact Except.ok.inj (hread.symm.trans hB.2)
  refine ⟨banks.zipIdx.map f, ?_, hBs ▸ map_map, ?_, ?_⟩
  · rw [map_map]
    exact (map_congr_left fun e he => (hf e he).1).trans (map_id _)
  · intro d hd
    obtain ⟨e, he, rfl⟩ := mem_map.1 hd
    exact (hf e he).2
  · refine ext_getElem? fun i => ?_
    cases hi : banks[i]? with
    | none => simp [hi]
    | some b =>
      have he : (b, i) ∈ banks.zipIdx := mem_zipIdx_iff_getElem?.2 hi
      have hbank := (hf _ he).1
      have hB : Bs[i]? = some (f (b, i)).toBank := by simp [hBs, hi]
      simp [hi, hB, Prod.mk.inj hbank]

theorem endsIn_sharedPath (folder : String) : EndsIn (plainPath (sharedPath folder)) ".asm" :=
  endsIn_plainPath_join _ (endsIn_append "partial_tilesets_table" ".asm") (by decide)

theorem read_image_of_create {v : Version}
    (hcreate : (create (sharedPath folder)).on w = (.ok key, w'))
    (himage : w.read v.image = .ok image) : w'.read v.image = .ok image := by
  obtain ⟨rfl, -, hcreated, -⟩ := of_create hcreate
  refine hcreated.read himage fun heq => ?_
  exact (heq ▸ endsIn_image v).not_endsIn (by decide) (endsIn_sharedPath folder)

/-- **What a dump of partial tilesets leaves** if both versions have the same image. -/
theorem exists_of_dumpPartial (himages : ∀ v : Version, w.read v.image = .ok image)
    (h : (dumpPartial program pictures output folder banks).on w = (.ok (), w')) :
    ∃ dumped : List DumpedBank, (dumped.map fun d => (d.bank, d.index)) = banks.zipIdx ∧
      w'.read (sharedPath folder) = .ok (render
        (heading program ++ dumped.flatMap (source output))).toUTF8 ∧
      ∀ d ∈ dumped, d.Of image ∧ d.blocks ≠ [] := by
  simp only [dumpPartial, Version.all, mapM_cons, mapM_nil, List.forM_eq_forM, forM_cons, forM_nil,
    map_cons, map_nil, zip_cons_cons, zip_nil_right, forIn_cons, forIn_nil, on_bind_ok_iff,
    on_readFile_ok_iff, on_lift, on_pure, on_discard_ok_iff, Prod.mk.injEq, Except.ok.injEq] at h
  obtain ⟨key, _, hcreate, _, _, ⟨Bs, _, ⟨image₁, _, ⟨himage₁, rfl⟩, hfirst, rfl⟩, _, _, ⟨Bs', _,
    ⟨image₂, v₁, ⟨himage₂, rfl⟩, hsecond, rfl⟩, _, _, ⟨rfl, rfl⟩, rfl, rfl⟩, rfl, rfl⟩, _, _,
    ⟨_, u, ⟨_, hkabuto⟩, _, v₂, ⟨_, hkuwagata⟩, -, rfl⟩, lines, v₃, hlines, ⟨⟩, v₄, happend, _, _,
    ⟨_, _, ⟨⟨⟩, v₅, hwrite, rfl, rfl⟩, hrest⟩, -, rfl⟩ := h
  simp only [on_bind_ok_iff, on_pure, Prod.mk.injEq, Except.ok.injEq] at hrest
  obtain ⟨_, _, ⟨⟨⟩, v₆, hwrite', rfl, rfl⟩, hlast⟩ := hrest
  obtain ⟨-, rfl⟩ := Prod.mk.inj hlast
  have hreads (v : Version) := read_image_of_create hcreate (himages v)
  rw [hreads, Except.ok.injEq] at himage₁ himage₂
  subst himage₁ himage₂
  rw [hfirst, Except.ok.injEq] at hsecond
  subst hsecond
  obtain ⟨dumped, hbanks, -, hof, hentries⟩ := exists_dumped hfirst
  rw [hentries, mapM_map] at hlines
  obtain ⟨hdrawn, hsources⟩ :=
    of_mapM (fun d hd w lines w' h => of_dumpBank (hof d hd) h) hlines
  obtain ⟨hnonempty, hsources⟩ := (forall₂_and_left _ _).1 hsources
  have hshared := forall₂_eq_eq_eq ▸ forall₂_map_left_iff.2 (forall₂_map_right_iff.2 hsources)
  -- the pictures and the sources of the versions are other files, so the shared source stays
  obtain ⟨rfl, -, hsame₁, -⟩ := of_create hkabuto
  obtain ⟨rfl, -, hsame₂, -⟩ := of_create hkuwagata
  have hkept : SameBut (· ≠ plainPath (sharedPath folder)) v₁ v₃ :=
    ((hsame₁.of_eq (sharedPath_ne_versionPath folder .kabuto).symm).trans
      (hsame₂.of_eq (sharedPath_ne_versionPath folder .kuwagata).symm)).trans
      (hdrawn.mono fun _ hpng heq =>
        (heq ▸ hpng).not_endsIn (by decide) (endsIn_sharedPath folder))
  obtain ⟨-, -, hread⟩ := of_create_append hcreate hkept happend (· rfl)
  refine ⟨dumped, hbanks, ?_, fun d hd => ⟨hof d hd, hnonempty d hd⟩⟩
  rw [flatMap_def, hshared]
  exact (of_writeFile hwrite').read ((of_writeFile hwrite).read hread
    (sharedPath_ne_versionPath folder .kabuto)) (sharedPath_ne_versionPath folder .kuwagata)

/-- **Partial tilesets** of equal versions: in the order of their addresses the tilesets of a bank
are its bytes from the lowest address up to the end.  In the order of their labels they are these
bytes if the table goes up, and only then does each label come to stand at its own address. -/
theorem parts_in_place_iff (himages : ∀ v : Version, w.read v.image = .ok image)
    (h : (dumpPartial program pictures output folder banks).on w = (.ok (), w')) :
    ∃ dumped : List DumpedBank, (dumped.map fun d => (d.bank, d.index)) = banks.zipIdx ∧
      w'.read (sharedPath folder) = .ok (Assembly.render
        (Assembly.heading program ++ dumped.flatMap (DumpedBank.source output))).toUTF8 ∧
      ∀ d ∈ dumped, PointerTable.read image ⟨d.bank, 0x4000⟩ = .ok d.pointers ∧
        d.blocks.map Prod.fst = partAddresses d.pointers d.stop ∧
        PartBank.read image d.index d.bank = .ok d.toBank ∧
        ∃ low, d.Covers image low ∧
          ((d.blocks.map Prod.fst).Pairwise (· < ·) →
            d.blocks.flatMap Prod.snd = region image d.bank low d.stop) ∧
          (Address.flat ⟨d.bank, d.stop⟩ ≤ image.size →
            (InPlace low d.blocks d.stop ↔ (d.blocks.map Prod.fst).Pairwise (· < ·))) := by
  obtain ⟨dumped, hbanks, hread, hall⟩ := exists_of_dumpPartial himages h
  refine ⟨dumped, hbanks, hread, fun d hd => ?_⟩
  obtain ⟨hof, hne⟩ := hall d hd
  exact ⟨hof.pointers, hof.addresses, hof.read, hof.exists_covers hne⟩

/-! ### Samples -/

theorem ends_dumpBank {d : DumpedBank} (hd : d.Of image) (hne : d.toBank.data ≠ [])
    (hparts : ∀ part ∈ d.toBank.data,
      (∃ key, w.target (Path.join pictures (part.1 ++ ".png")) = .ok key) ∧
        ∃ file, Picture.encode part.2 none none = .ok file) :
    (dumpBank pictures output d.index (.ofBanks d.bank [d.toBank, d.toBank])).Ends w.folders := by
  have hdata : (PartEntry.ofBanks d.bank [d.toBank, d.toBank]).data =
      some ⟨d.toBank.data.map fun e => (e.1, .common e.2)⟩ := by
    simp [PartEntry.ofBanks, hne, foldl_mergePart_twice hd.nodup_labels]
  rw [dumpBank, hdata]
  simp only [demand, pure_bind]
  refine .bind (.mapM fun e he => ?_) fun parts => .pure _
  obtain ⟨part, hpart, rfl⟩ := mem_map.1 he
  obtain ⟨⟨key, htarget⟩, file, hfile⟩ := hparts part hpart
  exact .bind (.bind (.bind (.create htarget) fun _ => .lift_bind hfile (.append _ _)) fun _ =>
    .pure _) fun _ => .pure _

/-- **The tilesets of equal versions** are dumped if they can be drawn and there is room for the
files. -/
theorem exists_on_dumpPartial (himages : ∀ v : Version, w.read v.image = .ok image)
    (hshared : w.target (sharedPath folder) = .ok key)
    (hversions : ∀ v, ∃ key, w.target (versionPath folder v) = .ok key)
    (hread : banks.zipIdx.mapM (fun e => read image e.2 e.1) = .ok Bs)
    (hbanks : ∀ B ∈ Bs, B.data ≠ [] ∧ ∀ part ∈ B.data,
      (∃ key, w.target (Path.join pictures (part.1 ++ ".png")) = .ok key) ∧
        ∃ file, Picture.encode part.2 none none = .ok file) :
    ∃ w', (dumpPartial program pictures output folder banks).on w = (.ok (), w') := by
  obtain ⟨dumped, -, rfl, hof, hentries⟩ := exists_dumped hread
  obtain ⟨created, hcreate, hfolders⟩ : ∃ created, (create (sharedPath folder)).on w =
      (.ok key, created) ∧ created.folders = w.folders :=
    ⟨_, on_create_ok_iff.2 ⟨hshared, rfl⟩, rfl⟩
  let readBanks (v : Version) : Job (List PartBank) := do
    let image ← readFile v.image
    lift (banks.zipIdx.mapM fun e => read image e.2 e.1)
  have hversion : ∀ v, (readBanks v).on created =
      (.ok (dumped.map toBank), created) := by
    intro v
    refine on_bind_ok_iff.2 ⟨image, _, on_readFile_ok_iff.2
      ⟨read_image_of_create hcreate (himages v), rfl⟩, ?_⟩
    rw [on_lift, hread]
  have hreads : (Version.all.mapM readBanks).on created =
      (.ok [dumped.map toBank, dumped.map toBank], created) :=
    on_mapM_cons_ok_iff.2 ⟨_, _, _, hversion .kabuto,
      on_mapM_cons_ok_iff.2 ⟨_, _, [], hversion .kuwagata, rfl, rfl⟩, rfl⟩
  obtain ⟨key₁, htarget₁⟩ := hversions .kabuto
  obtain ⟨key₂, htarget₂⟩ := hversions .kuwagata
  rw [dumpPartial, ← sharedPath, on_bind_of_ok hcreate, on_bind_of_ok hreads]
  refine Ends.exists_on ?_
  rw [hfolders]
  refine .bind (.bind (.discard (.create htarget₁)) fun _ =>
    .bind (.discard (.create htarget₂)) fun _ => .pure _) fun _ => ?_
  simp only [hentries]
  refine .bind (.mapM fun e he => ?_) fun lines => .bind (.append _ _) fun _ =>
    .bind (.forIn fun e he => ?_) fun _ => .pure _
  · obtain ⟨d, hd, rfl⟩ := mem_map.1 he
    exact ends_dumpBank (hof d hd) (hbanks _ (mem_map_of_mem hd)).1 (hbanks _ (mem_map_of_mem hd)).2
  · simp only [Version.all, map_cons, map_nil, zip_cons_cons, zip_nil_right, mem_cons, not_mem_nil,
      or_false] at he
    obtain rfl | rfl := he
    · exact .bind (.writeFile htarget₁ _) fun _ => .pure _
    · exact .bind (.writeFile htarget₂ _) fun _ => .pure _

/-- An image that starts with a bank: a table of pointers, and four tiles. -/
def partsImage (pointers : List Nat) : ByteArray :=
  ⟨(pointers.flatMap (Bytes.wordBytes ·) ++ (List.range 64).map Nat.toUInt8).toArray⟩

def sampleTile (i : Nat) : List UInt8 := (List.range' (16 * i) 16).map Nat.toUInt8

theorem read_parts_sample (pointers : List Nat) (v : Version) :
    (sampleWorkspace (partsImage pointers) (partsImage pointers)).read v.image =
      .ok (partsImage pointers) := by
  cases v with
  | kabuto => exact read_sample_kabuto _ _
  | kuwagata => exact read_sample_kuwagata _ _

/-- A table that goes up, with a pointer that comes twice. -/
def rising : List Nat := [0x4008, 0x4018, 0x4008, 0x4028]

/-- A table that does not go up. -/
def crossing : List Nat := [0x4008, 0x4028, 0x4018, 0x4038]

-- the paths and the tables of both samples are evaluated here, in one go
theorem run_parts :
    (sampleBare.target (sharedPath "v") = .ok "v/partial_tilesets_table.asm" ∧
      ∀ v ∈ Version.all, (sampleBare.target (versionPath "v" v)).toOption.isSome) ∧
    (PointerTable.read (partsImage rising) ⟨0, 0x4000⟩ = .ok rising ∧
      (nameTargets 0 rising (rising.getLastD 0)).keys = [0x4028, 0x4008, 0x4018]) ∧
    PointerTable.read (partsImage crossing) ⟨0, 0x4000⟩ = .ok crossing ∧
      (nameTargets 0 crossing (crossing.getLastD 0)).keys = [0x4038, 0x4008, 0x4028, 0x4018] := by
  decide +kernel

theorem exists_on_dumpPartial_sample {pointers : List Nat} {targets : List String}
    (hread : read (partsImage pointers) 0 0 = .ok ⟨targets, data⟩) (hne : data ≠ [])
    (hparts : data.all fun part => part.2.length = 16 ∧
      (sampleBare.target (Path.join "raw" (part.1 ++ ".png"))).toOption.isSome) :
    ∃ w', (dumpPartial "dump" "raw" "out" "v" [0]).on
      (sampleWorkspace (partsImage pointers) (partsImage pointers)) = (.ok (), w') := by
  have hroom : ∀ {path key : String}, sampleBare.target path = .ok key → ∃ key,
      (sampleWorkspace (partsImage pointers) (partsImage pointers)).target path = .ok key :=
    fun h => ⟨_, target_sample _ _ h⟩
  have hbanks : ([0].zipIdx.mapM fun e => read (partsImage pointers) e.2 e.1) =
      .ok [⟨targets, data⟩] := by
    simp [hread]
  refine exists_on_dumpPartial (read_parts_sample pointers) (target_sample _ _ run_parts.1.1)
    (fun v => hroom (eq_ok_get (run_parts.1.2 v (by cases v <;> decide)))) hbanks fun B hB => ?_
  rw [mem_singleton.1 hB]
  refine ⟨hne, fun part hpart => ?_⟩
  obtain ⟨hlength, htarget⟩ := of_decide_eq_true (all_eq_true.1 hparts part hpart)
  exact ⟨hroom (eq_ok_get htarget), exists_encode_tiles (n := 1) hlength (by decide) (by decide)⟩

theorem exists_read_rising : ∃ targets, read (partsImage rising) 0 0 = .ok
    ⟨targets, [("PartialTileset0000", sampleTile 0), ("PartialTileset0001", sampleTile 1)]⟩ := by
  obtain ⟨hpointers, hkeys⟩ := run_parts.2.1
  refine ⟨_, bind_ok_iff.2 ⟨_, hpointers, bind_ok_iff.2 ⟨_, ?_, rfl⟩⟩⟩
  rw [hkeys, show ([0x4028, 0x4008, 0x4018].mergeSort fun a b : Nat => decide (a ≤ b)) =
    [0x4008, 0x4018, 0x4028] by simp [List.mergeSort, List.MergeSort.Internal.splitInTwo]]
  decide +kernel

/-- The tilesets of a table that goes up come to stand in their places. -/
theorem parts_in_place_iff_rising : ∃ (w' : Workspace) (d : DumpedBank) (low : Nat),
    (dumpPartial "dump" "raw" "out" "v" [0]).on
      (sampleWorkspace (partsImage rising) (partsImage rising)) = (.ok (), w') ∧
    w'.read (sharedPath "v") =
      .ok (Assembly.render (Assembly.heading "dump" ++ d.source "out")).toUTF8 ∧
    d.pointers = rising ∧ d.blocks.flatMap Prod.snd = region (partsImage rising) 0 low 0x4028 ∧
    InPlace low d.blocks 0x4028 := by
  obtain ⟨targets, hread⟩ := exists_read_rising
  obtain ⟨w', hon⟩ := exists_on_dumpPartial_sample hread (cons_ne_nil _ _) (by decide +kernel)
  obtain ⟨dumped, hbanks, hfile, hall⟩ := parts_in_place_iff (read_parts_sample rising) hon
  obtain ⟨d, rfl, hd⟩ := map_eq_singleton_iff.1 hbanks
  obtain ⟨hbank, -⟩ := Prod.mk.inj hd
  obtain ⟨hpointers, haddresses, -, low, -, hregion, hplace⟩ := hall d (mem_singleton_self d)
  rw [hbank, Int.natCast_zero, run_parts.2.1.1, Except.ok.injEq] at hpointers
  have hstop : d.stop = 0x4028 := by rw [DumpedBank.stop, ← hpointers]; rfl
  have hup : (d.blocks.map Prod.fst).Pairwise (· < ·) := by
    rw [haddresses, hstop, ← hpointers]
    decide
  rw [hbank, hstop] at hregion hplace
  refine ⟨w', d, low, hon, ?_, hpointers.symm, hregion hup, (hplace (by decide)).2 hup⟩
  rwa [flatMap_singleton] at hfile

theorem exists_read_crossing : ∃ targets, read (partsImage crossing) 0 0 = .ok
    ⟨targets, [("PartialTileset0000", sampleTile 0), ("PartialTileset0001", sampleTile 2),
      ("PartialTileset0002", sampleTile 1)]⟩ := by
  obtain ⟨hpointers, hkeys⟩ := run_parts.2.2
  refine ⟨_, bind_ok_iff.2 ⟨_, hpointers, bind_ok_iff.2 ⟨_, ?_, rfl⟩⟩⟩
  rw [hkeys, show ([0x4038, 0x4008, 0x4028, 0x4018].mergeSort fun a b : Nat => decide (a ≤ b)) =
    [0x4008, 0x4018, 0x4028, 0x4038] by
      simp [List.mergeSort, List.MergeSort.Internal.splitInTwo]]
  decide +kernel

/-- The tilesets of a table that does not go up are dumped in another order than they stand in. -/
theorem exists_parts_out_of_place : ∃ (w' : Workspace) (d : DumpedBank) (low : Nat),
    (dumpPartial "dump" "raw" "out" "v" [0]).on
      (sampleWorkspace (partsImage crossing) (partsImage crossing)) = (.ok (), w') ∧
    w'.read (sharedPath "v") =
      .ok (Assembly.render (Assembly.heading "dump" ++ d.source "out")).toUTF8 ∧
    d.Covers (partsImage crossing) low ∧
    d.blocks.flatMap Prod.snd ≠ region (partsImage crossing) d.bank low d.stop := by
  obtain ⟨targets, hread⟩ := exists_read_crossing
  obtain ⟨w', hon⟩ := exists_on_dumpPartial_sample hread (cons_ne_nil _ _) (by decide +kernel)
  obtain ⟨dumped, hbanks, hfile, hall⟩ := exists_of_dumpPartial (read_parts_sample crossing) hon
  obtain ⟨d, rfl, hd⟩ := map_eq_singleton_iff.1 hbanks
  obtain ⟨hbank, hindex⟩ := Prod.mk.inj hd
  obtain ⟨hof, hne⟩ := hall d (mem_singleton_self d)
  obtain ⟨low, hcovers, -⟩ := hof.exists_covers hne
  have hpointers := hof.pointers
  have hblocks := hof.read
  rw [hbank, Int.natCast_zero, run_parts.2.2.1, Except.ok.injEq] at hpointers
  rw [hbank, hindex, hread, Except.ok.injEq] at hblocks
  have hstop : d.stop = 0x4038 := by rw [DumpedBank.stop, ← hpointers]; rfl
  have hlow : low = 0x4008 := by
    have hmem := hcovers.mem
    have hle := hcovers.le
    rw [hof.addresses, hstop, ← hpointers,
      show partAddresses crossing 0x4038 = [0x4008, 0x4028, 0x4018] by decide] at hmem hle
    have hfirst := hle 0x4008 mem_cons_self
    simp only [mem_cons, not_mem_nil, or_false] at hmem
    omega
  have hdata : d.blocks.map Prod.snd = [sampleTile 0, sampleTile 2, sampleTile 1] := by
    have hparts := congrArg (fun B => B.data.map Prod.snd) hblocks
    simpa [DumpedBank.toBank, Function.comp_def] using hparts.symm
  refine ⟨w', d, low, hon, by rwa [flatMap_singleton] at hfile, hcovers, ?_⟩
  rw [flatMap_def, hdata, hbank, hstop, hlow]
  decide +kernel

end Cartridge.Tileset
