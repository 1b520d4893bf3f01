import Cartridge.Proofs.Picture.Lossless
import Cartridge.Proofs.Tileset.Classes
import Cartridge.Proofs.Tileset.Written

/-!
# Dumps that end

When a dump runs to its end.  All that can fail is a look-up, a path or a picture; what the files
hold does not matter.

* `exists_on_dump_eq`: a dump without a list of names comes to `Dump.write`.
-/

open List

namespace Cartridge

open Workspace Bytes Job

variable {path : String} {w : Workspace}

namespace Job

open Workspace (plainPath)

variable {α β : Type} {folders : List String} {job : Job α} {next f : α → Job β} {a : α}
  {x : Except Fault α} {as : List α}

theorem on_bind_of_ok {w' : Workspace} (h : job.on w = (.ok a, w')) :
    (job >>= next).on w = (next a).on w' := by
  rw [on_bind, h]

/-! ### Jobs that end -/

/-- The job gives a result on every workspace with the given folders, and keeps them. -/
def Ends (folders : List String) (job : Job α) : Prop :=
  ∀ w, w.folders = folders → ∃ a w', job.on w = (.ok a, w') ∧ w'.folders = folders

theorem Ends.exists_on {job : Job Unit} (h : job.Ends w.folders) :
    ∃ w', job.on w = (.ok (), w') := by
  obtain ⟨⟨⟩, w', hon, -⟩ := h w rfl
  exact ⟨w', hon⟩

theorem Ends.pure (a : α) : (pure a : Job α).Ends folders := fun w hw => ⟨a, w, rfl, hw⟩

theorem Ends.bind (hjob : job.Ends folders) (hnext : ∀ a, (next a).Ends folders) :
    (job >>= next).Ends folders := by
  intro w hw
  obtain ⟨a, v, hon, hv⟩ := hjob w hw
  obtain ⟨b, w', hon', hw'⟩ := hnext a v hv
  exact ⟨b, w', on_bind_ok_iff.2 ⟨a, v, hon, hon'⟩, hw'⟩

theorem Ends.lift (h : x = .ok a) : (lift x).Ends folders :=
  fun w hw => ⟨a, w, by rw [on_lift, h], hw⟩

theorem Ends.lift_bind (h : x = .ok a) (hnext : (next a).Ends folders) :
    (Job.lift x >>= next).Ends folders := by
  intro w hw
  obtain ⟨b, w', hon, hw'⟩ := hnext w hw
  exact ⟨b, w', on_bind_ok_iff.2 ⟨a, w, by rw [on_lift, h], hon⟩, hw'⟩

theorem Ends.mapM (h : ∀ a ∈ as, (f a).Ends folders) :
    (as.mapM f).Ends folders := by
  induction as with
  | nil => exact .pure []
  | cons a as ih =>
    rw [mapM_cons]
    refine .bind (h a mem_cons_self) fun b => .bind (ih fun a ha => ?_) fun bs => .pure _
    exact h a (mem_cons_of_mem _ ha)

theorem Ends.create {key : String} (h : w.target path = .ok key) :
    (create path).Ends w.folders := by
  intro v hv
  exact ⟨key, _, on_create_ok_iff.2 ⟨target_of_folders hv h, rfl⟩, hv⟩

theorem Ends.writeFile {key : String} (h : w.target path = .ok key) (bytes : ByteArray) :
    (writeFile path bytes).Ends w.folders := by
  intro v hv
  exact ⟨(), _, on_writeFile_ok_iff.2 ⟨key, target_of_folders hv h, rfl⟩, hv⟩

theorem Ends.append (key : String) (bytes : ByteArray) : (append key bytes).Ends folders :=
  fun w hw => ⟨(), { w with files := w.files.modify key (· ++ bytes) }, rfl, hw⟩

theorem Ends.foldlM {f : β → α → Job β} (h : ∀ a ∈ as, ∀ b, (f b a).Ends folders) (b : β) :
    (as.foldlM f b).Ends folders := by
  induction as generalizing b with
  | nil => exact .pure b
  | cons a as ih =>
    exact .bind (h a mem_cons_self b) (ih fun a ha => h a (mem_cons_of_mem _ ha))

theorem Ends.discard (h : job.Ends folders) : (discard job).Ends folders := by
  intro w hw
  obtain ⟨a, w', hon, hw'⟩ := h w hw
  exact ⟨PUnit.unit, w', on_discard_ok_iff.2 ⟨a, hon⟩, hw'⟩

theorem Ends.forIn {body : α → PUnit → Job (ForInStep PUnit)}
    (h : ∀ a ∈ as, (body a PUnit.unit).Ends folders) :
    (forIn as PUnit.unit body).Ends folders := by
  induction as with
  | nil => exact .pure _
  | cons a as ih =>
    rw [forIn_cons]
    refine .bind (h a mem_cons_self) fun r => ?_
    cases r with
    | done u => exact .pure u
    | yield u => exact ih fun a ha => h a (mem_cons_of_mem _ ha)

end Job

namespace Tileset

open Workspace (SameBut plainPath)

variable {f : Folders} {w : Workspace} {image image₁ image₂ : ByteArray} {s s₁ s₂ : Survey}
  {ls done : List Listing} {l : Listing} {front bytes rest tiles : List UInt8} {n pos : Nat}

/-! ### Surveys -/

theorem exists_add (h : s.Sound image done)
    (hl : l.position ≠ emptyPosition → ∃ t, readAt image l.position = .ok t) :
    ∃ s', s.add image (l, done.length) = .ok s' := by
  cases hcontains : s.owners.contains l.position with
  | true =>
    simp only [Survey.add, hcontains, if_true]
    exact ⟨_, rfl⟩
  | false =>
    have hempty : l.position ≠ emptyPosition := by
      intro hempty
      rw [Table.contains, h.owners, ownerAmong, if_pos hempty] at hcontains
      cases hcontains
    obtain ⟨t, ht⟩ := hl hempty
    simp only [Survey.add, hcontains, Bool.false_eq_true, if_false]
    exact ⟨_, bind_ok_iff.2 ⟨t, ht, rfl⟩⟩

theorem exists_foldlM_add (h : s.Sound image done)
    (hls : ∀ l ∈ ls, l.position ≠ emptyPosition → ∃ t, readAt image l.position = .ok t) :
    ∃ s', (ls.zipIdx done.length).foldlM (Survey.add image) s = .ok s' := by
  induction ls generalizing done s with
  | nil => exact ⟨s, rfl⟩
  | cons l ls ih =>
    obtain ⟨v, hv⟩ := exists_add h (hls l mem_cons_self)
    have hlength : (done ++ [l]).length = done.length + 1 := length_append
    obtain ⟨s', hs'⟩ := ih (h.add hv) fun l hl => hls l (mem_cons_of_mem _ hl)
    rw [hlength] at hs'
    exact ⟨s', by exact bind_ok_iff.2 ⟨v, hv, hs'⟩⟩

/-- **An image whose entries are empty or lead to tilesets can be surveyed.** -/
theorem exists_read (hls : readListings image = .ok ls)
    (hread : ∀ l ∈ ls, l.position ≠ emptyPosition → ∃ t, readAt image l.position = .ok t) :
    ∃ s, Survey.read image = .ok s := by
  obtain ⟨s, hs⟩ := exists_foldlM_add (Survey.Sound.start image) hread
  exact ⟨s, bind_ok_iff.2 ⟨ls, hls, hs⟩⟩

/-! ### The parts of a dump -/

namespace Dump

variable {d : Dump} {key : Nat} {k k' : String}

theorem ends_save {stem : String} {t : Decoded} {file : ByteArray}
    (hstored : w.target (Path.join d.folders.stored (stem ++ ".malias")) = .ok k)
    (hpicture : w.target (Path.join d.folders.pictures (stem ++ ".malias.png")) = .ok k')
    (hfile : Picture.encode t.data.toList none none = .ok file) : (d.save stem t).Ends w.folders :=
  .bind (.create hstored) fun _ =>
    .bind (.bind (.create hpicture) fun _ => .lift_bind hfile (.append _ _)) fun _ => .append _ _

section

variable (hs : d.first.Sound image ls)
  (hnames : ∀ key t, d.first.found.find? key = some t → ∃ name, d.names.find? key = some name)
  (hstop : ∃ name, d.names.find? addressTableEnd = some name)

include hs hnames hstop

theorem exists_listedName (hl : l ∈ ls) (key : Nat) :
    ∃ name, d.listedName key l.position = .ok name := by
  unfold listedName
  cases hname : d.names.find? key with
  | some name => exact ⟨name, rfl⟩
  | none =>
    obtain ⟨i, hi⟩ := getElem?_of_mem hl
    have howner := hs.owner?_eq hi
    rw [← hs.owners] at howner
    rcases hs.exists_owner hi with ⟨-, ho⟩ | ⟨o, t, -, ho, hfound, -⟩
    · obtain ⟨name, hstop⟩ := hstop
      refine ⟨name, bind_ok_iff.2 ⟨addressTableEnd, ?_, demand_ok_iff.2 hstop⟩⟩
      exact demand_ok_iff.2 (howner.symm.trans ho)
    · obtain ⟨name, hname⟩ := hnames o t hfound
      refine ⟨name, bind_ok_iff.2 ⟨o, ?_, demand_ok_iff.2 hname⟩⟩
      exact demand_ok_iff.2 (howner.symm.trans ho)

theorem exists_tableLines : ∃ tables, d.tableLines = .ok tables := by
  obtain ⟨stop, hstop'⟩ := hstop
  obtain ⟨names, hlisted⟩ : ∃ names, d.first.listings.entries.zipIdx.mapM
      (fun e => d.listedName e.1.1 e.1.2.position) = .ok names := by
    refine exists_mapM_eq_ok fun e he => ?_
    have hmem := fst_mem_of_mem_zipIdx he
    rw [hs.listings] at hmem
    obtain ⟨i, -, -, hl⟩ := exists_of_mem_keyed hmem
    exact exists_listedName hs hnames ⟨stop, hstop'⟩ (mem_of_getElem? hl) _
  exact ⟨_, bind_ok_iff.2 ⟨names, hlisted, bind_ok_iff.2 ⟨stop, demand_ok_iff.2 hstop', rfl⟩⟩⟩

theorem ends_dumpIndex
    (hoffsets : w.target (Path.join d.folders.resources "meta_tileset_load_offsets.tbl") = .ok k)
    (hindex : w.target (Path.join d.folders.resources "meta_tileset_index.tbl") = .ok k') :
    d.dumpIndex.Ends w.folders := by
  refine .bind (.create hoffsets) fun offsets => .bind (.create hindex) fun index => ?_
  refine .bind (.forIn fun e he => ?_) fun _ => .pure _
  -- where there is an entry there is a last one, and that leads to a tileset with a name
  have hne : d.first.listings.entries ≠ [] := by
    intro hnil
    rw [hnil] at he
    cases he
  obtain ⟨last, hlast⟩ := Option.ne_none_iff_exists'.1 (mt getLast?_eq_none_iff.1 hne)
  have hmem := mem_of_getLast? hlast
  rw [hs.listings] at hmem
  obtain ⟨i, -, -, hl⟩ := exists_of_mem_keyed hmem
  obtain ⟨name, hname⟩ :=
    exists_listedName hs hnames hstop (mem_of_getElem? hl) e.1.1
  rw [hlast]
  exact .lift_bind hname (.bind (.append _ _) fun _ => .bind (.append _ _) fun _ => .pure _)

end

end Dump

/-- The writing part of a dump. -/
def Dump.write (d : Dump) : Job Unit := do
  d.dumpShared
  discard (Version.all.foldlM d.dumpVersion ∅)
  d.dumpIndex

def Dump.fresh (f : Folders) (s₁ s₂ : Survey) : Dump where
  folders := f
  names := Table.ofList (stopName ::
    (freshNames (Comparison.ofSurveys s₁ s₂).classes).map fun e => ((e.1 : Int), e.2))
  first := s₁
  second := s₂
  comparison := .ofSurveys s₁ s₂

theorem exists_on_dump_eq (hfresh : w.hasPath (namesPath f) = false) {key : String}
    (hkey : w.target (namesPath f) = .ok key)
    (himage₁ : w.read Version.kabuto.image = .ok image₁)
    (himage₂ : w.read Version.kuwagata.image = .ok image₂) (hs₁ : Survey.read image₁ = .ok s₁)
    (hs₂ : Survey.read image₂ = .ok s₂) :
    ∃ w₂, w₂.folders = w.folders ∧ (dump f).on w = (Dump.fresh f s₁ s₂).write.on w₂ := by
  -- the names are new, and the images are still there
  obtain ⟨w₁, hgiven⟩ : ∃ w₁, (readNames (namesPath f)).on w = (.ok none, w₁) := by
    refine ⟨{ w with files := w.files.insert key ByteArray.empty },
      on_bind_ok_iff.2 ⟨w, w, rfl, ?_⟩⟩
    rw [hfresh, if_neg Bool.false_ne_true, on_bind_ok_iff]
    refine ⟨PUnit.unit, _, on_discard_ok_iff.2 ⟨key, ?_⟩, rfl⟩
    exact on_create_ok_iff.2 ⟨hkey, rfl⟩
  have hsame := (of_readOrCreate (Quiet.readTable _) hgiven).1
  have hread₁ := hsame.read himage₁ (not_names_image f .kabuto)
  have hread₂ := hsame.read himage₂ (not_names_image f .kuwagata)
  obtain ⟨names, w₂, hchosen, hfolders⟩ :
      ∃ names w₂, (chooseNames (namesPath f) none (Comparison.ofSurveys s₁ s₂).classes).on w₁ =
        (.ok names, w₂) ∧ w₂.folders = w.folders := by
    refine ⟨_, _, on_bind_ok_iff.2 ⟨(), _, on_bind_ok_iff.2 ⟨w₁, w₁, rfl,
      on_bind_ok_iff.2 ⟨key, w₁, ?_, rfl⟩⟩, rfl⟩, hsame.folders⟩
    rw [on_lift, hsame.target hkey]
  obtain ⟨-, ⟨_, hnone, -⟩ | ⟨-, rfl⟩⟩ := of_chooseNames hchosen
  · cases hnone
  refine ⟨w₂, hfolders, ?_⟩
  calc (dump f).on w = _ := on_bind_of_ok hgiven
    _ = _ := on_bind_of_ok (on_readFile_ok_iff.2 ⟨hread₁, rfl⟩)
    _ = _ := on_bind_of_ok (by rw [on_lift, hs₁])
    _ = _ := on_bind_of_ok (on_readFile_ok_iff.2 ⟨hread₂, rfl⟩)
    _ = _ := on_bind_of_ok (by rw [on_lift, hs₂])
    _ = _ := on_bind_of_ok hchosen

/-! ### Images with given entries -/

theorem exists_encode_tiles (htiles : tiles.length = 16 * n) (hpos : 0 < n) (hsize : n ≤ 0x10000) :
    ∃ file, Picture.encode tiles none none = .ok file := by
  obtain ⟨pad, columns, rows, hlaid, hpad, hcount, hcolumns, hrows⟩ :=
    Picture.exists_layOut htiles hpos .any (by decide)
  obtain rfl : pad = 0 := Nat.lt_one_iff.1 hpad
  have hlength : (tiles ++ List.replicate (16 * 0) 0).length = 16 * (columns * rows) := by
    rw [length_append, length_replicate]
    omega
  have hcolumns' : columns ≤ columns * rows := Nat.le_mul_of_pos_right _ hrows
  have hrows' : rows ≤ columns * rows := Nat.le_mul_of_pos_left _ hcolumns
  obtain ⟨file, -, -, hfile, -⟩ :=
    Picture.exists_encode hlaid hcolumns hrows (by omega) (by omega) hlength false
  exact ⟨file, hfile⟩

/-- The numbers of an entry fit their fields. -/
structure Listing.Fits (l : Listing) : Prop where
  bank : l.bank < 0x100
  pointer : l.pointer < 0x10000
  target : l.target < 0x10000
  targetBank : l.targetBank < 0x100

def infoBytes (l : Listing) : List UInt8 :=
  l.bank.toUInt8 :: (wordBytes l.target ++ [l.targetBank.toUInt8])

/-- An image with the bytes `front` at its start and the given entries. -/
def imageOf (front : List UInt8) (ls : List Listing) : ByteArray :=
  (front ++ List.replicate (addressTable - front.length) 0 ++
    (ls.map Listing.pointer).flatMap wordBytes ++
    List.replicate (infoTable.flat.toNat - addressTableEnd) 0 ++ ls.flatMap infoBytes).toByteArray

theorem byteAt_of_holds (hn : n < 0x100) (h : Holds image pos (n.toUInt8 :: rest)) :
    byteAt image pos = .ok n := by
  obtain ⟨hpos, hbyte⟩ := h.getElem
  rw [byteAt, dif_pos hpos, hbyte, UInt8.toNat_ofNat', Nat.mod_eq_of_lt hn]

theorem readInfo_of_holds (hfits : ∀ l ∈ ls, l.Fits) (h : Holds image pos (ls.flatMap infoBytes)) :
    readInfo image pos ls.length = .ok (ls.map fun l => (l.bank, l.target, l.targetBank)) := by
  induction ls generalizing pos with
  | nil => rfl
  | cons l ls ih =>
    obtain ⟨hl, hls⟩ := forall_mem_cons.1 hfits
    rw [flatMap_cons, holds_append] at h
    obtain ⟨hentry, hrest⟩ := h
    have htail := holds_append.1 hentry.tail
    simp only [length_cons, readInfo, bind_ok_iff, pure_ok_iff, map_cons]
    exact ⟨_, byteAt_of_holds hl.bank hentry, _, wordAt_of_holds hl.target htail.1, _,
      byteAt_of_holds hl.targetBank htail.2, _, ih hls hrest, rfl⟩

theorem holds_imageOf (front : List UInt8) (ls : List Listing) : Holds (imageOf front ls) 0 front := by
  have h := holds_toByteArray (front ++ List.replicate (addressTable - front.length) 0 ++
    (ls.map Listing.pointer).flatMap wordBytes ++
    List.replicate (infoTable.flat.toNat - addressTableEnd) 0 ++ ls.flatMap infoBytes)
  simp only [append_assoc] at h
  have hfront := (holds_append.1 h).1
  simpa only [imageOf, append_assoc] using hfront

theorem readListings_imageOf (hfront : front.length ≤ addressTable) (hls : ls.length = entryCount)
    (hfits : ∀ l ∈ ls, l.Fits) :
    readListings (imageOf front ls) = .ok ls := by
  have h := holds_toByteArray (front ++ List.replicate (addressTable - front.length) 0 ++
    (ls.map Listing.pointer).flatMap Bytes.wordBytes ++
    List.replicate (infoTable.flat.toNat - addressTableEnd) 0 ++ ls.flatMap infoBytes)
  rw [holds_append, holds_append, holds_append] at h
  obtain ⟨⟨⟨-, hpointers⟩, -⟩, hinfo⟩ := h
  simp only [length_append, length_replicate, length_flatMap_wordBytes,
    length_map, hls, Nat.zero_add] at hpointers hinfo
  have hstart : front.length + (addressTable - front.length) = addressTable := by omega
  rw [hstart] at hpointers hinfo
  have hsmall : ∀ n ∈ ls.map Listing.pointer, n < 0x10000 := by
    intro n hn
    obtain ⟨l, hl, rfl⟩ := mem_map.1 hn
    exact (hfits l hl).pointer
  have hwords := wordsAt_of_holds hsmall hpointers
  have hrest := readInfo_of_holds hfits hinfo
  rw [length_map, hls] at hwords
  rw [hls] at hrest
  refine bind_ok_iff.2 ⟨_, hwords, bind_ok_iff.2 ⟨_, hrest, pure_ok_iff.2 ?_⟩⟩
  rw [zip_map', map_map]
  exact map_id' ls

def leading (p : Nat) : Listing := ⟨1, p, 0x9000, 0⟩

def vacant : Listing := ⟨0, addressTableEnd, 0, 0⟩

/-- Tables that start with the given entries, all others being empty. -/
def filled (front : List Listing) : List Listing :=
  front ++ List.replicate (entryCount - front.length) vacant

theorem fits_leading {p : Nat} (hp : p < 0x10000) : (leading p).Fits :=
  ⟨(by decide : 1 < 0x100), hp, (by decide : 0x9000 < 0x10000), (by decide : 0 < 0x100)⟩

theorem fits_vacant : vacant.Fits := ⟨by decide, by decide, by decide, by decide⟩

theorem readListings_filled {front : List Listing} (hbytes : bytes.length ≤ addressTable)
    (hlength : front.length ≤ entryCount) (hfits : ∀ l ∈ front, l.Fits) :
    readListings (imageOf bytes (filled front)) = .ok (filled front) := by
  refine readListings_imageOf hbytes ?_ fun l hl => ?_
  · rw [filled, length_append, length_replicate, Nat.add_sub_cancel' hlength]
  · rcases mem_append.1 hl with hl | hl
    · exact hfits l hl
    · rw [(mem_replicate.1 hl).2]
      exact fits_vacant

/-! ### A small dump -/

/-- Two entries that lead to a tileset at the start of the image, all others being empty. -/
def sampleEntries : List Listing :=
  List.replicate 2 ⟨1, 0, 0x9000, 0⟩ ++ List.replicate 510 ⟨0, addressTableEnd, 0, 0⟩

def sampleFolders : Folders := ⟨"raw", "pre", "out", "res", "v"⟩

def sampleWorkspace (first second : ByteArray) : Workspace where
  files := .ofList [("baserom_kabuto.gbc", first), ("baserom_kuwagata.gbc", second)]
  folders := ["", "raw", "pre", "res", "v", "v/kabuto", "v/kuwagata"]

theorem position_sampleEntries (hl : l ∈ sampleEntries) :
    l.position = 0 ∨ l.position = emptyPosition := by
  rcases mem_append.1 hl with hl | hl
  · rw [(mem_replicate.1 hl).2]
    exact .inl rfl
  · rw [(mem_replicate.1 hl).2]
    exact .inr rfl

theorem readListings_sample (hfront : front.length ≤ addressTable) :
    readListings (imageOf front sampleEntries) = .ok sampleEntries := by
  have hlength : [leading 0, leading 0].length ≤ entryCount := by decide
  refine readListings_filled hfront hlength fun l hl => ?_
  obtain rfl : l = leading 0 := (mem_replicate (n := 2).1 hl).2
  exact fits_leading (by decide)

section Sample

variable (first second : ByteArray)

def sampleBare : Workspace where
  folders := ["", "raw", "pre", "res", "v", "v/kabuto", "v/kuwagata"]

theorem target_sample {key : String} (h : sampleBare.target path = .ok key) :
    (sampleWorkspace first second).target path = .ok key :=
  target_of_folders (w := sampleBare) rfl h

theorem read_sample_kabuto : (sampleWorkspace first second).read Version.kabuto.image = .ok first :=
  read_ok_iff.2 ⟨"baserom_kabuto.gbc", target_sample first second (by decide +kernel), rfl⟩

theorem read_sample_kuwagata :
    (sampleWorkspace first second).read Version.kuwagata.image = .ok second :=
  read_ok_iff.2 ⟨"baserom_kuwagata.gbc", target_sample first second (by decide +kernel), rfl⟩

theorem hasPath_sample :
    (sampleWorkspace first second).hasPath (namesPath sampleFolders) = false := by
  have hpath : namesPath sampleFolders = "res/meta_tileset_names.tbl" := by decide +kernel
  have htarget : (sampleWorkspace first second).target "res/meta_tileset_names.tbl" =
      .ok "res/meta_tileset_names.tbl" := target_sample first second (by decide +kernel)
  obtain ⟨hlocate, hfolder⟩ := target_ok_iff.1 htarget
  rw [hpath, hasPath, hlocate, Bool.or_eq_false_iff]
  exact ⟨Bool.eq_false_iff.2 hfolder, rfl⟩

end Sample

/-- A tileset of one empty tile, stored as it is. -/
def plainTile : List UInt8 := 0 :: wordBytes 16 ++ List.replicate 16 0

theorem readAt_plainTile : readAt (imageOf plainTile sampleEntries) 0 =
    .ok ⟨(List.replicate 16 0).toArray, plainTile.toByteArray⟩ := by
  have hdecode : decode (imageOf plainTile sampleEntries) 0 = _ :=
    decode_plain (l := List.replicate 16 0) (by decide) (holds_imageOf plainTile sampleEntries)
  refine bind_ok_iff.2 ⟨0, rfl, ?_⟩
  rw [hdecode]
  rfl

end Tileset

end Cartridge
