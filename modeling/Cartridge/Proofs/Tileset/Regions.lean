import Cartridge.Proofs.Bytes
import Cartridge.Proofs.Table
import Cartridge.Tileset.Partial
import Mathlib.Data.List.Chain
import Mathlib.Data.List.Sort
import Mathlib.Tactic.Tauto

/-!
# The regions of partial tilesets

A bank has a table of pointers at its start and behind it the tilesets that they lead to.  Their
sizes come from the addresses in ascending order, but they are taken in the order of the table.

* `Reaches`: each block reaches up to the next address in use.  Such blocks are the bytes of the
  bank from the lowest address up to the end (`Reaches.flatMap_eq`), each at its own place
  (`Reaches.inPlace`).
* `DumpedBank.Of.exists_covers`: in which order the tilesets are the bytes of the bank.
-/

open List

namespace Cartridge.Tileset

open Address

variable {image : ByteArray} {index bank a b c last low size start : Nat} {pointers : List Nat}
  {data : Nat → List UInt8} {l : List Nat} {d : DumpedBank}

/-! ### Regions of a bank -/

/-- The bytes of a bank from an address up to another. -/
def region (image : ByteArray) (bank a b : Nat) : List UInt8 :=
  (image.data.toList.drop (flat ⟨bank, a⟩).toNat).take (b - a)

theorem region_append (hpos : 0 ≤ flat ⟨bank, a⟩) (hab : a ≤ b) (hbc : b ≤ c) :
    region image bank a b ++ region image bank b c = region image bank a c := by
  have hflat : (flat ⟨bank, b⟩).toNat = (flat ⟨bank, a⟩).toNat + (b - a) := by
    simp only [flat, bankSize] at hpos ⊢
    omega
  rw [region, region, hflat, ← drop_drop, ← take_add]
  congr 1
  omega

theorem length_region (hpos : 0 ≤ flat ⟨bank, a⟩) (hab : a ≤ b)
    (hend : flat ⟨bank, b⟩ ≤ image.size) : (region image bank a b).length = b - a := by
  rw [region, length_take, length_drop]
  change min (b - a) (image.size - _) = _
  simp only [flat, bankSize] at hpos hend ⊢
  omega

/-- Blocks that stand one behind the other from one address up to another, each at its own. -/
def InPlace : Nat → List (Nat × List UInt8) → Nat → Prop
  | low, [], last => low = last
  | low, block :: blocks, last => block.1 = low ∧ InPlace (low + block.2.length) blocks last

theorem InPlace.ascending {blocks : List (Nat × List UInt8)} (h : InPlace low blocks last)
    (hfull : ∀ block ∈ blocks, block.2 ≠ []) :
    (blocks.map Prod.fst).Pairwise (· < ·) ∧ ∀ a ∈ blocks.map Prod.fst, low ≤ a := by
  induction blocks generalizing low with
  | nil => simp
  | cons block blocks ih =>
    obtain ⟨rfl, h⟩ := h
    obtain ⟨hrest, hlow⟩ := ih h fun b hb => hfull b (mem_cons_of_mem _ hb)
    have hlength := length_pos_of_ne_nil (hfull block mem_cons_self)
    rw [map_cons, pairwise_cons, forall_mem_cons]
    refine ⟨⟨fun a ha => ?_, hrest⟩, le_rfl, fun a ha => ?_⟩
    · have := hlow a ha
      omega
    · have := hlow a ha
      omega

theorem isChain_cons_concat_iff {R : Nat → Nat → Prop} :
    (a :: l ++ [last]).IsChain R ↔ R a (l.headD last) ∧ (l ++ [last]).IsChain R := by
  cases l with
  | nil | cons b l => simp

/-- Each block reaches up to the next address in use, the last one up to the end. -/
def Reaches (image : ByteArray) (bank last : Nat) (data : Nat → List UInt8) (l : List Nat) : Prop :=
  (l ++ [last]).IsChain fun a b : Nat =>
    a < b ∧ 0 ≤ flat ⟨bank, a⟩ ∧ data a = region image bank a b

/-- **Blocks one behind the other** make up the region. -/
theorem Reaches.flatMap_eq (h : Reaches image bank last data l) :
    l.flatMap data = region image bank (l.headD last) last ∧ l.headD last ≤ last := by
  induction l with
  | nil => simp [region]
  | cons a l ih =>
    obtain ⟨⟨hlt, hpos, hdata⟩, h⟩ := isChain_cons_concat_iff.1 h
    obtain ⟨hrest, hle⟩ := ih h
    rw [flatMap_cons, hrest, hdata, region_append hpos hlt.le hle]
    exact ⟨rfl, hlt.le.trans hle⟩

theorem Reaches.inPlace (h : Reaches image bank last data l)
    (hend : flat ⟨bank, last⟩ ≤ image.size) :
    InPlace (l.headD last) (l.map fun a => (a, data a)) last ∧ ∀ a ∈ l, data a ≠ [] := by
  induction l with
  | nil => exact ⟨rfl, by simp⟩
  | cons a l ih =>
    obtain ⟨⟨hlt, hpos, hdata⟩, h⟩ := isChain_cons_concat_iff.1 h
    have hle := (Reaches.flatMap_eq h).2
    have hlength : (data a).length = l.headD last - a := by
      rw [hdata]
      refine length_region hpos hlt.le ?_
      simp only [flat] at hend ⊢
      omega
    obtain ⟨hplace, hfull⟩ := ih h
    refine ⟨⟨rfl, ?_⟩, forall_mem_cons.2 ⟨ne_nil_of_length_pos (by omega), hfull⟩⟩
    rwa [headD_cons, hlength, Nat.add_sub_cancel' hlt.le]

/-! ### Names and sizes -/

/-- The addresses of the tilesets of a table, in its order. -/
def partAddresses (pointers : List Nat) (last : Nat) : List Nat :=
  (pointers.filter (· != last)).eraseDups

def labelOf (index : Nat) (pointers : List Nat) (last a : Nat) : String :=
  if a = last then endName index else partName index (pointers.idxOf a)

theorem mem_partAddresses : a ∈ partAddresses pointers last ↔ a ∈ pointers ∧ a ≠ last := by
  simp [partAddresses]

section

variable (index : Nat) (pointers : List Nat) (last : Nat)

theorem partAddresses_concat (p : Nat) : partAddresses (pointers ++ [p]) last =
    partAddresses pointers last ++ if p = last ∨ p ∈ pointers then [] else [p] := by
  rw [partAddresses, filter_append, eraseDups_append]
  by_cases hlast : p = last
  · simp [hlast, partAddresses]
  · by_cases hmem : p ∈ pointers
    · simp [hlast, hmem, removeAll, partAddresses]
    · simp [hlast, hmem, removeAll, partAddresses, eraseDups_cons]

theorem nodup_cons_partAddresses : (last :: partAddresses pointers last).Nodup := by
  refine nodup_cons.2 ⟨fun hmem => (mem_partAddresses.1 hmem).2 rfl, ?_⟩
  induction pointers using List.reverseRecOn with
  | nil => exact nodup_nil
  | append_singleton pointers p ih =>
    rw [partAddresses_concat]
    split
    case isTrue => rwa [append_nil]
    case isFalse hnew =>
      refine nodup_append.2 ⟨ih, nodup_singleton p, fun a ha b hb => ?_⟩
      rw [mem_singleton.1 hb]
      rintro rfl
      exact hnew (.inr (mem_partAddresses.1 ha).1)

theorem entries_nameTargets : (nameTargets index pointers last).entries =
    (last :: partAddresses pointers last).map fun a => (a, labelOf index pointers last a) := by
  induction pointers using List.reverseRecOn with
  | nil => simp [nameTargets, partAddresses, labelOf, Table.ofList, Table.insert, Table.insertEntry,
      Table.empty]
  | append_singleton pointers p ih =>
    have hkeys : (nameTargets index pointers last).keys = last :: partAddresses pointers last := by
      simp [Table.keys, ih, Function.comp_def]
    have hnamed : p ∈ (nameTargets index pointers last).keys ↔ p = last ∨ p ∈ pointers := by
      rw [hkeys, mem_cons, mem_partAddresses]
      tauto
    have hold : ((last :: partAddresses pointers last).map fun a =>
        (a, labelOf index (pointers ++ [p]) last a)) =
          (nameTargets index pointers last).entries := by
      rw [ih]
      refine map_congr_left fun a ha => ?_
      rw [labelOf, labelOf]
      split
      case isTrue => rfl
      case isFalse hne =>
        have hmem := (mem_partAddresses.1 ((mem_cons.1 ha).resolve_left hne)).1
        rw [idxOf_append_of_mem hmem]
    rw [partAddresses_concat, ← cons_append, map_append, hold, nameTargets, zipIdx_append,
      foldl_append, ← nameTargets]
    simp only [zipIdx_cons, zipIdx_nil, foldl_cons, foldl_nil, Table.contains,
      Option.isSome_iff_exists, ← Table.mem_keys_iff, hnamed]
    split
    case isTrue => simp
    case isFalse hnew =>
      rw [Table.insert, Table.map_fst_insertEntry (mt hnamed.1 hnew), map_singleton, labelOf,
        if_neg (not_or.1 hnew).1, idxOf_append_of_notMem (not_or.1 hnew).2]
      simp

theorem keys_nameTargets :
    (nameTargets index pointers last).keys = last :: partAddresses pointers last := by
  simp [Table.keys, entries_nameTargets, Function.comp_def]

theorem filter_entries_nameTargets :
    (nameTargets index pointers last).entries.filter (fun e => e.1 != last) =
      (partAddresses pointers last).map fun a => (a, labelOf index pointers last a) := by
  rw [entries_nameTargets, map_cons, filter_cons_of_neg (by simp), filter_eq_self]
  intro e he
  obtain ⟨a, ha, rfl⟩ := mem_map.1 he
  simpa using (mem_partAddresses.1 ha).2

theorem find?_nameTargets (h : a ∈ pointers) :
    (nameTargets index pointers last).find? a = some (labelOf index pointers last a) := by
  rw [Table.find?_eq_some_iff (keys_nameTargets .. ▸ nodup_cons_partAddresses ..),
    entries_nameTargets]
  refine mem_map.2 ⟨a, ?_, rfl⟩
  rw [mem_cons, mem_partAddresses]
  tauto

end

theorem pairwise_lt_mergeSort (h : l.Nodup) :
    (l.mergeSort fun a b => decide (a ≤ b)).Pairwise (· < ·) :=
  (pairwise_mergeSort' (· ≤ ·) l).imp₂ (fun _ _ => Nat.lt_of_le_of_ne)
    ((mergeSort_perm _ _).nodup_iff.2 h)

def ordered (pointers : List Nat) (last : Nat) : List Nat :=
  (partAddresses pointers last).mergeSort fun a b => decide (a ≤ b)

theorem mem_ordered : a ∈ ordered pointers last ↔ a ∈ partAddresses pointers last :=
  mem_mergeSort

theorem mergeSort_cons_partAddresses (h : ∀ a ∈ partAddresses pointers last, a < last) :
    ((last :: partAddresses pointers last).mergeSort fun a b => decide (a ≤ b)) =
      ordered pointers last ++ [last] := by
  have hperm : ((last :: partAddresses pointers last).mergeSort fun a b => decide (a ≤ b)) ~
      ordered pointers last ++ [last] :=
    (mergeSort_perm _ _).trans ((perm_append_singleton _ _).symm.trans
      ((mergeSort_perm _ _).symm.append_right _))
  refine hperm.eq_of_pairwise' (pairwise_mergeSort' (· ≤ ·) _) (pairwise_append.2
    ⟨pairwise_mergeSort' (· ≤ ·) _, pairwise_singleton _ _, fun a ha b hb => ?_⟩)
  rw [mem_singleton.1 hb]
  exact (h a (mem_ordered.1 ha)).le

theorem isChain_sizesUpTo (h : (l ++ [last]).Pairwise (· < ·)) :
    (l ++ [last]).IsChain fun a b =>
      a < b ∧ (sizesUpTo last (l ++ [last])).find? a = some (b - a) := by
  induction l with
  | nil => exact .singleton _
  | cons a l ih =>
    rw [cons_append, pairwise_cons] at h
    have hlast : a ≠ last := (h.1 last (by simp)).ne
    have hsizes : (sizesUpTo last (a :: l ++ [last])).entries =
        (a, l.headD last - a) :: (sizesUpTo last (l ++ [last])).entries := by
      cases l with
      | nil => simp [sizesUpTo, hlast]
      | cons b l => simp [sizesUpTo, hlast]
    rw [isChain_cons_concat_iff]
    refine ⟨⟨h.1 _ (by cases l <;> simp), ?_⟩, (ih h.2).imp_of_mem_imp ?_⟩
    · rw [Table.find?, hsizes, lookup_cons_self]
    · rintro x y hx - ⟨hlt, hfind⟩
      have hne : (x == a) = false := beq_eq_false_iff_ne.2 (h.1 x hx).ne'
      rw [Table.find?, hsizes, lookup_cons, hne]
      exact ⟨hlt, hfind⟩

theorem lt_of_find?_sizesUpTo (hsorted : l.Pairwise (· < ·)) (hlast : last ∈ l)
    (h : (sizesUpTo last l).find? a = some size) : a < last := by
  induction l with
  | nil => cases hlast
  | cons x l ih =>
    rw [pairwise_cons] at hsorted
    cases l with
    | nil => cases h
    | cons y l =>
      rw [sizesUpTo] at h
      split at h
      case isTrue => cases h
      case isFalse hne =>
        have hmem := (mem_cons.1 hlast).resolve_left (Ne.symm hne)
        rw [Table.find?, lookup_cons] at h
        split at h
        case h_1 heq =>
          rw [eq_of_beq heq]
          exact hsorted.1 last hmem
        case h_2 => exact ih hsorted.2 hmem h

def sizesOf (pointers : List Nat) (last : Nat) : Table Nat Nat :=
  sizesUpTo last ((last :: partAddresses pointers last).mergeSort fun a b => decide (a ≤ b))

theorem reaches_of_sizes (h : ∀ a ∈ partAddresses pointers last, ∃ size,
      (sizesOf pointers last).find? a = some size ∧ 0 ≤ flat ⟨bank, a⟩ ∧
        data a = region image bank a (a + size)) :
    Reaches image bank last data (ordered pointers last) := by
  have hsorted := pairwise_lt_mergeSort (nodup_cons_partAddresses pointers last)
  have hlast : ∀ a ∈ partAddresses pointers last, a < last := by
    intro a ha
    obtain ⟨size, hsize, -⟩ := h a ha
    exact lt_of_find?_sizesUpTo hsorted (mem_mergeSort.2 mem_cons_self) hsize
  rw [sizesOf, mergeSort_cons_partAddresses hlast] at h
  rw [mergeSort_cons_partAddresses hlast] at hsorted
  refine (isChain_sizesUpTo hsorted).imp_of_mem_imp fun a b ha hb hab => ?_
  have hle : b ≤ last := by
    obtain hb | hb := mem_append.1 hb
    · exact (hlast b (mem_ordered.1 hb)).le
    · exact (mem_singleton.1 hb).le
  have hmem : a ∈ partAddresses pointers last := by
    refine mem_ordered.1 ((mem_append.1 ha).resolve_right fun heq => ?_)
    rw [mem_singleton.1 heq] at hab
    omega
  obtain ⟨size, hsize, hpos, hdata⟩ := h a hmem
  rw [hab.2, Option.some.injEq] at hsize
  rw [← hsize, Nat.add_sub_cancel' hab.1.le] at hdata
  exact ⟨hab.1, hpos, hdata⟩

/-! ### Reading a bank -/

theorem position_ok_iff {pos : Int} :
    Bytes.position pos = .ok start ↔ 0 ≤ pos ∧ pos.toNat = start := by
  unfold Bytes.position
  split
  · simp; omega
  · simp; omega

/-- A bank as it is dumped: its pointers, and its tilesets by address in the order of their
labels. -/
structure DumpedBank where
  index : Nat
  bank : Nat
  pointers : List Nat
  blocks : List (Nat × List UInt8)
  deriving Inhabited

namespace DumpedBank

/-- The address that marks the end. -/
def stop (d : DumpedBank) : Nat := d.pointers.getLastD 0

def label (d : DumpedBank) (a : Nat) : String := labelOf d.index d.pointers d.stop a

/-- The bank as it is read. -/
def toBank (d : DumpedBank) : PartBank where
  targets := d.pointers.map d.label
  data := d.blocks.map fun block => (d.label block.1, block.2)

/-- The bank is that of an image: what is read of it, and each tileset reaches up to the next. -/
structure Of (image : ByteArray) (d : DumpedBank) : Prop where
  read : PartBank.read image d.index d.bank = .ok d.toBank
  pointers : PointerTable.read image ⟨d.bank, 0x4000⟩ = .ok d.pointers
  reaches : ∃ data, Reaches image d.bank d.stop data (ordered d.pointers d.stop) ∧
    d.blocks = (partAddresses d.pointers d.stop).map fun a => (a, data a)

theorem Of.addresses (h : d.Of image) :
    d.blocks.map Prod.fst = partAddresses d.pointers d.stop := by
  obtain ⟨data, -, hblocks⟩ := h.reaches
  simp [hblocks, Function.comp_def]

/-- **What is read of a bank**: its tilesets in the order of the table, each up to the next address
in use. -/
theorem exists_of_read {e : Nat × Nat} {B : PartBank} (h : PartBank.read image e.2 e.1 = .ok B) :
    ∃ d : DumpedBank, (d.bank, d.index) = e ∧ d.toBank = B ∧ d.Of image := by
  have hread := h
  simp only [PartBank.read, bind_ok_iff, pure_ok_iff, filter_entries_nameTargets,
    keys_nameTargets, mapM_ok_iff, forall₂_map_left_iff] at h
  obtain ⟨pointers, hpointers, blocks, hblocks, rfl⟩ := h
  let sizes := sizesOf pointers (pointers.getLastD 0)
  let data (a : Nat) := region image e.1 a (a + (sizes.find? a).getD 0)
  have hfound := hblocks.imp (S := fun a part => (∃ size, sizes.find? a = some size ∧
      0 ≤ flat ⟨e.1, a⟩ ∧ data a = region image e.1 a (a + size)) ∧
      (labelOf e.2 pointers (pointers.getLastD 0) a, data a) = part) fun a part hpart => by
    simp only [demand_ok_iff, position_ok_iff] at hpart
    obtain ⟨size, hsize, start, ⟨hpos, rfl⟩, rfl⟩ := hpart
    have hdata : data a = region image e.1 a (a + size) := by
      simp only [data, sizes, sizesOf, hsize, Option.getD_some]
    refine ⟨⟨size, hsize, hpos, hdata⟩, ?_⟩
    rw [hdata, region, Nat.add_sub_cancel_left, ByteArray.data_extract, Array.toList_extract,
      extract_eq_take_drop, Nat.add_sub_cancel_left]
  obtain ⟨hsizes, hblocks⟩ := (forall₂_and_left _ _).1 hfound
  let d : DumpedBank := ⟨e.2, e.1, pointers,
    (partAddresses pointers (pointers.getLastD 0)).map fun a => (a, data a)⟩
  have hbank : d.toBank = ⟨pointers.map fun p =>
      ((nameTargets e.2 pointers (pointers.getLastD 0)).find? p).getD "", blocks⟩ := by
    have hnamed := forall₂_eq_eq_eq ▸ forall₂_map_left_iff.2 hblocks
    rw [← hnamed, toBank, map_map]
    refine congrArg (PartBank.mk · _) (map_congr_left fun a ha => ?_)
    rw [find?_nameTargets _ _ _ ha]
    rfl
  exact ⟨d, rfl, hbank, hbank ▸ hread, hpointers, data, reaches_of_sizes hsizes, rfl⟩

end DumpedBank

/-! ### The order of the blocks -/

theorem ordered_eq_self (h : (partAddresses pointers last).Pairwise (· < ·)) :
    ordered pointers last = partAddresses pointers last :=
  mergeSort_of_pairwise (h.imp fun hlt => decide_eq_true hlt.le)

/-- How the tilesets of a bank make up the bytes from the lowest address up to the end. -/
structure DumpedBank.Covers (image : ByteArray) (d : DumpedBank) (low : Nat) : Prop where
  mem : low ∈ d.blocks.map Prod.fst
  le : ∀ a ∈ d.blocks.map Prod.fst, low ≤ a
  /-- In the order of their addresses the tilesets are these bytes. -/
  sorted : ∃ sorted, sorted ~ d.blocks ∧ (sorted.map Prod.fst).Pairwise (· < ·) ∧
    sorted.flatMap Prod.snd = region image d.bank low d.stop

theorem DumpedBank.Of.exists_covers (h : d.Of image) (hne : d.blocks ≠ []) :
    ∃ low, d.Covers image low ∧
      ((d.blocks.map Prod.fst).Pairwise (· < ·) →
        d.blocks.flatMap Prod.snd = region image d.bank low d.stop) ∧
      (flat ⟨d.bank, d.stop⟩ ≤ image.size →
        (InPlace low d.blocks d.stop ↔ (d.blocks.map Prod.fst).Pairwise (· < ·))) := by
  have haddresses := h.addresses
  obtain ⟨data, h, hd⟩ := h.reaches
  have hperm : ordered d.pointers d.stop ~ partAddresses d.pointers d.stop := mergeSort_perm ..
  have hsorted : (ordered d.pointers d.stop).Pairwise (· < ·) :=
    pairwise_lt_mergeSort (nodup_cons_partAddresses d.pointers d.stop).of_cons
  have hself : (partAddresses d.pointers d.stop).Pairwise (· < ·) →
      d.blocks = (ordered d.pointers d.stop).map fun a => (a, data a) := fun hup => by
    rw [hd, ordered_eq_self hup]
  have hregion := h.flatMap_eq.1
  have hplace := h.inPlace
  rw [haddresses]
  rcases hordered : ordered d.pointers d.stop with _ | ⟨low, rest⟩
  · rw [hordered, nil_perm] at hperm
    exact absurd (by rw [hd, hperm]; rfl) hne
  rw [hordered] at hperm hsorted hregion hplace hself
  refine ⟨low, ⟨?_, ?_, (low :: rest).map fun a => (a, data a), ?_, ?_, ?_⟩, fun hup => ?_,
    fun hend => ⟨fun hin => ?_, fun hup => ?_⟩⟩
  · rw [haddresses]
    exact hperm.mem_iff.1 mem_cons_self
  · rw [haddresses]
    intro a ha
    obtain rfl | ha := mem_cons.1 (hperm.mem_iff.2 ha)
    · exact le_rfl
    · exact ((pairwise_cons.1 hsorted).1 a ha).le
  · exact hd ▸ hperm.map _
  · simpa [Function.comp_def] using hsorted
  · rwa [flatMap_map]
  · rwa [hself hup, flatMap_map]
  · rw [← haddresses]
    refine (hin.ascending fun block hblock => ?_).1
    rw [hd, mem_map] at hblock
    obtain ⟨a, ha, rfl⟩ := hblock
    exact (hplace hend).2 a (hperm.mem_iff.2 ha)
  · rw [hself hup]
    exact (hplace hend).1

end Cartridge.Tileset
