import Cartridge.Proofs.Dialog.Accepted
import Mathlib

/-!
# Pointers in address order

The pointers of a section are written in hexadecimal, and a built file lists them in the order of
their texts.  Within a bank from the first on this is the order of the addresses, as all of them
have the same number of digits.

Main result: `table_in_address_order`.
-/

open List

namespace Cartridge

/-- The positions of a bank in the image. -/
def Address.InBank (bank a : Nat) : Prop := bank * 0x4000 ≤ a ∧ a < (bank + 1) * 0x4000

namespace Text.Numeral

open Address (InBank)

variable {ds ds' addresses : List Nat} {bank m n : Nat}

/-! ### The order of numerals -/

theorem ofDigits_cons (base d : Nat) (ds : List Nat) :
    ofDigits base (d :: ds) = d * base ^ ds.length + ofDigits base ds := by
  induction ds using List.reverseRecOn with
  | nil => simp [ofDigits]
  | append_singleton ds e ih =>
    rw [← cons_append, ofDigits_append, ih, ofDigits_append, length_append,
      length_singleton]
    ring

theorem ofDigits_lt {base : Nat} (h : ∀ d ∈ ds, d < base) :
    ofDigits base ds < base ^ ds.length := by
  induction ds with
  | nil => simp [ofDigits]
  | cons d ds ih =>
    obtain ⟨hd, hrest⟩ := forall_mem_cons.1 h
    rw [ofDigits_cons]
    calc d * base ^ ds.length + ofDigits base ds
        < d * base ^ ds.length + base ^ ds.length := Nat.add_lt_add_left (ih hrest) _
      _ = (d + 1) * base ^ ds.length := (Nat.succ_mul ..).symm
      _ ≤ base * base ^ ds.length := Nat.mul_le_mul_right _ hd
      _ = base ^ ds.length * base := Nat.mul_comm ..

theorem digitChar_lt : ∀ d' < 16, ∀ d < d', d.digitChar < d'.digitChar := by decide

theorem map_digitChar_lt (hlength : ds.length = ds'.length) (hds : ∀ d ∈ ds, d < 16)
    (hds' : ∀ d ∈ ds', d < 16) (h : ofDigits 16 ds < ofDigits 16 ds') :
    ds.map Nat.digitChar < ds'.map Nat.digitChar := by
  induction ds generalizing ds' with
  | nil =>
    rw [length_eq_zero_iff.1 hlength.symm] at h
    exact absurd h (Nat.lt_irrefl _)
  | cons d ds ih =>
    cases ds' with
    | nil => cases hlength
    | cons d' ds' =>
      obtain ⟨-, hrest⟩ := forall_mem_cons.1 hds
      obtain ⟨hd', hrest'⟩ := forall_mem_cons.1 hds'
      have hsame : ds.length = ds'.length := Nat.succ.inj hlength
      rw [ofDigits_cons, ofDigits_cons, hsame] at h
      rw [map_cons, map_cons, cons_lt_cons_iff]
      obtain hlt | rfl | hgt := Nat.lt_trichotomy d d'
      · exact .inl (digitChar_lt d' hd' d hlt)
      · exact .inr ⟨rfl, ih hsame hrest hrest' (Nat.lt_of_add_lt_add_left h)⟩
      · have hsmall := ofDigits_lt hrest'
        have hcarry : (d' + 1) * 16 ^ ds'.length ≤ d * 16 ^ ds'.length :=
          Nat.mul_le_mul_right _ hgt
        rw [Nat.succ_mul] at hcarry
        omega

/-- **Numerals with the same number of digits** stand in the order of their numbers. -/
theorem digitsOf_lt (hlength : (digitsOf 16 m).length = (digitsOf 16 n).length) (h : m < n) :
    digitsOf 16 m < digitsOf 16 n := by
  obtain ⟨ds, hmap, -, hds, rfl⟩ := exists_digitsOf (by omega : 1 < 16) m
  obtain ⟨ds', hmap', -, hds', rfl⟩ := exists_digitsOf (by omega : 1 < 16) n
  rw [hmap, hmap', length_map, length_map] at hlength
  rw [hmap, hmap']
  exact map_digitChar_lt hlength hds hds' h

theorem length_digitsOf_of_le (h : 16 ≤ n) :
    (digitsOf 16 n).length = (digitsOf 16 (n / 16)).length + 1 := by
  rw [digitsOf, Nat.toDigits_of_base_le (by omega) h, length_append]
  rfl

/-- **The addresses of a bank have the same number of digits**: three digits do not tell the bank,
and of the next one they share all but the last two bits. -/
theorem length_digitsOf_of_inBank (hbank : 1 ≤ bank) (h : InBank bank n) :
    (digitsOf 16 n).length = (digitsOf 16 (4 * bank)).length + 3 := by
  obtain ⟨hfrom, hto⟩ := h
  have hthree : (digitsOf 16 n).length = (digitsOf 16 (n / 16 / 16 / 16)).length + 3 := by
    rw [length_digitsOf_of_le (n := n) (by omega), length_digitsOf_of_le (n := n / 16) (by omega),
      length_digitsOf_of_le (n := n / 16 / 16) (by omega)]
  rw [hthree]
  by_cases hsmall : bank < 4
  · rw [digitsOf, digitsOf, Nat.toDigits_of_lt_base (by omega), Nat.toDigits_of_lt_base (by omega)]
    rfl
  · have hshared : n / 16 / 16 / 16 / 16 = 4 * bank / 16 := by omega
    rw [length_digitsOf_of_le (n := n / 16 / 16 / 16) (by omega),
      length_digitsOf_of_le (n := 4 * bank) (by omega), hshared]

section

variable (hbank : 1 ≤ bank) (hm : InBank bank m) (hn : InBank bank n)

include hbank hm hn

theorem markedHex_lt (h : m < n) : markedHex m < markedHex n := by
  have hlength : (digitsOf 16 m).length = (digitsOf 16 n).length := by
    rw [length_digitsOf_of_inBank hbank hm, length_digitsOf_of_inBank hbank hn]
  rw [String.lt_iff_toList_lt, Dialog.toList_markedHex, Dialog.toList_markedHex,
    cons_lt_cons_self, cons_lt_cons_self]
  exact digitsOf_lt hlength h

theorem markedHex_le_iff : markedHex m ≤ markedHex n ↔ m ≤ n := by
  constructor
  · intro hle
    by_contra hlt
    exact absurd hle (not_le.2 (markedHex_lt hbank hn hm (not_le.1 hlt)))
  · intro hle
    obtain rfl | hlt := Nat.eq_or_lt_of_le hle
    · exact le_refl _
    · exact (markedHex_lt hbank hm hn hlt).le

theorem markedHex_inj (h : markedHex m = markedHex n) : m = n :=
  Nat.le_antisymm ((markedHex_le_iff hbank hm hn).1 h.le) ((markedHex_le_iff hbank hn hm).1 h.ge)

end

theorem mergeSort_markedHex (hbank : 1 ≤ bank) (h : ∀ a ∈ addresses, InBank bank a) :
    (addresses.map fun a : Nat => markedHex a).mergeSort (fun s t => decide (s ≤ t)) =
      (addresses.mergeSort fun a b => decide (a ≤ b)).map fun a : Nat => markedHex a := by
  have hperm : (addresses.mergeSort fun a b => decide (a ≤ b)).Perm addresses :=
    mergeSort_perm ..
  have hsorted : ((addresses.mergeSort fun a b => decide (a ≤ b)).map
      fun a : Nat => markedHex a).Pairwise (· ≤ ·) := by
    rw [pairwise_map]
    refine (pairwise_mergeSort' (· ≤ ·) addresses).imp_of_mem fun {a b} ha hb hle => ?_
    exact (markedHex_le_iff hbank (h a (hperm.mem_iff.1 ha)) (h b (hperm.mem_iff.1 hb))).2 hle
  exact ((mergeSort_perm _ _).trans (hperm.map _).symm).eq_of_pairwise'
    (pairwise_mergeSort' (· ≤ ·) _) hsorted

end Text.Numeral

/-- The length of what is recorded last for a key. -/
def Item.lengthOf {κ : Type} [DecidableEq κ] (items : List (Item κ)) (k : κ) : Option Nat :=
  (items.reverse.find? fun item => item.key = k).map fun item => item.bytes.length

namespace Dialog

open Address (InBank)
open Text.Numeral (markedHex)

variable {t : Typeface} {l l' : Layout} {w w' : Workspace} {e : Entry} {es : List Entry}
  {items : List (Item String)} {bank : Nat}

/-! ### What is recorded for pointers -/

/-- A layout of items that records their offsets and lengths, for each key once. -/
structure Layout.Records (l : Layout) (items : List (Item String)) : Prop where
  lays : l.Lays items
  length : ∀ k, l.lengths.find? k = Item.lengthOf items k
  nodup : l.offsets.keys.Nodup
  mem_keys : ∀ k, k ∈ l.offsets.keys ↔ k ∈ items.map Item.key

namespace Layout.Records

theorem nil : Layout.Records {} [] := ⟨.nil, fun _ => rfl, nodup_nil, fun _ => Iff.rfl⟩

theorem addEntry (h : l.Records items) (hadd : (Dialog.addEntry t l e).on w = (.ok l', w')) :
    w' = w ∧ ∃ bytes, e.stored t = .ok bytes ∧ l'.Records (items ++ [e.item bytes]) := by
  obtain ⟨hw, bytes, hbytes, hlays⟩ := h.lays.addEntry hadd
  obtain ⟨-, bytes', offset, hbytes', -, rfl⟩ := addEntry_ok_iff.1 hadd
  obtain rfl := Except.ok.inj (hbytes.symm.trans hbytes')
  refine ⟨hw, bytes, hbytes, hlays, fun k => ?_, Table.nodup_keys_insert h.nodup _ _, fun k => ?_⟩
  · rw [Item.lengthOf, reverse_append, reverse_singleton, singleton_append, find?_cons]
    by_cases hk : k = e.pointer
    · subst hk
      simp [Entry.item]
    · have hne : (e.item bytes).key ≠ k := Ne.symm hk
      rw [Table.find?_insert_of_ne _ hk, h.length k, decide_eq_false hne]
      rfl
  · rw [Table.mem_keys_insert_iff, h.mem_keys, or_comm]
    simp [Entry.item]

theorem addEntries (h : l.Records items)
    (hadd : (es.foldlM (Dialog.addEntry t) l).on w = (.ok l', w')) :
    ∃ texts, List.Forall₂ (fun e bytes => Entry.stored t e = .ok bytes) es texts ∧
      l'.Records (items ++ List.zipWith Entry.item es texts) := by
  induction es generalizing l items w with
  | nil =>
    cases hadd
    exact ⟨[], .nil, by simpa using h⟩
  | cons e es ih =>
    simp only [foldlM_cons, Job.on_bind_ok_iff] at hadd
    obtain ⟨l₁, w₁, hfirst, hrest⟩ := hadd
    obtain ⟨-, bytes, hbytes, h₁⟩ := h.addEntry hfirst
    obtain ⟨texts, htexts, h'⟩ := ih h₁ hrest
    exact ⟨bytes :: texts, .cons hbytes htexts, by simpa using h'⟩

end Layout.Records

/-! ### The table of a built file -/

/-- Pointers that are listed are positions of the bank. -/
def PointInto (bank : Nat) (es : List Entry) : Prop :=
  ∀ e ∈ es, e.pointer.startsWith "UNUSED" = false → ∃ a, InBank bank a ∧ e.pointer = markedHex a

theorem startsWith_markedHex (a : Nat) : (markedHex a).startsWith "UNUSED" = false := by
  rw [← Bool.not_eq_true, String.startsWith_string_iff, toList_markedHex]
  rintro ⟨rest, hrest⟩
  exact absurd (List.cons.inj hrest).1 (by decide)

theorem Layout.Records.exists_listed (h : l.Records items) (hbank : 1 ≤ bank)
    (hkeys : items.map Item.key = es.map Entry.pointer) (hpoint : PointInto bank es) :
    ∃ addresses : List Nat, l.listed = addresses.map (fun a : Nat => markedHex a) ∧
      addresses.Pairwise (· < ·) ∧
      ∀ a, a ∈ addresses ↔ InBank bank a ∧ markedHex a ∈ es.map Entry.pointer := by
  have hmem : ∀ k, k ∈ l.offsets.keys.filter (fun k => !k.startsWith "UNUSED") ↔
      k ∈ es.map Entry.pointer ∧ k.startsWith "UNUSED" = false := by
    intro k
    rw [mem_filter, h.mem_keys, hkeys, Bool.not_eq_true']
  have hrange : l.offsets.keys.filter (fun k => !k.startsWith "UNUSED") ∈
      Set.range (List.map fun a : { a // InBank bank a } => markedHex a.1) := by
    rw [Set.range_list_map]
    intro k hk
    obtain ⟨hpointer, hlisted⟩ := (hmem k).1 hk
    obtain ⟨e, he, rfl⟩ := mem_map.1 hpointer
    obtain ⟨a, ha, hhex⟩ := hpoint e he hlisted
    exact ⟨⟨a, ha⟩, hhex.symm⟩
  obtain ⟨found, hfound⟩ := hrange
  have hin : ∀ a ∈ found.map Subtype.val, InBank bank a := by
    intro a ha
    obtain ⟨a, -, rfl⟩ := mem_map.1 ha
    exact a.2
  have hhex : l.offsets.keys.filter (fun k => !k.startsWith "UNUSED") =
      (found.map Subtype.val).map fun a : Nat => markedHex a := by
    rw [← hfound, map_map]
    rfl
  have hnodup : (found.map Subtype.val).Nodup :=
    List.Nodup.of_map _ (hhex ▸ h.nodup.filter _)
  refine ⟨(found.map Subtype.val).mergeSort fun a b => decide (a ≤ b), ?_, ?_, fun a => ?_⟩
  · rw [Layout.listed, hhex, Text.Numeral.mergeSort_markedHex hbank hin]
  · exact (pairwise_mergeSort' (· ≤ ·) _).imp₂ (fun _ _ => Nat.lt_of_le_of_ne)
      ((mergeSort_perm _ _).nodup_iff.2 hnodup)
  · rw [mem_mergeSort]
    constructor
    · intro ha
      exact ⟨hin a ha, ((hmem _).1 (hhex ▸ mem_map_of_mem ha)).1⟩
    · rintro ⟨ha, hpointer⟩
      have hlisted := (hmem _).2 ⟨hpointer, startsWith_markedHex a⟩
      rw [hhex] at hlisted
      obtain ⟨a', ha', heq⟩ := mem_map.1 hlisted
      rwa [Text.Numeral.markedHex_inj hbank ha (hin a' ha') heq.symm]

theorem Layout.Records.forall₂_spans {spans : List (Nat × Nat)} (h : l.Records items)
    (hfixed : ∀ item ∈ items, ∀ a, item.target ≠ .fixed a) (hspans : l.spans = .ok spans) :
    List.Forall₂ (fun k s => Item.spotOf 0 items k = some (.offset s.1) ∧
      Item.lengthOf items k = some s.2) l.listed spans := by
  refine (mapM_ok_iff.1 hspans).imp fun k s hs => ?_
  simp only [bind_ok_iff, demand_ok_iff, pure_ok_iff] at hs
  obtain ⟨offset, hoffset, length, hlength, rfl⟩ := hs
  obtain ⟨spot, hspot, hvalue⟩ := h.lays.offsets.exists_spot hoffset
  obtain ⟨start, rfl⟩ := Item.exists_offset_of_spotOf hfixed hspot
  obtain rfl : start = offset := Int.ofNat.inj hvalue
  exact ⟨hspot, (h.length k).symm.trans hlength⟩

/-- **Pointers in address order.**  The texts of addresses of a bank are sorted as the addresses
are.  So if the listed pointers of a sheet are addresses of a bank, a built file is the number of
them, the offset and length of each in the order of the addresses, and the texts. -/
theorem table_in_address_order (hbank : 1 ≤ bank) :
    (∀ addresses : List Nat, (∀ a ∈ addresses, InBank bank a) →
      (addresses.map fun a : Nat => markedHex a).mergeSort (fun s t => decide (s ≤ t)) =
        (addresses.mergeSort fun a b => decide (a ≤ b)).map fun a : Nat => markedHex a) ∧
    ∀ (w w' : Workspace) (output input pointers portraits column version : String),
      (build output input pointers portraits column version).on w = (.ok (), w') →
      ∃ t s es texts data,
        (readTypeface pointers portraits).on w = (.ok t, w) ∧
        (Job.readMarkedText input).on w = (.ok s, w) ∧
        Sheet.entries column version (Text.Csv.parse s) = .ok es ∧
        List.Forall₂ (fun e bytes => Entry.stored t e = .ok bytes) es texts ∧
        w'.read output = .ok data ∧
        (PointInto bank es → ∃ (addresses : List Nat) (spans : List (Nat × Nat)),
          addresses.Pairwise (· < ·) ∧
          (∀ a, a ∈ addresses ↔ InBank bank a ∧ markedHex a ∈ es.map Entry.pointer) ∧
          List.Forall₂ (fun (a : Nat) s =>
            Item.spotOf 0 (List.zipWith Entry.item es texts) (markedHex a) = some (.offset s.1) ∧
            Item.lengthOf (List.zipWith Entry.item es texts) (markedHex a) = some s.2)
            addresses spans ∧
          data.data.toList = Bytes.wordBytes addresses.length ++
            (spans.flatMap fun s => Bytes.wordBytes s.1 ++ Bytes.wordBytes s.2) ++
            texts.flatten) := by
  refine ⟨fun addresses => Text.Numeral.mergeSort_markedHex hbank, ?_⟩
  intro w w' output input pointers portraits column version hbuild
  obtain ⟨t, s, header, c, l, spans, table, key, count, ht, hs, hheader, hc, hl, hspans, htable,
    hkey, hcount, rfl⟩ := build_ok_iff.1 hbuild
  obtain ⟨-, selected, -, hselected, -, -⟩ := Layout.Lays.nil.addRows hl
  -- Rows that are passed over leave the layout alone, so it is that of the entries.
  change (((Text.Csv.parse s).drop 1).foldlM (addRow t c version) {}).on w = _ at hl
  rw [on_addRows hselected] at hl
  obtain ⟨texts, htexts, hrecords⟩ := Layout.Records.nil.addEntries hl
  rw [List.nil_append] at hrecords
  refine ⟨t, s, selected.reduceOption, texts, fileOf count table l, ht, hs,
    Sheet.entries_eq hheader hc hselected, htexts, Workspace.read_fill hkey, fun hpoint => ?_⟩
  have hlength := htexts.length_eq
  have hkeys := map_key_items hlength
  obtain ⟨addresses, hlisted, hsorted, hmem⟩ := hrecords.exists_listed hbank hkeys hpoint
  have hforall := hrecords.forall₂_spans target_ne_fixed hspans
  rw [hlisted, List.forall₂_map_left_iff] at hforall
  refine ⟨addresses, spans, hsorted, hmem, hforall, ?_⟩
  obtain ⟨-, rfl⟩ := Bytes.words_ok_iff.1 htable
  obtain ⟨-, rfl⟩ := Bytes.word_ok_iff.1 hcount
  rw [toList_fileOf, hrecords.lays.text, Item.stored_zipWith (fun _ _ => rfl) hlength,
    List.flatMap_assoc, ← hforall.length_eq]
  rfl

theorem pointInto_sampleEntries : PointInto 1 sampleEntries := by
  have hpointers : ∀ e ∈ sampleEntries, e.pointer.startsWith "UNUSED" = false →
      ∃ a ∈ [0x4000, 0x4002, 0x4004], e.pointer = markedHex (a : Nat) := by
    decide +kernel
  have hbank : ∀ a ∈ [0x4000, 0x4002, 0x4004], 1 * 0x4000 ≤ a ∧ a < (1 + 1) * 0x4000 := by decide
  intro e he hlisted
  obtain ⟨a, ha, hpointer⟩ := hpointers e he hlisted
  exact ⟨a, hbank a ha, hpointer⟩

theorem table_in_address_order_sample :
    1 ≤ 1 ∧ PointInto 1 sampleEntries ∧
    ∃ (w' : Workspace) (texts : List (List UInt8)) (addresses : List Nat)
        (spans : List (Nat × Nat)),
      (build "out" "sheet" "names" "names" "Original" "a").on sample = (.ok (), w') ∧
      w'.read "out" = .ok sampleFile ∧
      addresses.Pairwise (· < ·) ∧
      (∀ a, a ∈ addresses ↔ InBank 1 a ∧ markedHex a ∈ sampleEntries.map Entry.pointer) ∧
      List.Forall₂ (fun (a : Nat) s =>
        Item.spotOf 0 (List.zipWith Entry.item sampleEntries texts) (markedHex a) =
          some (.offset s.1) ∧
        Item.lengthOf (List.zipWith Entry.item sampleEntries texts) (markedHex a) = some s.2)
        addresses spans ∧
      sampleFile.data.toList = Bytes.wordBytes addresses.length ++
        (spans.flatMap fun s => Bytes.wordBytes s.1 ++ Bytes.wordBytes s.2) ++ texts.flatten := by
  obtain ⟨t, s, es, texts, data, -, hs, hes, -, hdata, htable⟩ :=
    (table_in_address_order (le_refl 1)).2 _ _ _ _ _ _ _ _ on_build_sample
  obtain ⟨rfl, rfl⟩ := eq_of_read_sample hs hes hdata
  obtain ⟨addresses, spans, hsorted, hmem, hforall, hfile⟩ := htable pointInto_sampleEntries
  exact ⟨le_refl 1, pointInto_sampleEntries, _, texts, addresses, spans, on_build_sample, hdata,
    hsorted, hmem, hforall, hfile⟩

end Dialog

end Cartridge
