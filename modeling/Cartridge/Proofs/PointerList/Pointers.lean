import Cartridge.PointerList.Build
import Cartridge.PointerList.Link
import Cartridge.Proofs.Bytes
import Cartridge.Proofs.Layout
import Cartridge.Proofs.Workspace
import Mathlib.Data.List.ReduceOption

/-!
# Pointers of pointer lists

The entries of a list are built into a file of offsets and entries, and linking turns the offsets
into addresses.  An entry that has an address of its own is stored all the same; from `0x8000` on
its address passes through both steps as it is.

Main result: `pointers_lead_to_entries`.
-/

open List

namespace Cartridge.PointerList

open Bytes Job Text Heading

variable {body : Body} {count empty slots table : List UInt8} {general : UInt8} {output : String}
  {spans : List (Int × Nat)}

/-- What a row says: an index, and where its pointer leads. -/
structure Entry where
  index : Int
  slot : Slot
  deriving DecidableEq, Repr

def Entry.ofRow (version : String) (row : List String) : Except Fault (Option Entry) := do
  let cell ← demand row.head? (.plain .index)
  match ← indexFor version cell with
  | none => return none
  | some index => return some ⟨index, ← Slot.ofFields (row.drop 1)⟩

/-- What a list says for a version, row by row. -/
def entriesOf (version : String) (rows : List (List String)) : Except Fault (List Entry) :=
  List.reduceOption <$> rows.mapM (Entry.ofRow version)

def fieldBytes (h : Heading) (l : Lettering) (i : Nat) (field : String) :
    Except FieldError (List UInt8) := do
  let stop ← (h.ends.get i).mapError .fault
  let size ← (h.sizes.get i).mapError .fault
  encodeField l (trim (fun c => c == '\r' || c == '\n') field.toList) stop size

def bytesFrom (h : Heading) (l : Lettering) (i : Nat) (fields : List String) :
    Except FieldError (List UInt8) :=
  List.flatten <$> (fields.zipIdx i).mapM fun f => fieldBytes h l f.2 f.1

/-- The fields that stand behind a pointer. -/
def Slot.fields : Slot → List String
  | .repeated _ => []
  | .fixed _ fields => fields.getD []
  | .own fields => fields

/-- The bytes that an entry adds: those of its fields, none if it repeats a pointer. -/
def Entry.stored (h : Heading) (l : Lettering) (e : Entry) : Except FieldError (List UInt8) :=
  bytesFrom h l 0 e.slot.fields

/-- Where the pointer of an entry leads. -/
def Slot.target : Slot → Target Int
  | .repeated index => .shared index
  | .fixed address _ => .fixed address
  | .own _ => .own

def Entry.item (e : Entry) (bytes : List UInt8) : Item Int := ⟨e.index, e.slot.target, bytes⟩

def indicesOf (es : List Entry) : List Int :=
  (es.map Entry.index).mergeSort fun a b => decide (a ≤ b)

/-- The bytes in front of the entries. -/
def Heading.leadBytes (h : Heading) : Except Fault (List UInt8) :=
  if h.lead.isTrue then h.lead.toBytes else .ok []

variable {h : Heading} {l default : Lettering} {w w' : Workspace} {layout layout' : Layout}
  {lead bytes : List UInt8} {items : List (Item Int)} {fields row : List String}
  {index offset : Int} {path version input : String} {rows : List (List String)}

/-! ### Laying out entries -/

theorem bytesFrom_of_on_encodeFields {i : Nat}
    (henc : (encodeFields h l i fields).on w = (.ok bytes, w')) :
    w' = w ∧ bytesFrom h l i fields = .ok bytes := by
  induction fields generalizing i bytes w' with
  | nil =>
    cases henc
    exact ⟨rfl, rfl⟩
  | cons field rest ih =>
    simp only [encodeFields, on_bind_ok_iff, on_lift, Prod.mk.injEq] at henc
    obtain ⟨stop, _, ⟨hstop, rfl⟩, size, _, ⟨hsize, rfl⟩, hfield⟩ := henc
    cases hencode : encodeField l (trim (fun c => c == '\r' || c == '\n') field.toList) stop
      size with
    | error e =>
      rw [hencode] at hfield
      cases e with
      | fault f => cases hfield
      | tooLong codes size =>
        obtain ⟨_, _, -, hthrow⟩ := on_bind_ok_iff.1 hfield
        cases hthrow
    | ok first =>
      simp only [hencode, on_bind_ok_iff, on_pure, Prod.mk.injEq, Except.ok.injEq] at hfield
      obtain ⟨more, w₁, hmore, rfl, rfl⟩ := hfield
      obtain ⟨rfl, hbytes⟩ := ih hmore
      obtain ⟨parts, hparts, rfl⟩ := map_ok_iff.1 hbytes
      have hfirst : fieldBytes h l i field = .ok first := by
        simp only [fieldBytes, hstop, hsize]
        exact hencode
      refine ⟨rfl, map_ok_iff.2 ⟨first :: parts, ?_, rfl⟩⟩
      exact mapM_ok_iff.2 (.cons hfirst (mapM_ok_iff.1 hparts))

/-- A layout of items after some bytes. -/
structure Layout.Lays (layout : Layout) (lead : List UInt8) (items : List (Item Int)) : Prop where
  text : layout.text.toList = lead ++ Item.stored items
  offsets : Recorded (fun n : Int => n) lead.length items layout.offsets

namespace Layout.Lays

theorem nil : Layout.Lays { text := lead.toArray } lead [] :=
  ⟨by simp [Item.stored], .nil⟩

variable (hlays : layout.Lays lead items)

include hlays

theorem spotAfter_own :
    (Item.spotAfter lead.length items .own).map Spot.value = some (layout.text.size : Int) := by
  rw [← Array.length_toList, hlays.text, length_append]
  rfl

/-- Fields are stored behind the others, at whatever offset they get. -/
theorem addFields (target : Target Int)
    (hspot : (Item.spotAfter lead.length items target).map Spot.value = some offset)
    (hadd : (PointerList.addFields h l layout index offset fields).on w = (.ok layout', w')) :
    ∃ bytes, bytesFrom h l 0 fields = .ok bytes ∧
      layout'.Lays lead (items ++ [⟨index, target, bytes⟩]) := by
  simp only [PointerList.addFields, on_bind_ok_iff, on_pure, Prod.mk.injEq, Except.ok.injEq] at hadd
  obtain ⟨bytes, w₁, hencode, rfl, -⟩ := hadd
  obtain ⟨-, hbytes⟩ := bytesFrom_of_on_encodeFields hencode
  refine ⟨bytes, hbytes, ?_, ?_⟩
  · simp [hlays.text, Item.stored]
  · exact hlays.offsets.concat hspot

/-- **One row.**  A row for another version adds nothing; any other is stored, and its index gets
the place that it records. -/
theorem addRow
    (hadd : (PointerList.addRow h l path version layout row).on w = (.ok layout', w')) :
    (Entry.ofRow version row = .ok none ∧ layout' = layout) ∨
      ∃ e bytes, Entry.ofRow version row = .ok (some e) ∧ e.stored h l = .ok bytes ∧
        layout'.Lays lead (items ++ [e.item bytes]) := by
  simp only [PointerList.addRow, on_bind_ok_iff, on_demand_ok_iff, on_lift, Prod.mk.injEq] at hadd
  obtain ⟨cell, _, ⟨hcell, rfl⟩, choice, _, ⟨hindex, rfl⟩, hadd⟩ := hadd
  cases choice with
  | none =>
    cases hadd
    refine .inl ⟨?_, rfl⟩
    simp only [Entry.ofRow, bind_ok_iff, demand_ok_iff]
    exact ⟨cell, hcell, none, hindex, rfl⟩
  | some index =>
    simp only [on_bind_ok_iff, on_lift, Prod.mk.injEq] at hadd
    obtain ⟨_, _, ⟨-, rfl⟩, slot, _, ⟨hslot, rfl⟩, hadd⟩ := hadd
    have hrow : Entry.ofRow version row = .ok (some ⟨index, slot⟩) := by
      simp only [Entry.ofRow, bind_ok_iff, demand_ok_iff]
      exact ⟨cell, hcell, some index, hindex, bind_ok_iff.2 ⟨slot, hslot, rfl⟩⟩
    refine .inr ?_
    cases slot with
    | repeated other =>
      simp only [on_bind_ok_iff, on_demand_ok_iff, on_pure, Prod.mk.injEq, Except.ok.injEq] at hadd
      obtain ⟨offset, _, ⟨hfind, rfl⟩, rfl, rfl⟩ := hadd
      have hspot := hlays.offsets.find other
      rw [hfind] at hspot
      refine ⟨⟨index, .repeated other⟩, [], hrow, rfl, ?_, hlays.offsets.concat hspot.symm⟩
      simp [hlays.text, Item.stored, Entry.item]
    | fixed address fields =>
      obtain ⟨_, w₁, -, hadd⟩ := on_bind_ok_iff.1 hadd
      cases fields with
      | none =>
        cases hadd
        refine ⟨⟨index, .fixed address none⟩, [], hrow, rfl, ?_, hlays.offsets.concat rfl⟩
        simp [hlays.text, Item.stored, Entry.item]
      | some fields =>
        obtain ⟨bytes, hbytes, hlays'⟩ := hlays.addFields (.fixed address) rfl hadd
        exact ⟨⟨index, .fixed address (some fields)⟩, bytes, hrow, hbytes, hlays'⟩
    | own fields =>
      obtain ⟨bytes, hbytes, hlays'⟩ := hlays.addFields .own hlays.spotAfter_own hadd
      exact ⟨⟨index, .own fields⟩, bytes, hrow, hbytes, hlays'⟩

theorem addRows
    (hrows : (rows.foldlM (PointerList.addRow h l path version) layout).on w = (.ok layout', w')) :
    ∃ es texts, entriesOf version rows = .ok es ∧
      List.Forall₂ (fun e bytes => Entry.stored h l e = .ok bytes) es texts ∧
      layout'.Lays lead (items ++ List.zipWith Entry.item es texts) := by
  induction rows generalizing layout items w with
  | nil =>
    cases hrows
    exact ⟨[], [], rfl, .nil, by simpa using hlays⟩
  | cons row rows ih =>
    rw [foldlM_cons, on_bind_ok_iff] at hrows
    obtain ⟨layout₁, w₁, hrow, hrows⟩ := hrows
    obtain ⟨hother, rfl⟩ | ⟨e, bytes, he, hbytes, hlays₁⟩ := hlays.addRow hrow
    · obtain ⟨es, texts, hes, htexts, hlays'⟩ := ih hlays hrows
      obtain ⟨choices, hchoices, rfl⟩ := map_ok_iff.1 hes
      refine ⟨_, texts, map_ok_iff.2 ⟨none :: choices, ?_, rfl⟩, htexts, hlays'⟩
      exact mapM_ok_iff.2 (.cons hother (mapM_ok_iff.1 hchoices))
    · obtain ⟨es, texts, hes, htexts, hlays'⟩ := ih hlays₁ hrows
      obtain ⟨choices, hchoices, rfl⟩ := map_ok_iff.1 hes
      refine ⟨e :: choices.reduceOption, bytes :: texts,
        map_ok_iff.2 ⟨some e :: choices, ?_, rfl⟩, .cons hbytes htexts, ?_⟩
      · exact mapM_ok_iff.2 (.cons he (mapM_ok_iff.1 hchoices))
      · simpa using hlays'

end Layout.Lays

/-! ### The built file -/

def fileOf (general : UInt8) (slots empty count table : List UInt8) (layout : Layout) : ByteArray :=
  ⟨(general :: slots ++ empty ++ count ++ table).toArray ++ layout.text⟩

theorem written_pieces (hgeneral : byteField h.general = .ok general)
    (hslots : word body.slots = .ok slots) (hempty : word body.emptyWord = .ok empty)
    (hspans : layout.spans = .ok spans)
    (htable : words (spans.flatMap fun s => [s.1, (s.2 : Int)]) = .ok table)
    (hcount : word spans.length = .ok count) :
    (pieces h body layout).mapM id = .ok [⟨#[general]⟩, ⟨slots.toArray⟩, ⟨empty.toArray⟩,
        ⟨(count ++ table).toArray ++ layout.text⟩] ∧
      written (pieces h body layout) = fileOf general slots empty count table layout := by
  have hstored : layout.stored = .ok ⟨(count ++ table).toArray ++ layout.text⟩ := by
    simp only [Layout.stored, bind_ok_iff, pure_ok_iff]
    exact ⟨spans, hspans, table, htable, count, hcount, rfl⟩
  rw [pieces, hgeneral, hslots, hempty, hstored]
  refine ⟨rfl, ByteArray.ext (Array.toList_inj.1 ?_)⟩
  simp [written, fileOf, Functor.map, Except.map]

theorem write_ok_iff :
    (write output h body layout).on w = (.ok (), w') ↔
      ∃ key general slots empty spans table count,
        w.target output = .ok key ∧ byteField h.general = .ok general ∧
        word body.slots = .ok slots ∧ word body.emptyWord = .ok empty ∧
        layout.spans = .ok spans ∧
        words (spans.flatMap fun s => [s.1, (s.2 : Int)]) = .ok table ∧
        word spans.length = .ok count ∧
        w' = { w with
          files := (w.files.insert key ByteArray.empty).modify key
            (· ++ fileOf general slots empty count table layout) } := by
  simp only [write, on_bind_ok_iff, on_create_ok_iff, Table.modify_insert]
  constructor
  · rintro ⟨key, _, ⟨hkey, rfl⟩, hfill⟩
    rw [on_fill, Prod.mk.injEq, map_ok_iff] at hfill
    obtain ⟨⟨parts, hparts, -⟩, rfl⟩ := hfill
    simp only [pieces, mapM_ok_iff, forall₂_cons_left_iff, forall₂_nil_left_iff, id,
      map_ok_iff, Layout.stored, bind_ok_iff, pure_ok_iff] at hparts
    obtain ⟨_, _, ⟨general, hgeneral, -⟩, ⟨_, _, ⟨slots, hslots, -⟩, ⟨_, _, ⟨empty, hempty, -⟩,
      ⟨_, _, ⟨spans, hspans, table, htable, count, hcount, -⟩, -⟩, -⟩, -⟩, -⟩ := hparts
    refine ⟨key, general, slots, empty, spans, table, count, hkey, hgeneral, hslots, hempty, hspans,
      htable, hcount, ?_⟩
    rw [(written_pieces hgeneral hslots hempty hspans htable hcount).2]
  · rintro ⟨key, general, slots, empty, spans, table, count, hkey, hgeneral, hslots, hempty, hspans,
      htable, hcount, rfl⟩
    obtain ⟨hparts, hwritten⟩ := written_pieces hgeneral hslots hempty hspans htable hcount
    refine ⟨key, _, ⟨hkey, rfl⟩, ?_⟩
    rw [on_fill, hparts, hwritten]
    rfl

theorem quiet_letteringOf (h : Heading) (l : Lettering) : (letteringOf h l).Quiet := by
  unfold letteringOf
  split
  · exact .bind (.ofTilesetAt _ _) fun _ => .pure _
  · exact .pure _

theorem build_ok_iff :
    (build default output input version).on w = (.ok (), w') ↔
      ∃ s h l body lead layout w₁,
        (readMarkedText input).on w = (.ok s, w) ∧
        read ((lines s).headD []) = .ok h ∧
        (letteringOf h default).on w = (.ok l, w) ∧ h.check input = .ok () ∧
        Body.read ((lines s).drop 1) = .ok body ∧ h.leadBytes = .ok lead ∧
        (body.rows.foldlM (addRow h l input version) { text := lead.toArray }).on w =
          (.ok layout, w₁) ∧
        (write output h body layout).on w₁ = (.ok (), w') := by
  simp only [build, layOut, on_bind_ok_iff, on_lift, Prod.mk.injEq]
  constructor
  · rintro ⟨s, w₁, hs, h, _, ⟨hh, rfl⟩, l, w₂, hl, _, _, ⟨hcheck, rfl⟩, body, _, ⟨hbody, rfl⟩,
      layout, w₃, ⟨lead, _, ⟨hlead, rfl⟩, hlayout⟩, hwrite⟩
    obtain rfl := (Quiet.readMarkedText _).eq hs
    obtain rfl := (quiet_letteringOf _ _).eq hl
    exact ⟨s, h, l, body, lead, layout, w₃, hs, hh, hl, hcheck, hbody, hlead, hlayout, hwrite⟩
  · rintro ⟨s, h, l, body, lead, layout, w₁, hs, hh, hl, hcheck, hbody, hlead, hlayout, hwrite⟩
    exact ⟨s, w, hs, h, _, ⟨hh, rfl⟩, l, w, hl, (), _, ⟨hcheck, rfl⟩, body, _, ⟨hbody, rfl⟩, layout,
      w₁, ⟨lead, _, ⟨hlead, rfl⟩, hlayout⟩, hwrite⟩

theorem toList_fileOf (general : UInt8) (slots empty count table : List UInt8) (layout : Layout) :
    (fileOf general slots empty count table layout).data.toList =
      ([general] ++ (slots ++ (empty ++ (count ++ table)))) ++ layout.text.toList := by
  simp [fileOf]

/-- **Linking a built file.**  Every offset becomes an address behind the pointers and the empty
slots, and the entries follow as they are. -/
theorem exists_of_link {c e : Int} {place : Section} {final : ByteArray}
    (hslots : word c = .ok slots) (hempty : word e = .ok empty)
    (hcount : word spans.length = .ok count)
    (htable : words (spans.flatMap fun s => [s.1, (s.2 : Int)]) = .ok table)
    (hlink : link (fileOf general slots empty count table layout) place = .ok final) :
    (∀ s ∈ spans,
      0 ≤ addressIn place (2 * spans.length + 2 * (c.toNat - spans.length)) s.1.toNat ∧
      addressIn place (2 * spans.length + 2 * (c.toNat - spans.length)) s.1.toNat < 0x10000) ∧
    final.data.toList =
      (spans.flatMap fun s => wordBytes
        (addressIn place (2 * spans.length + 2 * (c.toNat - spans.length)) s.1.toNat).toNat) ++
      (List.replicate (c.toNat - spans.length) (wordBytes e.toNat)).flatten ++
      layout.text.toList := by
  obtain ⟨⟨hc, hcfits⟩, rfl⟩ := word_ok_iff.1 hslots
  obtain ⟨⟨he, hefits⟩, rfl⟩ := word_ok_iff.1 hempty
  obtain ⟨⟨-, hnfits⟩, hbytes⟩ := word_ok_iff.1 hcount
  rw [Int.toNat_natCast] at hbytes
  subst hbytes
  -- The five fields stand one after another from the start of the file.
  have hheld : Tileset.Holds (fileOf general (wordBytes c.toNat) (wordBytes e.toNat)
      (wordBytes spans.length) table layout) 0 ([general] ++ (wordBytes c.toNat ++
        (wordBytes e.toNat ++ (wordBytes spans.length ++ table)))) := by
    rw [Tileset.Holds, toList_fileOf]
    exact prefix_append ..
  obtain ⟨hgeneral, hheld⟩ := Tileset.holds_append.1 hheld
  obtain ⟨hslots, hheld⟩ := Tileset.holds_append.1 hheld
  obtain ⟨hempty, hheld⟩ := Tileset.holds_append.1 hheld
  obtain ⟨hcount, hheld⟩ := Tileset.holds_append.1 hheld
  obtain ⟨ns, hns, hoffsets⟩ := Link.offsetsOf_wordsAt htable hheld
  have hstop : 7 + 4 * spans.length = ([general] ++ (wordBytes c.toNat ++
      (wordBytes e.toNat ++ (wordBytes spans.length ++ table)))).length := by
    simp only [length_append, Link.length_of_spans htable, wordBytes, length_cons, length_nil]
    omega
  simp only [link, bind_ok_iff, pure_ok_iff] at hlink
  obtain ⟨_, -, c', hc', e', he', n', hn', ns', hns', addresses, haddresses, rfl⟩ := hlink
  obtain rfl := Except.ok.inj ((wordAt_of_holds (by omega) hslots).symm.trans hc')
  obtain rfl := Except.ok.inj ((wordAt_of_holds (by omega) hempty).symm.trans he')
  obtain rfl := Except.ok.inj ((wordAt_of_holds (by omega) hcount).symm.trans hn')
  obtain rfl := Except.ok.inj (hns.symm.trans hns')
  have hfree : (List.replicate (c.toNat - spans.length) (wordBytes e.toNat)).flatten.length =
      2 * (c.toNat - spans.length) := by
    rw [List.length_flatten, map_replicate, sum_replicate_nat]
    exact Nat.mul_comm ..
  rw [hoffsets, hfree, map_map, words_ok_iff] at haddresses
  obtain ⟨hin, rfl⟩ := haddresses
  refine ⟨fun s hs => hin _ (mem_map_of_mem hs), ?_⟩
  rw [hstop, ByteArray.data_append, Array.toList_append, toList_rest (toList_fileOf ..),
    flatMap_map]
  rfl

/-- **Pointers lead to their entries.**  A finished file is the addresses of the entries in the
order of their indices, the pointers of the empty slots, the bytes in front of the entries and the
entries in the order of the list.  The address of an entry is where it begins, or its own one. -/
theorem pointers_lead_to_entries {default : Lettering} {output input version : String}
    (hbuild : (build default output input version).on w = (.ok (), w')) :
    ∃ s h l body lead es texts data,
      (Job.readMarkedText input).on w = (.ok s, w) ∧
      Heading.read ((Text.lines s).headD []) = .ok h ∧
      (letteringOf h default).on w = (.ok l, w) ∧
      Body.read ((Text.lines s).drop 1) = .ok body ∧
      h.leadBytes = .ok lead ∧
      entriesOf version body.rows = .ok es ∧
      List.Forall₂ (fun e bytes => Entry.stored h l e = .ok bytes) es texts ∧
      w'.read output = .ok data ∧
      ((es.map Entry.index).Nodup → ∀ place final, link data place = .ok final →
        ∃ addresses : List Int,
          (∀ a ∈ addresses, 0 ≤ a ∧ a < 0x10000) ∧
          final.data.toList =
            (addresses.flatMap fun a => Bytes.wordBytes a.toNat) ++
            (List.replicate (body.slots - es.length).toNat
              (Bytes.wordBytes body.emptyWord.toNat)).flatten ++ lead ++ texts.flatten ∧
          List.Forall₂ (fun index a =>
            ∃ spot, Item.spotOf lead.length (List.zipWith Entry.item es texts) index = some spot ∧
              (∀ start, spot = .offset start → start < 0x7FFF →
                a - place.base = 2 * es.length + 2 * max (body.slots - es.length) 0 + start) ∧
              (∀ address fields, ⟨index, .fixed address fields⟩ ∈ es → 0x8000 ≤ address →
                a = address)) (indicesOf es) addresses) := by
  obtain ⟨s, h, l, body, lead, layout, w₁, hs, hh, hl, -, hbody, hlead, hlayout, hwrite⟩ :=
    build_ok_iff.1 hbuild
  obtain ⟨key, general, slots, empty, spans, table, count, hkey, -, hslots, hempty, hspans, htable,
    hcount, rfl⟩ := write_ok_iff.1 hwrite
  obtain ⟨es, texts, hes, htexts, hlays⟩ := Layout.Lays.nil.addRows hlayout
  rw [List.nil_append] at hlays
  refine ⟨s, h, l, body, lead, es, texts, fileOf general slots empty count table layout, hs, hh, hl,
    hbody, hlead, hes, htexts, Workspace.read_fill hkey, fun hnodup place final hlink => ?_⟩
  obtain ⟨hin, hfinal⟩ := exists_of_link hslots hempty hcount htable hlink
  have hlength := htexts.length_eq
  have hkeys : (List.zipWith Entry.item es texts).map Item.key = es.map Entry.index :=
    Item.map_key_zipWith (fun _ _ => rfl) hlength
  have hforall := Recorded.forall₂_of_spans hspans
  rw [hlays.offsets.keys (hkeys ▸ hnodup), hkeys] at hforall
  have hn : spans.length = es.length := by
    rw [← hforall.length_eq, List.length_mergeSort, List.length_map]
  rw [hn] at hin hfinal
  refine ⟨spans.map fun s =>
    addressIn place (2 * es.length + 2 * (body.slots.toNat - es.length)) s.1.toNat, ?_, ?_, ?_⟩
  · intro a ha
    obtain ⟨s, hs, rfl⟩ := List.mem_map.1 ha
    exact hin s hs
  · have hfree : (body.slots - es.length).toNat = body.slots.toNat - es.length := by omega
    rw [hfinal, hlays.text, Item.stored_zipWith (fun _ _ => rfl) hlength, List.flatMap_map, hfree,
      List.append_assoc _ lead]
  · rw [List.forall₂_map_right_iff]
    refine hforall.imp fun index s hfind => ?_
    obtain ⟨spot, hspot, hvalue⟩ := hlays.offsets.exists_spot hfind
    refine ⟨spot, hspot, ?_, ?_⟩
    · rintro start rfl hstart
      have hoffset : s.1 = start := hvalue.symm
      rw [addressIn, hoffset, Int.toNat_natCast, if_pos hstart]
      omega
    · intro address fields hentry haddress
      obtain ⟨bytes, hitem⟩ := Item.exists_mem_zipWith hentry hlength
      have hfixed : Item.spotOf lead.length (List.zipWith Entry.item es texts) index =
          some (.address address) := Item.spotOf_of_fixed (hkeys ▸ hnodup) hitem rfl
      obtain rfl := Option.some.inj (hspot.symm.trans hfixed)
      have haddress' : s.1 = address := hvalue.symm
      rw [addressIn, haddress', if_neg (by omega)]
      omega

/-! ### A small list -/

def sampleLines : List String :=
  ["[1,[],[80],[None],0,None,[7],0,None]\n", "5\n", "-1\n", "index,text\n", "2,AB\n", "0#b,A\n",
    "1,##=2\n", "0,##&C000=B\n"]

def sampleRows : List (List String) :=
  [["2", "AB"], ["0#b", "A"], ["1", "##=2"], ["0", "##&C000=B"]]

def sampleEntries : List Entry :=
  [⟨2, .own ["AB"]⟩, ⟨1, .repeated 2⟩, ⟨0, .fixed 0xC000 (some ["B"])⟩]

def sampleLettering : Lettering := ⟨⟨[("A", 1), ("B", 2)]⟩, ∅⟩

def sample : Workspace where
  files := ⟨[("list", (String.join sampleLines).toUTF8)]⟩

theorem isSome_read_sampleLines :
    (read ((sampleLines.map String.toList).headD [])).toOption.isSome := by
  decide +kernel

def sampleHeading : Heading :=
  (read ((sampleLines.map String.toList).headD [])).toOption.get isSome_read_sampleLines

def sampleLayout : Layout where
  text := #[7, 1, 2, 80, 2, 80]
  offsets := ⟨[(2, 1), (1, 1), (0, 0xC000)]⟩
  lengths := ⟨[(2, 3), (1, 0), (0, 2)]⟩

def sampleFile : ByteArray :=
  fileOf 0 [5, 0] [0xFF, 0xFF] [3, 0] [0, 0xC0, 2, 0, 1, 0, 0, 0, 1, 0, 3, 0] sampleLayout

def layOutSample : Job Layout :=
  sampleRows.foldlM (addRow sampleHeading sampleLettering "list" "a") { text := #[7] }

-- everything about the sample is evaluated here, in one go
theorem run_sample :
    (lines (dropByteOrderMark (unifyNewlines (String.join sampleLines).toList)) =
        sampleLines.map String.toList ∧
      Body.read ((sampleLines.map String.toList).drop 1) = .ok ⟨5, -1, sampleRows⟩ ∧
      sample.target "list" = .ok "list") ∧
    (sampleHeading.check "list" = .ok () ∧ sampleHeading.leadBytes = .ok [7] ∧
      byteField sampleHeading.general = .ok 0 ∧
      ((letteringOf sampleHeading sampleLettering).on sample).1 = .ok sampleLettering) ∧
    ((layOutSample.on sample).1 = .ok sampleLayout ∧
      (layOutSample.on sample).2.target "out" = .ok "out") ∧
    entriesOf "a" sampleRows = .ok sampleEntries ∧
    link sampleFile ⟨2, 0x4000⟩ = .ok ⟨#[0, 0xC0, 0xB, 0x40, 0xB, 0x40, 0xFF, 0xFF, 0xFF, 0xFF,
      7, 1, 2, 80, 2, 80]⟩ := by
  decide +kernel

theorem on_readMarkedText_sample : (readMarkedText "list").on sample =
    (.ok (dropByteOrderMark (unifyNewlines (String.join sampleLines).toList)), sample) :=
  on_map_ok_iff.2 ⟨_, on_readText (Workspace.read_ok_iff.2 ⟨"list", run_sample.1.2.2, rfl⟩), rfl⟩

theorem read_sampleLines : read ((sampleLines.map String.toList).headD []) = .ok sampleHeading :=
  eq_ok_get isSome_read_sampleLines

theorem spans_sampleLayout : sampleLayout.spans = .ok [(0xC000, 2), (1, 0), (1, 3)] := by
  have hsorted : sampleLayout.offsets.keys.mergeSort (fun a b => decide (a ≤ b)) = [0, 1, 2] := by
    simp [sampleLayout, Table.keys, List.mergeSort, List.MergeSort.Internal.splitInTwo]
  rw [Layout.spans, hsorted]
  rfl

theorem exists_on_build_sample :
    ∃ w', (build sampleLettering "out" "list" "a").on sample = (.ok (), w') ∧
      w'.read "out" = .ok sampleFile := by
  obtain ⟨⟨hlines, hbody, -⟩, ⟨hcheck, hlead, hgeneral, hlettering⟩, ⟨hlayout, htarget⟩, -⟩ :=
    run_sample
  refine ⟨_, build_ok_iff.2 ⟨_, sampleHeading, sampleLettering, ⟨5, -1, sampleRows⟩, [7],
    sampleLayout, _, on_readMarkedText_sample, ?_, Prod.ext hlettering (quiet_letteringOf _ _ _),
    hcheck, ?_, hlead, on_eq_of_fst hlayout,
    write_ok_iff.2 ⟨"out", 0, [5, 0], [0xFF, 0xFF], _, [0, 0xC0, 2, 0, 1, 0, 0, 0, 1, 0, 3, 0],
      [3, 0], htarget, hgeneral, rfl, rfl, spans_sampleLayout, rfl, rfl, rfl⟩⟩,
    Workspace.read_fill htarget⟩
  · rw [hlines]
    exact read_sampleLines
  · rw [hlines]
    exact hbody

theorem pointers_lead_to_entries_sample :
    ∃ (w' : Workspace) (data : ByteArray) (texts : List (List UInt8)) (addresses : List Int),
      (build sampleLettering "out" "list" "a").on sample = (.ok (), w') ∧
      w'.read "out" = .ok data ∧
      link data ⟨2, 0x4000⟩ =
        .ok ⟨#[0, 0xC0, 0xB, 0x40, 0xB, 0x40, 0xFF, 0xFF, 0xFF, 0xFF, 7, 1, 2, 80, 2, 80]⟩ ∧
      [0, 0xC0, 0xB, 0x40, 0xB, 0x40, 0xFF, 0xFF, 0xFF, 0xFF, 7, 1, 2, 80, 2, 80] =
        (addresses.flatMap fun a => Bytes.wordBytes a.toNat) ++
          (List.replicate 2 [0xFF, 0xFF]).flatten ++ [7] ++ texts.flatten ∧
      List.Forall₂ (fun index (a : Int) =>
        ∃ spot, Item.spotOf 1 (List.zipWith Entry.item sampleEntries texts) index = some spot ∧
          (∀ start, spot = .offset start → start < 0x7FFF → a - 0x4000 = 2 * 3 + 2 * 2 + start) ∧
          (∀ address fields, ⟨index, .fixed address fields⟩ ∈ sampleEntries → 0x8000 ≤ address →
            a = address)) (indicesOf sampleEntries) addresses := by
  obtain ⟨w', hbuild, hread⟩ := exists_on_build_sample
  obtain ⟨s, h, l, body, lead, es, texts, data, hs, hh, -, hbody, hlead, hes, -, hdata, hleads⟩ :=
    pointers_lead_to_entries hbuild
  obtain rfl := Except.ok.inj (congrArg Prod.fst (on_readMarkedText_sample.symm.trans hs))
  obtain ⟨⟨hlines, hrows, -⟩, ⟨-, hbytes, -⟩, -, hentries, hlink⟩ := run_sample
  rw [hlines] at hh hbody
  obtain rfl := Except.ok.inj (read_sampleLines.symm.trans hh)
  obtain rfl := Except.ok.inj (hrows.symm.trans hbody)
  obtain rfl := Except.ok.inj (hentries.symm.trans hes)
  obtain rfl := Except.ok.inj (hbytes.symm.trans hlead)
  obtain rfl := Except.ok.inj (hread.symm.trans hdata)
  obtain ⟨addresses, -, hfinal, hforall⟩ := hleads (by decide) _ _ hlink
  exact ⟨w', _, texts, addresses, hbuild, hdata, hlink, hfinal, hforall⟩

end Cartridge.PointerList
