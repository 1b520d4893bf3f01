import Cartridge.Dialog.Dump
import Cartridge.Dialog.Sheet
import Cartridge.Proofs.Text.Csv
import Cartridge.Proofs.Text.Numeral
import Cartridge.Proofs.Workspace
import Mathlib.Data.List.ReduceOption

/-!
# Two versions in one sheet

The texts of two versions are joined into the rows of a sheet, and the rows of a version are chosen
from the sheet again.

Main result: `chosen_sheet_iff`.
-/

open List

namespace Cartridge.Dialog

open Text Job

variable {f : Folders} {q : String} {w w' : Workspace}

/-! ### Choosing rows -/

namespace Sheet

/-- The pointers and texts that rows have for a version. -/
def chosenIn (c : Columns) (version : String) (rows : List (List String)) :
    Except Fault (List (String × String)) :=
  List.reduceOption <$> rows.mapM (choose c version)

/-- The pointers and texts that a sheet has for a version, in order. -/
def chosen (column version : String) (sheet : List (List String)) :
    Except Fault (List (String × String)) := do
  let header ← demand sheet.head? (.plain .noMember)
  let c ← Columns.find header column
  chosenIn c version (sheet.drop 1)

variable {c : Columns} {version index pointer text other : String} {row : List String}
  {rows more : List (List String)} {es es' : List (String × String)}

theorem chosenIn_cons_none (hrow : choose c version row = .ok none)
    (hrows : chosenIn c version rows = .ok es) : chosenIn c version (row :: rows) = .ok es := by
  obtain ⟨choices, hchoices, rfl⟩ := map_ok_iff.1 hrows
  refine map_ok_iff.2 ⟨none :: choices, ?_, rfl⟩
  exact mapM_ok_iff.2 (.cons hrow (mapM_ok_iff.1 hchoices))

theorem chosenIn_cons_some {e : String × String} (hrow : choose c version row = .ok (some e))
    (hrows : chosenIn c version rows = .ok es) :
    chosenIn c version (row :: rows) = .ok (e :: es) := by
  obtain ⟨choices, hchoices, rfl⟩ := map_ok_iff.1 hrows
  refine map_ok_iff.2 ⟨some e :: choices, ?_, rfl⟩
  exact mapM_ok_iff.2 (.cons hrow (mapM_ok_iff.1 hchoices))

theorem chosenIn_append (hrows : chosenIn c version rows = .ok es)
    (hmore : chosenIn c version more = .ok es') :
    chosenIn c version (rows ++ more) = .ok (es ++ es') := by
  obtain ⟨choices, hchoices, rfl⟩ := map_ok_iff.1 hrows
  obtain ⟨choices', hchoices', rfl⟩ := map_ok_iff.1 hmore
  refine map_ok_iff.2 ⟨choices ++ choices', ?_, filterMap_append⟩
  exact mapM_ok_iff.2 (rel_append (mapM_ok_iff.1 hchoices) (mapM_ok_iff.1 hchoices'))

theorem ne_nil_of_chosenIn (h : chosenIn c version rows = .ok es) : ∀ row ∈ rows, row ≠ [] := by
  obtain ⟨choices, hchoices, -⟩ := map_ok_iff.1 h
  rintro row hrow rfl
  obtain ⟨choice, -, hchoice⟩ := exists_mem_of_mapM hchoices hrow
  cases hchoice

def writtenColumns : Columns := ⟨0, 1, 2, some 2⟩

theorem choose_of_isFor (hnote : index.startsWith "#" = false) (hfor : isFor version index = true)
    (hpointer : pointerFor version pointer = .ok (some q)) :
    choose writtenColumns version [index, pointer, text, other] = .ok (some (q, text)) := by
  simp [choose, cell, demand, writtenColumns, hnote, hfor, hpointer, bind, Except.bind, pure,
    Except.pure]

theorem choose_of_not_isFor (hnote : index.startsWith "#" = false)
    (hfor : isFor version index = false) :
    choose writtenColumns version [index, pointer, text, other] = .ok none := by
  simp [choose, cell, demand, writtenColumns, hnote, hfor, bind, Except.bind, pure, Except.pure]

/-! ### Marks -/

def marks : List Char := ['#', '|', '\r']

theorem notMem_marks {l : List Char} {c : Char} (h : l.all (· ∉ marks)) (hc : c ∈ l) : c ∉ marks :=
  of_decide_eq_true (all_eq_true.1 h c hc)

def Unmarked (s : String) : Prop := s ≠ "" ∧ ∀ c ∈ s.toList, c ∉ marks

namespace Unmarked

variable {s : String}

section

variable (h : Unmarked s)

include h

theorem notMem {c : Char} (hc : c ∈ marks) : c ∉ s.toList :=
  fun hmem => h.2 c hmem hc

theorem startsWith (t : String) : (s ++ t).startsWith "#" = false := by
  rw [← Bool.not_eq_true, String.startsWith_string_iff, String.toList_append]
  obtain ⟨c, rest, hs⟩ := exists_cons_of_ne_nil (mt String.toList_eq_nil_iff.1 h.1)
  rw [hs]
  rintro ⟨u, hu⟩
  obtain rfl : '#' = c := (List.cons.inj hu).1
  exact h.notMem (c := '#') (by decide) (hs ▸ mem_cons_self)

theorem isFor : Sheet.isFor version s = true := by
  rw [Sheet.isFor, parts_of_notMem (h.notMem (by decide))]

theorem pointerFor : Sheet.pointerFor version s = .ok (some s) := by
  rw [Sheet.pointerFor, parts_of_notMem (h.notMem (by decide))]

theorem unified : unified s = s :=
  unified_eq_iff.2 (h.notMem (by decide))

theorem notMem_append (v : Version) {c : Char} (hc : c ∈ marks) (hne : c ≠ '#') :
    c ∉ (s ++ "#" ++ v.name).toList := by
  rw [String.toList_append, String.toList_append, mem_append, mem_append, not_or, not_or]
  refine ⟨⟨h.notMem hc, by simpa using hne⟩, ?_⟩
  have hname : v.name.toList.all (· ∉ marks) := by cases v <;> decide
  exact fun hmem => notMem_marks hname hmem hc

theorem parts_append (v : Version) : parts '#' (s ++ "#" ++ v.name) = [s, v.name] := by
  have hname : parts '#' v.name = [v.name] := by cases v <;> rfl
  rw [Text.parts_append rfl (h.notMem (by decide)), hname]

theorem isFor_append (v : Version) :
    Sheet.isFor version (s ++ "#" ++ v.name) = (v.name == version) := by
  rw [Sheet.isFor, h.parts_append]

end

end Unmarked

theorem unmarked_indexText (i : Nat) : Unmarked (indexText i) :=
  ⟨Numeral.write_ne_empty _ _ _, Numeral.forall_mem_write (by omega) (by decide) 3 i⟩

theorem unmarked_markedHex (n : Nat) : Unmarked (Numeral.markedHex n) :=
  ⟨Numeral.markedHex_ne_empty _, Numeral.forall_mem_markedHex (by decide) (by decide) n⟩

theorem unmarked_text (p : Pointer) : Unmarked p.text := by
  cases p with
  | slot position => exact unmarked_markedHex position
  | unused number =>
    constructor
    · simp [Pointer.text]
    · intro c hc
      rw [Pointer.text, String.toList_append, mem_append] at hc
      obtain hc | hc := hc
      · exact notMem_marks (by decide) hc
      · exact Numeral.forall_mem_upperHex (p := (· ∉ marks)) (by decide) 2 number c hc

theorem unified_pair {p : String} (hp : Unmarked p) (hq : Unmarked q) :
    unified (p ++ "#" ++ Version.kabuto.name ++ "|" ++
      (q ++ "#" ++ Version.kuwagata.name)) =
      p ++ "#" ++ Version.kabuto.name ++ "|" ++ (q ++ "#" ++ Version.kuwagata.name) := by
  refine unified_eq_iff.2 fun hmem => ?_
  rw [String.toList_append, mem_append] at hmem
  obtain hmem | hmem := hmem
  · rw [String.toList_append, mem_append] at hmem
    obtain hmem | hmem := hmem
    · exact hp.notMem_append _ (by decide) (by decide) hmem
    · exact absurd hmem (by decide)
  · exact hq.notMem_append _ (by decide) (by decide) hmem

theorem pointerFor_pair {p : String} (hp : Unmarked p) (hq : Unmarked q) (v : Version) :
    pointerFor v.name (p ++ "#" ++ Version.kabuto.name ++ "|" ++
      (q ++ "#" ++ Version.kuwagata.name)) =
      .ok (some (match v with | .kabuto => p | .kuwagata => q)) := by
  have hcells : parts '|' (p ++ "#" ++ Version.kabuto.name ++ "|" ++
      (q ++ "#" ++ Version.kuwagata.name)) =
      [p ++ "#" ++ Version.kabuto.name, q ++ "#" ++ Version.kuwagata.name] := by
    rw [parts_append rfl (hp.notMem_append _ (by decide) (by decide)),
      parts_of_notMem (hq.notMem_append _ (by decide) (by decide))]
  have hempty : ∀ s : String, Unmarked s → s.isEmpty = false := fun s hs => by
    simpa [String.isEmpty_iff] using hs.1
  cases v with
  | kabuto =>
    simp [pointerFor, hcells, pointerAmong, hp.parts_append, hempty p hp, bind, Except.bind, pure,
      Except.pure]
  | kuwagata =>
    have hne : Version.kabuto.name ≠ Version.kuwagata.name := by decide
    simp [pointerFor, hcells, pointerAmong, hp.parts_append, hq.parts_append, hne, hempty q hq,
      bind, Except.bind, pure, Except.pure]

end Sheet

/-! ### Rows of places -/

def Joined.textOf (v : Version) : Joined → Pointer × String
  | .common p s => (p, s)
  | .moved p q s => (match v with | .kabuto => p | .kuwagata => q, s)
  | .different a b => match v with | .kabuto => a | .kuwagata => b

/-- The texts of a place in a version, with the unused one in front of it. -/
def Place.texts (v : Version) (p : Place) : Texts :=
  match v with
  | .kabuto => [p.body.textOf v]
  | .kuwagata => p.extra.toList ++ [p.body.textOf v]

def readBack (e : Pointer × String) : String × String := (e.1.text, unified e.2)

open Sheet

variable {v : Version} {p : Place} {i : Nat} {rows : List (List String)} {places : List Place}

theorem choose_marked {index : String} (hindex : Unmarked index) (v v' : Version)
    (e : Pointer × String) (other : String) :
    choose writtenColumns v.name
      ([index ++ "#" ++ v'.name, e.1.text, e.2, other].map Text.unified) =
      .ok (if v' = v then some (readBack e) else none) := by
  have hnote : (index ++ "#" ++ v'.name).startsWith "#" = false := by
    rw [String.append_assoc]
    exact hindex.startsWith _
  have hcell : unified (index ++ "#" ++ v'.name) = index ++ "#" ++ v'.name :=
    unified_eq_iff.2 (hindex.notMem_append _ (by decide) (by decide))
  simp only [map_cons, map_nil, hcell, (unmarked_text e.1).unified]
  by_cases hv : v' = v
  · subst hv
    rw [if_pos rfl, choose_of_isFor hnote ?_ (unmarked_text e.1).pointerFor]
    · rfl
    · rw [hindex.isFor_append, beq_self_eq_true]
  · have hname : (v'.name == v.name) = false := by
      cases v <;> cases v' <;> first | exact absurd rfl hv | rfl
    rw [if_neg hv, choose_of_not_isFor hnote (by rw [hindex.isFor_append, hname])]

theorem choose_unmarked {index pointer : String} (hindex : Unmarked index) (v : Version)
    (hpointer : pointerFor v.name (unified pointer) = .ok (some q)) (text other : String) :
    choose writtenColumns v.name ([index, pointer, text, other].map unified) =
      .ok (some (q, unified text)) := by
  have hnote : index.startsWith "#" = false := by
    simpa using hindex.startsWith ""
  simp only [map_cons, map_nil, hindex.unified]
  exact choose_of_isFor hnote hindex.isFor hpointer

theorem chosenIn_extra (v : Version) (extra : Option (Pointer × String)) :
    chosenIn writtenColumns v.name ((extra.toList.map fun e =>
      [e.1.text ++ "#" ++ Version.kuwagata.name, e.1.text, e.2, ""]).map (List.map Text.unified)) =
      .ok ((if v = .kuwagata then extra.toList else []).map readBack) := by
  cases extra with
  | none => cases v <;> rfl
  | some e =>
    have hrow := choose_marked (unmarked_text e.1) v .kuwagata e ""
    cases v with
    | kabuto => exact chosenIn_cons_none hrow rfl
    | kuwagata => exact chosenIn_cons_some hrow rfl

theorem exists_of_versionPointer {q : Pointer} {s : String} (h : versionPointer v q = .ok s) :
    ∃ n, q = .slot n ∧ s = Numeral.markedHex n ++ "#" ++ v.name := by
  cases q with
  | unused n => cases h
  | slot n => exact ⟨n, rfl, (Except.ok.inj h).symm⟩

theorem chosenIn_body {body : Joined} (v : Version)
    (h : ({ body } : Place).rows i = .ok rows) :
    chosenIn writtenColumns v.name (rows.map (List.map unified)) =
      .ok [readBack (body.textOf v)] := by
  have hindex := unmarked_indexText i
  cases body with
  | common q text =>
    obtain rfl := pure_ok_iff.1 h
    refine chosenIn_cons_some (choose_unmarked hindex v ?_ text _) rfl
    rw [(unmarked_text q).unified]
    exact (unmarked_text q).pointerFor
  | moved q q' text =>
    simp only [Place.rows, bind_ok_iff, pure_ok_iff] at h
    obtain ⟨first, hfirst, second, hsecond, rfl⟩ := h
    obtain ⟨m, rfl, rfl⟩ := exists_of_versionPointer hfirst
    obtain ⟨n, rfl, rfl⟩ := exists_of_versionPointer hsecond
    have hm := unmarked_markedHex m
    have hn := unmarked_markedHex n
    refine chosenIn_cons_some (choose_unmarked hindex v ?_ text _) rfl
    rw [unified_pair hm hn, pointerFor_pair hm hn]
    cases v <;> rfl
  | different a b =>
    obtain rfl := pure_ok_iff.1 h
    cases v with
    | kabuto =>
      exact chosenIn_cons_some (choose_marked hindex .kabuto .kabuto a _)
        (chosenIn_cons_none (choose_marked hindex .kabuto .kuwagata b _) rfl)
    | kuwagata =>
      exact chosenIn_cons_none (choose_marked hindex .kuwagata .kabuto a _)
        (chosenIn_cons_some (choose_marked hindex .kuwagata .kuwagata b _) rfl)

/-- **One place.**  Its rows hold its texts for every version. -/
theorem chosenIn_rows (v : Version) (h : p.rows i = .ok rows) :
    chosenIn writtenColumns v.name (rows.map (List.map unified)) =
      .ok ((p.texts v).map readBack) := by
  obtain ⟨extra, body⟩ := p
  have hsplit : ∃ bodyRows, ({ body } : Place).rows i = .ok bodyRows ∧
      rows = (extra.toList.map fun e =>
        [e.1.text ++ "#" ++ Version.kuwagata.name, e.1.text, e.2, ""]) ++ bodyRows := by
    cases body with
    | common q text | different a b => exact ⟨_, rfl, (pure_ok_iff.1 h).symm⟩
    | moved q q' text =>
      simp only [Place.rows, bind_ok_iff, pure_ok_iff] at h ⊢
      obtain ⟨first, hfirst, second, hsecond, rfl⟩ := h
      exact ⟨_, ⟨first, hfirst, second, hsecond, rfl⟩, rfl⟩
  obtain ⟨bodyRows, hbody, rfl⟩ := hsplit
  rw [map_append, chosenIn_append (chosenIn_extra v extra) (chosenIn_body v hbody)]
  cases v <;> simp [Place.texts]

theorem chosenIn_flatten {rowss : List (List (List String))} (v : Version)
    (h : (places.zipIdx i).mapM (fun e => e.1.rows e.2) = .ok rowss) :
    chosenIn writtenColumns v.name (rowss.flatten.map (List.map unified)) =
      .ok ((places.flatMap (Place.texts v)).map readBack) := by
  induction places generalizing i rowss with
  | nil =>
    obtain rfl := pure_ok_iff.1 h
    rfl
  | cons p places ih =>
    rw [zipIdx_cons, mapM_ok_iff, forall₂_cons_left_iff] at h
    obtain ⟨rows, rowss, hrows, hrowss, rfl⟩ := h
    rw [flatten_cons, map_append, flatMap_cons, map_append]
    exact chosenIn_append (chosenIn_rows v hrows) (ih (mapM_ok_iff.2 hrowss))

/-! ### The written sheet -/

theorem exists_of_sheetRows (h : sheetRows places = .ok rows) :
    ∃ rowss, places.zipIdx.mapM (fun e => e.1.rows e.2) = .ok rowss ∧
      rows = header :: rowss.flatten := by
  simp only [sheetRows, bind_ok_iff, pure_ok_iff] at h
  obtain ⟨rowss, hrowss, rfl⟩ := h
  exact ⟨rowss, hrowss, rfl⟩

theorem ne_nil_of_sheetRows (h : sheetRows places = .ok rows) : ∀ row ∈ rows, row ≠ [] := by
  obtain ⟨rowss, hrowss, rfl⟩ := exists_of_sheetRows h
  refine forall_mem_cons.2 ⟨by decide, fun row hrow => ?_⟩
  rintro rfl
  exact ne_nil_of_chosenIn (chosenIn_flatten .kabuto hrowss) _ (mem_map_of_mem hrow) rfl

def sheetPath (f : Folders) (i : Nat) : String := Path.join f.sheets (sectionTitle i ++ ".csv")

theorem writeSheet_ok_iff :
    (writeSheet f places i).on w = (.ok (), w') ↔
      ∃ key rows, w.target (sheetPath f i) = .ok key ∧ sheetRows places = .ok rows ∧
        w' = { w with
          files := (w.files.insert key ByteArray.empty).modify key (· ++
            (byteOrderMark.toString ++ String.join (rows.map Csv.render)).toUTF8) } := by
  simp only [writeSheet, on_bind_ok_iff, on_create_ok_iff, on_lift,
    appendMarked, append, on_modify, Prod.mk.injEq]
  constructor
  · rintro ⟨key, _, ⟨hkey, rfl⟩, rows, _, ⟨hrows, rfl⟩, -, rfl⟩
    exact ⟨key, rows, hkey, hrows, rfl⟩
  · rintro ⟨key, rows, hkey, hrows, rfl⟩
    exact ⟨key, _, ⟨hkey, rfl⟩, rows, _, ⟨hrows, rfl⟩, trivial, rfl⟩

/-- **A written sheet is read back**, with the line ends in its cells unified. -/
theorem parse_writeSheet (hwrite : (writeSheet f places i).on w = (.ok (), w')) :
    ∃ rows s, sheetRows places = .ok rows ∧
      (readMarkedText (sheetPath f i)).on w' = (.ok s, w') ∧
      Csv.parse s = rows.map (List.map unified) := by
  obtain ⟨key, rows, hkey, hrows, rfl⟩ := writeSheet_ok_iff.1 hwrite
  refine ⟨rows, _, hrows, on_map_ok_iff.2 ⟨_, on_readText (Workspace.read_fill hkey), rfl⟩, ?_⟩
  have hmark : byteOrderMark.toString.toList = [byteOrderMark] := rfl
  rw [String.toList_append, hmark, singleton_append,
    unifyNewlines_cons_of_ne (by decide), dropByteOrderMark, if_pos rfl,
    Csv.parse_unify_render (ne_nil_of_sheetRows hrows)]

/-- **What a version finds in a written sheet**: the texts of its places. -/
theorem chosen_writeSheet (hwrite : (writeSheet f places i).on w = (.ok (), w')) :
    ∃ s, (readMarkedText (sheetPath f i)).on w' = (.ok s, w') ∧
      ∀ v : Version, chosen "Original" v.name (Csv.parse s) =
        .ok ((places.flatMap (Place.texts v)).map readBack) := by
  obtain ⟨rows, s, hrows, hread, hparse⟩ := parse_writeSheet hwrite
  refine ⟨s, hread, fun v => ?_⟩
  obtain ⟨rowss, hrowss, rfl⟩ := exists_of_sheetRows hrows
  have hheader : header.map unified = header := by decide
  rw [hparse]
  exact chosenIn_flatten v hrowss

/-! ### Joining -/

section

variable {extra : Option (Pointer × String)} {a b : Pointer × String} {as bs : Texts}

theorem textOf_ofTexts (v : Version) (a b : Pointer × String) :
    (Joined.ofTexts a b).textOf v = match v with | .kabuto => a | .kuwagata => b := by
  unfold Joined.ofTexts
  split_ifs with htext hpointer
  · cases v <;> rfl
  · cases v with
    | kabuto => rfl
    | kuwagata => exact Prod.ext rfl (not_not.1 htext)
  · cases v with
    | kabuto => rfl
    | kuwagata => exact Prod.ext (not_not.1 hpointer) (not_not.1 htext)

/-- **Joining, step by step.**  An unused text of the second version waits for the next place, or
two texts make a place. -/
inductive Merged : Option (Pointer × String) → Texts → Texts → List Place → Prop
  | nil {extra : Option (Pointer × String)} : Merged extra [] [] []
  | wait {extra : Option (Pointer × String)} {a b : Pointer × String} {as bs : Texts}
      {places : List Place} (hb : b.1.isUnused) (ha : ¬a.1.isUnused)
      (h : Merged (some b) (a :: as) bs places) : Merged extra (a :: as) (b :: bs) places
  | place {extra : Option (Pointer × String)} {a b : Pointer × String} {as bs : Texts}
      {places : List Place} (hab : b.1.isUnused → a.1.isUnused) (h : Merged none as bs places) :
      Merged extra (a :: as) (b :: bs) (⟨extra, .ofTexts a b⟩ :: places)

theorem merged_of_merge (h : merge extra as bs = .ok places) : Merged extra as bs places := by
  fun_induction merge extra as bs generalizing places with
  | case1 extra =>
    cases h
    exact .nil
  | case2 | case3 => cases h
  | case4 extra a as b bs hextra ih =>
    rw [Bool.and_eq_true, Bool.not_eq_true'] at hextra
    exact .wait hextra.1 (by simp [hextra.2]) (ih h)
  | case5 extra a as b bs hextra ih =>
    simp only [bind_ok_iff, pure_ok_iff] at h
    obtain ⟨more, hmore, rfl⟩ := h
    exact .place (fun hb => by simpa [hb] using hextra) (ih hmore)

/-- **Joining keeps the texts of the first version.** -/
theorem Merged.texts_kabuto (h : Merged extra as bs places) :
    places.flatMap (Place.texts .kabuto) = as := by
  induction h with
  | nil => rfl
  | wait _ _ _ ih => exact ih
  | place _ _ ih =>
    rw [flatMap_cons, ih, Place.texts, textOf_ofTexts]
    rfl

/-- Walking through both versions, two unused texts of the second stand in a row before a used text
of the first. -/
inductive Crowded : Texts → Texts → Prop
  | here {a b b' : Pointer × String} {as bs : Texts} (ha : ¬a.1.isUnused) (hb : b.1.isUnused)
      (hb' : b'.1.isUnused) : Crowded (a :: as) (b :: b' :: bs)
  | extra {a b : Pointer × String} {as bs : Texts} (ha : ¬a.1.isUnused) (hb : b.1.isUnused)
      (h : Crowded (a :: as) bs) : Crowded (a :: as) (b :: bs)
  | pair {a b : Pointer × String} {as bs : Texts} (hab : b.1.isUnused → a.1.isUnused)
      (h : Crowded as bs) : Crowded (a :: as) (b :: bs)

theorem Merged.texts_sublist (h : Merged extra as bs places) :
    (places.flatMap (Place.texts .kuwagata)).Sublist (extra.toList ++ bs) := by
  induction h with
  | nil => exact nil_sublist _
  | wait _ _ _ ih => exact ih.trans (sublist_append_right _ _)
  | place _ _ ih =>
    rw [flatMap_cons, Place.texts, textOf_ofTexts, append_assoc]
    exact (List.Sublist.refl _).append (ih.cons_cons _)

/-- A text that waits is unused, and it waits for a used text of the first version. -/
def Waits (extra : Option (Pointer × String)) (as : Texts) : Prop :=
  ∀ e ∈ extra, e.1.isUnused ∧ ∃ a ∈ as.head?, ¬a.1.isUnused

theorem Waits.none (as : Texts) : Waits none as := fun e he => by cases he

theorem Waits.some (hb : b.1.isUnused) (ha : ¬a.1.isUnused) : Waits (some b) (a :: as) := by
  rintro e ⟨⟩
  exact ⟨hb, a, rfl, ha⟩

theorem Crowded.of_pair (hcrowded : Crowded (a :: as) (b :: bs))
    (hab : b.1.isUnused → a.1.isUnused) : Crowded as bs := by
  cases hcrowded with
  | here ha hb _ | extra ha hb _ => exact absurd (hab hb) ha
  | pair _ h => exact h

/-- **Where no texts crowd**, joining keeps the texts of the second version. -/
theorem Merged.texts_of_not_crowded (h : Merged extra as bs places) (hwaits : Waits extra as)
    (hfree : ¬Crowded as (extra.toList ++ bs)) :
    places.flatMap (Place.texts .kuwagata) = extra.toList ++ bs := by
  induction h with
  | @nil extra =>
    cases extra with
    | none => rfl
    | some e =>
      obtain ⟨-, a, ha, -⟩ := hwaits e rfl
      cases ha
  | @wait extra a b as bs places hb ha _ ih =>
    cases extra with
    | some e => exact absurd (.here ha (hwaits e rfl).1 hb) hfree
    | none => exact ih (.some hb ha) hfree
  | @place extra a b as bs places hab _ ih =>
    have hrest : ¬Crowded as bs := by
      intro hcrowded
      cases extra with
      | none => exact hfree (.pair hab hcrowded)
      | some e =>
        obtain ⟨he, a', ha', hused⟩ := hwaits e rfl
        obtain rfl := Option.some.inj ha'
        exact hfree (.extra hused he (.pair hab hcrowded))
    rw [flatMap_cons, ih (.none as) hrest, Place.texts, textOf_ofTexts, append_assoc]
    rfl

/-- **Where texts crowd**, some are lost. -/
theorem Merged.length_texts_of_crowded (h : Merged extra as bs places) (hwaits : Waits extra as)
    (hcrowded : Crowded as (extra.toList ++ bs)) :
    (places.flatMap (Place.texts .kuwagata)).length < (extra.toList ++ bs).length := by
  induction h with
  | nil => cases hcrowded
  | @wait extra a b as bs places hb ha hmore ih =>
    cases extra with
    | some e => exact Nat.lt_succ_of_le hmore.texts_sublist.length_le
    | none => exact ih (.some hb ha) hcrowded
  | @place extra a b as bs places hab _ ih =>
    have hboth : Crowded (a :: as) (b :: bs) := by
      cases extra with
      | none => exact hcrowded
      | some e =>
        obtain ⟨he, a', ha', hused⟩ := hwaits e rfl
        obtain rfl := Option.some.inj ha'
        cases hcrowded with
        | here _ _ hb => exact absurd (hab hb) hused
        | extra _ _ h => exact h
        | pair hea _ => exact absurd (hea he) hused
    have hmore := ih (.none as) (hboth.of_pair hab)
    rw [flatMap_cons, Place.texts]
    simp only [length_append, length_cons, length_nil, Option.toList_none] at hmore ⊢
    omega

theorem texts_merge_kuwagata_iff (h : merge none as bs = .ok places) :
    places.flatMap (Place.texts .kuwagata) = bs ↔ ¬Crowded as bs := by
  constructor
  · intro heq hcrowded
    have hlt := (merged_of_merge h).length_texts_of_crowded (.none as) hcrowded
    rw [heq] at hlt
    exact Nat.lt_irrefl _ hlt
  · intro hfree
    exact (merged_of_merge h).texts_of_not_crowded (.none as) hfree

end

/-! ### Versions in a sheet -/

/-- A text as a sheet lists it. -/
def listed (e : Pointer × String) : String × String := (e.1.text, e.2)

theorem map_readBack_eq_iff {es : Texts} :
    es.map readBack = es.map listed ↔ ∀ e ∈ es, '\r' ∉ e.2.toList := by
  rw [map_inj_left]
  refine forall₂_congr fun e _ => ?_
  rw [← unified_eq_iff, Prod.mk.injEq]
  exact and_iff_right rfl

def sampleFolders : Folders := ⟨"res", "src", "txt", "built"⟩

def emptyFolders : Workspace := { folders := ["", "txt"] }

def firstTexts : Texts :=
  [(.slot 0x4000, "A"), (.slot 0x4002, "B"), (.slot 0x4004, "C"), (.slot 0x4006, "<FINAL>")]

/-- A text that is not used in the first version, a pointer that moved and a text that differs. -/
def secondTexts : Texts :=
  [(.slot 0x4000, "A"), (.unused 0, "D"), (.slot 0x4008, "B"), (.slot 0x4004, "E"),
    (.slot 0x4006, "<FINAL>")]

def joinedPlaces : List Place :=
  [⟨none, .common (.slot 0x4000) "A"⟩,
    ⟨some (.unused 0, "D"), .moved (.slot 0x4002) (.slot 0x4008) "B"⟩,
    ⟨none, .different (.slot 0x4004, "C") (.slot 0x4004, "E")⟩,
    ⟨none, .common (.slot 0x4006) "<FINAL>"⟩]

theorem merge_firstTexts : merge none firstTexts secondTexts = .ok joinedPlaces := by decide

theorem exists_on_writeSheet (places : List Place) (h : (sheetRows places).toOption.isSome) :
    ∃ w', (writeSheet sampleFolders places 0).on emptyFolders = (.ok (), w') :=
  ⟨_, writeSheet_ok_iff.2 ⟨"txt/TextSection00.csv", _, by decide +kernel, eq_ok_get h, rfl⟩⟩

/-- Two unused texts in a row before a used one: the first of them has no place. -/
def crowdedTexts : Texts :=
  [(.slot 0x4000, "A"), (.unused 0, "C"), (.unused 1, "D"), (.slot 0x4002, "B"),
    (.slot 0x4004, "<FINAL>")]

def crowdedPlaces : List Place :=
  [⟨none, .common (.slot 0x4000) "A"⟩, ⟨some (.unused 1, "D"), .common (.slot 0x4002) "B"⟩,
    ⟨none, .common (.slot 0x4004) "<FINAL>"⟩]

end Cartridge.Dialog
