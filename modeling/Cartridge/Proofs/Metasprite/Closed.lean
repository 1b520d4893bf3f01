import Cartridge.Metasprite
import Cartridge.Proofs.Tilemap.Tables

/-!
# Closed tables of metasprites

The source of a table names what its pointers lead to and then defines the metasprites one after
the other, up to the first pointer that marks the end.

Main results: `closed_iff_settled` and `of_dump`.
-/

open List

namespace Cartridge.Metasprite

open Assembly Except Text.Numeral Job Choice
open Workspace (SameBut plainPath)

variable {table i j n : Nat} {c c' : Choice} {cs done : List Choice} {lines : List Assembly.Line}
  {a : Address} {bank : Int} {image : ByteArray} {known : Option Choice} {name : String}
  {s slot t : Slot} {seen : Table Nat Nat} {stop next : Option Nat} {tables : Tables}

/-! ### Names -/

theorem notMem_number {x : Char} (hx : ∀ d < 16, d.digitChar.toUpper ≠ x) (n : Nat) :
    x ∉ (number n).toList :=
  notMem_upperHex hx 2 n

theorem shapeLabel_inj (h : shapeLabel table i = shapeLabel table j) : i = j :=
  upperHex_inj ((String.append_right_inj _).1 h)

theorem notMem_shapeLabel (table i : Nat) : 'T' ∉ (shapeLabel table i).toList := by
  have hword : 'T' ∉ "Metasprite".toList := by decide
  have hnumber : ∀ n, 'T' ∉ (number n).toList := notMem_number (by decide)
  simp only [shapeLabel, String.toList_append, mem_append, not_or]
  exact ⟨⟨hword, hnumber table⟩, hnumber i⟩

theorem mem_tableLabel (table : Nat) : 'T' ∈ (tableLabel table).toList := by
  have hword : 'T' ∈ "MetaspriteTable".toList := by decide
  rw [tableLabel, String.toList_append]
  exact mem_append_left _ hword

theorem shapeLabel_ne_tableLabel (table i : Nat) : shapeLabel table i ≠ tableLabel table :=
  fun h => notMem_shapeLabel table i (h ▸ mem_tableLabel table)

theorem shapeLabel_ne_endLabel (table i : Nat) : shapeLabel table i ≠ endLabel table := by
  intro h
  have hmem : 'T' ∈ (endLabel table).toList := by
    rw [endLabel, String.toList_append]
    exact mem_append_left _ (mem_tableLabel table)
  exact notMem_shapeLabel table i (h ▸ hmem)

theorem endLabel_ne_tableLabel (table : Nat) : endLabel table ≠ tableLabel table := by
  intro h
  have hlength := congrArg String.length h
  have hend : "End".length = 3 := by decide
  rw [endLabel, String.length_append] at hlength
  omega

/-! ### Pointers that bring a metasprite -/

/-- The pointer brings a metasprite of its own, in all versions or in each. -/
def Choice.isNew : Choice → Bool
  | .common (.shape _) => true
  | .versioned _ _ => true
  | _ => false

/-- Repeated pointers lead back to pointers that bring a metasprite. -/
def LeadsBack (cs : List Choice) : Prop :=
  ∀ j r : Nat, cs[j]? = some (common (.repeated r)) →
    r < j ∧ ∃ c : Choice, cs[r]? = some c ∧ c.isNew

theorem target_of_isNew (h : c.isNew) : target table i c = shapeLabel table i := by
  cases c with
  | versioned a b => rfl
  | common s =>
    cases s with
    | shape s => rfl
    | tableEnd => cases h
    | repeated r => cases h

theorem Choice.kinds (c : Choice) : c = .common .tableEnd ∨
    (∃ r, c = .common (.repeated r)) ∨ c.isNew := by
  cases c with
  | versioned a b => exact .inr (.inr rfl)
  | common s =>
    cases s with
    | shape s => exact .inr (.inr rfl)
    | tableEnd => exact .inl rfl
    | repeated r => exact .inr (.inl ⟨r, rfl⟩)

theorem isNew_of_merge {s : Shape} (h : merge known (.shape s) = .ok c) : c.isNew := by
  cases known with
  | none =>
    cases h
    rfl
  | some old =>
    cases old with
    | versioned a b => cases h
    | common t =>
      obtain rfl := ok.inj h
      split
      · rename_i ht
        rw [ht]
        rfl
      · rfl

theorem eq_of_merge (h : merge known s = .ok (.common t)) : s = t := by
  cases known with
  | none =>
    cases h
    rfl
  | some old =>
    cases old with
    | versioned a b => cases h
    | common t' =>
      have h := ok.inj h
      split at h
      · rename_i heq
        cases h
        exact heq.symm
      · cases h

theorem find?_of_readSlot {pointer r : Nat}
    (h : readSlot image bank stop seen pointer next = .ok (.repeated r)) :
    seen.find? pointer = some r := by
  rw [readSlot, bind_ok_iff] at h
  obtain ⟨start, -, h⟩ := h
  cases hseen : seen.find? pointer with
  | some index =>
    simp only [hseen] at h
    split at h <;> simp only [bind_ok_iff, pure_ok_iff] at h
    all_goals
      obtain ⟨-, -, -, -, h⟩ := h
      cases h
      rfl
  | none =>
    by_cases hstop : stop = some pointer
    · simp only [hseen, if_pos hstop, bind_ok_iff, pure_ok_iff] at h
      obtain ⟨-, -, -, -, h⟩ := h
      cases h
    · simp only [hseen, if_neg hstop, bind_ok_iff, pure_ok_iff] at h
      obtain ⟨_, -, _, -, _, -, h⟩ := h
      cases h

/-- The pointers of the metasprites met so far. -/
def Known (done : List Choice) (seen : Table Nat Nat) : Prop :=
  ∀ p r, seen.find? p = some r → ∃ c : Choice, done[r]? = some c ∧ c.isNew

theorem LeadsBack.concat (h : LeadsBack done) (hseen : Known done seen)
    (hc : ∀ r, c = .common (.repeated r) → ∃ p, seen.find? p = some r) :
    LeadsBack (done ++ [c]) := by
  intro j r hj
  by_cases hlt : j < done.length
  · rw [getElem?_append_left hlt] at hj
    obtain ⟨hr, c', hc', hnew⟩ := h j r hj
    exact ⟨hr, c', by rw [getElem?_append_left (hr.trans hlt), hc'], hnew⟩
  · have hlast : j = done.length := by
      have := (List.getElem?_eq_some_iff.1 hj).1
      rw [length_append, length_singleton] at this
      omega
    subst hlast
    rw [getElem?_concat_length, Option.some.injEq] at hj
    obtain ⟨p, hp⟩ := hc r hj
    obtain ⟨c', hc', hnew⟩ := hseen p r hp
    have hr := (List.getElem?_eq_some_iff.1 hc').1
    exact ⟨hr, c', by rw [getElem?_append_left hr, hc'], hnew⟩

theorem Known.concat (hseen : Known done seen) {p : Nat} (hnew : ∀ s, slot = .shape s → c.isNew) :
    Known (done ++ [c]) (remember seen p done.length slot) := by
  have hold : Known (done ++ [c]) seen := by
    intro q r hq
    obtain ⟨c', hc', hnew'⟩ := hseen q r hq
    have hr := (List.getElem?_eq_some_iff.1 hc').1
    exact ⟨c', by rw [getElem?_append_left hr, hc'], hnew'⟩
  cases slot with
  | tableEnd | repeated r => exact hold
  | shape s =>
    intro q r hq
    by_cases hqp : q = p
    · subst hqp
      rw [remember, Table.find?_insert_self, Option.some.injEq] at hq
      subst hq
      exact ⟨c, getElem?_concat_length, hnew s rfl⟩
    · rw [remember, Table.find?_insert_of_ne _ hqp] at hq
      exact hold q r hq

theorem leadsBack_readChoices {known : List Choice} {pointers : List Nat} (hdone : LeadsBack done)
    (hseen : Known done seen)
    (h : readChoices image bank stop known seen done.length pointers = .ok cs) :
    LeadsBack (done ++ cs) := by
  induction pointers generalizing done seen cs with
  | nil =>
    cases h
    rwa [append_nil]
  | cons pointer rest ih =>
    simp only [readChoices, bind_ok_iff, pure_ok_iff] at h
    obtain ⟨slot, hslot, c, hmerge, cs', hrest, rfl⟩ := h
    have hlength : (done ++ [c]).length = done.length + 1 := length_append
    rw [← singleton_append, ← append_assoc]
    rw [← hlength] at hrest
    refine ih (hdone.concat hseen fun r hr => ?_) (hseen.concat fun s hs => ?_) hrest
    · rw [hr] at hmerge
      rw [eq_of_merge hmerge] at hslot
      exact ⟨pointer, find?_of_readSlot hslot⟩
    · rw [hs] at hmerge
      exact isNew_of_merge hmerge

theorem leadsBack_readTables {known : Tables} (hknown : ∀ e ∈ known.entries, LeadsBack e.2)
    (h : readTables image known = .ok tables) :
    ∀ e ∈ tables.entries, LeadsBack e.2 := by
  rw [readTables, bind_ok_iff] at h
  obtain ⟨addresses, -, h⟩ := h
  refine foldlM_invariant (fun t : Tables => ∀ e ∈ t.entries, LeadsBack e.2) ?_ hknown h
  intro a _ before after hbefore hread e he
  simp only [readTable, bind_ok_iff] at hread
  obtain ⟨pointers, -, stop, -, hread⟩ := hread
  have hchoices : ∃ choices, readChoices image a.bank stop ((before.find? a).getD []) ∅ 0
      pointers = .ok choices ∧ before.insert a choices = after := by
    cases hold : before.find? a with
    | none =>
      simp only [hold, bind_ok_iff, pure_ok_iff] at hread
      exact hread
    | some old =>
      simp only [hold, bind_ok_iff, pure_ok_iff] at hread
      obtain ⟨-, -, hread⟩ := hread
      exact hread
  obtain ⟨choices, hchoices, rfl⟩ := hchoices
  obtain rfl | he := Table.mem_insert he
  · have hnone : LeadsBack [] := fun j r hj => by cases hj
    have hunseen : Known [] ∅ := fun p r hp => by cases hp
    exact leadsBack_readChoices hnone hunseen hchoices
  · exact hbefore e he

/-! ### The definitions -/

/-- The pointers whose metasprites are defined: those that bring one, up to the first end, and that
end. -/
def defining : List (Choice × Nat) → List (Choice × Nat)
  | [] => []
  | e :: es =>
    if e.1 = .common .tableEnd then [e]
    else if e.1.isNew then e :: defining es
    else defining es

def nameOf (table : Nat) (e : Choice × Nat) : String := target table e.2 e.1

theorem defining_sublist (es : List (Choice × Nat)) : (defining es).Sublist es := by
  induction es with
  | nil => exact .slnil
  | cons e es ih =>
    rw [defining]
    split
    · exact (nil_sublist es).cons_cons e
    · split
      · exact ih.cons_cons e
      · exact ih.cons e

/-- The pointer brings a metasprite or is an end, and no end comes before it. -/
structure Defined (cs : List Choice) (i : Nat) (c : Choice) : Prop where
  at_index : cs[i]? = some c
  kind : c = .common .tableEnd ∨ c.isNew
  before : ∀ j < i, cs[j]? ≠ some (common .tableEnd)

theorem defined_zero : Defined (c' :: cs) 0 c ↔ c = c' ∧ (c' = .common .tableEnd ∨ c'.isNew) := by
  constructor
  · intro h
    obtain rfl := Option.some.inj h.at_index
    exact ⟨rfl, h.kind⟩
  · rintro ⟨rfl, hkind⟩
    exact ⟨rfl, hkind, fun j hj => absurd hj (Nat.not_lt_zero j)⟩

theorem defined_succ : Defined (c' :: cs) (i + 1) c ↔ c' ≠ .common .tableEnd ∧ Defined cs i c := by
  constructor
  · rintro ⟨hat, hkind, hbefore⟩
    refine ⟨fun h => hbefore 0 (Nat.succ_pos i) (congrArg some h), hat, hkind, fun j hj => ?_⟩
    exact hbefore (j + 1) (Nat.succ_lt_succ hj)
  · rintro ⟨hne, hat, hkind, hbefore⟩
    refine ⟨hat, hkind, fun j hj => ?_⟩
    cases j with
    | zero => exact fun h => hne (Option.some.inj h)
    | succ j => exact hbefore j (Nat.lt_of_succ_lt_succ hj)

theorem mem_defining_iff : (c, n + i) ∈ defining (cs.zipIdx n) ↔ Defined cs i c := by
  induction cs generalizing n i with
  | nil => exact ⟨fun h => absurd h not_mem_nil, fun h => by cases h.at_index⟩
  | cons c' cs ih =>
    have hlater : (c, n) ∉ defining (cs.zipIdx (n + 1)) := fun hmem => by
      have hle := le_snd_of_mem_zipIdx ((defining_sublist _).subset hmem)
      exact Nat.not_succ_le_self n hle
    rw [zipIdx_cons, defining]
    cases i with
    | zero =>
      rw [defined_zero]
      by_cases hend : c' = .common .tableEnd
      · simp [hend]
      · by_cases hnew : c'.isNew <;> simp [hend, hnew, hlater]
    | succ i =>
      have hne : n + 1 + i ≠ n := by omega
      rw [defined_succ, ← ih (n := n + 1), show n + (i + 1) = n + 1 + i by omega]
      by_cases hend : c' = .common .tableEnd
      · simp [hend, hne]
      · by_cases hnew : c'.isNew <;> simp [hend, hnew, hne]

@[simp] theorem labels_shapeLines (s : Shape) : labels (shapeLines s) = [] := by
  simp [labels, shapeLines]

@[simp] theorem words_shapeLines (s : Shape) : words (shapeLines s) = [] := by
  simp [words, shapeLines]

theorem of_versionLines {v : Version} (h : versionLines v s = .ok lines) :
    labels lines = [] ∧ words lines = [] := by
  cases s with
  | shape s =>
    obtain rfl := ok.inj h
    constructor
    · rw [← singleton_append, labels_append, labels_append, labels_shapeLines]
      rfl
    · rw [← singleton_append, words_append, words_append, words_shapeLines]
      rfl
  | tableEnd | repeated r => cases h

/-- **The definitions** give the defined pointers their names, in order, and list nothing. -/
theorem of_definitions (h : definitions table n cs = .ok lines) :
    labels lines = (defining (cs.zipIdx n)).map (nameOf table) ∧ words lines = [] := by
  induction cs generalizing n lines with
  | nil =>
    cases h
    exact ⟨rfl, rfl⟩
  | cons c cs ih =>
    cases c with
    | common s =>
      cases s with
      | tableEnd =>
        cases h
        exact ⟨rfl, rfl⟩
      | repeated r => exact ih h
      | shape s =>
        simp only [definitions, bind_ok_iff, pure_ok_iff] at h
        obtain ⟨rest, hrest, rfl⟩ := h
        obtain ⟨hlabels, hwords⟩ := ih hrest
        rw [← singleton_append]
        simp only [labels_append, words_append, labels_shapeLines,
          words_shapeLines, hlabels, hwords]
        exact ⟨rfl, rfl⟩
    | versioned a b =>
      simp only [definitions, bind_ok_iff, pure_ok_iff] at h
      obtain ⟨first, hfirst, second, hsecond, rest, hrest, rfl⟩ := h
      obtain ⟨hlabels, hwords⟩ := ih hrest
      obtain ⟨hlabels₁, hwords₁⟩ := of_versionLines hfirst
      obtain ⟨hlabels₂, hwords₂⟩ := of_versionLines hsecond
      rw [← singleton_append]
      simp only [labels_append, words_append, hlabels₁, hlabels₂, hwords₁, hwords₂, hlabels, hwords]
      exact ⟨rfl, rfl⟩

/-! ### Tables -/

/-- Every name that is listed is defined exactly once. -/
def Closed (lines : List Line) : Prop := ∀ name ∈ words lines, (labels lines).count name = 1

/-- What is listed is defined in the order in which it is listed first. -/
def InTableOrder (lines : List Line) : Prop :=
  ((labels lines).filter (· ∈ words lines)).Pairwise fun a b =>
    (words lines).idxOf a < (words lines).idxOf b

/-- No pointer behind an end brings a metasprite. -/
def Settled (cs : List Choice) : Prop :=
  cs.Pairwise fun a b => a = .common .tableEnd → b.isNew = false

theorem of_tableLines {program : String} (h : tableLines program table a cs = .ok lines) :
    words lines = cs.zipIdx.map (nameOf table) ∧
      labels lines = tableLabel table :: (defining cs.zipIdx).map (nameOf table) := by
  simp only [tableLines, bind_ok_iff, pure_ok_iff] at h
  obtain ⟨rest, hrest, rfl⟩ := h
  obtain ⟨hlabels, hwords⟩ := of_definitions hrest
  have hpointers : ∀ es : List (Choice × Nat),
      words (es.map fun e => .word (target table e.2 e.1)) = es.map (nameOf table) ∧
        labels (es.map fun e => .word (target table e.2 e.1)) = [] := by
    intro es
    constructor
    · rw [words, filterMap_map]
      exact congrFun filterMap_eq_map es
    · rw [labels, filterMap_map]
      exact filterMap_eq_nil_iff.2 fun _ _ => rfl
  simp only [labels_append, words_append, hlabels, hwords, (hpointers _).1,
    (hpointers _).2, append_nil]
  exact ⟨rfl, rfl⟩

theorem mem_zipIdx_map_iff : name ∈ cs.zipIdx.map (nameOf table) ↔
    ∃ i c, cs[i]? = some c ∧ target table i c = name := by
  rw [mem_map]
  constructor
  · rintro ⟨⟨c, i⟩, hmem, hname⟩
    exact ⟨i, c, mem_zipIdx_iff_getElem?.1 hmem, hname⟩
  · rintro ⟨i, c, hc, hname⟩
    exact ⟨(c, i), mem_zipIdx_iff_getElem?.2 hc, hname⟩

theorem mem_defining_map_iff : name ∈ (defining cs.zipIdx).map (nameOf table) ↔
    ∃ i c, Defined cs i c ∧ target table i c = name := by
  rw [mem_map]
  constructor
  · rintro ⟨⟨c, i⟩, hmem, hname⟩
    rw [← Nat.zero_add i, mem_defining_iff] at hmem
    exact ⟨i, c, hmem, hname⟩
  · rintro ⟨i, c, hc, hname⟩
    refine ⟨(c, i), ?_, hname⟩
    rw [← Nat.zero_add i, mem_defining_iff]
    exact hc

theorem Defined.target_ne (h : Defined cs i c) (hback : LeadsBack cs) (hj : j < i)
    (hc' : cs[j]? = some c') : target table j c' ≠ target table i c := by
  have hend : c' ≠ .common .tableEnd := by
    rintro rfl
    exact h.before j hj hc'
  -- the earlier pointer names a metasprite at or before its own place
  have hearlier : ∃ r ≤ j, target table j c' = shapeLabel table r := by
    obtain rfl | ⟨r, rfl⟩ | hnew := kinds c'
    · exact absurd rfl hend
    · exact ⟨r, (hback j r hc').1.le, rfl⟩
    · exact ⟨j, le_rfl, target_of_isNew hnew⟩
  obtain ⟨r, hr, hname⟩ := hearlier
  rw [hname]
  obtain rfl | hnew := h.kind
  · exact shapeLabel_ne_endLabel table r
  · rw [target_of_isNew hnew]
    intro heq
    have hinj := shapeLabel_inj heq
    omega

theorem Defined.idxOf (h : Defined cs i c) (hback : LeadsBack cs) :
    (cs.zipIdx.map (nameOf table)).idxOf (target table i c) = i := by
  have hi : i < (cs.zipIdx.map (nameOf table)).length := by
    rw [length_map, length_zipIdx]
    exact (List.getElem?_eq_some_iff.1 h.at_index).1
  have hname : ∀ (j : Nat) (hj : j < cs.length),
      (cs.zipIdx.map (nameOf table))[j]? = some (target table j cs[j]) := by
    intro j hj
    simp [nameOf, hj]
  obtain ⟨hlt, rfl⟩ := List.getElem?_eq_some_iff.1 h.at_index
  rw [List.idxOf, findIdx_eq hi]
  constructor
  · rw [beq_iff_eq]
    exact (List.getElem?_eq_some_iff.1 (hname i hlt)).2
  · intro j hj
    have hjlt : j < cs.length := hj.trans hlt
    rw [(List.getElem?_eq_some_iff.1 (hname j hjlt)).2, beq_eq_false_iff_ne]
    exact h.target_ne hback hj (getElem?_eq_getElem hjlt)

theorem tableLabel_notMem (cs : List Choice) : tableLabel table ∉ cs.zipIdx.map (nameOf table) := by
  rw [mem_zipIdx_map_iff]
  rintro ⟨i, c, -, hname⟩
  obtain rfl | ⟨r, rfl⟩ | hnew := kinds c
  · exact endLabel_ne_tableLabel table hname
  · exact shapeLabel_ne_tableLabel table r hname
  · exact shapeLabel_ne_tableLabel table i (target_of_isNew hnew ▸ hname)

theorem filter_labels {program : String} (h : tableLines program table a cs = .ok lines) :
    (labels lines).filter (· ∈ words lines) = (defining cs.zipIdx).map (nameOf table) := by
  obtain ⟨hwords, hlabels⟩ := of_tableLines h
  rw [hwords, hlabels, filter_cons_of_neg, filter_eq_self]
  · intro name hmem
    exact decide_eq_true (map_subset _ (defining_sublist _).subset hmem)
  · rw [decide_eq_true_eq]
    exact tableLabel_notMem cs

theorem inTableOrder_of_tableLines {program : String} (hback : LeadsBack cs)
    (h : tableLines program table a cs = .ok lines) : InTableOrder lines := by
  have hindex : ∀ e ∈ defining cs.zipIdx, (words lines).idxOf (nameOf table e) = e.2 := by
    rintro ⟨c, i⟩ hmem
    rw [← Nat.zero_add i, mem_defining_iff] at hmem
    rw [(of_tableLines h).1]
    exact hmem.idxOf hback
  have hincreasing : (defining cs.zipIdx).Pairwise (fun e e' => e.2 < e'.2) := by
    refine List.Pairwise.sublist (defining_sublist _) ?_
    rw [← pairwise_map (f := Prod.snd), zipIdx_map_snd]
    exact pairwise_lt_range'
  rw [InTableOrder, filter_labels h, pairwise_map]
  refine hincreasing.imp_of_mem fun {e e'} he he' hlt => ?_
  rwa [hindex e he, hindex e' he']

theorem count_labels_eq_one_iff {program : String} (hback : LeadsBack cs)
    (h : tableLines program table a cs = .ok lines) (hname : name ∈ words lines) :
    (labels lines).count name = 1 ↔ name ∈ (defining cs.zipIdx).map (nameOf table) := by
  have hnodup : ((labels lines).filter (· ∈ words lines)).Nodup :=
    (inTableOrder_of_tableLines hback h).imp fun hlt heq => (heq ▸ hlt).false
  rw [← count_filter (p := (· ∈ words lines)) (decide_eq_true hname), hnodup.count, filter_labels h]
  split <;> simp_all

theorem settled_iff : Settled cs ↔ ∀ i j : Nat, i < j → cs[i]? = some (common .tableEnd) →
    ∀ c : Choice, cs[j]? = some c → c.isNew = false := by
  rw [Settled, pairwise_iff_getElem]
  constructor
  · intro h i j hij hi c hj
    obtain ⟨hilt, hi⟩ := List.getElem?_eq_some_iff.1 hi
    obtain ⟨hjlt, rfl⟩ := List.getElem?_eq_some_iff.1 hj
    exact h i j hilt hjlt hij hi
  · intro h i j hi hj hij hend
    exact h i j hij (List.getElem?_eq_some_iff.2 ⟨hi, hend⟩) _ (getElem?_eq_getElem hj)

theorem Settled.defined (h : Settled cs) (hi : cs[i]? = some c) (hnew : c.isNew) :
    Defined cs i c where
  at_index := hi
  kind := .inr hnew
  before j hj hend := by
    have hold := settled_iff.1 h j i hj hend c hi
    rw [hnew] at hold
    cases hold

theorem exists_defined_end (hi : cs[i]? = some (common .tableEnd)) :
    ∃ j, Defined cs j (.common .tableEnd) := by
  induction i using Nat.strongRecOn with
  | _ i ih =>
    by_cases hfirst : ∃ j < i, cs[j]? = some (common .tableEnd)
    · obtain ⟨j, hj, hend⟩ := hfirst
      exact ih j hj hend
    · exact ⟨i, hi, .inl rfl, fun j hj hend => hfirst ⟨j, hj, hend⟩⟩

theorem Settled.exists_defined (h : Settled cs) (hback : LeadsBack cs) (hi : cs[i]? = some c) :
    ∃ j c', Defined cs j c' ∧ target table j c' = target table i c := by
  obtain rfl | ⟨r, rfl⟩ | hnew := kinds c
  · obtain ⟨j, hj⟩ := exists_defined_end hi
    exact ⟨j, _, hj, rfl⟩
  · obtain ⟨-, c', hc', hnew⟩ := hback i r hi
    exact ⟨r, c', h.defined hc' hnew, target_of_isNew hnew⟩
  · exact ⟨i, c, h.defined hi hnew, rfl⟩

theorem Defined.of_target (h : Defined cs j c') (hnew : c.isNew)
    (hname : target table j c' = target table i c) : j = i := by
  rw [target_of_isNew hnew] at hname
  obtain rfl | hnew' := h.kind
  · exact absurd hname.symm (shapeLabel_ne_endLabel table i)
  · rw [target_of_isNew hnew'] at hname
    exact shapeLabel_inj hname

/-- **Closed tables**: every name is defined once if no metasprite comes behind an end, and only
then. -/
theorem closed_iff_settled {program : String} (hback : LeadsBack cs)
    (h : tableLines program table a cs = .ok lines) : Closed lines ↔ Settled cs := by
  have hlisted : ∀ i c, cs[i]? = some c → target table i c ∈ words lines := by
    intro i c hi
    rw [(of_tableLines h).1]
    exact mem_zipIdx_map_iff.2 ⟨i, c, hi, rfl⟩
  constructor
  · intro hclosed
    rw [settled_iff]
    intro i j hij hend c hj
    by_contra hnew
    rw [Bool.not_eq_false] at hnew
    have hdefined := (count_labels_eq_one_iff hback h (hlisted j c hj)).1 (hclosed _ (hlisted j c hj))
    obtain ⟨k, c', hk, hname⟩ := mem_defining_map_iff.1 hdefined
    obtain rfl := hk.of_target hnew hname
    exact hk.before i hij hend
  · intro hsettled name hmem
    rw [count_labels_eq_one_iff hback h hmem, mem_defining_map_iff]
    rw [(of_tableLines h).1, mem_zipIdx_map_iff] at hmem
    obtain ⟨i, c, hi, rfl⟩ := hmem
    exact hsettled.exists_defined hback hi

/-! ### Files -/

variable {w w' : Workspace} {program folder : String}

theorem fileName_table (n : Nat) : Workspace.FileName ("metasprites" ++ number n ++ ".asm") := by
  refine .append ?_ (by decide)
  rw [String.toList_append, mem_append, not_or]
  exact ⟨by decide, notMem_number (by decide) n⟩

theorem tablePath_inj {m : Nat}
    (h : plainPath (tablePath folder m) = plainPath (tablePath folder n)) : m = n := by
  have hname := Workspace.plainPath_join_inj (fileName_table m) (fileName_table n) h
  rw [String.append_left_inj, String.append_right_inj] at hname
  exact upperHex_inj hname

/-- The file of a table holds its source. -/
def Holds (program folder : String) (w : Workspace) (i : Nat) (e : Address × List Choice) : Prop :=
  ∃ lines, tableLines program i e.1 e.2 = .ok lines ∧
    w.read (tablePath folder i) = .ok (render lines).toUTF8

/-- The tables of both images, those of the first one read first. -/
def Read (w : Workspace) (tables : Tables) : Prop :=
  ∃ image₁ image₂ known, w.read Version.kabuto.image = .ok image₁ ∧
    w.read Version.kuwagata.image = .ok image₂ ∧ readTables image₁ ∅ = .ok known ∧
    readTables image₂ known = .ok tables

theorem Read.leadsBack (h : Read w tables) : ∀ e ∈ tables.entries, LeadsBack e.2 := by
  obtain ⟨image₁, image₂, known, -, -, hknown, htables⟩ := h
  have hnone : ∀ e ∈ (∅ : Tables).entries, LeadsBack e.2 := fun e he => absurd he not_mem_nil
  exact leadsBack_readTables (leadsBack_readTables hnone hknown) htables

/-- **What a dump of metasprites leaves**: the source of every table. -/
theorem of_dump (h : (dump program folder).on w = (.ok (), w')) :
    ∃ tables, Read w tables ∧ ∀ i e, tables.entries[i]? = some e → Holds program folder w' i e := by
  simp only [dump, Version.all, foldlM_cons, foldlM_nil, on_bind_ok_iff,
    on_readFile_ok_iff, on_lift, on_pure, Prod.mk.injEq, ok.injEq] at h
  obtain ⟨tables, _, ⟨known, _, ⟨image₁, _, ⟨hread₁, rfl⟩, hknown, rfl⟩, _, _,
    ⟨image₂, _, ⟨hread₂, rfl⟩, htables, rfl⟩, rfl, rfl⟩, _, v, -, _, _, hloop, -, rfl⟩ := h
  refine ⟨_, ⟨image₁, image₂, known, hread₁, hread₂, hknown, htables⟩, fun i e hi => ?_⟩
  -- no later table is written to the file of a table
  have hstep : ∀ {w w'} {i : Nat} {e : Address × List Choice},
      (write (tablePath folder i) (tableLines program i e.1 e.2)).on w = (.ok (), w') →
        SameBut (· = plainPath (tablePath folder i)) w w' ∧ Holds program folder w' i e :=
    fun h => of_write h
  obtain ⟨-, hholds⟩ := of_forIn_zipIdx (Q := Holds program folder) tablePath_inj hstep
    (fun hsame hpath h => h.imp fun _ h => ⟨h.1, hsame.read h.2 hpath⟩) hloop
  have hholds := hholds i e hi
  rwa [Nat.zero_add] at hholds

/-- **Dumped tables of metasprites**: the definitions come in the order of the table, and every name
is defined exactly once where no metasprite comes behind an end, and only there. -/
theorem dump_closed_iff_settled (h : (dump program folder).on w = (.ok (), w')) :
    ∃ tables, Read w tables ∧ ∀ i e, tables.entries[i]? = some e →
      ∃ lines, tableLines program i e.1 e.2 = .ok lines ∧
        w'.read (tablePath folder i) = .ok (Assembly.render lines).toUTF8 ∧
        InTableOrder lines ∧ (Closed lines ↔ Settled e.2) := by
  obtain ⟨tables, hread, hholds⟩ := of_dump h
  refine ⟨tables, hread, fun i e hi => ?_⟩
  obtain ⟨lines, hlines, hfile⟩ := hholds i e hi
  have hback := hread.leadsBack e (List.mem_of_getElem? hi)
  exact ⟨lines, hlines, hfile, inTableOrder_of_tableLines hback hlines,
    closed_iff_settled hback hlines⟩

/-! ### Samples -/

def sampleImage : ByteArray :=
  let tables := [8, 8, 9, 9].flatMap (Bytes.wordBytes ·) ++ [0, 0] ++
    [18, 19, 18, 18].flatMap (Bytes.wordBytes ·) ++ [0, 0]
  ⟨(tables ++ List.replicate (bankList - tables.length) 0 ++ List.replicate tableCount 1 ++
    Bytes.wordBytes 10 ++ List.replicate (2 * (tableCount - 1)) 0).toArray⟩

def sampleWorkspace : Workspace where
  files := .ofList [("baserom_kabuto.gbc", sampleImage), ("baserom_kuwagata.gbc", sampleImage)]
  folders := ["", "v", "v/kabuto", "v/kuwagata"]

def sampleTables : Tables :=
  ⟨[(⟨1, 10⟩, [.common .tableEnd, .common (.shape ⟨0, []⟩), .common .tableEnd, .common .tableEnd]),
    (⟨1, 0⟩, [.common (.shape ⟨0, []⟩), .common (.repeated 0), .common .tableEnd,
      .common .tableEnd])]⟩

theorem readTables_sample :
    (readTables sampleImage ∅ >>= readTables sampleImage) = .ok sampleTables := by
  decide +kernel

theorem read_sample (v : Version) : sampleWorkspace.read v.image = .ok sampleImage := by
  rw [Workspace.read_ok_iff]
  cases v with
  | kabuto => exact ⟨"baserom_kabuto.gbc", by decide +kernel, rfl⟩
  | kuwagata => exact ⟨"baserom_kuwagata.gbc", by decide +kernel, rfl⟩

-- the tables that were read are put in, so that the images are not evaluated again
theorem on_dump_sample : (dump "dump" "v").on sampleWorkspace =
    (.ok (), ((dump "dump" "v").on sampleWorkspace).2) := by
  obtain ⟨known, hknown, htables⟩ := bind_ok_iff.1 readTables_sample
  have hread : (Version.all.foldlM (fun known (v : Version) => do
      let image ← readFile v.image
      lift (readTables image known)) ∅).on sampleWorkspace =
        (.ok sampleTables, sampleWorkspace) := by
    simp only [Version.all, foldlM_cons, foldlM_nil, on_bind_ok_iff, on_readFile_ok_iff, on_lift,
      on_pure, Prod.mk.injEq, ok.injEq]
    exact ⟨known, _, ⟨_, _, ⟨read_sample .kabuto, rfl⟩, hknown, rfl⟩, sampleTables, _,
      ⟨_, _, ⟨read_sample .kuwagata, rfl⟩, htables, rfl⟩, rfl, rfl⟩
  refine on_eq_of_fst (congrArg Prod.fst (on_bind_ok_iff.2
    ⟨sampleTables, sampleWorkspace, hread, on_eq_of_fst ?_⟩))
  decide +kernel

theorem eq_sampleTables (h : Read sampleWorkspace tables) : tables = sampleTables := by
  obtain ⟨image₁, image₂, known, hread₁, hread₂, hknown, htables⟩ := h
  rw [read_sample, ok.injEq] at hread₁ hread₂
  subst hread₁ hread₂
  obtain ⟨known', hknown', htables'⟩ := bind_ok_iff.1 readTables_sample
  rw [hknown, ok.injEq] at hknown'
  rw [← hknown', htables, ok.injEq] at htables'
  exact htables'

theorem dump_closed_iff_settled_sample :
    ∃ w' lines, (dump "dump" "v").on sampleWorkspace = (.ok (), w') ∧
      w'.read (tablePath "v" 1) = .ok (Assembly.render lines).toUTF8 ∧
      shapeLabel 1 0 ∈ words lines ∧ InTableOrder lines ∧ Closed lines := by
  obtain ⟨tables, hread, hall⟩ := dump_closed_iff_settled on_dump_sample
  obtain rfl := eq_sampleTables hread
  obtain ⟨lines, hlines, hfile, horder, hclosed⟩ := hall 1 _ rfl
  refine ⟨_, lines, on_dump_sample, hfile, ?_, horder, hclosed.2 ?_⟩
  · rw [(of_tableLines hlines).1]
    exact List.mem_cons_self
  · rw [Settled]
    decide

/-- A metasprite behind an end is listed but not defined. -/
theorem exists_undefined_metasprite :
    ∃ w' lines, (dump "dump" "v").on sampleWorkspace = (.ok (), w') ∧
      w'.read (tablePath "v" 0) = .ok (Assembly.render lines).toUTF8 ∧
      "Metasprite0001" ∈ words lines ∧ "Metasprite0001" ∉ labels lines := by
  obtain ⟨tables, hread, hall⟩ := of_dump on_dump_sample
  obtain rfl := eq_sampleTables hread
  obtain ⟨lines, hlines, hfile⟩ := hall 0 _ rfl
  refine ⟨_, lines, on_dump_sample, hfile, ?_⟩
  obtain ⟨hwords, hlabels⟩ := of_tableLines hlines
  rw [hwords, hlabels]
  exact ⟨by decide +kernel, by decide +kernel⟩

end Cartridge.Metasprite
