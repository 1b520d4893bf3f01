import Cartridge.Proofs.PointerList.Fields
import Cartridge.Proofs.PointerList.Slots
import Cartridge.Proofs.Text.Lines

/-!
# Columns told apart by what they say together

Two versions of an entry are compared by their columns put together, without a mark between them.
Different columns may say the same together, if one character of them stands for several codes, or
one text for a letter and a kanji.

Main results: `readFields_inj` and `readEntry_inj`.
-/

open List

namespace Cartridge.PointerList

open Text.Numeral
open Lettering (Code)
open String (join_cons toList_append toList_inj)

variable {f : Faces} {spec : FieldSpec} {s : Spec} {image image' : ByteArray}
  {pos pos' next n : Nat} {ns ps sizes : List Nat} {t t' u u' : List Char} {text lead : String}
  {specs : List FieldSpec} {absent : Option String} {a b : List String} {slot slot' : Slot.Stored}

/-! ### Weights -/

/-- How many codes a text stands for: an escape is one, a kanji has two. -/
def Faces.weigh (f : Faces) : List Char → Nat
  | '\\' :: _ :: _ :: _ :: rest => f.weigh rest + 1
  | c :: rest => f.weigh rest + if f.kanji.values.contains c.toString then 2 else 1
  | [] => 0

theorem weigh_cons (f : Faces) {c : Char} (hc : c ≠ '\\') (t : List Char) :
    f.weigh (c :: t) = f.weigh t + if f.kanji.values.contains c.toString then 2 else 1 := by
  rw [Faces.weigh]
  intro _ _ _ _ h
  exact absurd h hc

theorem weigh_pos (f : Faces) (ht : t ≠ []) : 0 < f.weigh t := by
  unfold Faces.weigh
  split
  · omega
  · split_ifs <;> omega
  · exact absurd rfl ht

theorem weigh_append_lt (f : Faces) (ht : t ≠ []) (hplain : '\\' ∉ t) (u : List Char) :
    f.weigh u < f.weigh (t ++ u) := by
  induction t with
  | nil => exact absurd rfl ht
  | cons c t ih =>
    rw [mem_cons, not_or] at hplain
    have hle : f.weigh u ≤ f.weigh (t ++ u) := by
      cases t with
      | nil => exact Nat.le_refl _
      | cons d t => exact (ih (cons_ne_nil _ _) hplain.2).le
    rw [cons_append, weigh_cons f (Ne.symm hplain.1)]
    split_ifs <;> omega

/-- A text that stands for `n` codes, whatever follows. -/
def Faces.Weighs (f : Faces) (t : List Char) (n : Nat) : Prop :=
  ∀ u, f.weigh (t ++ u) = f.weigh u + n

/-- **Texts of equal weight that begin equal texts are equal.** -/
theorem eq_of_weigh (ht : f.Weighs t n) (ht' : f.Weighs t' n) (h : t ++ u = t' ++ u') :
    t = t' ∧ u = u' := by
  -- The longer of the two goes on with a text that weighs nothing.
  have hnil : ∀ {t d : List Char}, f.Weighs t n → f.Weighs (t ++ d) n → d = [] := by
    intro t d ht htd
    by_contra hd
    have hboth := htd []
    rw [append_assoc, ht, append_nil] at hboth
    have hpos := weigh_pos f hd
    simp only [Faces.weigh] at hboth
    omega
  obtain ⟨d, rfl, rfl⟩ | ⟨d, rfl, rfl⟩ := append_eq_append_iff.1 h
  · obtain rfl := hnil ht ht'
    simp
  · obtain rfl := hnil ht' ht
    simp

theorem weighs_face (hf : f.Legible) (hns : ∀ n ∈ ns, n < 0x100) {u : Code}
    (hu : u ∈ spec.units ns) (hface : spec.face? f u = some t) :
    f.Weighs t u.numbers.length := by
  intro rest
  obtain ⟨n, hn, rfl, rfl⟩ | ⟨n, text, htext, rfl, rfl⟩ | ⟨n, text, htext, rfl, rfl⟩ :=
    face_cases hu hface
  · rw [escaped_eq (hns n hn)]
    rfl
  · have hmem := Table.mem_of_find? htext
    obtain ⟨c, rfl, hplain⟩ := hf.single _ (mem_append_left _ hmem)
    have hkanji : c.toString ∉ f.kanji.values := by
      intro hvalue
      obtain ⟨e, he, heq⟩ := mem_map.1 hvalue
      exact hf.apart _ hmem e he heq.symm
    rw [show c.toString.toList ++ rest = c :: rest by simp, weigh_cons f hplain,
      if_neg (by simpa using hkanji)]
    rfl
  · have hmem := Table.mem_of_find? htext
    obtain ⟨c, rfl, hplain⟩ := hf.single _ (mem_append_right _ hmem)
    have hkanji : c.toString ∈ f.kanji.values := mem_map.2 ⟨_, hmem, rfl⟩
    rw [show c.toString.toList ++ rest = c :: rest by simp, weigh_cons f hplain,
      if_pos (by simpa using hkanji)]
    rfl

theorem Faces.Weighs.append {m : Nat} (h : f.Weighs t n) (h' : f.Weighs t' m) :
    f.Weighs (t ++ t') (n + m) := by
  intro u
  rw [append_assoc, h, h', Nat.add_assoc, Nat.add_comm m]

theorem weighs_flatten {us : List Code} {parts : List (List Char)} (hf : f.Legible)
    (hns : ∀ n ∈ ns, n < 0x100) (hus : us ⊆ spec.units ns)
    (hparts : List.Forall₂ (fun u p => spec.face? f u = some p) us parts) :
    f.Weighs parts.flatten (us.flatMap Code.numbers).length := by
  induction hparts with
  | nil => exact fun _ => rfl
  | cons hface _ ih =>
    obtain ⟨hu, hus⟩ := cons_subset.1 hus
    rw [flatMap_cons, length_append]
    exact (weighs_face hf hns hu hface).append (ih hus)

theorem weighs_showField (hf : f.Legible) (hns : ∀ n ∈ ns, n < 0x100)
    (hshow : showField f spec ns = .ok text) : f.Weighs text.toList ns.length := by
  obtain ⟨parts, hparts, hflat⟩ := showField_ok_iff.1 hshow
  have hweighs := weighs_flatten hf hns (List.Subset.refl _) hparts
  rwa [hflat, spec.numbers_units, length_map] at hweighs

/-! ### Fields of an entry -/

theorem readFields_cons_ok_iff :
    readFields image f absent pos (spec :: specs) = .ok a ↔
      ∃ ns next text more, readCodes image spec pos = .ok (ns, next) ∧
        showField f spec ns = .ok text ∧ a = text :: more ∧
        if absent = some text then more = []
        else readFields image f absent next specs = .ok more := by
  simp only [readFields, bind_ok_iff, Prod.exists]
  refine exists_congr fun ns => exists_congr fun next => ?_
  constructor
  · rintro ⟨hread, text, hshow, hrest⟩
    split_ifs at hrest with habsent
    · exact ⟨text, [], hread, hshow, (pure_ok_iff.1 hrest).symm, by rw [if_pos habsent]⟩
    · obtain ⟨more, hmore, hcons⟩ := bind_ok_iff.1 hrest
      exact ⟨text, more, hread, hshow, (pure_ok_iff.1 hcons).symm, by rwa [if_neg habsent]⟩
  · rintro ⟨text, more, hread, hshow, rfl, hrest⟩
    refine ⟨hread, text, hshow, ?_⟩
    split_ifs at hrest ⊢ with habsent
    · rw [hrest, pure_ok_iff]
    · exact bind_ok_iff.2 ⟨more, hrest, pure_ok_iff.2 rfl⟩

theorem eq_singleton_of_readFields (h : readFields image f absent pos [spec] = .ok a) :
    ∃ text, a = [text] := by
  obtain ⟨_, _, text, more, -, -, rfl, hmore⟩ := readFields_cons_ok_iff.1 h
  refine ⟨text, ?_⟩
  split_ifs at hmore with habsent
  · rw [hmore]
  · rw [← Except.ok.inj hmore]

theorem length_of_readCodes (hsize : spec.size = some n)
    (hread : readCodes image spec pos = .ok (ns, next)) : ns.length = n := by
  obtain ⟨bytes, -, -, ⟨hlength, rfl⟩ | ⟨hnone, -⟩⟩ := readCodes_cases hread
  · rw [length_map]
    exact Option.some.inj (hlength.symm.trans hsize)
  · cases hsize.symm.trans hnone

/-- **Fields are told apart by what they say together** if all but the last have a fixed size. -/
theorem readFields_inj (hf : f.Legible) (hfixed : ∀ spec ∈ specs.dropLast, spec.size.isSome)
    (ha : readFields image f absent pos specs = .ok a)
    (hb : readFields image' f absent pos' specs = .ok b)
    (hjoin : String.join a = String.join b) : a = b := by
  induction specs generalizing pos pos' a b with
  | nil =>
    cases ha
    cases hb
    rfl
  | cons spec specs ih =>
    obtain ⟨ns, next, text, more, hread, hshow, rfl, hmore⟩ := readFields_cons_ok_iff.1 ha
    obtain ⟨ns', next', text', more', hread', hshow', rfl, hmore'⟩ :=
      readFields_cons_ok_iff.1 hb
    cases specs with
    | nil =>
      -- The last field is all that is left.
      obtain ⟨_, hsingle⟩ := eq_singleton_of_readFields ha
      obtain ⟨_, hsingle'⟩ := eq_singleton_of_readFields hb
      rw [(List.cons.inj hsingle).2, (List.cons.inj hsingle').2] at hjoin ⊢
      simpa using hjoin
    | cons spec' specs =>
      rw [dropLast_cons_cons, forall_mem_cons] at hfixed
      obtain ⟨n, hsize⟩ := Option.isSome_iff_exists.1 hfixed.1
      have hweighs := weighs_showField hf (lt_of_readCodes hread) hshow
      have hweighs' := weighs_showField hf (lt_of_readCodes hread') hshow'
      rw [length_of_readCodes hsize hread] at hweighs
      rw [length_of_readCodes hsize hread'] at hweighs'
      have hchars := congrArg String.toList hjoin
      rw [join_cons, join_cons, toList_append, toList_append] at hchars
      obtain ⟨htext, hrest⟩ := eq_of_weigh hweighs hweighs' hchars
      obtain rfl := toList_inj.1 htext
      split_ifs at hmore hmore' with habsent
      · rw [hmore, hmore']
      · rw [ih hfixed.2 hmore hmore' (toList_inj.1 hrest)]

/-- Numbers that are there. -/
def FieldSpec.HasNumbers (spec : FieldSpec) : Prop := spec.numeric = true ∧ ∃ n ∈ spec.size, 0 < n

instance : DecidablePred FieldSpec.HasNumbers := fun spec =>
  inferInstanceAs (Decidable (spec.numeric = true ∧ ∃ n ∈ spec.size, 0 < n))

theorem mem_of_hasNumbers (hspec : spec.HasNumbers)
    (hread : readCodes image spec pos = .ok (ns, next)) (hshow : showField f spec ns = .ok text) :
    '\\' ∈ text.toList := by
  obtain ⟨hnumeric, n, hsize, hpos⟩ := hspec
  have hlength := length_of_readCodes hsize hread
  obtain ⟨m, ns, rfl⟩ := exists_cons_of_length_pos (hlength ▸ hpos)
  rw [showField, if_pos hnumeric] at hshow
  obtain rfl := Except.ok.inj hshow
  simp [escaped]

/-- Whether every entry has numbers: in its first field, or in any if all fields are always
there. -/
def AlwaysNumbers (absent : Option String) (specs : List FieldSpec) : Prop :=
  (∃ spec ∈ specs.head?, spec.HasNumbers) ∨ absent = none ∧ ∃ spec ∈ specs, spec.HasNumbers

instance (absent : Option String) (specs : List FieldSpec) :
    Decidable (AlwaysNumbers absent specs) :=
  inferInstanceAs (Decidable (_ ∨ _ ∧ ∃ spec ∈ specs, spec.HasNumbers))

theorem mem_join_of_readFields (hspecs : AlwaysNumbers absent specs)
    (h : readFields image f absent pos specs = .ok a) : '\\' ∈ (String.join a).toList := by
  induction specs generalizing pos a with
  | nil => simp [AlwaysNumbers] at hspecs
  | cons spec specs ih =>
    obtain ⟨ns, next, text, more, hread, hshow, rfl, hmore⟩ := readFields_cons_ok_iff.1 h
    rw [join_cons, toList_append, mem_append]
    by_cases hspec : spec.HasNumbers
    · exact .inl (mem_of_hasNumbers hspec hread hshow)
    · right
      obtain hfirst | ⟨rfl, spec', hspec', hnumbers⟩ := hspecs
      · simp [hspec] at hfirst
      · obtain rfl | hspec' := mem_cons.1 hspec'
        · exact absurd hnumbers hspec
        · exact ih (.inr ⟨rfl, spec', hspec', hnumbers⟩) hmore

theorem weighs_readFields (hf : f.Legible) (hsizes : specs.mapM FieldSpec.size = some sizes)
    (h : readFields image f none pos specs = .ok a) :
    f.Weighs (String.join a).toList sizes.sum := by
  induction specs generalizing pos a sizes with
  | nil =>
    cases h
    cases hsizes
    exact fun _ => rfl
  | cons spec specs ih =>
    obtain ⟨ns, next, text, more, hread, hshow, rfl, hmore⟩ := readFields_cons_ok_iff.1 h
    simp only [mapM_cons, Option.bind_eq_bind, Option.bind_eq_some_iff, Option.pure_def,
      Option.some.injEq] at hsizes
    obtain ⟨n, hsize, rest, hrest, rfl⟩ := hsizes
    rw [join_cons, toList_append, ← length_of_readCodes hsize hread]
    exact (weighs_showField hf (lt_of_readCodes hread) hshow).append (ih hrest hmore)

/-! ### Entries -/

/-- Entries of one field, or entries whose fields are told apart: all but the last have a fixed
size, and there are numbers to know them by. -/
def Spec.Separable (s : Spec) : Prop :=
  s.fields.length = 1 ∨
  (∀ spec ∈ s.fields.dropLast, spec.size.isSome) ∧ (s.absent = none ∨ s.entrySize? = none) ∧
    AlwaysNumbers s.absent s.fields

instance : DecidablePred Spec.Separable := fun s =>
  inferInstanceAs (Decidable (_ ∨ (∀ spec ∈ s.fields.dropLast, spec.size.isSome) ∧ _ ∧ _))

theorem separable_allSpecs : ∀ s ∈ allSpecs, s.Separable := by decide

def memoryLead (address : Nat) : String := "##&" ++ upperHex 4 address ++ "="

theorem readEntry_cases (h : readEntry image f s slot = .ok a) :
    (∃ i, slot = .repeated i ∧ a = ["##=" ++ toString i]) ∨
    (∃ pointer start, slot = .entry pointer ∧ readFields image f s.absent start s.fields = .ok a) ∨
    ∃ address pointer start fields, slot = .memory address pointer ∧
      readFields image f s.absent start s.fields = .ok fields ∧
      a = leadWith (memoryLead address) fields := by
  cases slot with
  | repeated i =>
    cases h
    exact .inl ⟨i, rfl, rfl⟩
  | entry pointer =>
    obtain ⟨start, -, hfields⟩ := bind_ok_iff.1 h
    exact .inr (.inl ⟨pointer, start, rfl, hfields⟩)
  | memory address pointer =>
    obtain ⟨fields, hfields, rfl⟩ := map_ok_iff.1 h
    obtain ⟨start, -, hfields⟩ := bind_ok_iff.1 hfields
    exact .inr (.inr ⟨address, pointer, start, fields, rfl, hfields, rfl⟩)

theorem join_leadWith (lead : String) (fields : List String) :
    String.join (leadWith lead fields) = lead ++ String.join fields := by
  cases fields with
  | nil => simp [leadWith]
  | cons field rest => rw [leadWith, join_cons, join_cons, String.append_assoc]

theorem notMem_repeated (i : Nat) : '\\' ∉ ("##=" ++ toString i).toList := by
  rw [toList_append, mem_append]
  rintro (hmem | hmem)
  · revert hmem
    decide
  · exact forall_mem_toString (p := (· ≠ '\\')) (by decide) i _ hmem rfl

theorem forall_mem_address {p : Char → Prop} (hmarks : p '#' ∧ p '&')
    (hdigit : ∀ d < 16, p d.digitChar.toUpper) (address : Nat) :
    ∀ c ∈ ("##&" ++ upperHex 4 address).toList, p c := by
  intro c hc
  obtain hc | hc := mem_append.1 (toList_append ▸ hc)
  · obtain rfl | rfl : c = '#' ∨ c = '&' := by simpa using hc
    · exact hmarks.1
    · exact hmarks.2
  · exact forall_mem_upperHex hdigit 4 address c hc

theorem notMem_memoryLead (address : Nat) : '\\' ∉ (memoryLead address).toList := by
  rw [memoryLead, toList_append, mem_append]
  rintro (hmem | hmem)
  · exact forall_mem_address (p := (· ≠ '\\')) (by decide) (by decide) address _ hmem rfl
  · revert hmem
    decide

theorem memoryLead_append_inj {address address' : Nat}
    (h : (memoryLead address).toList ++ t = (memoryLead address').toList ++ t') :
    memoryLead address = memoryLead address' ∧ t = t' := by
  have hplain : ∀ n : Nat, '=' ∉ ("##&" ++ upperHex 4 n).toList := fun n hmem =>
    forall_mem_address (p := (· ≠ '=')) (by decide) (by decide) n _ hmem rfl
  have hsplit : ∀ (n : Nat) (t : List Char), Text.splitFirst '=' ((memoryLead n).toList ++ t) =
      (("##&" ++ upperHex 4 n).toList, some t) := by
    intro n t
    rw [memoryLead, toList_append, append_assoc]
    exact Text.splitFirst_append (hplain n) t
  have hparts := (hsplit address t).symm.trans ((congrArg _ h).trans (hsplit address' t'))
  obtain ⟨hfront, hrest⟩ := Prod.mk.inj hparts
  exact ⟨congrArg (· ++ "=") (toList_inj.1 hfront), Option.some.inj hrest⟩

/-- Only entries of fixed size have an address in memory. -/
def Slot.Stored.Fits (size : Option Nat) : Slot.Stored → Prop
  | .memory _ _ => size.isSome
  | _ => True

theorem weigh_memory_lt (hf : f.Legible) (hs : s.absent = none ∨ s.entrySize? = none)
    (hsize : s.entrySize?.isSome) (ha : readFields image f s.absent pos s.fields = .ok a)
    (hb : readFields image' f s.absent pos' s.fields = .ok b) (address : Nat) :
    f.weigh (String.join b).toList <
      f.weigh ((memoryLead address).toList ++ (String.join a).toList) := by
  have habsent : s.absent = none := hs.resolve_right (Option.isSome_iff_ne_none.1 hsize)
  rw [habsent] at ha hb
  obtain ⟨total, htotal⟩ := Option.isSome_iff_exists.1 hsize
  obtain ⟨sizes, hsizes, -⟩ := Option.map_eq_some_iff.1 htotal
  have hweight := weighs_readFields hf hsizes ha []
  have hweight' := weighs_readFields hf hsizes hb []
  rw [append_nil] at hweight hweight'
  rw [hweight', ← hweight]
  refine weigh_append_lt f ?_ (notMem_memoryLead address) _
  simp [memoryLead]

theorem eq_singleton_of_readEntry (hone : s.fields.length = 1)
    (h : readEntry image f s slot = .ok a) : ∃ text, a = [text] := by
  obtain ⟨spec, hspec⟩ := length_eq_one_iff.1 hone
  obtain ⟨i, -, rfl⟩ | ⟨_, _, -, hfields⟩ | ⟨address, _, _, fields, -, hfields, rfl⟩ :=
    readEntry_cases h
  · exact ⟨_, rfl⟩
  · rw [hspec] at hfields
    exact eq_singleton_of_readFields hfields
  · rw [hspec] at hfields
    obtain ⟨text, rfl⟩ := eq_singleton_of_readFields hfields
    exact ⟨_, rfl⟩

theorem eq_of_join_repeated {i : Nat} (hnumbers : AlwaysNumbers s.absent s.fields)
    (hb : readEntry image f s slot = .ok b)
    (hjoin : String.join ["##=" ++ toString i] = String.join b) :
    ["##=" ++ toString i] = b := by
  have hplain : '\\' ∉ (String.join b).toList := by
    rw [← hjoin, join_cons, String.join_nil, String.append_empty]
    exact notMem_repeated i
  obtain ⟨j, -, rfl⟩ | ⟨_, _, -, hfields⟩ | ⟨address, _, _, fields, -, hfields, rfl⟩ :=
    readEntry_cases hb
  · simpa using hjoin
  · exact absurd (mem_join_of_readFields hnumbers hfields) hplain
  · rw [join_leadWith, toList_append] at hplain
    exact absurd (mem_append_right _ (mem_join_of_readFields hnumbers hfields)) hplain

/-- **Entries are told apart by what they say together.** -/
theorem readEntry_inj (hf : f.Legible) (hs : s.Separable) (hslot : slot.Fits s.entrySize?)
    (hslot' : slot'.Fits s.entrySize?) (ha : readEntry image f s slot = .ok a)
    (hb : readEntry image' f s slot' = .ok b) (hjoin : String.join a = String.join b) : a = b := by
  obtain hone | ⟨hfixed, hsize, hnumbers⟩ := hs
  · obtain ⟨text, rfl⟩ := eq_singleton_of_readEntry hone ha
    obtain ⟨text', rfl⟩ := eq_singleton_of_readEntry hone hb
    simpa using hjoin
  have hchars := congrArg String.toList hjoin
  obtain ⟨i, -, rfl⟩ | ⟨_, _, -, hfields⟩ | ⟨address, _, _, fields, rfl, hfields, rfl⟩ :=
    readEntry_cases ha
  · exact eq_of_join_repeated hnumbers hb hjoin
  · obtain ⟨i, -, rfl⟩ | ⟨_, _, -, hfields'⟩ | ⟨address, _, _, fields', rfl, hfields', rfl⟩ :=
      readEntry_cases hb
    · exact (eq_of_join_repeated hnumbers ha hjoin.symm).symm
    · exact readFields_inj hf hfixed hfields hfields' hjoin
    · rw [join_leadWith, toList_append] at hchars
      exact absurd (congrArg f.weigh hchars)
        (weigh_memory_lt hf hsize hslot' hfields' hfields address).ne
  · obtain ⟨i, -, rfl⟩ | ⟨_, _, -, hfields'⟩ | ⟨address', _, _, fields', rfl, hfields', rfl⟩ :=
      readEntry_cases hb
    · exact (eq_of_join_repeated hnumbers ha hjoin.symm).symm
    · rw [join_leadWith, toList_append] at hchars
      exact absurd (congrArg f.weigh hchars).symm
        (weigh_memory_lt hf hsize hslot hfields hfields' address).ne
    · rw [join_leadWith, join_leadWith, toList_append, toList_append] at hchars
      obtain ⟨hlead, hrest⟩ := memoryLead_append_inj hchars
      rw [hlead, readFields_inj hf hfixed hfields hfields' (toList_inj.1 hrest)]

/-! ### Lists -/

theorem Listed.forall_fits {size : Option Nat} {slots : List Slot.Stored}
    (h : Listed size ps slots) : ∀ slot ∈ slots, slot.Fits size := by
  induction h with
  | nil => simp
  | snoc _ hslot ih =>
    intro slot hmem
    obtain hmem | rfl := (mem_append.1 hmem).imp_right mem_singleton.1
    · exact ih slot hmem
    · cases slot with
      | memory address pointer =>
        obtain ⟨-, -, _, n, -, rfl, -⟩ := hslot
        rfl
      | entry pointer | repeated i => trivial

theorem entries_inj {d d' : Dumped} {i : Nat} (hf : f.Legible) (hs : s.Separable)
    (hd : Dumped.read image f s = .ok d) (hd' : Dumped.read image' f s = .ok d')
    (ha : d.entries[i]? = some a) (hb : d'.entries[i]? = some b)
    (hjoin : String.join a = String.join b) : a = b := by
  have hslot : ∀ {image : ByteArray} {d : Dumped} {a : List String},
      Dumped.read image f s = .ok d → d.entries[i]? = some a →
        ∃ slot : Slot.Stored, slot.Fits s.entrySize? ∧ readEntry image f s slot = .ok a := by
    intro image d a hd ha
    simp only [Dumped.read, bind_ok_iff, pure_ok_iff] at hd
    obtain ⟨table, htable, entries, hentries, rfl⟩ := hd
    obtain ⟨-, words, -, -, hstored⟩ := foldlM_of_readSlots htable
    obtain ⟨slot, hmem, hread⟩ := exists_of_mem_mapM hentries (mem_of_getElem? ha)
    exact ⟨slot, (Listed.nil.foldlM hstored).forall_fits slot hmem, hread⟩
  obtain ⟨slot, hfits, hread⟩ := hslot hd ha
  obtain ⟨slot', hfits', hread'⟩ := hslot hd' hb
  exact readEntry_inj hf hs hfits hfits' hread hread' hjoin

end Cartridge.PointerList
