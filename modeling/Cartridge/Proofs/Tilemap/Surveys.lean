import Cartridge.Proofs.Fault
import Cartridge.Proofs.Table
import Cartridge.Tilemap.Survey

/-!
# Surveys of maps compared

What a survey records of the maps of one version, and which maps two surveys tell apart.

* `Compared.mem_of_first_end`, `Compared.mem_of_second_end`, `Compared.notMem_of_ends`: an end mark
  is told apart exactly if it is none in the other version.
-/

open List

namespace Cartridge.Tilemap

open Table

variable {s first second : Survey} {id source : MapId} {held : Held} {differs ids : List MapId}

namespace Survey

variable {image : ByteArray} {s' : Survey}

/-- A pointer that marks the end of the maps. -/
def IsEnd (s : Survey) (id : MapId) : Prop :=
  s.held.find? id = some {} ∧ s.copies.find? id = none

/-- What holds of the records of a survey. -/
structure Sound (s : Survey) : Prop where
  nodup : s.held.keys.Nodup
  /-- The maps stand table by table. -/
  sorted : s.held.keys.Pairwise fun a b => a.table ≤ b.table
  copiesNodup : s.copies.keys.Nodup
  /-- The source of a copy is no later copy. -/
  order : s.copies.entries.Pairwise fun e e' => e.2 ≠ e'.1
  copy : ∀ e ∈ s.copies.entries, ∃ h source, s.held.find? e.1 = some h ∧ h.bytes = none ∧
    s.held.find? e.2 = some source ∧ source.position.isSome
  /-- A map that is no copy has a position and bytes, or neither. -/
  own : ∀ id h, s.held.find? id = some h → s.copies.find? id = none →
    h = {} ∨ (h.position.isSome ∧ h.bytes.isSome)

def Before (s : Survey) (table index : Nat) : Prop :=
  ∀ k ∈ s.held.keys, k.table < table ∨ (k.table = table ∧ k.index < index)

/-- What a record of a map may be: an end mark, a map of its own, or a copy of an earlier map that
has a place of its own. -/
inductive Adds (s : Survey) (id : MapId) : Held → Table MapId MapId → Prop
  | stop : Adds s id {} s.copies
  | own (position : Int) (bytes : List UInt8) : Adds s id ⟨some position, some bytes⟩ s.copies
  | copy {held place : Held} {source : MapId} (hheld : held.bytes = none)
      (hsource : s.held.find? source = some place) (hplace : place.position.isSome) :
      Adds s id held (s.copies.insert id source)

variable {table index : Nat} {copies : Table MapId MapId}

theorem Before.notMem (h : s.Before table index) : ⟨table, index⟩ ∉ s.held.keys := by
  intro hmem
  rcases h _ hmem with hlt | ⟨-, hlt⟩
  · exact Nat.lt_irrefl _ hlt
  · exact Nat.lt_irrefl _ hlt

theorem Before.add (h : s.Before table index) (held : Held) (copies : Table MapId MapId) :
    Before ⟨s.held.insert ⟨table, index⟩ held, copies⟩ table (index + 1) := by
  intro k hk
  rcases mem_keys_insert_iff.1 hk with rfl | hk
  · exact .inr ⟨rfl, Nat.lt_succ_self _⟩
  · rcases h k hk with hlt | ⟨heq, hlt⟩
    · exact .inl hlt
    · exact .inr ⟨heq, Nat.lt_succ_of_lt hlt⟩

theorem Sound.notMem_copies (hs : s.Sound) (h : id ∉ s.held.keys) : s.copies.find? id = none := by
  by_contra hne
  obtain ⟨source, hsource⟩ := Option.ne_none_iff_exists'.1 hne
  obtain ⟨held, -, hheld, -⟩ := hs.copy _ (mem_of_find? hsource)
  exact h (mem_keys_iff.2 ⟨held, hheld⟩)

theorem Sound.add (hs : s.Sound) (hbefore : s.Before table index)
    (hadds : s.Adds ⟨table, index⟩ held copies) :
    Sound ⟨s.held.insert ⟨table, index⟩ held, copies⟩ := by
  have hnew := hbefore.notMem
  have hkeys := keys_insert_of_notMem hnew held
  have hfree := hs.notMem_copies hnew
  -- what was recorded before stays
  have hkept : ∀ k h, s.held.find? k = some h →
      (s.held.insert ⟨table, index⟩ held).find? k = some h := by
    intro k h hk
    rwa [find?_insert_of_ne]
    rintro rfl
    exact hnew (mem_keys_iff.2 ⟨h, hk⟩)
  have hnodup := nodup_keys_insert hs.nodup ⟨table, index⟩ held
  have hsorted : (s.held.insert ⟨table, index⟩ held).keys.Pairwise
      fun a b => a.table ≤ b.table := by
    rw [hkeys, pairwise_append]
    refine ⟨hs.sorted, pairwise_singleton _ _, fun a ha b hb => ?_⟩
    rw [mem_singleton.1 hb]
    rcases hbefore a ha with hlt | ⟨heq, -⟩
    · exact Nat.le_of_lt hlt
    · exact Nat.le_of_eq heq
  have hold : ∀ e ∈ s.copies.entries, ∃ h source,
      (s.held.insert ⟨table, index⟩ held).find? e.1 = some h ∧ h.bytes = none ∧
        (s.held.insert ⟨table, index⟩ held).find? e.2 = some source ∧ source.position.isSome := by
    intro e he
    obtain ⟨h, source, hh, hbytes, hsource, hplace⟩ := hs.copy e he
    exact ⟨h, source, hkept _ _ hh, hbytes, hkept _ _ hsource, hplace⟩
  have hown : ∀ k h, (s.held.insert ⟨table, index⟩ held).find? k = some h →
      (k = ⟨table, index⟩ → held = {} ∨ (held.position.isSome ∧ held.bytes.isSome)) →
      s.copies.find? k = none → h = {} ∨ (h.position.isSome ∧ h.bytes.isSome) := by
    intro k h hk hlast hcopy
    by_cases hid : k = ⟨table, index⟩
    · rw [hid, find?_insert_self] at hk
      exact Option.some.inj hk ▸ hlast hid
    · rw [find?_insert_of_ne _ hid] at hk
      exact hs.own k h hk hcopy
  cases hadds with
  | stop =>
    exact ⟨hnodup, hsorted, hs.copiesNodup, hs.order, hold, fun k h hk =>
      hown k h hk fun _ => .inl rfl⟩
  | own position bytes =>
    exact ⟨hnodup, hsorted, hs.copiesNodup, hs.order, hold, fun k h hk =>
      hown k h hk fun _ => .inr ⟨rfl, rfl⟩⟩
  | copy hheld hsource hplace =>
    rename_i place source
    have hnone : (⟨table, index⟩ : MapId) ∉ s.copies.keys := by
      rw [mem_keys_iff]
      rintro ⟨_, hsome⟩
      rw [hfree] at hsome
      cases hsome
    have hentries : (s.copies.insert ⟨table, index⟩ source).entries =
        s.copies.entries ++ [(⟨table, index⟩, source)] := map_fst_insertEntry hnone source
    refine ⟨hnodup, hsorted, nodup_keys_insert hs.copiesNodup _ source, ?_, ?_, ?_⟩
    · rw [hentries, pairwise_append]
      refine ⟨hs.order, pairwise_singleton _ _, fun e he e' he' => ?_⟩
      rw [mem_singleton.1 he']
      intro heq
      obtain ⟨_, _, -, -, hfound, -⟩ := hs.copy e he
      rw [heq] at hfound
      exact hnew (mem_keys_iff.2 ⟨_, hfound⟩)
    · intro e he
      rw [hentries, mem_append, mem_singleton] at he
      rcases he with he | rfl
      · exact hold e he
      · exact ⟨held, place, find?_insert_self .., hheld, hkept _ _ hsource, hplace⟩
    · intro k h hk hcopy
      have hid : k ≠ ⟨table, index⟩ := by
        rintro rfl
        rw [find?_insert_self] at hcopy
        cases hcopy
      rw [find?_insert_of_ne _ hid] at hcopy
      exact hown k h hk (absurd · hid) hcopy

theorem Sound.position_of_bytes (hs : s.Sound) (hheld : s.held.find? id = some held)
    (hbytes : held.bytes.isSome) : held.position.isSome := by
  by_cases hcopy : s.copies.find? id = none
  · rcases hs.own id held hheld hcopy with rfl | ⟨hposition, -⟩
    · cases hbytes
    · exact hposition
  · obtain ⟨source, hsource⟩ := Option.ne_none_iff_exists'.1 hcopy
    obtain ⟨_, _, hheld', hnone, -⟩ := hs.copy _ (mem_of_find? hsource)
    obtain rfl := Option.some.inj (hheld.symm.trans hheld')
    rw [hnone] at hbytes
    cases hbytes

theorem Sound.exists_adds_record (hs : s.Sound) (table index : Nat) (position : Int)
    (bytes : List UInt8) : ∃ held copies, s.Adds ⟨table, index⟩ held copies ∧
      s.record ⟨table, index⟩ position bytes = ⟨s.held.insert ⟨table, index⟩ held, copies⟩ := by
  by_cases hadjacent :
      index ≠ 0 ∧ (s.held.find? ⟨table, index - 1⟩).bind Held.position = some position
  · obtain ⟨place, hplace, hposition⟩ := Option.bind_eq_some_iff.1 hadjacent.2
    exact ⟨_, _, .copy rfl hplace (by rw [hposition]; rfl), if_pos hadjacent⟩
  · have hrecord : s.record ⟨table, index⟩ position bytes = _ := if_neg hadjacent
    rw [hrecord]
    cases hfind : s.find? bytes with
    | none => exact ⟨_, _, .own position bytes, rfl⟩
    | some e =>
      obtain ⟨other, place⟩ := e
      have hbytes : place.bytes = some bytes := by simpa using find?_some hfind
      have hplace : s.held.find? other = some place :=
        (find?_eq_some_iff hs.nodup).2 (mem_of_find?_eq_some hfind)
      refine ⟨_, _, .copy ?_ hplace (hs.position_of_bytes hplace (by rw [hbytes]; rfl)), rfl⟩
      split <;> rfl

theorem Sound.addMaps {bank : Int} {last : Nat} {ends : Bool} {pointers : List Nat} (hs : s.Sound)
    (hbefore : s.Before table index)
    (h : Survey.addMaps image table bank last ends index s pointers = .ok s') :
    s'.Sound ∧ s'.Before (table + 1) 0 := by
  induction pointers generalizing s index ends with
  | nil =>
    cases h
    refine ⟨hs, fun k hk => ?_⟩
    rcases hbefore k hk with hlt | ⟨heq, -⟩
    · exact .inl (Nat.lt_succ_of_lt hlt)
    · exact .inl (Nat.lt_succ_of_le (Nat.le_of_eq heq))
  | cons pointer rest ih =>
    simp only [Survey.addMaps, bind_ok_iff] at h
    obtain ⟨start, -, bytes, -, h⟩ := h
    split at h
    · exact ih (hs.add hbefore .stop) (hbefore.add _ _) h
    · obtain ⟨held, copies, hadds, hrecord⟩ :=
        hs.exists_adds_record table index (Address.flat ⟨bank, pointer⟩) bytes
      rw [hrecord] at h
      exact ih (hs.add hbefore hadds) (hbefore.add _ _) h

theorem Sound.addTable {a : Address} (hs : s.Sound) (hbefore : s.Before table 0)
    (h : Survey.addTable image s (a, table) = .ok s') :
    s'.Sound ∧ s'.Before (table + 1) 0 := by
  simp only [Survey.addTable, bind_ok_iff] at h
  obtain ⟨pointers, -, h⟩ := h
  split at h
  · exact hs.addMaps hbefore h
  · cases h

theorem sound_read {tables : List Address} (h : Survey.read image tables = .ok s) : s.Sound := by
  have hall : ∀ (tables : List Address) (table : Nat) (s s' : Survey), s.Sound →
      s.Before table 0 → (tables.zipIdx table).foldlM (Survey.addTable image) s = .ok s' →
      s'.Sound := by
    intro tables
    induction tables with
    | nil =>
      intro table s s' hs _ hfold
      cases hfold
      exact hs
    | cons a tables ih =>
      intro table s s' hs hbefore hfold
      rw [zipIdx_cons, foldlM_cons, bind_ok_iff] at hfold
      obtain ⟨s₁, hfirst, hrest⟩ := hfold
      obtain ⟨hs₁, hbefore₁⟩ := hs.addTable hbefore hfirst
      exact ih (table + 1) s₁ s' hs₁ hbefore₁ hrest
  refine hall tables 0 {} s ⟨.nil, .nil, .nil, .nil, nofun, nofun⟩ nofun h

end Survey

/-! ### Versions told apart -/

/-- Passing over copies, the ones without the property `C` are added to a list of maps. -/
def addCopies (C : List MapId → MapId × MapId → Prop) [∀ ids e, Decidable (C ids e)]
    (es : List (MapId × MapId)) (ids : List MapId) : List MapId :=
  es.foldl (fun ids e => if C ids e then ids else ids ++ [e.1]) ids

section

variable {C : List MapId → MapId × MapId → Prop} [∀ ids e, Decidable (C ids e)]
  {es : List (MapId × MapId)}

theorem mem_addCopies_of_mem (h : id ∈ ids) : id ∈ addCopies C es ids := by
  induction es generalizing ids with
  | nil => exact h
  | cons e es ih =>
    rw [addCopies, foldl_cons]
    refine ih ?_
    split
    · exact h
    · exact mem_append_left _ h

theorem mem_of_mem_addCopies (h : id ∈ addCopies C es ids) : id ∈ ids ∨ ∃ e ∈ es, e.1 = id := by
  induction es generalizing ids with
  | nil => exact .inl h
  | cons e es ih =>
    rw [addCopies, foldl_cons] at h
    rcases ih h with hmem | ⟨e', he', heq⟩
    · split at hmem
      · exact .inl hmem
      · rcases mem_append.1 hmem with hmem | hmem
        · exact .inl hmem
        · exact .inr ⟨e, mem_cons_self, (mem_singleton.1 hmem).symm⟩
    · exact .inr ⟨e', mem_cons_of_mem _ he', heq⟩

/-- A copy that was not added had the property when it was passed over, and only later copies were
added since. -/
theorem exists_of_notMem_addCopies {e : MapId × MapId} (he : e ∈ es)
    (h : e.1 ∉ addCopies C es ids) :
    ∃ l₁ l₂ before, es = l₁ ++ e :: l₂ ∧ C before e ∧
      ∀ id ∈ addCopies C es ids, id ∈ before ∨ ∃ e' ∈ l₂, e'.1 = id := by
  obtain ⟨l₁, l₂, rfl⟩ := append_of_mem he
  have hsplit : addCopies C (l₁ ++ e :: l₂) ids =
      addCopies C l₂ (if C (addCopies C l₁ ids) e then addCopies C l₁ ids
        else addCopies C l₁ ids ++ [e.1]) := by
    rw [addCopies, foldl_append]
    rfl
  rw [hsplit] at h ⊢
  have hC : C (addCopies C l₁ ids) e := by
    by_contra hC
    rw [if_neg hC] at h
    exact h (mem_addCopies_of_mem (mem_append_right _ (mem_singleton_self _)))
  rw [if_pos hC]
  exact ⟨l₁, l₂, _, rfl, hC, fun _ => mem_of_mem_addCopies⟩

end

theorem of_differing (h : differing first second = .ok differs) :
    (∀ e ∈ second.held.entries, e.1 ∈ first.held.keys) ∧
      ∀ id, id ∈ differs ↔ ∃ e ∈ second.held.entries, ∃ held, first.held.find? e.1 = some held ∧
        e.2.bytes ≠ held.bytes ∧ e.1 = id := by
  have hall : ∀ (es : List (MapId × Held)) (ids ids' : List MapId),
      es.foldlM (fun ids e => do
        let other ← demand (first.held.find? e.1) (.plain .key)
        return if e.2.bytes = other.bytes then ids else ids ++ [e.1]) ids =
          (.ok ids' : Except Fault _) →
      (∀ e ∈ es, e.1 ∈ first.held.keys) ∧
        ∀ id, id ∈ ids' ↔ id ∈ ids ∨ ∃ e ∈ es, ∃ held, first.held.find? e.1 = some held ∧
          e.2.bytes ≠ held.bytes ∧ e.1 = id := by
    intro es
    induction es with
    | nil =>
      intro ids ids' hfold
      cases hfold
      exact ⟨nofun, fun id => by simp⟩
    | cons e es ih =>
      intro ids ids' hfold
      simp only [foldlM_cons, bind_ok_iff, demand_ok_iff, pure_ok_iff] at hfold
      obtain ⟨_, ⟨held, hheld, rfl⟩, hrest⟩ := hfold
      obtain ⟨hkeys, hmem⟩ := ih _ _ hrest
      refine ⟨forall_mem_cons.2 ⟨mem_keys_iff.2 ⟨held, hheld⟩, hkeys⟩, fun id => ?_⟩
      rw [hmem id]
      by_cases hbytes : e.2.bytes = held.bytes
      · simp [hbytes, hheld]
      · rw [if_neg hbytes]
        simp [hheld, hbytes, or_assoc, @eq_comm _ id]
  obtain ⟨hkeys, hmem⟩ := hall _ _ _ h
  exact ⟨hkeys, fun id => by simpa using hmem id⟩

/-- The outcome of comparing two surveys. -/
structure Compared (first second : Survey) (differs ids : List MapId) : Prop where
  firstSound : first.Sound
  secondSound : second.Sound
  differs : differing first second = .ok differs
  ids : versionedIds first second = .ok ids

namespace Compared

section

variable (h : Compared first second differs ids)

include h

theorem ids_eq : ids = addFirstCopies first second (addSecondCopies first second differs) := by
  have hids := h.ids
  rw [versionedIds, h.differs] at hids
  exact (Except.ok.inj hids).symm

theorem mem_keys (hid : id ∈ second.held.keys) : id ∈ first.held.keys := by
  obtain ⟨e, he, rfl⟩ := mem_map.1 hid
  exact (of_differing h.differs).1 e he

theorem mem_differs_iff : id ∈ differs ↔
    ∃ held held', first.held.find? id = some held ∧ second.held.find? id = some held' ∧
      held'.bytes ≠ held.bytes := by
  rw [(of_differing h.differs).2 id]
  constructor
  · rintro ⟨⟨_, held'⟩, he, held, hheld, hbytes, rfl⟩
    exact ⟨held, held', hheld, (find?_eq_some_iff h.secondSound.nodup).2 he, hbytes⟩
  · rintro ⟨held, held', hheld, hheld', hbytes⟩
    exact ⟨(id, held'), mem_of_find? hheld', held, hheld, hbytes, rfl⟩

theorem mem_of_mem_differs (hid : id ∈ differs) : id ∈ ids := by
  rw [h.ids_eq]
  exact mem_addCopies_of_mem (mem_addCopies_of_mem hid)

theorem cases_of_mem (hid : id ∈ ids) :
    id ∈ differs ∨ (∃ source, second.copies.find? id = some source) ∨
      ∃ source, first.copies.find? id = some source := by
  rw [h.ids_eq] at hid
  rcases mem_of_mem_addCopies hid with hid | ⟨e, he, rfl⟩
  · rcases mem_of_mem_addCopies hid with hid | ⟨e, he, rfl⟩
    · exact .inl hid
    · exact .inr (.inl ⟨e.2, (find?_eq_some_iff h.secondSound.copiesNodup).2 he⟩)
  · exact .inr (.inr ⟨e.2, (find?_eq_some_iff h.firstSound.copiesNodup).2 he⟩)

/-- **Copies follow their sources.**  A copy in the first version that is not told apart is one in
the second, and its source is not told apart. -/
theorem source_notMem (hid : id ∉ ids) (hcopy : first.copies.find? id = some source) :
    source ∉ ids ∧ ∃ source', second.copies.find? id = some source' := by
  have he : (id, source) ∈ first.copies.entries := mem_of_find? hcopy
  rw [h.ids_eq] at hid ⊢
  obtain ⟨l₁, l₂, before, hsplit, hC, hadded⟩ := exists_of_notMem_addCopies he hid
  simp only [Bool.and_eq_true, Bool.not_eq_true', contains_eq_mem, decide_eq_false_iff_not] at hC
  refine ⟨fun hmem => ?_, Option.isSome_iff_exists.1 hC.1⟩
  rcases hadded source hmem with hmem | ⟨e', he', heq'⟩
  · exact hC.2 hmem
  · have horder := h.firstSound.order
    rw [hsplit, pairwise_append] at horder
    exact (pairwise_cons.1 horder.2.1).1 e' he' heq'.symm

theorem mem_of_second_copy (hcopy : second.copies.find? id = some source)
    (hnone : first.copies.find? id = none) : id ∈ ids := by
  rw [h.ids_eq]
  refine mem_addCopies_of_mem ?_
  by_contra hid
  obtain ⟨_, _, _, -, hC, -⟩ := exists_of_notMem_addCopies (mem_of_find? hcopy) hid
  rw [hnone] at hC
  cases hC.1

/-- **End marks.**  An end mark of the first version that is none in the second is told apart. -/
theorem mem_of_first_end (hfirst : first.IsEnd id) (hid : id ∈ second.held.keys)
    (hsecond : ¬second.IsEnd id) : id ∈ ids := by
  obtain ⟨held', hheld'⟩ := mem_keys_iff.1 hid
  cases hcopy : second.copies.find? id with
  | some source => exact h.mem_of_second_copy hcopy hfirst.2
  | none =>
    refine h.mem_of_mem_differs (h.mem_differs_iff.2 ⟨{}, held', hfirst.1, hheld', ?_⟩)
    rcases h.secondSound.own id held' hheld' hcopy with rfl | ⟨-, hbytes⟩
    · exact absurd ⟨hheld', hcopy⟩ hsecond
    · intro hnone
      rw [hnone] at hbytes
      cases hbytes

theorem mem_of_second_end (hsecond : second.IsEnd id) (hfirst : ¬first.IsEnd id) : id ∈ ids := by
  have hid : id ∈ first.held.keys := h.mem_keys (mem_keys_iff.2 ⟨_, hsecond.1⟩)
  obtain ⟨held, hheld⟩ := mem_keys_iff.1 hid
  cases hcopy : first.copies.find? id with
  | some source =>
    by_contra hmem
    obtain ⟨-, source', hsource'⟩ := h.source_notMem hmem hcopy
    rw [hsecond.2] at hsource'
    cases hsource'
  | none =>
    refine h.mem_of_mem_differs (h.mem_differs_iff.2 ⟨held, {}, hheld, hsecond.1, ?_⟩)
    rcases h.firstSound.own id held hheld hcopy with rfl | ⟨-, hbytes⟩
    · exact absurd ⟨hheld, hcopy⟩ hfirst
    · intro hnone
      rw [← hnone] at hbytes
      cases hbytes

theorem notMem_of_ends (hfirst : first.IsEnd id) (hsecond : second.IsEnd id) : id ∉ ids := by
  intro hid
  rcases h.cases_of_mem hid with hid | ⟨source, hcopy⟩ | ⟨source, hcopy⟩
  · obtain ⟨held, held', hheld, hheld', hbytes⟩ := h.mem_differs_iff.1 hid
    obtain rfl := Option.some.inj (hfirst.1.symm.trans hheld)
    obtain rfl := Option.some.inj (hsecond.1.symm.trans hheld')
    exact hbytes rfl
  · rw [hsecond.2] at hcopy
    cases hcopy
  · rw [hfirst.2] at hcopy
    cases hcopy

end

end Compared

end Cartridge.Tilemap
