import Cartridge.Proofs.Tilemap.Surveys

/-!
# Records of maps

What a survey records of a map follows from what it records of the maps before it.
-/

namespace Cartridge.Tilemap

open Table Address Survey

variable {a b : MapId}

def MapId.Before (a b : MapId) : Prop :=
  a.table < b.table ∨ (a.table = b.table ∧ a.index < b.index)

theorem MapId.Before.trans {c : MapId} (h : a.Before b) (h' : b.Before c) : a.Before c := by
  unfold MapId.Before at *
  omega

theorem MapId.Before.ne (h : a.Before b) : a ≠ b := by
  rintro rfl
  unfold MapId.Before at h
  omega

/-- The bytes of the map that a pointer of a table leads to. -/
def BytesAt (image : ByteArray) (bank : Int) (pointers : List Nat) (j : Nat) (bytes : List UInt8) :
    Prop :=
  ∃ pointer start, pointers[j]? = some pointer ∧
    Bytes.position (flat ⟨bank, pointer⟩) = .ok start ∧
    readMap image start (((pointers[j + 1]?.getD 0 : Nat) : Int) - pointer - 1) = .ok bytes

namespace Survey

variable {s s' : Survey} {id k : MapId} {held : Held} {copies : Table MapId MapId}
  {table index : Nat} {position : Int} {bytes : List UInt8} {tables : List Address}

def Adjacent (s : Survey) (id : MapId) (position : Int) : Prop :=
  id.index ≠ 0 ∧ (s.held.find? ⟨id.table, id.index - 1⟩).bind Held.position = some position

/-- An exact copy: a map without bytes and position. -/
def IsExact (s : Survey) (id : MapId) : Prop :=
  s.held.find? id = some {} ∧ (s.copies.find? id).isSome

/-- What is recorded of a map: a copy of the one right before, of the one that holds the same bytes,
or a map of its own. -/
inductive Recorded (s : Survey) (id : MapId) (position : Int) (bytes : List UInt8) : Prop
  | adjacent (hadjacent : s.Adjacent id position) (hheld : s.held.find? id = some {})
      (hcopy : (s.copies.find? id).isSome)
  | same {other : MapId} (hadjacent : ¬s.Adjacent id position) (hother : other.Before id)
      (hsource : s.held.find? other = some ⟨some position, some bytes⟩)
      (hheld : s.held.find? id = some {}) (hcopy : (s.copies.find? id).isSome)
  | copy {other : MapId} {place : Held} (hadjacent : ¬s.Adjacent id position)
      (hother : other.Before id) (hsource : s.held.find? other = some place)
      (hbytes : place.bytes = some bytes) (hplace : place.position ≠ some position)
      (hheld : s.held.find? id = some ⟨some position, none⟩)
  | own (hadjacent : ¬s.Adjacent id position)
      (hnew : ∀ other held, other.Before id → s.held.find? other = some held →
        held.bytes ≠ some bytes)
      (hheld : s.held.find? id = some ⟨some position, some bytes⟩)

/-- No two maps hold the same bytes. -/
def Distinct (s : Survey) : Prop :=
  ∀ id id' held held', s.held.find? id = some held → s.held.find? id' = some held' →
    held.bytes.isSome → held.bytes = held'.bytes → id = id'

/-- The surveys record the same of the maps before the given one. -/
def SameUpTo (s s' : Survey) (id : MapId) : Prop :=
  ∀ k : MapId, k.Before id → s'.held.find? k = s.held.find? k ∧ s'.copies.find? k = s.copies.find? k

theorem SameUpTo.trans {s₁ s₂ s₃ : Survey} (h : s₁.SameUpTo s₂ id) (h' : s₂.SameUpTo s₃ id) :
    s₁.SameUpTo s₃ id := fun k hk =>
  ⟨(h' k hk).1.trans (h k hk).1, (h' k hk).2.trans (h k hk).2⟩

theorem SameUpTo.mono (h : s.SameUpTo s' b) (hab : ∀ k : MapId, k.Before a → k.Before b) :
    s.SameUpTo s' a :=
  fun k hk => h k (hab k hk)

theorem before_next_index (h : k.Before ⟨table, index⟩) : k.Before ⟨table, index + 1⟩ := by
  unfold MapId.Before at *
  simp only at *
  omega

theorem before_next_table (h : k.Before ⟨table, index⟩) : k.Before ⟨table + 1, 0⟩ := by
  unfold MapId.Before at *
  simp only at *
  omega

theorem Adds.sameUpTo (h : s.Adds ⟨table, index⟩ held copies) :
    s.SameUpTo ⟨s.held.insert ⟨table, index⟩ held, copies⟩ ⟨table, index⟩ := by
  intro k hk
  refine ⟨find?_insert_of_ne _ hk.ne _, ?_⟩
  cases h with
  | stop | own => rfl
  | copy => exact find?_insert_of_ne _ hk.ne _

theorem SameUpTo.adjacent_iff (h : s.SameUpTo s' id) :
    s'.Adjacent id position ↔ s.Adjacent id position := by
  refine and_congr_right fun hindex => ?_
  rw [(h ⟨id.table, id.index - 1⟩ (.inr ⟨rfl, Nat.sub_one_lt hindex⟩)).1]

theorem SameUpTo.isEnd_iff {next : MapId} (h : s.SameUpTo s' next) (hid : id.Before next) :
    s'.IsEnd id ↔ s.IsEnd id := by
  rw [IsEnd, IsEnd, (h id hid).1, (h id hid).2]

/-- **Records stay** when later maps are recorded. -/
theorem Recorded.of_sameUpTo {next : MapId} (hr : s.Recorded id position bytes)
    (h : s.SameUpTo s' next) (hid : id.Before next) : s'.Recorded id position bytes := by
  obtain ⟨hheldEq, hcopyEq⟩ := h id hid
  have hadjacentEq : s'.Adjacent id position ↔ s.Adjacent id position :=
    (h.mono fun k hk => hk.trans hid).adjacent_iff
  cases hr with
  | adjacent hadjacent hheld hcopy =>
    exact .adjacent (hadjacentEq.2 hadjacent) (hheldEq.trans hheld) (by rwa [hcopyEq])
  | same hadjacent hother hsource hheld hcopy =>
    exact .same (mt hadjacentEq.1 hadjacent) hother
      ((h _ (hother.trans hid)).1.trans hsource) (hheldEq.trans hheld) (by rwa [hcopyEq])
  | copy hadjacent hother hsource hbytes hplace hheld =>
    exact .copy (mt hadjacentEq.1 hadjacent) hother
      ((h _ (hother.trans hid)).1.trans hsource) hbytes hplace (hheldEq.trans hheld)
  | own hadjacent hnew hheld =>
    refine .own (mt hadjacentEq.1 hadjacent) (fun other held hother hfound => ?_)
      (hheldEq.trans hheld)
    rw [(h _ (hother.trans hid)).1] at hfound
    exact hnew other held hother hfound

/-! ### One record -/

theorem find?_eq_none_iff (hs : s.Sound) : s.find? bytes = none ↔
    ∀ id held, s.held.find? id = some held → held.bytes ≠ some bytes := by
  rw [find?, List.find?_eq_none]
  constructor
  · intro h id held hheld hbytes
    exact h (id, held) (mem_of_find? hheld) (beq_iff_eq.2 hbytes)
  · intro h e he hbytes
    exact h e.1 e.2 ((find?_eq_some_iff hs.nodup).2 he) (beq_iff_eq.1 hbytes)

theorem of_find? (hs : s.Sound) {other : MapId} {place : Held}
    (h : s.find? bytes = some (other, place)) :
    s.held.find? other = some place ∧ place.bytes = some bytes :=
  ⟨(find?_eq_some_iff hs.nodup).2 (List.mem_of_find?_eq_some h), by simpa using List.find?_some h⟩

theorem Sound.sameUpTo_record (hs : s.Sound) :
    s.SameUpTo (s.record ⟨table, index⟩ position bytes) ⟨table, index⟩ := by
  obtain ⟨held, copies, hadds, hrecord⟩ := hs.exists_adds_record table index position bytes
  rw [hrecord]
  exact hadds.sameUpTo

theorem Sound.recorded_record (hs : s.Sound) (hbefore : s.Before table index) :
    (s.record ⟨table, index⟩ position bytes).Recorded ⟨table, index⟩ position bytes := by
  have hsame : s.SameUpTo (s.record ⟨table, index⟩ position bytes) ⟨table, index⟩ :=
    hs.sameUpTo_record
  by_cases hadjacent : s.Adjacent ⟨table, index⟩ position
  · have hrecord : s.record ⟨table, index⟩ position bytes = _ := if_pos hadjacent
    refine .adjacent (hsame.adjacent_iff.2 hadjacent) ?_ ?_
    · rw [hrecord, find?_insert_self]
    · rw [hrecord, find?_insert_self]
      rfl
  · have hnot := mt hsame.adjacent_iff.1 hadjacent
    have hrecord : s.record ⟨table, index⟩ position bytes = _ := if_neg hadjacent
    cases hfind : s.find? bytes with
    | none =>
      simp only [hfind] at hrecord
      refine .own hnot (fun other held hother hfound => ?_) ?_
      · rw [(hsame other hother).1] at hfound
        exact (find?_eq_none_iff hs).1 hfind other held hfound
      · rw [hrecord, find?_insert_self]
    | some e =>
      obtain ⟨other, place⟩ := e
      simp only [hfind] at hrecord
      obtain ⟨hplace, hbytes⟩ := of_find? hs hfind
      have hother : other.Before ⟨table, index⟩ := hbefore other (mem_keys_iff.2 ⟨_, hplace⟩)
      have hkept := (hsame other hother).1.trans hplace
      by_cases hposition : place.position = some position
      · rw [if_pos hposition] at hrecord
        obtain ⟨_, _⟩ := place
        obtain rfl := hposition
        obtain rfl := hbytes
        refine .same hnot hother hkept ?_ ?_
        · rw [hrecord, find?_insert_self]
        · rw [hrecord, find?_insert_self]
          rfl
      · rw [if_neg hposition] at hrecord
        refine .copy hnot hother hkept hbytes hposition ?_
        rw [hrecord, find?_insert_self]

theorem Recorded.bytes_cases (h : s.Recorded id position bytes) (hheld : s.held.find? id = some held)
    (hbytes : held.bytes.isSome) : held.bytes = some bytes ∧
      ∀ other held, other.Before id → s.held.find? other = some held → held.bytes ≠ some bytes := by
  cases h with
  | adjacent _ hheld' _ | same _ _ _ hheld' _ | copy _ _ _ _ _ hheld' =>
    obtain rfl := Option.some.inj (hheld.symm.trans hheld')
    cases hbytes
  | own _ hnew hheld' =>
    obtain rfl := Option.some.inj (hheld.symm.trans hheld')
    exact ⟨rfl, hnew⟩

theorem Recorded.not_isEnd (h : s.Recorded id position bytes) : ¬s.IsEnd id := by
  rintro ⟨hheld, hnone⟩
  cases h with
  | adjacent _ _ hcopy | same _ _ _ _ hcopy =>
    rw [hnone] at hcopy
    cases hcopy
  | copy _ _ _ _ _ hheld' | own _ _ hheld' => cases hheld.symm.trans hheld'

/-! ### Surveys -/

/-- What holds of a survey up to a map. -/
structure Current (s : Survey) (table index : Nat) : Prop where
  sound : s.Sound
  before : s.Before table index
  distinct : s.Distinct

theorem Distinct.of_sameUpTo (h : s.Distinct) (hsame : s.SameUpTo s' ⟨table, index⟩)
    (hbefore : s'.Before table (index + 1))
    (hnew : ∀ held other place, s'.held.find? ⟨table, index⟩ = some held → held.bytes.isSome →
      other.Before ⟨table, index⟩ → s'.held.find? other = some place → place.bytes ≠ held.bytes) :
    s'.Distinct := by
  have hcases : ∀ k held, s'.held.find? k = some held →
      k = ⟨table, index⟩ ∨ k.Before ⟨table, index⟩ := by
    intro k held hk
    rcases hbefore k (mem_keys_iff.2 ⟨held, hk⟩) with hlt | ⟨heq, hlt⟩
    · exact .inr (.inl hlt)
    · obtain ⟨t, j⟩ := k
      obtain rfl : t = table := heq
      rcases Nat.lt_succ_iff_lt_or_eq.1 hlt with hlt | rfl
      · exact .inr (.inr ⟨rfl, hlt⟩)
      · exact .inl rfl
  intro id id' held held' hheld hheld' hbytes heq
  rcases hcases id held hheld with rfl | hid
  · rcases hcases id' held' hheld' with rfl | hid'
    · rfl
    · exact absurd heq.symm (hnew held id' held' hheld hbytes hid' hheld')
  · rcases hcases id' held' hheld' with rfl | hid'
    · exact absurd heq (hnew held' id held hheld' (heq ▸ hbytes) hid hheld)
    · rw [(hsame id hid).1] at hheld
      rw [(hsame id' hid').1] at hheld'
      exact h id id' held held' hheld hheld' hbytes heq

theorem Current.stop (h : s.Current table index) :
    Current { s with held := s.held.insert ⟨table, index⟩ {} } table (index + 1) where
  sound := h.sound.add h.before .stop
  before := h.before.add _ _
  distinct := by
    refine h.distinct.of_sameUpTo (Adds.sameUpTo .stop) (h.before.add _ _) ?_
    intro held other place hheld hbytes
    rw [find?_insert_self] at hheld
    obtain rfl := Option.some.inj hheld
    cases hbytes

theorem Current.record (h : s.Current table index) (position : Int) (bytes : List UInt8) :
    (s.record ⟨table, index⟩ position bytes).Current table (index + 1) := by
  have hrecorded : (s.record ⟨table, index⟩ position bytes).Recorded ⟨table, index⟩ position bytes :=
    h.sound.recorded_record h.before
  have hsame : s.SameUpTo (s.record ⟨table, index⟩ position bytes) ⟨table, index⟩ :=
    h.sound.sameUpTo_record
  obtain ⟨held, copies, hadds, hrecord⟩ := h.sound.exists_adds_record table index position bytes
  have hbefore : (s.record ⟨table, index⟩ position bytes).Before table (index + 1) := by
    rw [hrecord]
    exact h.before.add _ _
  refine ⟨?_, hbefore, ?_⟩
  · rw [hrecord]
    exact h.sound.add h.before hadds
  · refine h.distinct.of_sameUpTo hsame hbefore fun held other place hheld hbytes hother hplace => ?_
    obtain ⟨hown, hnew⟩ := hrecorded.bytes_cases hheld hbytes
    rw [hown]
    exact hnew other place hother hplace

/-- The records of the pointers of a table, from an index on. -/
structure Slots (image : ByteArray) (s : Survey) (table : Nat) (bank : Int) (index : Nat)
    (pointers : List Nat) : Prop where
  recorded : ∀ j pointer, pointers[j]? = some pointer → ∃ bytes,
    BytesAt image bank pointers j bytes ∧ (s.IsEnd ⟨table, index + j⟩ ∨
      s.Recorded ⟨table, index + j⟩ (flat ⟨bank, pointer⟩) bytes)
  /-- A pointer that marks the end does so wherever it comes again. -/
  ends : ∀ j j' pointer, j ≤ j' → pointers[j]? = some pointer → pointers[j']? = some pointer →
    s.IsEnd ⟨table, index + j⟩ → s.IsEnd ⟨table, index + j'⟩

theorem Slots.of_sameUpTo {image : ByteArray} {bank : Int} {pointers : List Nat}
    (h : Slots image s table bank index pointers) (hsame : s.SameUpTo s' ⟨table + 1, 0⟩) :
    Slots image s' table bank index pointers := by
  have hbefore : ∀ j, MapId.Before ⟨table, j⟩ ⟨table + 1, 0⟩ := fun j => .inl (Nat.lt_succ_self _)
  constructor
  · intro j pointer hj
    obtain ⟨bytes, hbytes, hcases⟩ := h.recorded j pointer hj
    refine ⟨bytes, hbytes, hcases.imp (hsame.isEnd_iff (hbefore _)).2 fun hr => ?_⟩
    exact hr.of_sameUpTo hsame (hbefore _)
  · intro j j' pointer hle hj hj' hend
    rw [hsame.isEnd_iff (hbefore _)] at hend ⊢
    exact h.ends j j' pointer hle hj hj' hend

section

variable {image : ByteArray} {bank : Int} {last : Nat} {ends : Bool} {pointers : List Nat}

/-- The survey after one pointer, which marks the end or leads to a map. -/
def next (s : Survey) (id : MapId) (stops : Bool) (position : Int) (bytes : List UInt8) : Survey :=
  if stops then { s with held := s.held.insert id {} } else s.record id position bytes

theorem Current.next (h : s.Current table index) (stops : Bool) (position : Int)
    (bytes : List UInt8) :
    (s.next ⟨table, index⟩ stops position bytes).Current table (index + 1) ∧
      s.SameUpTo (s.next ⟨table, index⟩ stops position bytes) ⟨table, index⟩ ∧
      if stops then (s.next ⟨table, index⟩ stops position bytes).IsEnd ⟨table, index⟩
      else (s.next ⟨table, index⟩ stops position bytes).Recorded ⟨table, index⟩ position bytes := by
  cases stops with
  | true =>
    refine ⟨h.stop, Adds.sameUpTo .stop, find?_insert_self .., ?_⟩
    exact h.sound.notMem_copies h.before.notMem
  | false =>
    exact ⟨h.record position bytes, h.sound.sameUpTo_record, h.sound.recorded_record h.before⟩

theorem exists_of_addMaps_cons {pointer : Nat}
    (h : addMaps image table bank last ends index s (pointer :: pointers) = .ok s') :
    ∃ bytes, BytesAt image bank (pointer :: pointers) 0 bytes ∧ ∃ ends' : Bool,
      (ends = true → ends' = true) ∧
      addMaps image table bank last ends' (index + 1)
        (s.next ⟨table, index⟩ (pointer = last ∧ ends') (flat ⟨bank, pointer⟩) bytes)
        pointers = .ok s' := by
  have hnext : (pointer :: pointers)[0 + 1]?.getD 0 = pointers.headD 0 := by
    cases pointers <;> rfl
  simp only [addMaps, bind_ok_iff] at h
  obtain ⟨start, hstart, bytes, hbytes, h⟩ := h
  refine ⟨bytes, ⟨pointer, start, rfl, hstart, ?_⟩,
    ends || (pointer == last && 0x8000 ≤ pointer + bytes.length), fun hends => ?_, ?_⟩
  · rwa [hnext]
  · rw [hends, Bool.true_or]
  · simp only [next, decide_eq_true_eq]
    exact h

theorem Current.addMaps (h : s.Current table index)
    (hmaps : addMaps image table bank last ends index s pointers = .ok s') :
    s'.Current (table + 1) 0 ∧ s.SameUpTo s' ⟨table, index⟩ ∧
      Slots image s' table bank index pointers ∧
      (ends = true → ∀ j, pointers[j]? = some last → s'.IsEnd ⟨table, index + j⟩) := by
  induction pointers generalizing s index ends with
  | nil =>
    cases hmaps
    refine ⟨⟨h.sound, fun k hk => ?_, h.distinct⟩, fun k hk => ⟨rfl, rfl⟩, ⟨?_, ?_⟩, ?_⟩
    · exact before_next_table (h.before k hk)
    · intro j pointer hj
      cases hj
    · intro j j' pointer _ hj
      cases hj
    · intro _ j hj
      cases hj
  | cons pointer rest ih =>
    obtain ⟨bytes, hbytes, ends', hends', hrest⟩ := exists_of_addMaps_cons hmaps
    obtain ⟨hcurrent, hsame, hfirst⟩ := h.next (pointer = last ∧ ends') (flat ⟨bank, pointer⟩) bytes
    obtain ⟨hafter, hkept, hslots, hstop⟩ := ih hcurrent hrest
    have hbefore : MapId.Before ⟨table, index⟩ ⟨table, index + 1⟩ := .inr ⟨rfl, Nat.lt_succ_self _⟩
    have hshift : ∀ j, index + (j + 1) = index + 1 + j := fun j => by omega
    -- the first pointer is an end exactly if it is the one that marks the end
    have hkind : if pointer = last ∧ ends' then s'.IsEnd ⟨table, index⟩
        else s'.Recorded ⟨table, index⟩ (flat ⟨bank, pointer⟩) bytes := by
      simp only [decide_eq_true_eq] at hfirst
      by_cases hlast : pointer = last ∧ ends'
      · rw [if_pos hlast] at hfirst ⊢
        exact (hkept.isEnd_iff hbefore).2 hfirst
      · rw [if_neg hlast] at hfirst ⊢
        exact hfirst.of_sameUpTo hkept hbefore
    refine ⟨hafter, hsame.trans (hkept.mono fun k => before_next_index), ⟨?_, ?_⟩, ?_⟩
    · intro j pointer' hj
      cases j with
      | zero =>
        obtain rfl := Option.some.inj hj
        refine ⟨bytes, hbytes, ?_⟩
        split at hkind
        · exact .inl hkind
        · exact .inr hkind
      | succ j =>
        obtain ⟨bytes', hbytes', hcases⟩ := hslots.recorded j pointer' hj
        rw [hshift]
        exact ⟨bytes', hbytes', hcases⟩
    · intro j j' pointer' hle hj hj' hend
      cases j' with
      | zero =>
        obtain rfl := Nat.le_zero.1 hle
        exact hend
      | succ j' =>
        rw [hshift]
        cases j with
        | zero =>
          obtain rfl := Option.some.inj hj
          split at hkind
          · rename_i hlast
            exact hstop hlast.2 j' (hlast.1 ▸ hj')
          · exact absurd hend hkind.not_isEnd
        | succ j =>
          rw [hshift] at hend
          exact hslots.ends j j' pointer' (Nat.le_of_succ_le_succ hle) hj hj' hend
    · intro hends j hj
      cases j with
      | zero =>
        rwa [if_pos ⟨Option.some.inj hj, hends' hends⟩] at hkind
      | succ j =>
        rw [hshift]
        exact hstop (hends' hends) j hj

end

theorem Current.addTables {image : ByteArray} (h : s.Current table 0)
    (hfold : (tables.zipIdx table).foldlM (addTable image) s = .ok s') :
    s'.Distinct ∧ s.SameUpTo s' ⟨table, 0⟩ ∧ ∀ t a, tables[t]? = some a →
      ∃ pointers, readTable image a = .ok pointers ∧
        Slots image s' (table + t) a.bank 0 pointers := by
  induction tables generalizing table s with
  | nil =>
    cases hfold
    refine ⟨h.distinct, fun k hk => ⟨rfl, rfl⟩, fun t a ht => ?_⟩
    cases ht
  | cons a tables ih =>
    rw [List.zipIdx_cons, List.foldlM_cons, bind_ok_iff] at hfold
    obtain ⟨s₁, hfirst, hrest⟩ := hfold
    simp only [addTable, bind_ok_iff] at hfirst
    obtain ⟨pointers, hpointers, hfirst⟩ := hfirst
    split at hfirst
    · obtain ⟨hcurrent, hsame, hslots, -⟩ := h.addMaps hfirst
      obtain ⟨hdistinct, hkept, hothers⟩ := ih hcurrent hrest
      refine ⟨hdistinct, hsame.trans (hkept.mono fun k => before_next_table), ?_⟩
      intro t a' ht
      cases t with
      | zero =>
        obtain rfl := Option.some.inj ht
        exact ⟨pointers, hpointers, hslots.of_sameUpTo hkept⟩
      | succ t =>
        obtain ⟨pointers', hpointers', hslots'⟩ := hothers t a' ht
        rw [show table + (t + 1) = table + 1 + t by omega]
        exact ⟨pointers', hpointers', hslots'⟩
    · cases hfirst

/-- **Every survey** records the pointers of its tables one by one. -/
theorem slots_read {image : ByteArray} {t : Nat} {a : Address} {pointers : List Nat}
    (h : read image tables = .ok s) (ht : tables[t]? = some a)
    (hpointers : readTable image a = .ok pointers) :
    s.Distinct ∧ Slots image s t a.bank 0 pointers := by
  have hnone : Current {} 0 0 :=
    ⟨⟨.nil, .nil, .nil, .nil, fun e he => absurd he List.not_mem_nil, fun id h hid => by cases hid⟩,
      fun k hk => absurd hk List.not_mem_nil, fun id _ held _ hid => by cases hid⟩
  obtain ⟨hdistinct, -, hslots⟩ := hnone.addTables h
  obtain ⟨pointers', hpointers', hslots'⟩ := hslots t a ht
  obtain rfl := Except.ok.inj (hpointers.symm.trans hpointers')
  rw [Nat.zero_add] at hslots'
  exact ⟨hdistinct, hslots'⟩

end Survey

end Cartridge.Tilemap
