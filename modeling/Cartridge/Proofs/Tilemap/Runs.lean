import Cartridge.Proofs.Tilemap.Records

/-!
# Runs of equal pointers

Where pointers of a table that follow each other are equal, the maps after the first are recorded as
exact copies of it, with two exceptions.  The record of an exact copy has no position, so that the
next map is not compared with it but looked up by its bytes; if the run starts with a copy of a map
from elsewhere, every other map is then such a copy again.  And the bytes of the last map of a run
may reach further than those of the others.

Main result: `Survey.RunRecorded.isExact_iff`.
-/

namespace Cartridge.Tilemap

open Address

/-- The pointers from an index on are equal, `n` more than the first, and no others next to them. -/
structure Run (pointers : List Nat) (pointer i n : Nat) : Prop where
  same : ∀ k ≤ n, pointers[i + k]? = some pointer
  first : i ≠ 0 → pointers[i - 1]? ≠ some pointer
  last : pointers[i + n + 1]? ≠ some pointer

theorem flat_inj {bank : Int} {a b : Nat} (h : flat ⟨bank, a⟩ = flat ⟨bank, b⟩) : a = b := by
  simp only [flat] at h
  omega

theorem BytesAt.unique {image : ByteArray} {bank : Int} {pointers : List Nat} {j j' : Nat}
    {bytes bytes' : List UInt8} (h : BytesAt image bank pointers j bytes)
    (h' : BytesAt image bank pointers j' bytes') (hj : pointers[j]? = pointers[j']?)
    (hnext : pointers[j + 1]? = pointers[j' + 1]?) : bytes = bytes' := by
  obtain ⟨pointer, start, hpointer, hstart, hbytes⟩ := h
  obtain ⟨pointer', start', hpointer', hstart', hbytes'⟩ := h'
  rw [hj, hpointer', Option.some.injEq] at hpointer
  subst hpointer
  rw [hstart', Except.ok.injEq] at hstart
  subst hstart
  rw [hnext, hbytes', Except.ok.injEq] at hbytes
  exact hbytes.symm

namespace Survey

variable {s : Survey} {id : MapId} {held : Held} {position : Int} {t i n : Nat} {bytes : List UInt8}

/-- A map before the given one holds the bytes at the position. -/
def HeldBefore (s : Survey) (id : MapId) (position : Int) (bytes : List UInt8) : Prop :=
  ∃ other : MapId, other.Before id ∧ s.held.find? other = some ⟨some position, some bytes⟩

theorem Recorded.exists_place (h : s.Recorded id position bytes) (hexact : ¬s.IsExact id) :
    ∃ b, s.held.find? id = some ⟨some position, b⟩ := by
  cases h with
  | adjacent _ hheld hcopy | same _ _ _ hheld hcopy => exact absurd ⟨hheld, hcopy⟩ hexact
  | copy _ _ _ _ _ hheld => exact ⟨none, hheld⟩
  | own _ _ hheld => exact ⟨some bytes, hheld⟩

/-- **Exact copies** are those of the map right before, and of a map with the same bytes at the same
position. -/
theorem Recorded.isExact_iff (h : s.Recorded id position bytes) (hdistinct : s.Distinct) :
    s.IsExact id ↔ s.Adjacent id position ∨ s.HeldBefore id position bytes := by
  cases h with
  | adjacent hadjacent hheld hcopy => exact ⟨fun _ => .inl hadjacent, fun _ => ⟨hheld, hcopy⟩⟩
  | same hadjacent hother hsource hheld hcopy =>
    exact ⟨fun _ => .inr ⟨_, hother, hsource⟩, fun _ => ⟨hheld, hcopy⟩⟩
  | copy hadjacent hother hsource hbytes hplace hheld =>
    constructor
    · rintro ⟨hnone, -⟩
      cases hheld.symm.trans hnone
    · rintro (hadjacent' | ⟨other', -, hsource'⟩)
      · exact absurd hadjacent' hadjacent
      · obtain rfl := hdistinct _ _ _ _ hsource' hsource rfl hbytes.symm
        obtain rfl := Option.some.inj (hsource'.symm.trans hsource)
        exact absurd rfl hplace
  | own hadjacent hnew hheld =>
    constructor
    · rintro ⟨hnone, -⟩
      cases hheld.symm.trans hnone
    · rintro (hadjacent' | ⟨other', hother', hsource'⟩)
      · exact absurd hadjacent' hadjacent
      · exact absurd rfl (hnew other' _ hother' hsource')

/-- The records of a run up to its map `n`. -/
structure RunRecorded (s : Survey) (t i n : Nat) (position : Int) (bytes : Nat → List UInt8) :
    Prop where
  distinct : s.Distinct
  recorded : ∀ k ≤ n, s.Recorded ⟨t, i + k⟩ position (bytes k)
  start : ¬s.Adjacent ⟨t, i⟩ position
  same : ∀ k < n, bytes k = bytes 0

namespace RunRecorded

variable {bytes : Nat → List UInt8}

section

variable (h : s.RunRecorded t i n position bytes)

include h

theorem mono {m : Nat} (hm : m ≤ n) :
    s.RunRecorded t i m position bytes where
  distinct := h.distinct
  recorded k hk := h.recorded k (Nat.le_trans hk hm)
  start := h.start
  same k hk := h.same k (Nat.lt_of_lt_of_le hk hm)

theorem first_cases :
    (s.held.find? ⟨t, i⟩ = some {} ∧ s.HeldBefore ⟨t, i⟩ position (bytes 0)) ∨
      (s.held.find? ⟨t, i⟩ = some ⟨some position, none⟩ ∧ ¬s.HeldBefore ⟨t, i⟩ position (bytes 0)) ∨
      (s.held.find? ⟨t, i⟩ = some ⟨some position, some (bytes 0)⟩ ∧
        ¬s.HeldBefore ⟨t, i⟩ position (bytes 0)) := by
  have hrecorded : s.Recorded ⟨t, i⟩ position (bytes 0) := h.recorded 0 (Nat.zero_le n)
  have hexact := hrecorded.isExact_iff h.distinct
  rw [or_iff_right h.start] at hexact
  by_cases hbefore : s.HeldBefore ⟨t, i⟩ position (bytes 0)
  · exact .inl ⟨(hexact.2 hbefore).1, hbefore⟩
  · obtain ⟨b, hheld⟩ := hrecorded.exists_place (mt hexact.1 hbefore)
    cases b with
    | none => exact .inr (.inl ⟨hheld, hbefore⟩)
    | some b =>
      have hb := (hrecorded.bytes_cases hheld rfl).1
      exact .inr (.inr ⟨hb ▸ hheld, hbefore⟩)

theorem exists_holder :
    ∃ other held, other.Before ⟨t, i + 1⟩ ∧ s.held.find? other = some held ∧
      held.bytes = some (bytes 0) := by
  cases h.recorded 0 (Nat.zero_le n) with
  | adjacent hadjacent => exact absurd hadjacent h.start
  | same _ hother hsource => exact ⟨_, _, before_next_index hother, hsource, rfl⟩
  | copy _ hother hsource hbytes => exact ⟨_, _, before_next_index hother, hsource, hbytes⟩
  | own _ _ hheld => exact ⟨⟨t, i⟩, _, .inr ⟨rfl, Nat.lt_succ_self i⟩, hheld, rfl⟩

theorem bytes_eq_none {k : Nat} (hk : 0 < k) (hkn : k < n)
    (hheld : s.held.find? ⟨t, i + k⟩ = some held) : held.bytes = none := by
  by_contra hsome
  obtain ⟨-, hnew⟩ := (h.recorded k (Nat.le_of_lt hkn)).bytes_cases hheld
    (Option.isSome_iff_ne_none.2 hsome)
  obtain ⟨other, place, hother, hplace, hbytes⟩ := h.exists_holder
  have hbefore : other.Before ⟨t, i + k⟩ := by
    unfold MapId.Before at hother ⊢
    simp only at hother ⊢
    omega
  rw [h.same k hkn] at hnew
  exact hnew other place hbefore hplace hbytes

end

theorem heldBefore_iff (h : s.RunRecorded t i (n + 1) position bytes) (b : List UInt8) :
    s.HeldBefore ⟨t, i + (n + 1)⟩ position b ↔ s.HeldBefore ⟨t, i⟩ position b ∨
      s.held.find? ⟨t, i⟩ = some ⟨some position, some b⟩ := by
  constructor
  · rintro ⟨⟨t', j⟩, hother, hheld⟩
    by_cases hrun : t' = t ∧ i ≤ j
    · obtain ⟨rfl, hle⟩ := hrun
      obtain ⟨k, rfl⟩ := Nat.exists_eq_add_of_le hle
      have hkn : k < n + 1 := by
        unfold MapId.Before at hother
        simp only at hother
        omega
      cases k with
      | zero => exact .inr hheld
      | succ k => cases h.bytes_eq_none (Nat.succ_pos k) hkn hheld
    · refine .inl ⟨⟨t', j⟩, ?_, hheld⟩
      unfold MapId.Before at hother ⊢
      simp only at hother ⊢
      omega
  · rintro (⟨other, hother, hheld⟩ | hheld)
    · refine ⟨other, ?_, hheld⟩
      unfold MapId.Before at hother ⊢
      simp only at hother ⊢
      omega
    · exact ⟨⟨t, i⟩, .inr ⟨rfl, by simp⟩, hheld⟩

/-- **From one map of a run to the next**: an exact copy comes after a map that is none, and where
the bytes are held at the position. -/
theorem step (h : s.RunRecorded t i (n + 1) position bytes) :
    s.IsExact ⟨t, i + (n + 1)⟩ ↔ ¬s.IsExact ⟨t, i + n⟩ ∨
      s.HeldBefore ⟨t, i⟩ position (bytes (n + 1)) ∨
      s.held.find? ⟨t, i⟩ = some ⟨some position, some (bytes (n + 1))⟩ := by
  have hadjacent : s.Adjacent ⟨t, i + (n + 1)⟩ position ↔ ¬s.IsExact ⟨t, i + n⟩ := by
    constructor
    · rintro ⟨-, hplace⟩ hexact
      rw [show i + (n + 1) - 1 = i + n by omega, hexact.1] at hplace
      cases hplace
    · intro hexact
      obtain ⟨b, hheld⟩ := (h.recorded n (Nat.le_succ n)).exists_place hexact
      refine ⟨Nat.succ_ne_zero _, ?_⟩
      rw [show i + (n + 1) - 1 = i + n by omega, hheld]
      rfl
  rw [(h.recorded (n + 1) (Nat.le_refl _)).isExact_iff h.distinct, hadjacent, h.heldBefore_iff]

theorem isExact_iff_of_bytes_eq (h : s.RunRecorded t i n position bytes)
    (hbytes : bytes n = bytes 0) :
    s.IsExact ⟨t, i + n⟩ ↔ s.HeldBefore ⟨t, i⟩ position (bytes 0) ∨
      (s.held.find? ⟨t, i⟩ = some ⟨some position, some (bytes 0)⟩ ∧ n ≠ 0) ∨
      (s.held.find? ⟨t, i⟩ = some ⟨some position, none⟩ ∧ n % 2 = 1) := by
  induction n with
  | zero =>
    rw [(h.recorded 0 (Nat.le_refl 0)).isExact_iff h.distinct]
    simp [h.start]
  | succ n ih =>
    have hprevious := ih (h.mono (Nat.le_succ n)) (h.same n (Nat.lt_succ_self n))
    rw [h.step, hprevious, hbytes]
    obtain ⟨hheld, hbefore⟩ | ⟨hheld, hbefore⟩ | ⟨hheld, hbefore⟩ := h.first_cases
    · simp [hheld, hbefore]
    · simp [hheld, hbefore]
      omega
    · simp [hheld, hbefore]

/-- **Exact copies in a run**: a map whose bytes are held before the run at its position; after a
first map with bytes of its own the second one, and all with the same bytes; after a copy from
elsewhere every other one. -/
theorem isExact_iff (h : s.RunRecorded t i n position bytes) (hn : 0 < n) :
    s.IsExact ⟨t, i + n⟩ ↔ s.HeldBefore ⟨t, i⟩ position (bytes n) ∨
      (s.held.find? ⟨t, i⟩ = some ⟨some position, some (bytes 0)⟩ ∧ (n = 1 ∨ bytes n = bytes 0)) ∨
      (s.held.find? ⟨t, i⟩ = some ⟨some position, none⟩ ∧ n % 2 = 1) := by
  obtain ⟨m, rfl⟩ := Nat.exists_eq_add_of_lt hn
  rw [Nat.zero_add] at h ⊢
  have hprevious := (h.mono (Nat.le_succ m)).isExact_iff_of_bytes_eq (h.same m (Nat.lt_succ_self m))
  rw [h.step, hprevious]
  obtain ⟨hheld, hbefore⟩ | ⟨hheld, hbefore⟩ | ⟨hheld, hbefore⟩ := h.first_cases
  · simp [hheld, hbefore]
  · have hodd : (m + 1) % 2 = 1 ↔ m % 2 = 0 := by omega
    simp [hheld, hbefore, hodd, or_comm]
  · simp [hheld, hbefore, eq_comm, or_left_comm]

end RunRecorded

/-! ### Runs in tables -/

variable {image : ByteArray} {bank : Int} {pointers : List Nat} {pointer k : Nat}

theorem Slots.not_adjacent (hslots : Slots image s t bank 0 pointers)
    (hrun : Run pointers pointer i n) : ¬s.Adjacent ⟨t, i⟩ (flat ⟨bank, pointer⟩) := by
  rintro ⟨hi, hplace⟩
  obtain ⟨held, hheld, hposition⟩ := Option.bind_eq_some_iff.1 hplace
  have hlt : i < pointers.length := (List.getElem?_eq_some_iff.1 (hrun.same 0 (Nat.zero_le n))).1
  obtain ⟨before, hbefore⟩ : ∃ before, pointers[i - 1]? = some before :=
    ⟨_, List.getElem?_eq_getElem (by omega)⟩
  obtain ⟨bytes, -, hend | hrecorded⟩ := hslots.recorded (i - 1) before hbefore
  · rw [Nat.zero_add] at hend
    obtain rfl := Option.some.inj (hheld.symm.trans hend.1)
    cases hposition
  · rw [Nat.zero_add] at hrecorded
    by_cases hexact : s.IsExact ⟨t, i - 1⟩
    · obtain rfl := Option.some.inj (hheld.symm.trans hexact.1)
      cases hposition
    · obtain ⟨b, hheld'⟩ := hrecorded.exists_place hexact
      obtain rfl := Option.some.inj (hheld.symm.trans hheld')
      refine hrun.first hi ?_
      rw [hbefore, flat_inj (Option.some.inj hposition)]

theorem Slots.exists_runRecorded (hdistinct : s.Distinct)
    (hslots : Slots image s t bank 0 pointers) (hrun : Run pointers pointer i n) (hk : k ≤ n)
    (hend : ¬s.IsEnd ⟨t, i + k⟩) : ∃ bytes : Nat → List UInt8,
      (∀ m ≤ k, BytesAt image bank pointers (i + m) (bytes m)) ∧
        s.RunRecorded t i k (flat ⟨bank, pointer⟩) bytes := by
  have hall : ∀ m ≤ k, ∃ b, BytesAt image bank pointers (i + m) b ∧
      s.Recorded ⟨t, i + m⟩ (flat ⟨bank, pointer⟩) b := by
    intro m hm
    obtain ⟨b, hb, hstop | hrecorded⟩ := hslots.recorded (i + m) pointer (hrun.same m (by omega))
    · have hlater := hslots.ends (i + m) (i + k) pointer (by omega) (hrun.same m (by omega))
        (hrun.same k hk) hstop
      rw [Nat.zero_add] at hlater
      exact absurd hlater hend
    · rw [Nat.zero_add] at hrecorded
      exact ⟨b, hb, hrecorded⟩
  choose! bytes hbytes hrecorded using hall
  refine ⟨bytes, hbytes, hdistinct, hrecorded, hslots.not_adjacent hrun, fun m hm => ?_⟩
  refine (hbytes m (by omega)).unique (hbytes 0 (by omega)) ?_ ?_
  · rw [hrun.same m (by omega), hrun.same 0 (by omega)]
  · exact (hrun.same (m + 1) (by omega)).trans (hrun.same 1 (by omega)).symm

/-- **Runs of equal pointers.**  The maps after the first of a run are read alike but for the last.
Each is an exact copy or has a place of its own, and it is an exact copy exactly if its bytes are
held at its position before the run; or if the first map holds bytes of its own and the map is the
second or has the same; or if the first map is a copy from elsewhere and the map is at an odd
distance from it. -/
theorem isExact_in_run_iff {tables : List Address} {a : Address}
    (hread : Survey.read image tables = .ok s) (ht : tables[t]? = some a)
    (hpointers : readTable image a = .ok pointers) (hrun : Run pointers pointer i n) (hk : 0 < k)
    (hkn : k ≤ n) (hend : ¬s.IsEnd ⟨t, i + k⟩) :
    ∃ first own, BytesAt image a.bank pointers i first ∧
      BytesAt image a.bank pointers (i + k) own ∧ (k < n → own = first) ∧
      (s.IsExact ⟨t, i + k⟩ ∨
        ∃ b, s.held.find? ⟨t, i + k⟩ = some ⟨some (Address.flat ⟨a.bank, pointer⟩), b⟩) ∧
      (s.IsExact ⟨t, i + k⟩ ↔
        s.HeldBefore ⟨t, i⟩ (Address.flat ⟨a.bank, pointer⟩) own ∨
        (s.held.find? ⟨t, i⟩ = some ⟨some (Address.flat ⟨a.bank, pointer⟩), some first⟩ ∧
          (k = 1 ∨ own = first)) ∨
        (s.held.find? ⟨t, i⟩ = some ⟨some (Address.flat ⟨a.bank, pointer⟩), none⟩ ∧
          k % 2 = 1)) := by
  obtain ⟨hdistinct, hslots⟩ := slots_read hread ht hpointers
  obtain ⟨bytes, hbytes, hrecorded⟩ := hslots.exists_runRecorded hdistinct hrun hkn hend
  refine ⟨bytes 0, bytes k, hbytes 0 (Nat.zero_le k), hbytes k (Nat.le_refl k), fun hlt => ?_, ?_,
    hrecorded.isExact_iff hk⟩
  · refine (hbytes k (Nat.le_refl k)).unique (hbytes 0 (Nat.zero_le k)) ?_ ?_
    · rw [hrun.same k hkn, hrun.same 0 (Nat.zero_le n)]
    · exact (hrun.same (k + 1) hlt).trans (hrun.same 1 (by omega)).symm
  · rw [or_iff_not_imp_left]
    exact (hrecorded.recorded k (Nat.le_refl k)).exists_place

/-! ### Samples -/

/-- The pointers of a table with two runs before its end. -/
def runPointers : List Nat := [20, 23, 23, 23, 26, 26, 26, 32, 32, 32]

/-- A table at the start of an image.  The first run leads to a copy of the first map, and the last
map of the second run reaches up to the end of the table's maps. -/
def runImage : ByteArray :=
  ⟨(runPointers.flatMap (Bytes.wordBytes ·) ++
    [0, 1, 255, 0, 1, 255, 0, 2, 255, 0, 3, 255, 255]).toArray⟩

def runSurvey : Survey where
  held := ⟨[(⟨0, 0⟩, ⟨some 20, some [0, 1]⟩), (⟨0, 1⟩, ⟨some 23, none⟩), (⟨0, 2⟩, {}),
    (⟨0, 3⟩, ⟨some 23, none⟩), (⟨0, 4⟩, ⟨some 26, some [0, 2]⟩), (⟨0, 5⟩, {}),
    (⟨0, 6⟩, ⟨some 26, some [0, 2, 255, 0, 3]⟩), (⟨0, 7⟩, {}), (⟨0, 8⟩, {}), (⟨0, 9⟩, {})]⟩
  copies := ⟨[(⟨0, 1⟩, ⟨0, 0⟩), (⟨0, 2⟩, ⟨0, 1⟩), (⟨0, 3⟩, ⟨0, 0⟩), (⟨0, 5⟩, ⟨0, 4⟩)]⟩

theorem read_runImage : Survey.read runImage [⟨1, 0⟩] = .ok runSurvey := by
  have hentries : (fun s : Survey => (s.held.entries, s.copies.entries)) <$>
      Survey.read runImage [⟨1, 0⟩] = .ok (runSurvey.held.entries, runSurvey.copies.entries) := by
    decide +kernel
  obtain ⟨⟨⟨_⟩, ⟨_⟩⟩, hread, heq⟩ := map_ok_iff.1 hentries
  obtain ⟨rfl, rfl⟩ := Prod.mk.inj heq
  exact hread

theorem readTable_runImage : readTable runImage ⟨1, 0⟩ = .ok runPointers := by
  decide +kernel

theorem isExact_in_run_iff_sample :
    Run runPointers 23 1 2 ∧ ¬runSurvey.IsEnd ⟨0, 2⟩ ∧ runSurvey.IsExact ⟨0, 2⟩ := by
  have hrun : Run runPointers 23 1 2 := ⟨by decide, by decide, by decide⟩
  have hend : ¬runSurvey.IsEnd ⟨0, 2⟩ := by
    rintro ⟨-, hcopy⟩
    exact absurd hcopy (by decide)
  obtain ⟨first, own, -, -, -, -, hexact⟩ := isExact_in_run_iff read_runImage rfl readTable_runImage
    hrun Nat.zero_lt_one (by decide) hend
  exact ⟨hrun, hend, hexact.2 (.inr (.inr ⟨by decide, rfl⟩))⟩

/-- The third map of a run can be a copy with a place of its own, or hold bytes of its own. -/
theorem exists_run_without_exact_copy :
    ∃ s, Survey.read runImage [⟨1, 0⟩] = .ok s ∧ readTable runImage ⟨1, 0⟩ = .ok runPointers ∧
      Run runPointers 23 1 2 ∧ s.held.find? ⟨0, 3⟩ = some ⟨some 23, none⟩ ∧
      Run runPointers 26 4 2 ∧ s.held.find? ⟨0, 6⟩ = some ⟨some 26, some [0, 2, 255, 0, 3]⟩ :=
  ⟨runSurvey, read_runImage, readTable_runImage, ⟨by decide, by decide, by decide⟩, by decide,
    ⟨by decide, by decide, by decide⟩, by decide⟩

end Survey

end Cartridge.Tilemap
