import Cartridge.Proofs.Dialog.Shapes

/-!
# How far a text goes

The room of a text counts its codes.  The arguments of a command are read along with it and do not
count, and neither do the two bytes behind the last text of a section.

Main results: `Scan.pos_of_pass` and `Scan.pos_lt_of_pass_iff`.
-/

namespace Cartridge.Dialog

open Token

variable {f : Font} {ns : Names} {image : ByteArray} {final : Bool} {left pos next b : Nat}
  {done : List Char} {seg : Segment} {e : Fault}

/-! ### One code -/

def advance? (f : Font) (image : ByteArray) (final : Bool) (pos : Nat) (done : List Char)
    (names : Names) : Option (Nat × Option (List Char × Names)) :=
  (byte? image pos).map fun b =>
    if done = [' ', ' ', ' ', ' '] then (pos + 1, if final then none else some (done, names))
    else match readToken f image b (pos + 1) with
      | .shown text next => (next, some (text.reverse ++ done, names))
      | .insertion address next =>
        let (name, names) := names.name address
        (next, some ((bracketed ("&" ++ name)).reverse ++ done, names))
      | .stop code next => (if code ≤ lastEndCode then next else next - 1, none)
      | .broken next => (next, if final then none else some (done, names))
      | .unknown =>
        (pos + 1,
          if final then none else some ((bracketed ("$" ++ digits b)).reverse ++ done, names))

/-- **One code** takes up one to four bytes of the image. -/
theorem lt_of_advance? {rest : Option (List Char × Names)}
    (h : advance? f image final pos done ns = some (next, rest)) :
    pos < next ∧ next ≤ pos + 4 ∧ next ≤ image.size := by
  simp only [advance?, Option.map_eq_some_iff] at h
  obtain ⟨b, hb, h⟩ := h
  have hpos := (exists_byte hb).2
  by_cases hblank : done = [' ', ' ', ' ', ' ']
  · rw [if_pos hblank] at h
    cases h
    omega
  rw [if_neg hblank] at h
  cases hread : readToken f image b (pos + 1) with
  | shown text n =>
    rw [hread] at h
    cases h
    obtain ⟨-, hle, hclose, hsize⟩ := Token.fits ns hb hread
    exact ⟨hle, hclose, hsize hpos⟩
  | insertion address n | broken n =>
    rw [hread] at h
    cases h
    obtain ⟨hle, hclose, hsize⟩ := Token.fits ns hb hread
    exact ⟨hle, hclose, hsize hpos⟩
  | stop code n =>
    -- a byte that is given back is an argument, never the code itself
    rw [hread] at h
    cases h
    obtain ⟨hcode, rfl⟩ := Token.fits ns hb hread
    have := (exists_byte hcode).2
    split <;> omega
  | unknown =>
    rw [hread] at h
    cases h
    omega

theorem advance?_of_readTokens
    (h : readTokens f image final (left + 1) pos done ns = .ok seg) :
    advance? f image final pos done ns = some (seg.next, none) ∨
      ∃ next done' ns', advance? f image final pos done ns = some (next, some (done', ns')) ∧
        readTokens f image final left next done' ns' = .ok seg := by
  rw [readTokens] at h
  cases hb : byte? image pos with
  | none =>
    rw [hb] at h
    cases h
  | some b =>
    simp only [hb] at h
    simp only [advance?, hb, Option.map_some, Option.some.injEq]
    by_cases hblank : done = [' ', ' ', ' ', ' ']
    · simp only [if_pos hblank] at h ⊢
      cases final with
      | true =>
        cases h
        exact .inl rfl
      | false => exact .inr ⟨_, _, _, rfl, h⟩
    simp only [if_neg hblank] at h ⊢
    cases hread : readToken f image b (pos + 1) with
    | shown text n | insertion address n =>
      rw [hread] at h
      exact .inr ⟨_, _, _, rfl, h⟩
    | stop code n =>
      rw [hread] at h
      cases h
      exact .inl rfl
    | broken n | unknown =>
      rw [hread] at h
      cases final with
      | true =>
        cases h
        exact .inl rfl
      | false => exact .inr ⟨_, _, _, rfl, h⟩

/-! ### One text -/

def widths (f : Font) (image : ByteArray) (final : Bool) :
    Nat → Nat → List Char → Names → List Nat
  | 0, _, _, _ => []
  | left + 1, pos, done, names =>
    match advance? f image final pos done names with
    | none => []
    | some (next, none) => [next - pos]
    | some (next, some (done, names)) => (next - pos) :: widths f image final left next done names

theorem length_widths_le (f : Font) (image : ByteArray) (final : Bool) (left pos : Nat)
    (done : List Char) (ns : Names) : (widths f image final left pos done ns).length ≤ left := by
  fun_induction widths f image final left pos done ns with
  | case1 | case2 => exact Nat.zero_le _
  | case3 => exact Nat.succ_le_succ (Nat.zero_le _)
  | case4 left pos done ns next done' ns' hadvance ih => exact Nat.succ_le_succ ih

theorem forall_mem_widths (f : Font) (image : ByteArray) (final : Bool) (left pos : Nat)
    (done : List Char) (ns : Names) :
    ∀ n ∈ widths f image final left pos done ns, 1 ≤ n ∧ n ≤ 4 := by
  fun_induction widths f image final left pos done ns with
  | case1 | case2 => exact fun n hn => absurd hn List.not_mem_nil
  | case3 left pos done ns next hadvance =>
    intro n hn
    have := lt_of_advance? hadvance
    rw [List.mem_singleton.1 hn]
    omega
  | case4 left pos done ns next done' ns' hadvance ih =>
    intro n hn
    have := lt_of_advance? hadvance
    obtain rfl | hn := List.mem_cons.1 hn
    · omega
    · exact ih n hn

/-- **A reading ends where its codes end.** -/
theorem next_of_readTokens (h : readTokens f image final left pos done ns = .ok seg) :
    seg.next = pos + (widths f image final left pos done ns).sum := by
  induction left generalizing pos done ns with
  | zero =>
    cases h
    rfl
  | succ left ih =>
    rw [widths]
    obtain hadvance | ⟨next, done', ns', hadvance, hrest⟩ := advance?_of_readTokens h
    · have := lt_of_advance? hadvance
      simp only [hadvance, List.sum_singleton]
      omega
    · have := lt_of_advance? hadvance
      have := ih hrest
      simp only [hadvance, List.sum_cons]
      omega

theorem le_of_readTokens (hpos : pos ≤ image.size)
    (h : readTokens f image final left pos done ns = .ok seg) :
    pos ≤ seg.next ∧ seg.next ≤ image.size := by
  induction left generalizing pos done ns with
  | zero =>
    cases h
    exact ⟨le_rfl, hpos⟩
  | succ left ih =>
    obtain hadvance | ⟨next, done', ns', hadvance, hrest⟩ := advance?_of_readTokens h
    · obtain ⟨hlt, -, hsize⟩ := lt_of_advance? hadvance
      exact ⟨hlt.le, hsize⟩
    · obtain ⟨hlt, -, hsize⟩ := lt_of_advance? hadvance
      exact ⟨hlt.le.trans (ih hsize hrest).1, (ih hsize hrest).2⟩

theorem lt_of_readTokens (h : readTokens f image final (left + 1) pos done ns = .ok seg) :
    pos < seg.next ∧ seg.next ≤ image.size := by
  obtain hadvance | ⟨next, done', ns', hadvance, hrest⟩ := advance?_of_readTokens h
  · obtain ⟨hlt, -, hsize⟩ := lt_of_advance? hadvance
    exact ⟨hlt, hsize⟩
  · obtain ⟨hlt, -, hsize⟩ := lt_of_advance? hadvance
    exact ⟨hlt.trans_le (le_of_readTokens hsize hrest).1, (le_of_readTokens hsize hrest).2⟩

theorem eq_field_of_readTokens (h : readTokens f image final left pos done ns = .error e) :
    e = .plain .field := by
  fun_induction readTokens f image final left pos done ns with
  | case1 | case3 | case7 | case8 | case10 => cases h
  | case2 =>
    cases h
    rfl
  | case4 | case5 | case6 | case9 | case11 => exact ‹_ → _› h

/-! ### One pass -/

namespace Scan

variable {c : Course} {p : Pointer} {s s' : Scan}

def AtFinal (c : Course) (s : Scan) : Prop := c.finals.contains s.pos = true

instance (c : Course) (s : Scan) : Decidable (AtFinal c s) := inferInstanceAs (Decidable (_ = true))

def reading (c : Course) (p : Pointer) (s : Scan) : Except Fault Segment :=
  readTokens c.font c.image (c.finals.contains s.pos) (c.roomOf p).toNat s.pos [] s.names

def widths (c : Course) (p : Pointer) (s : Scan) : List Nat :=
  Dialog.widths c.font c.image (c.finals.contains s.pos) (c.roomOf p).toNat s.pos [] s.names

def trailer (c : Course) (p : Pointer) (s : Scan) : Nat :=
  match s.reading c p with
  | .ok seg => if AtFinal c s ∧ seg.ended = false then 2 else 0
  | .error _ => 0

theorem trailer_of_reading (h : s.reading c p = .ok seg) :
    s.trailer c p = if AtFinal c s ∧ seg.ended = false then 2 else 0 := by
  rw [trailer, h]

/-- **What a pass changes**: it moves behind what was read and the two bytes that may follow. -/
theorem of_pass (h : s.pass c p = .ok s') :
    ∃ seg text, s.reading c p = .ok seg ∧
      s' = { s with texts := s.texts.insert p text, pos := seg.next + s.trailer c p,
                    names := seg.names } ∧
      (s.trailer c p ≠ 0 → seg.next + s.trailer c p ≤ c.image.size) := by
  simp only [pass, readSegment, bind_ok_iff, pure_ok_iff] at h
  obtain ⟨shown, ⟨seg, hread, hshown⟩, rfl⟩ := h
  have htrailer := trailer_of_reading hread
  by_cases hended : seg.ended = true
  · rw [if_pos hended, pure_ok_iff] at hshown
    rw [if_neg (by simp [hended])] at htrailer
    subst hshown
    exact ⟨seg, seg.text, hread, by rw [htrailer, Nat.add_zero], absurd htrailer⟩
  rw [Bool.not_eq_true] at hended
  rw [hended, if_neg Bool.false_ne_true] at hshown
  by_cases hfinal : AtFinal c s
  · rw [if_pos ⟨hfinal, hended⟩] at htrailer
    rw [AtFinal] at hfinal
    rw [if_pos hfinal, bind_ok_iff] at hshown
    obtain ⟨_, hword, hshown⟩ := hshown
    cases hshown
    -- the two bytes are read, so the image goes on for them
    refine ⟨seg, _, hread, by rw [htrailer], fun _ => ?_⟩
    rw [discard_eq, map_ok_iff] at hword
    obtain ⟨n, hword, -⟩ := hword
    have := Bytes.lt_size_of_wordAt hword
    omega
  · rw [if_neg fun h => hfinal h.1] at htrailer
    rw [AtFinal] at hfinal
    rw [if_neg hfinal, pure_ok_iff] at hshown
    subst hshown
    exact ⟨seg, _, hread, by rw [htrailer, Nat.add_zero], absurd htrailer⟩

/-- **How far a pass moves**: over the bytes of its codes, and over the trailer. -/
theorem pos_of_pass (h : s.pass c p = .ok s') :
    s'.pos = s.pos + (s.widths c p).sum + s.trailer c p := by
  obtain ⟨seg, text, hread, rfl, -⟩ := of_pass h
  exact congrArg (· + s.trailer c p) (next_of_readTokens hread)

theorem reading_of_room_le (h : c.roomOf p ≤ 0) :
    s.reading c p = .ok ⟨false, [], s.pos, s.names⟩ := by
  rw [reading, Int.toNat_of_nonpos h]
  rfl

theorem lt_of_reading (hroom : 0 < c.roomOf p) (h : s.reading c p = .ok seg) :
    s.pos < seg.next ∧ seg.next ≤ c.image.size := by
  obtain ⟨n, hn⟩ : ∃ n, (c.roomOf p).toNat = n + 1 := ⟨(c.roomOf p).toNat - 1, by omega⟩
  rw [reading, hn] at h
  exact lt_of_readTokens h

/-- **When a pass moves at all**: its text is a last one, or it has room. -/
theorem pos_lt_of_pass_iff (h : s.pass c p = .ok s') :
    s.pos < s'.pos ↔ AtFinal c s ∨ 0 < c.roomOf p := by
  obtain ⟨seg, text, hread, rfl, -⟩ := of_pass h
  by_cases hroom : 0 < c.roomOf p
  · exact iff_of_true ((lt_of_reading hroom hread).1.trans_le (Nat.le_add_right _ _)) (.inr hroom)
  · have hnone := reading_of_room_le (s := s) (Int.not_lt.1 hroom)
    rw [trailer_of_reading hnone]
    rw [hnone] at hread
    cases hread
    by_cases hfinal : AtFinal c s
    · simp [hfinal]
    · simp [hfinal, hroom]

theorem pos_le_of_pass (h : s.pass c p = .ok s') (hlt : s.pos < s'.pos) :
    s'.pos ≤ c.image.size := by
  obtain ⟨seg, text, hread, rfl, hsize⟩ := of_pass h
  by_cases htrailer : s.trailer c p = 0
  · simp only [htrailer, Nat.add_zero] at hlt ⊢
    by_cases hroom : 0 < c.roomOf p
    · exact (lt_of_reading hroom hread).2
    · rw [reading_of_room_le (Int.not_lt.1 hroom)] at hread
      cases hread
      exact absurd hlt (Nat.lt_irrefl _)
  · exact hsize htrailer

theorem eq_field_of_pass (h : s.pass c p = .error e) : e = .plain .field := by
  simp only [pass, readSegment, bind_eq_error_iff] at h
  obtain (hread | ⟨seg, -, hrest⟩) | ⟨_, -, hnever⟩ := h
  · exact eq_field_of_readTokens hread
  · split at hrest
    · cases hrest
    · split at hrest
      · obtain hword | ⟨_, -, hnever⟩ := bind_eq_error_iff.1 hrest
        · rw [discard_eq, map_eq_error_iff] at hword
          exact Bytes.eq_field_of_wordAt hword
        · cases hnever
      · cases hrest
  · cases hnever

end Scan

end Cartridge.Dialog
