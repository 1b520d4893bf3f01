import Cartridge.Proofs.Png.Lines

/-!
# What the checks of a writer's options leave

A writer that was made from options has a depth that goes with its colours, a palette with entries of
three or four components, and colours of as many samples as its pixels have (`Writer.Valid`).  These are
the facts that the rest of the file format rests on.

Main result: `Writer.valid_of_ofOptions`.
-/

namespace Cartridge.Png

variable {entries : List Value}

theorem ite_bind_ok_iff {ε α β : Type} {c : Prop} [Decidable c] {x y : Except ε α}
    {next : α → Except ε β} {b : β} :
    (if c then x >>= next else y >>= next) = .ok b ↔
      ∃ a, (if c then x else y) = .ok a ∧ next a = .ok b := by
  by_cases hc : c
  · simp only [hc, if_true, bind_ok_iff]
  · simp only [hc, if_false, bind_ok_iff]

/-! ### Palettes and colours -/

def IsEntry (entry : Value) : Prop :=
  ∃ vs, entry.elements = .ok vs ∧ (vs.length = 3 ∨ vs.length = 4)

theorem isEntry_of_checkEntries {i : Nat} {triple : Bool}
    (h : checkEntries i triple entries = .ok ()) : ∀ entry ∈ entries, IsEntry entry := by
  induction entries generalizing i triple with
  | nil => exact fun entry hentry => absurd hentry List.not_mem_nil
  | cons entry entries ih =>
    obtain ⟨components, hcomponents, h⟩ := bind_ok_iff.1 h
    obtain ⟨hcount, h⟩ := guard_ok_iff.1 h
    obtain ⟨-, h⟩ := guard_ok_iff.1 h
    obtain ⟨-, -, h⟩ := bind_ok_iff.1 h
    refine List.forall_mem_cons.2 ⟨⟨components, hcomponents, ?_⟩, ih h⟩
    omega

theorem entries_of_checkPalette {palette : Value} (h : checkPalette palette = .ok (some entries)) :
    entries ≠ [] ∧ entries.length ≤ 256 ∧ ∀ entry ∈ entries, IsEntry entry := by
  rw [checkPalette] at h
  split_ifs at h with hnone
  · cases h
  obtain ⟨found, -, h⟩ := bind_ok_iff.1 h
  obtain ⟨hcount, h⟩ := guard_ok_iff.1 h
  obtain ⟨u, hcheck, h⟩ := bind_ok_iff.1 h
  obtain rfl : found = entries := by simpa using h
  rw [not_or, List.isEmpty_iff] at hcount
  exact ⟨hcount.1, Nat.le_of_not_lt hcount.2, isEntry_of_checkEntries hcheck⟩

def IsColour (grey : Bool) (colour : Value) : Prop :=
  ∃ vs, colour.elements = .ok vs ∧ vs.length = if grey then 1 else 3

theorem isColour_of_checkColour {given colour : Value} {grey : Bool} {which : String}
    (h : checkColour given grey which = .ok colour) (hsome : colour.isNone = false) :
    given.isNone = false ∧ IsColour grey colour := by
  rw [checkColour] at h
  cases hnone : given.isNone with
  | true =>
    rw [hnone] at h
    obtain rfl : given = colour := by simpa using h
    rw [hnone] at hsome
    cases hsome
  | false =>
    refine ⟨rfl, ?_⟩
    rw [hnone] at h
    cases grey with
    | true =>
      obtain ⟨vs, hvs, h⟩ := bind_ok_iff.1 h
      obtain ⟨hone, h⟩ := guard_ok_iff.1 h
      obtain ⟨whole, -, h⟩ := bind_ok_iff.1 h
      obtain ⟨-, h⟩ := guard_ok_iff.1 h
      rw [pure_ok_iff] at h
      exact ⟨vs, h ▸ hvs, not_not.1 hone⟩
    | false =>
      obtain ⟨vs, hvs, h⟩ := bind_ok_iff.1 h
      obtain ⟨fine, hfine, h⟩ := ite_bind_ok_iff.1 h
      obtain ⟨htrue, h⟩ := guard_ok_iff.1 h
      rw [pure_ok_iff] at h
      refine ⟨vs, h ▸ hvs, ?_⟩
      by_contra hthree
      rw [if_pos (show vs.length ≠ 3 from hthree), pure_ok_iff] at hfine
      exact htrue (by rw [← hfine]; rfl)

/-! ### Writers -/

namespace Writer

variable {o : Options} {w : Writer} {n : Int} {v height width : Value}

/-- What the checks of the options leave. -/
structure Valid (w : Writer) : Prop where
  width : w.width.isAtMost 0 = .ok false
  depth : IsDepth w.depth
  /-- Samples of less than a byte are those of grey pixels or indices. -/
  deep : w.palette.isSome = false → (w.alpha || !w.grey) = true → 8 ≤ w.depth
  indexed : w.palette.isSome = true → w.depth ≤ 8 ∧ w.alpha = false ∧ w.grey = false ∧
    w.rescale = none ∧ w.transparent.isNone = true
  palette : ∀ entries, w.palette = some entries →
    entries ≠ [] ∧ entries.length ≤ 256 ∧ ∀ entry ∈ entries, IsEntry entry
  transparent : w.transparent.isNone = false → w.alpha = false ∧ IsColour w.grey w.transparent
  background : w.background.isNone = false → IsColour w.grey w.background

theorem width_of_checkDimensions {u : Unit} (h : checkDimensions width height = .ok u) :
    width.isAtMost 0 = .ok false := by
  obtain ⟨small, hsmall, h⟩ := bind_ok_iff.1 h
  cases small with
  | false => exact hsmall
  | true =>
    -- a width that is at most zero is refused
    obtain ⟨some, hsome, h⟩ := ite_bind_ok_iff.1 h
    rw [if_pos rfl, pure_ok_iff] at hsome
    exact absurd hsome.symm (guard_ok_iff.1 h).1

theorem mem_of_isOneOf {ns : List Int} (h : isOneOf v ns = true) (hn : v.toInt = .ok n) :
    n ∈ ns := by
  obtain ⟨m, hm, hv⟩ := List.any_eq_true.1 h
  rw [Value.toInt_of_isInt hv, Except.ok.injEq] at hn
  exact hn ▸ hm

theorem depth_of_plain (small : Bool) (hn : v.toInt = .ok n) :
    let natural := isOneOf v (if small then [1, 2, 4, 8, 16] else [8, 16])
    let target := if natural then n.toNat else targetDepth small n
    IsDepth target ∧ (small = false → 8 ≤ target) := by
  intro natural target
  cases hnatural : natural with
  | true =>
    have hmem := mem_of_isOneOf hnatural hn
    simp only [target, hnatural, if_true]
    cases small with
    | true =>
      simp only [if_true, List.mem_cons, List.not_mem_nil, or_false] at hmem
      rcases hmem with rfl | rfl | rfl | rfl | rfl <;> simp [IsDepth]
    | false =>
      simp only [Bool.false_eq_true, if_false, List.mem_cons, List.not_mem_nil, or_false] at hmem
      rcases hmem with rfl | rfl <;> simp [IsDepth]
  | false =>
    simp only [target, hnatural, Bool.false_eq_true, if_false, targetDepth]
    split_ifs with hdeep hthree
    · simp [IsDepth]
    · rw [Bool.and_eq_true] at hthree
      simp [IsDepth, hthree.1]
    · simp [IsDepth]

theorem depth_of_indexed (h : isOneOf v [1, 2, 4, 8] = true) (hn : v.toInt = .ok n) :
    IsDepth n.toNat ∧ n.toNat ≤ 8 := by
  have hmem := mem_of_isOneOf h hn
  simp only [List.mem_cons, List.not_mem_nil, or_false] at hmem
  rcases hmem with rfl | rfl | rfl | rfl <;> simp [IsDepth]

/-- **The checks of the options** see to it that the writer can rely on them. -/
theorem valid_of_ofOptions (h : ofOptions o = .ok w) : w.Valid := by
  rw [ofOptions] at h
  extract_lets get alpha grey transparent bytes at h
  obtain ⟨-, h⟩ := guard_ok_iff.1 h
  obtain ⟨⟨width, height⟩, -, h⟩ := bind_ok_iff.1 h
  obtain ⟨u, hdimensions, h⟩ := bind_ok_iff.1 h
  obtain ⟨hclash, h⟩ := guard_ok_iff.1 h
  obtain ⟨depth, -, h⟩ := ite_bind_ok_iff.1 h
  obtain ⟨-, -, h⟩ := bind_ok_iff.1 h
  obtain ⟨palette, hpalette, h⟩ := bind_ok_iff.1 h
  have hwidth := width_of_checkDimensions hdimensions
  cases palette with
  | none =>
    obtain ⟨number, hnumber, h⟩ := bind_ok_iff.1 h
    obtain ⟨transparent', htransparent, h⟩ := bind_ok_iff.1 h
    obtain ⟨background, hbackground, h⟩ := bind_ok_iff.1 h
    obtain rfl := pure_ok_iff.1 h
    have hdepth := depth_of_plain (grey && !alpha) hnumber
    have hflip : ∀ a g : Bool, (a || !g) = true → (g && !a) = false := by decide
    have hexact : (if (grey && !alpha) = true then [1, 2, 4, 8, 16] else [8, 16] : List Int) =
        if (alpha || !grey) = true then [8, 16] else [1, 2, 4, 8, 16] := by
      cases alpha <;> cases grey <;> rfl
    rw [hexact] at hdepth
    exact {
      width := hwidth
      depth := hdepth.1
      deep := fun _ hdeep => hdepth.2 (hflip alpha grey hdeep)
      indexed := fun hsome => absurd hsome Bool.false_ne_true
      palette := fun _ hsome => absurd hsome (Option.some_ne_none _).symm
      transparent := fun hsome => by
        obtain ⟨hgiven, hcolour⟩ := isColour_of_checkColour htransparent hsome
        rw [hgiven, Bool.not_false, Bool.and_true] at hclash
        exact ⟨Bool.eq_false_iff.2 hclash, hcolour⟩
      background := fun hsome => (isColour_of_checkColour hbackground hsome).2 }
  | some entries =>
    obtain ⟨hnatural, h⟩ := guard_ok_iff.1 h
    obtain ⟨hunset, h⟩ := guard_ok_iff.1 h
    obtain ⟨halpha, h⟩ := guard_ok_iff.1 h
    obtain ⟨hgrey, h⟩ := guard_ok_iff.1 h
    obtain ⟨number, hnumber, h⟩ := bind_ok_iff.1 h
    obtain ⟨transparent', htransparent, h⟩ := bind_ok_iff.1 h
    obtain ⟨background, hbackground, h⟩ := bind_ok_iff.1 h
    obtain rfl := pure_ok_iff.1 h
    have hone : isOneOf depth [1, 2, 4, 8] = true := by
      rw [Bool.not_eq_true', Bool.not_eq_false] at hnatural
      exact hnatural
    have htarget : ∀ n : Nat, (if isOneOf depth [1, 2, 4, 8] = true then number.toNat else n) =
        number.toNat := fun n => if_pos hone
    have hdepth := depth_of_indexed hone hnumber
    have hnone : transparent'.isNone = true := by
      by_contra hsome
      have hgiven := (isColour_of_checkColour htransparent (Bool.eq_false_iff.2 hsome)).1
      exact hunset (by rw [hgiven]; rfl)
    exact {
      width := hwidth
      depth := (htarget _).symm ▸ hdepth.1
      deep := fun hsome => absurd hsome.symm Bool.false_ne_true
      indexed := fun _ => ⟨(htarget _).symm ▸ hdepth.2, Bool.eq_false_iff.2 halpha,
        Bool.eq_false_iff.2 hgrey, if_pos hone, hnone⟩
      palette := fun found hfound =>
        Option.some.inj hfound ▸ entries_of_checkPalette hpalette
      transparent := fun hsome => absurd (hnone.symm.trans hsome).symm Bool.false_ne_true
      background := fun hsome => (isColour_of_checkColour hbackground hsome).2 }

end Writer

end Cartridge.Png
