import Cartridge.Proofs.Png.Stored

/-!
# Pixel formats

Every pixel format that a file can have keeps the samples of an image: grey samples of 1, 2, 4, 8 or
16 bits, indices of 1, 2, 4 or 8 bits into a palette that has no more entries than there are indices,
and grey with alpha, colours and colours with alpha of 8 or 16 bits.

Main result: `Format.read_write`.  The only images that a writer refuses are those whose width or
height does not fit four bytes.
-/

open List

namespace Cartridge

/-- A flag, an integer or a double. -/
inductive Value.IsNumber : Value → Prop
  | flag (b : Bool) : IsNumber (.flag b)
  | int (n : Int) : IsNumber (.int n)
  | real (x : Float) : IsNumber (.real x)

theorem Value.IsNumber.exists_isBelow {v : Value} (h : v.IsNumber) (n : Int) :
    ∃ b, v.isBelow n = .ok b := by
  cases h with
  | flag b => exact ⟨_, rfl⟩
  | int k => exact ⟨_, isBelow_int k n⟩
  | real x =>
    rw [isBelow, compareInt]
    split
    · exact ⟨_, rfl⟩
    · exact ⟨_, rfl⟩
    · exact ⟨_, rfl⟩

namespace Png

/-! ### Palettes -/

structure Colour where
  red : UInt8
  green : UInt8
  blue : UInt8

def Colour.components (c : Colour) : List UInt8 := [c.red, c.green, c.blue]

structure Palette where
  mixed : List (Colour × UInt8)
  solid : List Colour

namespace Palette

variable {p : Palette}

def tupleOf (bs : List UInt8) : Value := .tuple (bs.map fun b => .int b.toNat)

def entries (p : Palette) : List Value :=
  (p.mixed.map fun e => tupleOf (e.1.components ++ [e.2])) ++
    p.solid.map fun c => tupleOf c.components

theorem forM_checkComponent (i : Nat) (bs : List UInt8) :
    (bs.map fun b => Value.int b.toNat).forM (checkComponent i) = .ok () := by
  induction bs with
  | nil => rfl
  | cons b bs ih =>
    have hfine : ((Value.int b.toNat).isInt b.toNat && decide (0 ≤ (b.toNat : Int)) &&
        decide ((b.toNat : Int) ≤ 255)) = true := by
      have hlt := b.toNat_lt
      rw [Value.isInt_int, decide_eq_true rfl, decide_eq_true (by omega), decide_eq_true (by omega)]
      rfl
    have hfirst : checkComponent i (.int b.toNat) = .ok () :=
      require_ok_iff.2 hfine
    exact bind_ok_iff.2 ⟨(), hfirst, ih⟩

theorem checkEntries_cons {i : Nat} {triple : Bool} {bs : List UInt8} {rest : List Value}
    (hbs : bs.length = 3 ∨ bs.length = 4 ∧ triple = false)
    (hrest : checkEntries (i + 1) (triple || bs.length == 3) rest = .ok ()) :
    checkEntries i triple (tupleOf bs :: rest) = .ok () := by
  have hlength : (bs.map fun b => Value.int b.toNat).length = bs.length := length_map _
  refine bind_ok_iff.2 ⟨_, rfl, guard_ok_iff.2 ⟨by omega, guard_ok_iff.2 ⟨?_, ?_⟩⟩⟩
  · rw [hlength]
    obtain hbs | ⟨hbs, rfl⟩ := hbs <;> rw [hbs] <;> simp
  · rw [hlength]
    exact bind_ok_iff.2 ⟨(), forM_checkComponent i bs, hrest⟩

theorem checkEntries_solid (i : Nat) (triple : Bool) (cs : List Colour) :
    checkEntries i triple (cs.map fun c => tupleOf c.components) = .ok () := by
  induction cs generalizing i triple with
  | nil => rfl
  | cons c cs ih => exact checkEntries_cons (.inl rfl) (ih _ _)

theorem checkEntries_entries (i : Nat) (p : Palette) : checkEntries i false p.entries = .ok () := by
  obtain ⟨mixed, solid⟩ := p
  induction mixed generalizing i with
  | nil => exact checkEntries_solid i false solid
  | cons e mixed ih => exact checkEntries_cons (.inr ⟨rfl, rfl⟩) (ih _)

theorem checkPalette_entries (hne : p.entries ≠ []) (hcount : p.entries.length ≤ 256) :
    checkPalette (.list p.entries) = .ok (some p.entries) := by
  refine bind_ok_iff.2 ⟨_, rfl, guard_ok_iff.2 ⟨?_, ?_⟩⟩
  · rintro (hempty | hlong)
    · exact hne (List.isEmpty_iff.1 hempty)
    · omega
  · exact bind_ok_iff.2 ⟨(), checkEntries_entries 0 p, rfl⟩

theorem exists_entryBytes (p : Palette) :
    ∀ entry ∈ p.entries, ∃ split, Writer.entryBytes entry = .ok split := by
  have hone : ∀ bs, ∃ split, Writer.entryBytes (tupleOf bs) = .ok split := by
    intro bs
    have hbytes : (bs.map fun b => Value.int b.toNat).mapM byteOf = .ok bs := by
      rw [mapM_ok_iff, forall₂_map_left_iff, forall₂_same]
      intro b _
      exact map_ok_iff.2 ⟨b.toNat, numberBelow_int b.toNat_lt, UInt8.ofNat_toNat⟩
    exact ⟨_, bind_ok_iff.2 ⟨_, rfl, bind_ok_iff.2 ⟨bs, hbytes, rfl⟩⟩⟩
  intro entry hentry
  obtain hmixed | hsolid := mem_append.1 hentry
  · obtain ⟨e, -, rfl⟩ := mem_map.1 hmixed
    exact hone _
  · obtain ⟨c, -, rfl⟩ := mem_map.1 hsolid
    exact hone _

end Palette

/-! ### Formats -/

/-- A pixel format: samples of a depth for grey or colours, with or without alpha, or indices into a
palette. -/
inductive Format where
  | plain (grey alpha : Bool) (depth : Nat)
      (allowed : depth ∈ if grey && !alpha then [1, 2, 4, 8, 16] else [8, 16])
  | indexed (depth : Nat) (allowed : depth ∈ [1, 2, 4, 8]) (palette : Palette)
      (nonempty : palette.entries ≠ []) (fits : palette.entries.length ≤ 2 ^ depth)

namespace Format

variable {f : Format} {width height : Nat} {interlaced : Bool} {limit : Value}
  {lines : List (List Nat)}

def grey : Format → Bool
  | plain grey _ _ _ => grey
  | indexed .. => false

def alpha : Format → Bool
  | plain _ alpha _ _ => alpha
  | indexed .. => false

def depth : Format → Nat
  | plain _ _ depth _ => depth
  | indexed depth .. => depth

def entries : Format → Option (List Value)
  | plain .. => none
  | indexed _ _ palette _ _ => some palette.entries

def palette (f : Format) : Value :=
  match f.entries with
  | none => .none
  | some entries => .list entries

def planes (f : Format) : Nat :=
  (if f.grey || f.entries.isSome then 1 else 3) + if f.alpha then 1 else 0

def options (f : Format) (width height : Nat) (interlaced : Bool) (limit : Value) : Options :=
  .ofList [("width", .int width), ("height", .int height), ("greyscale", .flag f.grey),
    ("alpha", .flag f.alpha), ("bitdepth", .int f.depth), ("palette", f.palette),
    ("interlace", .flag interlaced), ("chunk_limit", limit)]

theorem options_eq (f : Format) (width height : Nat) (interlaced : Bool) (limit : Value) :
    f.options width height interlaced limit =
      ⟨[("width", .int width), ("height", .int height), ("greyscale", .flag f.grey),
        ("alpha", .flag f.alpha), ("bitdepth", .int f.depth), ("palette", f.palette),
        ("interlace", .flag interlaced), ("chunk_limit", limit)]⟩ := rfl

def writer (f : Format) (width height : Nat) (interlaced : Bool) (limit : Value) : Writer where
  width := .int width
  height := .int height
  transparent := .none
  background := .none
  gamma := .none
  grey := f.grey
  alpha := f.alpha
  palette := f.entries
  depth := f.depth
  compression := .none
  chunkLimit := limit
  interlaced
  xPerUnit := .none
  yPerUnit := .none
  unitIsMetre := false
  rescale := none

theorem checkPalette_palette (f : Format) : checkPalette f.palette = .ok f.entries := by
  cases f with
  | plain grey alpha depth allowed => rfl
  | indexed depth allowed palette nonempty fits =>
    refine Palette.checkPalette_entries nonempty (fits.trans ?_)
    simp only [mem_cons, not_mem_nil, or_false] at allowed
    obtain rfl | rfl | rfl | rfl := allowed <;> decide

theorem isOneOf_depth (f : Format) :
    Writer.isOneOf (.int f.depth) (if f.entries.isSome then [1, 2, 4, 8]
      else if f.alpha || !f.grey then [8, 16] else [1, 2, 4, 8, 16]) = true := by
  cases f with
  | plain grey alpha depth allowed =>
    cases grey <;> cases alpha <;>
      simp only [Bool.and_true, Bool.and_false, Bool.not_true, Bool.not_false, Bool.false_eq_true,
        if_false, if_true, mem_cons, not_mem_nil, or_false] at allowed
    · obtain rfl | rfl := allowed <;> rfl
    · obtain rfl | rfl := allowed <;> rfl
    · obtain rfl | rfl | rfl | rfl | rfl := allowed <;> rfl
    · obtain rfl | rfl := allowed <;> rfl
  | indexed depth allowed palette nonempty fits =>
    simp only [mem_cons, not_mem_nil, or_false] at allowed
    obtain rfl | rfl | rfl | rfl := allowed <;> rfl

theorem checkDepth_depth (f : Format) : Writer.checkDepth (.int f.depth) = .ok () := by
  obtain ⟨n, hn, hdepth⟩ := any_eq_true.1 f.isOneOf_depth
  rw [Value.isInt_int, decide_eq_true_eq] at hdepth
  have hbounds : 1 ≤ n ∧ n ≤ 16 := by
    split_ifs at hn <;> simp only [mem_cons, not_mem_nil, or_false] at hn <;> omega
  have hlow : decide ((f.depth : Int) < 1) = false := decide_eq_false (by omega)
  have hhigh : decide (16 < (f.depth : Int)) = false := decide_eq_false (by omega)
  simp only [Writer.checkDepth, Value.isInteger_int, Value.isBelow_int, Value.isAbove_int, hlow, hhigh]
  rfl

theorem ofOptions_eq_ok (hcheck : Writer.checkDimensions (.int width) (.int height) = .ok ()) :
    Writer.ofOptions (f.options width height interlaced limit) =
      .ok (f.writer width height interlaced limit) := by
  rw [options_eq, Writer.ofOptions]
  extract_lets get alpha grey transparent bytes
  refine bind_ok_iff.2 ⟨(.int width, .int height), rfl, ?_⟩
  refine bind_ok_iff.2 ⟨(), hcheck, ?_⟩
  refine guard_ok_iff.2 ⟨?_, ?_⟩
  · show ¬ ((f.alpha && false) = true)
    rw [Bool.and_false]
    exact Bool.false_ne_true
  refine ite_bind_ok_iff.2 ⟨.int f.depth, rfl, ?_⟩
  refine bind_ok_iff.2 ⟨(), f.checkDepth_depth, ?_⟩
  refine bind_ok_iff.2 ⟨f.entries, f.checkPalette_palette, ?_⟩
  have hnatural : Writer.isOneOf (.int f.depth) (if f.entries.isSome then [1, 2, 4, 8]
      else if alpha || !grey then [8, 16] else [1, 2, 4, 8, 16]) = true := f.isOneOf_depth
  cases f with
  | plain g a depth allowed =>
    refine bind_ok_iff.2 ⟨(depth : Int), rfl, ?_⟩
    refine bind_ok_iff.2 ⟨.none, rfl, bind_ok_iff.2 ⟨.none, rfl, ?_⟩⟩
    rw [if_pos hnatural, if_pos hnatural]
    rfl
  | indexed depth allowed palette nonempty fits =>
    -- there is neither a transparent colour nor an alpha value, and samples are not grey
    refine guard_ok_iff.2 ⟨by rw [hnatural]; decide, guard_ok_iff.2 ⟨Bool.false_ne_true, ?_⟩⟩
    refine guard_ok_iff.2 ⟨Bool.false_ne_true, guard_ok_iff.2 ⟨Bool.false_ne_true, ?_⟩⟩
    refine bind_ok_iff.2 ⟨(depth : Int), rfl, ?_⟩
    refine bind_ok_iff.2 ⟨.none, rfl, bind_ok_iff.2 ⟨.none, rfl, ?_⟩⟩
    rw [if_pos hnatural, if_pos hnatural]
    rfl

theorem checkDimensions_int (hwidth : 0 < width) (hheight : 0 < height) :
    Writer.checkDimensions (.int width) (.int height) =
      if width ≤ 2 ^ 32 - 1 ∧ height ≤ 2 ^ 32 - 1 then .ok ()
      else .error (refusal "width and height cannot exceed 2**32-1") := by
  have hpos (n : Nat) (hn : 0 < n) : decide ((n : Int) ≤ 0) = false := decide_eq_false (by omega)
  have hlarge (n : Nat) : decide ((0xFFFFFFFF : Int) < n) = !decide (n ≤ 2 ^ 32 - 1) := by
    rw [← decide_not, decide_eq_decide]
    omega
  simp only [Writer.checkDimensions, Value.isAtMost_int, Value.isInteger_int, Value.isAbove_int,
    hpos _ hwidth, hpos _ hheight, hlarge]
  by_cases hw : width ≤ 2 ^ 32 - 1 <;> by_cases hh : height ≤ 2 ^ 32 - 1 <;>
    simp only [hw, hh, decide_true, decide_false, and_self, and_true, and_false, if_true, if_false] <;>
    rfl

theorem ofOptions_eq_error {fault : Fault}
    (hcheck : Writer.checkDimensions (.int width) (.int height) = .error fault) :
    Writer.ofOptions (f.options width height interlaced limit) = .error fault := by
  obtain ⟨rest, hrest⟩ : ∃ rest, Writer.ofOptions (f.options width height interlaced limit) =
      Writer.checkDimensions (.int width) (.int height) >>= rest := by
    rw [options_eq]
    exact ⟨_, rfl⟩
  rw [hrest, hcheck]
  rfl

theorem exists_headChunks (f : Format) (hwidth : width ≤ 2 ^ 32 - 1) (hheight : height ≤ 2 ^ 32 - 1)
    (interlaced : Bool) (limit : Value) :
    ∃ head, (f.writer width height interlaced limit).headChunks = .ok head := by
  have hheader : ∃ c, (f.writer width height interlaced limit).headerChunk = .ok c := by
    rw [Writer.headerChunk, writer, fieldOf_int (Nat.lt_succ_of_le hwidth),
      fieldOf_int (Nat.lt_succ_of_le hheight)]
    exact ⟨_, rfl⟩
  have hpalette : ∃ cs, (f.writer width height interlaced limit).paletteChunks = .ok cs := by
    cases f with
    | plain grey alpha depth allowed => exact ⟨_, rfl⟩
    | indexed depth allowed palette nonempty fits =>
      obtain ⟨split, hsplit⟩ := exists_mapM_eq_ok palette.exists_entryBytes
      exact ⟨_, bind_ok_iff.2 ⟨split, hsplit, rfl⟩⟩
  obtain ⟨c, hc⟩ := hheader
  obtain ⟨cs, hcs⟩ := hpalette
  rw [Writer.headChunks, hc, hcs]
  exact ⟨_, rfl⟩

theorem fits_writer (f : Format) (width height : Nat) (interlaced : Bool) (limit : Value) :
    (f.writer width height interlaced limit).Fits := by
  intro entries hentries
  cases f with
  | plain grey alpha depth allowed => cases hentries
  | indexed depth allowed palette nonempty fits =>
    obtain rfl := Option.some.inj hentries
    exact ⟨fits, rfl⟩

/-- Indices of two bits into a palette of three colours, the first of them clear. -/
def threeIndices : Format :=
  .indexed 2 (by decide) ⟨[(⟨1, 2, 3⟩, 0)], [⟨4, 5, 6⟩, ⟨7, 8, 9⟩]⟩ (cons_ne_nil _ _) (by decide)

end Format

end Png

end Cartridge
