import Cartridge.Proofs.Png.Options
import Cartridge.Proofs.Png.Preamble

/-!
# The chunks that a writer puts in front of the image data

What the options of a writer come to in the file: its header (`Writer.header`), and chunks that a
reader takes one after the other.  Two things that a writer does a reader refuses: a palette with more
entries than the depth has indices, and a background colour beside a palette (`Writer.Fits`).

Main results: `Writer.Valid.takesAll_headChunks` and `Writer.Valid.refuses_headChunks`.
-/

open List

namespace Cartridge.Png

open Layout Except Reader
open Reader (TakesAll)

theorem exists_of_fieldOf {n : Nat} {v : Value} {field : List UInt8} (h : fieldOf n v = .ok field) :
    ∃ k : Nat, v.whole? = some (k : Int) ∧ k < 0x100 ^ n ∧ field = bigEndian n k := by
  rw [fieldOf] at h
  split at h
  · cases h
  · rename_i k hk
    split_ifs at h with hrange
    obtain rfl := ok.inj h
    obtain ⟨m, rfl⟩ := Int.eq_ofNat_of_zero_le hrange.1
    have hlt : (m : Int) < 0x100 ^ n := hrange.2
    exact ⟨m, hk, by exact_mod_cast hlt, by rw [Int.toNat_natCast]⟩

namespace Writer

variable {w : Writer} {head chunks : List Chunk} {c : Chunk} {h : Header}

/-! ### The header -/

def header (w : Writer) : Header where
  width := dimension w.width
  height := dimension w.height
  depth := w.depth
  colourType := w.colourType
  compression := 0
  filter := 0
  interlace := if w.interlaced then 1 else 0

theorem layout_header (w : Writer) : ofHeader w.header =
    { indexed := w.palette.isSome, grey := w.grey, alpha := w.alpha
      pixelBits := w.depth * w.planes
      rowBytes := (dimension w.width * (w.depth * w.planes) + 7) / 8 } := by
  have hindexed : (w.colourType % 2 == 1) = w.palette.isSome := by
    rw [colourType]
    cases w.alpha <;> cases w.grey <;> cases w.palette.isSome <;> rfl
  have hgrey : (w.colourType / 2 % 2 == 0) = w.grey := by
    rw [colourType]
    cases w.alpha <;> cases w.grey <;> cases w.palette.isSome <;> rfl
  have halpha : (w.colourType / 4 % 2 == 1) = w.alpha := by
    rw [colourType]
    cases w.alpha <;> cases w.grey <;> cases w.palette.isSome <;> rfl
  simp only [ofHeader, header, hindexed, hgrey, halpha]
  rfl

theorem planes_header (w : Writer) : (ofHeader w.header).planes = w.planes := by
  rw [layout_header]
  rfl

theorem colourPlanes_header (w : Writer) : (ofHeader w.header).colourPlanes = w.colourPlanes := by
  rw [layout_header]
  rfl

theorem checkDepthAndType_eq_ok {depth colour : Int} (hdepth : depth ∈ [1, 2, 4, 8, 16])
    (hcolour : colour ∈ [0, 2, 3, 4, 6]) (hindexed : ¬ (colour = 3 ∧ 8 < depth))
    (hsmall : ¬ (depth < 8 ∧ colour ≠ 0 ∧ colour ≠ 3)) : checkDepthAndType depth colour = .ok () := by
  have hdepth' : ([1, 2, 4, 8, 16].contains depth) = true := contains_iff_mem.2 hdepth
  have hcolour' : ([0, 2, 3, 4, 6].contains colour) = true := contains_iff_mem.2 hcolour
  simp only [checkDepthAndType, hdepth', hcolour', hindexed, hsmall, Bool.not_true,
    Bool.false_eq_true, if_false]
  rfl

theorem Valid.allowed (hw : w.Valid) : checkDepthAndType w.depth w.colourType = .ok () := by
  have hdepth : (w.depth : Int) ∈ ([1, 2, 4, 8, 16] : List Int) := by
    have := hw.depth
    simp only [IsDepth, mem_cons, not_mem_nil, or_false] at this ⊢
    omega
  cases hpalette : w.palette.isSome with
  | true =>
    obtain ⟨hle, halpha, hgrey, -⟩ := hw.indexed hpalette
    have htype : w.colourType = 3 := by rw [colourType, hpalette, halpha, hgrey]; rfl
    rw [htype]
    exact checkDepthAndType_eq_ok hdepth (by decide) (by omega) (by omega)
  | false =>
    have htype : w.colourType = 0 ∨ 8 ≤ w.depth ∧ w.colourType ∈ [2, 4, 6] := by
      have hdeep := hw.deep hpalette
      rw [colourType, hpalette]
      cases halpha : w.alpha <;> cases hgrey : w.grey <;> rw [halpha, hgrey] at hdeep
      · exact .inr ⟨hdeep rfl, by decide⟩
      · exact .inl rfl
      · exact .inr ⟨hdeep rfl, by decide⟩
      · exact .inr ⟨hdeep rfl, by decide⟩
    simp only [mem_cons, not_mem_nil, or_false] at htype
    obtain htype | ⟨hdeep, htype | htype | htype⟩ := htype <;> rw [htype] <;>
      exact checkDepthAndType_eq_ok hdepth (by decide) (by omega) (by omega)

theorem headerChunk_eq (h : w.headerChunk = .ok c) :
    c = Reader.headerChunk w.header ∧ w.width.whole? = some (w.header.width : Int) ∧
      w.header.width ≤ 0xFFFFFFFF ∧ w.header.height ≤ 0xFFFFFFFF := by
  obtain ⟨width, hwidth, h⟩ := bind_ok_iff.1 h
  obtain ⟨height, hheight, h⟩ := bind_ok_iff.1 h
  obtain rfl := pure_ok_iff.1 h
  obtain ⟨m, hm, hmlt, rfl⟩ := exists_of_fieldOf hwidth
  obtain ⟨n, hn, hnlt, rfl⟩ := exists_of_fieldOf hheight
  have hm' : dimension w.width = m := by rw [dimension, hm]; rfl
  have hn' : dimension w.height = n := by rw [dimension, hn]; rfl
  refine ⟨?_, by rw [hm, header, hm'], ?_, ?_⟩
  · rw [header, hm', hn']
    cases w.interlaced <;> rfl
  · rw [header, hm']
    exact Nat.le_of_lt_succ hmlt
  · rw [header, hn']
    exact Nat.le_of_lt_succ hnlt

theorem Valid.sound_header (hw : w.Valid) (h : w.headerChunk = .ok c) : w.header.Sound := by
  obtain ⟨-, -, hwidth, hheight⟩ := headerChunk_eq h
  have hdepth : w.depth < 0x100 := by
    have := hw.depth
    simp only [IsDepth, mem_cons, not_mem_nil, or_false] at this
    omega
  have htype : w.colourType < 0x100 := by
    rw [colourType]
    split_ifs <;> decide
  refine ⟨hwidth, hheight, hdepth, htype, hw.allowed, rfl, rfl, ?_⟩
  show (if w.interlaced then 1 else 0) ≤ 1
  split_ifs <;> decide

theorem Valid.width_pos (hw : w.Valid) (h : w.headerChunk = .ok c) : 0 < w.header.width := by
  have hpos := hw.width
  rw [Value.isAtMost_of_whole? (headerChunk_eq h).2.1, ok.injEq, decide_eq_false_iff_not] at hpos
  omega

/-! ### The chunks after it -/

theorem takesAll_gamma (hgamma : w.gammaChunk = .ok chunks) (colours : Option (List UInt8)) :
    TakesAll h colours chunks colours := by
  rw [gammaChunk] at hgamma
  split_ifs at hgamma with hnone
  · obtain rfl := pure_ok_iff.1 hgamma
    exact .nil
  · obtain ⟨x, -, hgamma⟩ := bind_ok_iff.1 hgamma
    obtain ⟨n, -, hgamma⟩ := bind_ok_iff.1 hgamma
    obtain ⟨field, hfield, hgamma⟩ := bind_ok_iff.1 hgamma
    obtain rfl := pure_ok_iff.1 hgamma
    exact .cons (takes_gamma (length_fieldOf hfield) colours) .nil

theorem takesAll_unit (hunit : w.unitChunk = .ok chunks) (colours : Option (List UInt8)) :
    TakesAll h colours chunks colours := by
  rw [unitChunk] at hunit
  by_cases hnone : (w.xPerUnit.isNone || w.yPerUnit.isNone) = true
  · rw [if_pos hnone] at hunit
    obtain rfl := pure_ok_iff.1 hunit
    exact .nil
  · rw [if_neg hnone] at hunit
    obtain ⟨x, hx, hunit⟩ := bind_ok_iff.1 hunit
    obtain ⟨y, hy, hunit⟩ := bind_ok_iff.1 hunit
    obtain rfl := pure_ok_iff.1 hunit
    refine .cons (takes_unit ?_ colours) .nil
    simp [length_fieldOf hx, length_fieldOf hy]

/-- Samples are rescaled only without a palette, so their depths are taken. -/
theorem Valid.takesAll_depth (hw : w.Valid) (hdepth : w.depthChunk = .ok chunks)
    (colours : Option (List UInt8)) : TakesAll w.header colours chunks colours := by
  rw [depthChunk] at hdepth
  split at hdepth
  · obtain rfl := ok.inj hdepth
    exact .nil
  · rename_i given target hrescale
    obtain ⟨b, hb, hdepth⟩ := bind_ok_iff.1 hdepth
    obtain rfl := pure_ok_iff.1 hdepth
    have hindexed : w.palette.isSome = false := by
      rw [← Bool.not_eq_true]
      intro hsome
      rw [(hw.indexed hsome).2.2.2.1] at hrescale
      cases hrescale
    refine .cons (takes_depths ?_ ?_ colours) .nil
    · rw [layout_header]
      exact hindexed
    · rw [planes_header, List.length_flatten, map_replicate, length_fieldOf hb,
        sum_replicate_nat, Nat.mul_one]

theorem colourChunk_cases {name : String} {colour : Value} {grey : Bool}
    (hcolour : colour.isNone = false → IsColour grey colour)
    (h : colourChunk name colour = .ok chunks) :
    colour.isNone = true ∧ chunks = [] ∨
      colour.isNone = false ∧ ∃ data, chunks = [.named name data] ∧
        data.length = 2 * if grey then 1 else 3 := by
  rw [colourChunk] at h
  cases hnone : colour.isNone with
  | true =>
    rw [hnone] at h
    exact .inl ⟨rfl, (pure_ok_iff.1 h).symm⟩
  | false =>
    obtain ⟨vs, hvs, hcount⟩ := hcolour hnone
    rw [hnone] at h
    obtain ⟨vs', hvs', h⟩ := bind_ok_iff.1 h
    obtain rfl : vs = vs' := ok.inj (hvs.symm.trans hvs')
    obtain ⟨fields, hfields, h⟩ := bind_ok_iff.1 h
    have htwo : ∀ field ∈ fields, field.length = 2 := by
      intro field hfield
      obtain ⟨v, -, hv⟩ := exists_of_mem_mapM hfields hfield
      exact length_fieldOf hv
    refine .inr ⟨rfl, fields.flatten, (pure_ok_iff.1 h).symm, ?_⟩
    rw [List.length_flatten, map_congr_left htwo, map_const', sum_replicate_nat,
      ← (mapM_ok_iff.1 hfields).length_eq, hcount, Nat.mul_comm]

theorem length_of_mapM_entryBytes {entries : List Value} (hentries : ∀ entry ∈ entries, IsEntry entry)
    {split : List (List UInt8 × List UInt8)} (h : entries.mapM entryBytes = .ok split) :
    (split.flatMap (·.1)).length = 3 * entries.length ∧
      (split.flatMap (·.2)).length ≤ entries.length := by
  have hall := mapM_ok_iff.1 h
  clear h
  induction hall with
  | nil => exact ⟨rfl, Nat.le.refl⟩
  | @cons entry b entries split hfirst _ ih =>
    obtain ⟨⟨vs, hvs, hcount⟩, hentries⟩ := forall_mem_cons.1 hentries
    obtain ⟨hcolours, halphas⟩ := ih hentries
    obtain ⟨vs', hvs', hfirst⟩ := bind_ok_iff.1 hfirst
    obtain rfl : vs = vs' := ok.inj (hvs.symm.trans hvs')
    obtain ⟨bs, hbs, hfirst⟩ := bind_ok_iff.1 hfirst
    obtain rfl := pure_ok_iff.1 hfirst
    have hlength := (mapM_ok_iff.1 hbs).length_eq
    simp only [flatMap_cons, length_append, length_take, length_drop, length_cons, hcolours]
    omega

theorem Valid.paletteChunks_cases (hw : w.Valid) (h : w.paletteChunks = .ok chunks) :
    w.palette = none ∧ chunks = [] ∨
      ∃ entries colours alphas, w.palette = some entries ∧
        chunks = .named "PLTE" colours ::
          (if alphas.isEmpty then [] else [Chunk.named "tRNS" alphas]) ∧
        colours.length = 3 * entries.length ∧ alphas.length ≤ entries.length ∧
        entries ≠ [] ∧ entries.length ≤ 256 := by
  rw [paletteChunks] at h
  split at h
  · rename_i hnone
    exact .inl ⟨hnone, (ok.inj h).symm⟩
  · rename_i entries hsome
    obtain ⟨split, hsplit, h⟩ := bind_ok_iff.1 h
    obtain ⟨hne, hcount, hentries⟩ := hw.palette entries hsome
    obtain ⟨hcolours, halphas⟩ := length_of_mapM_entryBytes hentries hsplit
    exact .inr ⟨entries, _, _, hsome, (pure_ok_iff.1 h).symm, hcolours, halphas, hne, hcount⟩

theorem Valid.takesAll_palette (hw : w.Valid) (h : w.paletteChunks = .ok chunks)
    (hfits : ∀ entries, w.palette = some entries → entries.length ≤ 2 ^ w.depth) :
    ∃ colours, TakesAll w.header none chunks colours ∧
      ((ofHeader w.header).indexed && (colours.getD []).isEmpty) = false := by
  obtain ⟨hnone, rfl⟩ | ⟨entries, colours, alphas, hsome, rfl, hcolours, halphas, hne, hcount⟩ :=
    hw.paletteChunks_cases h
  · refine ⟨none, .nil, ?_⟩
    rw [layout_header, hnone]
    rfl
  · have hpos := length_pos_iff.2 hne
    have hbytes : colours ≠ [] := length_pos_iff.1 (by omega)
    have hlimit : longestData = 0x7FFFFFFF := rfl
    have hdepth : colours.length ≤ 2 ^ w.header.depth * 3 := by
      have := hfits entries hsome
      rw [hcolours, Nat.mul_comm]
      exact Nat.mul_le_mul_right 3 this
    have hindexed : (ofHeader w.header).indexed = true := by
      rw [layout_header, hsome]
      rfl
    refine ⟨some colours, .cons (takes_colours (by omega) hbytes hdepth (by omega)) ?_, ?_⟩
    · split_ifs
      · exact .nil
      · exact .cons (takes_alphas hindexed hbytes (by omega) (by omega)) .nil
    · rw [hindexed, Option.getD_some, isEmpty_eq_false_iff.2 hbytes]
      rfl

/-- A transparent colour goes with neither a palette nor an alpha channel, so it is taken. -/
theorem Valid.takesAll_transparent (hw : w.Valid)
    (h : colourChunk "tRNS" w.transparent = .ok chunks) (colours : Option (List UInt8)) :
    TakesAll w.header colours chunks colours := by
  obtain ⟨-, rfl⟩ | ⟨hsome, data, rfl, hdata⟩ := colourChunk_cases
    (fun hsome => (hw.transparent hsome).2) h
  · exact .nil
  · have hindexed : w.palette.isSome = false := by
      rw [← Bool.not_eq_true]
      intro hpalette
      rw [(hw.indexed hpalette).2.2.2.2] at hsome
      cases hsome
    refine .cons (takes_transparent ?_ ?_ ?_ colours) .nil
    · rw [layout_header]
      exact hindexed
    · rw [layout_header]
      exact (hw.transparent hsome).1
    · rw [colourPlanes_header, colourPlanes, hindexed, Bool.or_false, hdata]

theorem Valid.takesAll_background (hw : w.Valid) (h : colourChunk "bKGD" w.background = .ok chunks)
    (hindexed : w.background.isNone = true ∨ w.palette.isSome = false)
    (colours : Option (List UInt8)) : TakesAll w.header colours chunks colours := by
  obtain ⟨-, rfl⟩ | ⟨hsome, data, rfl, hdata⟩ := colourChunk_cases hw.background h
  · exact .nil
  · have hplain := hindexed.resolve_left (by rw [hsome]; exact Bool.false_ne_true)
    refine .cons (takes_background ?_ ?_ colours) .nil
    · rw [layout_header]
      exact hplain
    · rw [colourPlanes_header, colourPlanes, hplain, Bool.or_false, hdata]

/-! ### All chunks -/

/-- The palette has no more entries than there are indices, and there is no background beside it. -/
def Fits (w : Writer) : Prop :=
  ∀ entries, w.palette = some entries → entries.length ≤ 2 ^ w.depth ∧ w.background.isNone = true

theorem exists_of_headChunks (h : w.headChunks = .ok head) :
    ∃ gamma depth palette transparent background unit,
      w.headerChunk = .ok (Reader.headerChunk w.header) ∧
      w.gammaChunk = .ok gamma ∧ w.depthChunk = .ok depth ∧ w.paletteChunks = .ok palette ∧
      colourChunk "tRNS" w.transparent = .ok transparent ∧
      colourChunk "bKGD" w.background = .ok background ∧ w.unitChunk = .ok unit ∧
      head = Reader.headerChunk w.header ::
        (gamma ++ depth ++ palette ++ transparent ++ background ++ unit) := by
  obtain ⟨c, hc, h⟩ := bind_ok_iff.1 h
  obtain ⟨gamma, hgamma, h⟩ := bind_ok_iff.1 h
  obtain ⟨depth, hdepth, h⟩ := bind_ok_iff.1 h
  obtain ⟨palette, hpalette, h⟩ := bind_ok_iff.1 h
  obtain ⟨transparent, htransparent, h⟩ := bind_ok_iff.1 h
  obtain ⟨background, hbackground, h⟩ := bind_ok_iff.1 h
  obtain ⟨unit, hunit, h⟩ := bind_ok_iff.1 h
  obtain ⟨-, -, h⟩ := bind_ok_iff.1 h
  obtain rfl := (headerChunk_eq hc).1
  exact ⟨gamma, depth, palette, transparent, background, unit, hc, hgamma, hdepth, hpalette,
    htransparent, hbackground, hunit, (pure_ok_iff.1 h).symm⟩

/-- **The chunks of a writer that fits are all taken.** -/
theorem Valid.takesAll_headChunks (hw : w.Valid) (hfits : w.Fits) (h : w.headChunks = .ok head) :
    ∃ chunks colours, head = Reader.headerChunk w.header :: chunks ∧
      TakesAll w.header none chunks colours ∧
      ((ofHeader w.header).indexed && (colours.getD []).isEmpty) = false := by
  obtain ⟨gamma, depth, palette, transparent, background, unit, -, hgamma, hdepth, hpalette,
    htransparent, hbackground, hunit, rfl⟩ := exists_of_headChunks h
  obtain ⟨colours, htaken, hcolours⟩ := hw.takesAll_palette hpalette
    fun entries hsome => (hfits entries hsome).1
  have hplain : w.background.isNone = true ∨ w.palette.isSome = false := by
    cases hsome : w.palette with
    | none => exact .inr rfl
    | some entries => exact .inl (hfits entries hsome).2
  refine ⟨_, colours, rfl, ?_, hcolours⟩
  -- only the palette changes what is known of the colours
  exact (((((takesAll_gamma hgamma none).append (hw.takesAll_depth hdepth none)).append
    htaken).append (hw.takesAll_transparent htransparent colours)).append
    (hw.takesAll_background hbackground hplain colours)).append (takesAll_unit hunit colours)

/-- **Of the chunks of a writer that does not fit one is refused**: a palette that is too long, or
else a background beside a palette. -/
theorem Valid.refuses_headChunks (hw : w.Valid) (hfits : ¬ w.Fits) (h : w.headChunks = .ok head) :
    ∃ chunks colours c cs fault, head = Reader.headerChunk w.header :: chunks ++ c :: cs ∧
      TakesAll w.header none chunks colours ∧ Refuses w.header colours c fault ∧
      fault ∈ [formatFault "PLTE chunk is too long.",
        formatFault "bKGD chunk has incorrect length."] := by
  obtain ⟨gamma, depth, palette, transparent, background, unit, -, hgamma, hdepth, hpalette,
    htransparent, hbackground, hunit, rfl⟩ := exists_of_headChunks h
  have hbefore := (takesAll_gamma hgamma none).append (hw.takesAll_depth hdepth none)
  simp only [Fits, not_forall] at hfits
  obtain ⟨entries, hsome, hclash⟩ := hfits
  have hindexed : w.palette.isSome = true := by rw [hsome]; rfl
  have hlimit : longestData = 0x7FFFFFFF := rfl
  by_cases hlong : entries.length ≤ 2 ^ w.depth
  · -- the palette is taken, and the background is refused
    obtain ⟨colours, htaken, -⟩ := hw.takesAll_palette hpalette fun entries' hsome' => by
      obtain rfl := Option.some.inj (hsome.symm.trans hsome')
      exact hlong
    obtain ⟨hnone, -⟩ | ⟨-, data, rfl, hdata⟩ := colourChunk_cases hw.background hbackground
    · exact absurd ⟨hlong, hnone⟩ hclash
    rw [(hw.indexed hindexed).2.2.1] at hdata
    simp only [Bool.false_eq_true, if_false] at hdata
    refine ⟨gamma ++ depth ++ palette ++ transparent, colours, .named "bKGD" data, unit, _, ?_,
      (hbefore.append htaken).append (hw.takesAll_transparent htransparent colours),
      refuses_background ?_ (by omega) (by omega) colours,
      mem_cons_of_mem _ mem_cons_self⟩
    · simp
    · rw [layout_header]
      exact hindexed
  · -- the palette is refused
    obtain ⟨hnone, -⟩ | ⟨entries', colours, alphas, hsome', rfl, hcolours, -, -, hcount⟩ :=
      hw.paletteChunks_cases hpalette
    · rw [hsome] at hnone
      cases hnone
    obtain rfl := Option.some.inj (hsome.symm.trans hsome')
    have hdepth : 2 ^ w.header.depth * 3 < colours.length := by
      rw [hcolours, Nat.mul_comm 3]
      exact Nat.mul_lt_mul_of_pos_right (Nat.lt_of_not_le hlong) (by decide)
    refine ⟨gamma ++ depth, none, .named "PLTE" colours,
      (if alphas.isEmpty then [] else [.named "tRNS" alphas]) ++ transparent ++ background ++ unit, _,
      ?_, hbefore, refuses_colours (by omega) hdepth (by omega), mem_cons_self⟩
    simp only [append_assoc, cons_append]

end Writer

end Cartridge.Png
