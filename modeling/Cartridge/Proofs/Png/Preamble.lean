import Cartridge.Proofs.Png.Written

/-!
# Chunks in front of the image data

Which chunks a reader takes once it has the header, one kind after the other, and which it refuses.
What it keeps of them matters for later chunks only in the case of the palette, so a chunk is
described by the palette before and after it (`Reader.Takes`).

* `Reader.takes_gamma`, `Reader.takes_depths`, …: one chunk.
-/

namespace Cartridge.Png

open Layout Scan

namespace Scan

variable {α β : Type} {r r' : Reader} {x : Scan α}

theorem on_warn (concern : Concern) (text : String) (r : Reader) :
    (warn concern text).on r =
      (.ok (), { r with warnings := r.warnings ++ [⟨concern, text⟩] }) := rfl

theorem on_map {a : α} (h : x.on r = (.ok a, r')) (f : α → β) :
    (f <$> x).on r = (.ok (f a), r') := by
  rw [map_eq_pure_bind, on_bind_of_ok h, on_pure]

theorem on_discard {a : α} (h : x.on r = (.ok a, r')) :
    (discard x).on r = (.ok (), r') := on_map h _

end Scan

namespace Reader

variable {r r' : Reader} {h : Header} {colours after before between : Option (List UInt8)}
  {data entries : List UInt8} {c : Chunk} {chunks cs : List Chunk} {fault : Fault}

/-- A reader that has the header and the given palette. -/
structure Knows (h : Header) (colours : Option (List UInt8)) (r : Reader) : Prop where
  header : r.header = some h
  layout : r.layout = some (.ofHeader h)
  colours : r.colours = colours

structure SamePlace (r r' : Reader) : Prop where
  data : r'.data = r.data
  pos : r'.pos = r.pos
  signature : r'.signature = r.signature
  pending : r'.pending = r.pending

theorem SamePlace.comes (h : SamePlace r r') (hcomes : Comes r cs) : Comes r' cs :=
  hcomes.of_same h.data h.pos h.signature h.pending

structure IsHead (c : Chunk) : Prop where
  sound : c.Sound
  tag : c.tag ≠ tagOf "IDAT"

/-- A reader with the header takes a chunk; its palette may be another one afterwards. -/
structure Takes (h : Header) (before : Option (List UInt8)) (c : Chunk)
    (after : Option (List UInt8)) : Prop extends IsHead c where
  taken : ∀ {r}, Knows h before r →
    ∃ r', (takeChunk c).on r = (.ok (), r') ∧ Knows h after r' ∧ SamePlace r r'

/-- A reader with the header refuses a chunk. -/
structure Refuses (h : Header) (before : Option (List UInt8)) (c : Chunk) (fault : Fault) : Prop
    extends IsHead c where
  refused : ∀ {r}, Knows h before r → ∃ r', (takeChunk c).on r = (.error fault, r')

/-! ### One chunk -/

theorem isHead_named {name : String} (htag : (tagOf name).length = 4)
    (hname : tagOf name ≠ tagOf "IDAT") (hdata : data.length ≤ longestData) :
    IsHead (.named name data) :=
  ⟨⟨htag, hdata⟩, hname⟩

theorem takes_gamma (hlength : data.length = 4) (colours : Option (List UInt8)) :
    Takes h colours (.named "gAMA" data) colours where
  toIsHead := isHead_named (by decide) (by decide) (by rw [hlength]; decide)
  taken {r} hknows := by
    refine ⟨{ r with gamma := some ((ofBigEndian data).toFloat / 100000.0) }, ?_,
      { hknows with }, ⟨rfl, rfl, rfl, rfl⟩⟩
    show (takeGamma data).on r = _
    simp only [takeGamma, hlength, ne_eq, not_true, if_false]
    rfl

theorem takes_unit (hlength : data.length = 9) (colours : Option (List UInt8)) :
    Takes h colours (.named "pHYs" data) colours where
  toIsHead := isHead_named (by decide) (by decide) (by rw [hlength]; decide)
  taken {r} hknows := by
    refine ⟨{ r with
      xPerUnit := some (ofBigEndian (data.take 4))
      yPerUnit := some (ofBigEndian ((data.drop 4).take 4))
      unitIsMetre := some (data.getD 8 0 != 0) }, ?_,
      { hknows with }, ⟨rfl, rfl, rfl, rfl⟩⟩
    show (takeUnit data).on r = _
    simp only [takeUnit, hlength, ne_eq, not_true, if_false]
    rfl

theorem takes_depths (hindexed : (ofHeader h).indexed = false)
    (hlength : data.length = (ofHeader h).planes) (colours : Option (List UInt8)) :
    Takes h colours (.named "sBIT" data) colours where
  toIsHead := by
    refine isHead_named (by decide) (by decide) ?_
    rw [hlength, planes, colourPlanes]
    split_ifs <;> decide
  taken {r} hknows := by
    refine ⟨{ r with depths := some data }, ?_,
      { hknows with }, ⟨rfl, rfl, rfl, rfl⟩⟩
    have hlayout : Scan.layout.on { r with depths := some data } = (.ok (.ofHeader h), _) :=
      on_layout hknows.layout
    show (takeDepths data).on r = _
    rw [takeDepths, on_bind_of_ok (on_modify ..), on_bind_of_ok hlayout]
    simp only [hindexed, Bool.false_eq_true, if_false, hlength, ne_eq, not_true]
    rfl

theorem on_takeColours (hknows : Knows h none r) (data : List UInt8) :
    (takeColours data).on r =
      (if data.length % 3 ≠ 0 then
          .error (formatFault "PLTE chunk's length should be a multiple of 3.")
        else if Nat.pow 2 h.depth * 3 < data.length then
          .error (formatFault "PLTE chunk is too long.")
        else if data.isEmpty then .error (formatFault "Empty PLTE is not allowed.")
        else .ok (), { r with colours := some data }) := by
  have hnone : r.hasColours = false := by
    rw [hasColours, hknows.colours]
    rfl
  have hheader : Scan.header.on { r with colours := some data } = (.ok h, _) :=
    on_header hknows.header
  rw [takeColours, on_bind_of_ok (on_discard (on_layout hknows.layout)),
    on_bind_of_ok (on_get r)]
  simp only [hnone, Bool.false_eq_true, if_false]
  rw [on_bind_of_ok (on_modify ..)]
  by_cases hthree : data.length % 3 = 0
  · simp only [hthree, ne_eq, not_true, if_false]
    rw [on_bind_of_ok hheader]
    by_cases hlong : Nat.pow 2 h.depth * 3 < data.length
    · simp only [hlong, if_true]
      rfl
    · simp only [hlong, if_false]
      split <;> rfl
  · simp only [hthree, ne_eq, not_false_eq_true, if_true]
    rfl

theorem takes_colours (hthree : data.length % 3 = 0) (hne : data ≠ [])
    (hlength : data.length ≤ 2 ^ h.depth * 3) (hshort : data.length ≤ longestData) :
    Takes h none (.named "PLTE" data) (some data) where
  toIsHead := isHead_named (by decide) (by decide) hshort
  taken {r} hknows := by
    refine ⟨{ r with colours := some data }, ?_, ⟨hknows.header, hknows.layout, rfl⟩,
      ⟨rfl, rfl, rfl, rfl⟩⟩
    have hfits : ¬ Nat.pow 2 h.depth * 3 < data.length := Nat.not_lt.2 hlength
    have hsome : data.isEmpty = false := List.isEmpty_eq_false_iff.2 hne
    show (takeColours data).on r = _
    rw [on_takeColours hknows, if_neg (by omega), if_neg hfits, hsome]
    rfl

theorem refuses_colours (hthree : data.length % 3 = 0) (hlength : 2 ^ h.depth * 3 < data.length)
    (hshort : data.length ≤ longestData) :
    Refuses h none (.named "PLTE" data) (formatFault "PLTE chunk is too long.") where
  toIsHead := isHead_named (by decide) (by decide) hshort
  refused {r} hknows := by
    have hlong : Nat.pow 2 h.depth * 3 < data.length := hlength
    refine ⟨{ r with colours := some data }, ?_⟩
    show (takeColours data).on r = _
    rw [on_takeColours hknows, if_neg (by omega), if_pos hlong]

theorem takes_alphas (hindexed : (ofHeader h).indexed = true) (hne : entries ≠ [])
    (hlength : 3 * data.length ≤ entries.length) (hshort : data.length ≤ longestData) :
    Takes h (some entries) (.named "tRNS" data) (some entries) where
  toIsHead := isHead_named (by decide) (by decide) hshort
  taken {r} hknows := by
    have hlayout : Scan.layout.on { r with alphas := some data } = (.ok (.ofHeader h), _) :=
      on_layout hknows.layout
    have hsome : hasColours { r with alphas := some data } = true := by
      rw [hasColours, hknows.colours]
      simpa using hne
    have hfits : ¬ (r.colours.getD []).length < 3 * data.length := by
      rw [hknows.colours]
      exact Nat.not_lt.2 hlength
    refine ⟨{ r with alphas := some data }, ?_, { hknows with },
      ⟨rfl, rfl, rfl, rfl⟩⟩
    show (takeTransparency data).on r = _
    rw [takeTransparency, on_bind_of_ok (on_modify ..), on_bind_of_ok hlayout]
    simp only [hindexed, if_true]
    rw [on_bind_of_ok (on_get _)]
    simp only [hsome, hfits, Bool.not_true, Bool.false_eq_true, if_false]
    rfl

theorem words?_eq_some (n : Nat) (hlength : data.length = 2 * n) :
    words? n data = some ((groups 2 data).map ofBigEndian) := by rw [words?, if_pos hlength]

theorem takes_transparent (hindexed : (ofHeader h).indexed = false)
    (halpha : (ofHeader h).alpha = false)
    (hlength : data.length = 2 * (ofHeader h).colourPlanes)
    (colours : Option (List UInt8)) : Takes h colours (.named "tRNS" data) colours where
  toIsHead := by
    refine isHead_named (by decide) (by decide) ?_
    rw [hlength, colourPlanes]
    split_ifs <;> decide
  taken {r} hknows := by
    have hlayout : Scan.layout.on { r with alphas := some data } = (.ok (.ofHeader h), _) :=
      on_layout hknows.layout
    refine ⟨{ r with
      alphas := some data, transparent := some ((groups 2 data).map ofBigEndian) }, ?_,
      { hknows with }, ⟨rfl, rfl, rfl, rfl⟩⟩
    show (takeTransparency data).on r = _
    rw [takeTransparency, on_bind_of_ok (on_modify ..), on_bind_of_ok hlayout]
    simp only [hindexed, halpha, Bool.false_eq_true, if_false]
    rw [on_bind_of_ok (on_demand (words?_eq_some _ hlength) _ _)]
    rfl

theorem takes_background (hindexed : (ofHeader h).indexed = false)
    (hlength : data.length = 2 * (ofHeader h).colourPlanes)
    (colours : Option (List UInt8)) : Takes h colours (.named "bKGD" data) colours where
  toIsHead := by
    refine isHead_named (by decide) (by decide) ?_
    rw [hlength, colourPlanes]
    split_ifs <;> decide
  taken {r} hknows := by
    refine ⟨{ r with background := some ((groups 2 data).map ofBigEndian) }, ?_,
      { hknows with }, ⟨rfl, rfl, rfl, rfl⟩⟩
    show (takeBackground data).on r = _
    rw [takeBackground, on_bind_of_ok (on_layout hknows.layout)]
    simp only [hindexed, Bool.false_eq_true, if_false]
    rw [on_bind_of_ok (on_demand (words?_eq_some _ hlength) _ _)]
    rfl

theorem refuses_background (hindexed : (ofHeader h).indexed = true)
    (hlength : data.length ≠ 1) (hshort : data.length ≤ longestData)
    (colours : Option (List UInt8)) :
    Refuses h colours (.named "bKGD" data) (formatFault "bKGD chunk has incorrect length.") where
  toIsHead := isHead_named (by decide) (by decide) hshort
  refused {r} hknows := by
    have hother : ∀ b, data ≠ [b] := by
      rintro b rfl
      exact hlength rfl
    show ∃ r', (takeBackground data).on r = _
    rw [takeBackground, on_bind_of_ok (on_layout hknows.layout)]
    simp only [hindexed, if_true]
    rw [on_bind_of_ok (on_get r)]
    cases r.hasColours with
    | false | true =>
      exact ⟨_, rfl⟩

/-! ### All chunks -/

inductive TakesAll (h : Header) :
    Option (List UInt8) → List Chunk → Option (List UInt8) → Prop
  | nil {colours : Option (List UInt8)} : TakesAll h colours [] colours
  | cons {before between after : Option (List UInt8)} {c : Chunk} {cs : List Chunk}
      (hfirst : Takes h before c between) (hrest : TakesAll h between cs after) :
      TakesAll h before (c :: cs) after

theorem TakesAll.append (hfirst : TakesAll h before chunks between)
    (hrest : TakesAll h between cs after) :
    TakesAll h before (chunks ++ cs) after := by
  induction hfirst with
  | nil => exact hrest
  | cons hchunk _ ih => exact .cons hchunk (ih hrest)

theorem on_preambleWithin_takes (lenient : Bool) (fuel : Nat)
    (hall : TakesAll h before chunks after) (hknows : Knows h before r)
    (hcomes : Comes r (chunks ++ cs)) :
    ∃ r', (preambleWithin lenient (fuel + chunks.length)).on r =
        (preambleWithin lenient fuel).on r' ∧
      Knows h after r' ∧ Comes r' cs := by
  induction hall generalizing r with
  | nil => exact ⟨r, rfl, hknows, hcomes⟩
  | cons hfirst _ ih =>
    obtain ⟨pos, hstep, hcomes⟩ := on_preambleWithin_cons lenient _ hfirst.sound hfirst.tag hcomes
    obtain ⟨r₁, htaken, hknows, hsame⟩ := hfirst.taken (r := { r with pos, pending := none })
      { hknows with }
    obtain ⟨r₂, hrest, hknows, hcomes⟩ := ih hknows (hsame.comes hcomes)
    refine ⟨r₂, ?_, hknows, hcomes⟩
    rw [← hrest, List.length_cons, ← Nat.add_assoc, hstep, on_bind_of_ok htaken]

theorem on_preamble_head (lenient : Bool) (hsound : h.Sound) (hall : TakesAll h none chunks colours)
    (cs : List Chunk) :
    ∃ r fuel, (preamble lenient).on { data := encodeFile (headerChunk h :: chunks ++ cs) } =
        (preambleWithin lenient (fuel + 1)).on r ∧
      Knows h colours r ∧ Comes r cs := by
  set file := headerChunk h :: chunks ++ cs with hfile
  have hsize := (comes_begun file).length_le
  have hlength : file.length = chunks.length + cs.length + 1 := by simp [hfile]
  have htag : (headerChunk h).tag ≠ tagOf "IDAT" := by
    show tagOf "IHDR" ≠ tagOf "IDAT"
    decide
  obtain ⟨fuel, hfuel⟩ := Nat.exists_eq_add_of_le' (m := chunks.length + 1)
    (n := (begun file).data.size) (by omega)
  obtain ⟨pos, hfirst, hcomes⟩ := on_preambleWithin_cons lenient (begun file).data.size
    (sound_headerChunk h) htag (comes_begun file)
  have htaken := on_takeChunk_header hsound { begun file with pos, pending := none }
  have hcomes : Comes { begun file with
      pos, pending := none, header := some h, layout := some (.ofHeader h), colours := none,
      alphas := none, depths := none } (chunks ++ cs) := hcomes.of_same rfl rfl rfl rfl
  obtain ⟨r, hrest, hknows, hcomes⟩ := on_preambleWithin_takes lenient (fuel + 1) hall
    ⟨rfl, rfl, rfl⟩ hcomes
  refine ⟨r, fuel, ?_, hknows, hcomes⟩
  rw [← hrest, preamble, on_bind_of_ok (on_checkSignature_encodeFile file),
    on_bind_of_ok (on_chunkBound _), hfirst, on_bind_of_ok htaken, hfuel]
  rw [Nat.add_right_comm, Nat.add_assoc]

/-- **A file whose chunks are taken** is read up to its image data. -/
theorem on_preamble_takes (lenient : Bool) (hsound : h.Sound)
    (hall : TakesAll h none chunks colours) (hdata : data.length ≤ longestData) (cs : List Chunk) :
    ∃ r, (preamble lenient).on
        { data := encodeFile (headerChunk h :: chunks ++ dataChunk data :: cs) } = (.ok (), r) ∧
      Knows h colours r ∧ Comes r (dataChunk data :: cs) := by
  obtain ⟨r, fuel, hpreamble, hknows, hcomes⟩ := on_preamble_head lenient hsound hall
    (dataChunk data :: cs)
  obtain ⟨pos, pending, hrest, hcomes⟩ := on_preambleWithin_data lenient fuel
    (sound_dataChunk hdata) rfl hcomes
  exact ⟨_, hpreamble.trans hrest, { hknows with }, hcomes⟩

theorem on_preamble_refuses (lenient : Bool) (hsound : h.Sound)
    (hall : TakesAll h none chunks colours) (hc : Refuses h colours c fault) (cs : List Chunk) :
    ∃ r, (preamble lenient).on { data := encodeFile (headerChunk h :: chunks ++ c :: cs) } =
      (.error fault, r) := by
  obtain ⟨r, fuel, hpreamble, hknows, hcomes⟩ := on_preamble_head lenient hsound hall (c :: cs)
  obtain ⟨pos, hstep, -⟩ := on_preambleWithin_cons lenient fuel hc.sound hc.tag hcomes
  obtain ⟨r', hrefused⟩ := hc.refused (r := { r with pos, pending := none })
    { hknows with }
  exact ⟨r', by rw [hpreamble, hstep, on_bind_of_error hrefused]⟩

end Reader

end Cartridge.Png
