import Cartridge.Program
import Cartridge.Proofs.Dialog.Pointers
import Cartridge.Proofs.PointerList.Pointers

/-!
# Outputs of builds that fail

A program that builds a file works out what it is going to write, empties its output and fills it.
A build that fails before the output is emptied leaves it as it was; one that fails later leaves it
spoiled, with whatever was written up to then.

Main result: `Program.output_kept_iff`.
-/

open List

namespace Cartridge

open PointerList Job Bytes Lettering

variable {α β : Type} {w w' v : Workspace} {f : Fault} {bytes : ByteArray} {next : α → Job β}

namespace Workspace

/-- The workspaces have the same files and folders. -/
structure SameFiles (w w' : Workspace) : Prop where
  files : w'.files = w.files
  folders : w'.folders = w.folders

namespace SameFiles

theorem refl (w : Workspace) : SameFiles w w := ⟨rfl, rfl⟩

theorem trans (h : SameFiles w v) (h' : SameFiles v w') : SameFiles w w' :=
  ⟨h'.files.trans h.files, h'.folders.trans h.folders⟩

section

variable (h : SameFiles w w')

include h

theorem isFolder (path : String) : w'.isFolder path = w.isFolder path := by
  rw [Workspace.isFolder, Workspace.isFolder, h.folders]

theorem isFile (path : String) : w'.isFile path = w.isFile path := by
  rw [Workspace.isFile, Workspace.isFile, h.files]

theorem walk (here names : List String) : w'.walk here names = w.walk here names := by
  induction names generalizing here with
  | nil => rfl
  | cons name rest ih => simp only [Workspace.walk, ih, h.isFolder, h.isFile]

theorem locate (path : String) : w'.locate path = w.locate path := by
  simp only [Workspace.locate, h.walk]

theorem target (path : String) : w'.target path = w.target path := by
  simp only [Workspace.target, h.locate, h.isFolder]

theorem read (path : String) : w'.read path = w.read path := by
  simp only [Workspace.read, h.locate, h.isFolder, h.files]

end

end SameFiles

end Workspace

namespace Job

open Workspace (SameFiles)

theorem on_bind_eq_error_iff {job : Job α} :
    (job >>= next).on w = (.error f, w') ↔
      job.on w = (.error f, w') ∨
        ∃ a v, job.on w = (.ok a, v) ∧ (next a).on v = (.error f, w') := by
  rw [on_bind]
  rcases job.on w with ⟨result, v⟩
  cases result with
  | error g | ok a => simp

/-! ### Jobs that write nothing -/

/-- A job that leaves files and folders as they are, whether it gives a result or not.  It may
print. -/
def WritesNothing (job : Job α) : Prop := ∀ w, SameFiles w (job.on w).2

/-- A job that leaves files and folders as they are if it fails. -/
def FailsClean (job : Job α) : Prop := ∀ w f w', job.on w = (.error f, w') → SameFiles w w'

namespace WritesNothing

theorem of_quiet {job : Job α} (h : job.Quiet) : job.WritesNothing := by
  intro w
  rw [h w]
  exact .refl w

theorem pure (a : α) : WritesNothing (pure a) := of_quiet (.pure a)

theorem throw (f : Fault) : WritesNothing (throw f : Job α) := of_quiet (.throw f)

theorem lift (x : Except Fault α) : WritesNothing (lift x) := of_quiet (.lift x)

theorem demand (o : Option α) (f : Fault) : WritesNothing (demand o f) := of_quiet (.demand o f)

theorem say (line : String) : WritesNothing (say line) := fun _ => ⟨rfl, rfl⟩

theorem bind {job : Job α} (hjob : job.WritesNothing) (hnext : ∀ a, (next a).WritesNothing) :
    (job >>= next).WritesNothing := by
  intro w
  rw [on_bind]
  have hleft := hjob w
  rcases hon : job.on w with ⟨result, v⟩
  rw [hon] at hleft
  cases result with
  | error f => exact hleft
  | ok a => exact hleft.trans (hnext a v)

theorem mapM {g : α → Job β} (h : ∀ a, (g a).WritesNothing) (as : List α) :
    (as.mapM g).WritesNothing := by
  induction as with
  | nil => exact pure []
  | cons a as ih =>
    rw [mapM_cons]
    exact (h a).bind fun _ => ih.bind fun _ => pure _

theorem foldlM {g : β → α → Job β} (h : ∀ b a, (g b a).WritesNothing) (as : List α) (b : β) :
    (as.foldlM g b).WritesNothing := by
  induction as generalizing b with
  | nil => exact pure b
  | cons a as ih =>
    exact (h b a).bind ih

theorem failsClean {job : Job α} (h : job.WritesNothing) : job.FailsClean := by
  intro w f w' hon
  have hsame := h w
  rwa [hon] at hsame

end WritesNothing

theorem FailsClean.bind {job : Job α} (hjob : job.WritesNothing)
    (hnext : ∀ a, (next a).FailsClean) : (job >>= next).FailsClean := by
  intro w f w' h
  obtain h | ⟨a, v, ha, h⟩ := on_bind_eq_error_iff.1 h
  · exact hjob.failsClean w f w' h
  · have hleft := hjob w
    rw [ha] at hleft
    exact hleft.trans (hnext a v f w' h)

/-- Something done after a job that cannot fail itself changes nothing about its failures. -/
theorem FailsClean.map {job : Job α} (hjob : job.FailsClean) (g : α → β) :
    (do let a ← job; return g a).FailsClean := by
  intro w f w' h
  obtain h | ⟨a, v, -, h⟩ := on_bind_eq_error_iff.1 h
  · exact hjob w f w' h
  · cases h

theorem FailsClean.writeFile (path : String) (bytes : ByteArray) :
    (writeFile path bytes).FailsClean :=
  .bind (.of_quiet fun _ => rfl) fun w => .bind (.lift _) fun _ _ _ _ h => by cases h

theorem FailsClean.copy (source target : String) : (Prebuilt.copy source target).FailsClean := by
  refine .bind (.of_quiet (.readFile _)) fun bytes => .bind (.of_quiet fun _ => rfl) fun w => ?_
  split
  · exact .bind (.of_quiet (.require _ _)) fun _ => .writeFile target bytes
  · exact FailsClean.writeFile target bytes

/-! ### Builds -/

/-- A build: what comes out of a job is written, piece by piece, to an emptied file. -/
def drafted (job : Job α) (output : String) (pieces : α → List (Except Fault ByteArray)) :
    Job Unit := do
  let a ← job
  let key ← create output
  fill key (pieces a)

theorem fill_singleton (key : String) (g : α → ByteArray) (x : Except Fault α) :
    fill key [g <$> x] = lift x >>= fun b => append key (g b) := by
  cases x <;> rfl

variable {job : Job α} {output key : String} {pieces : α → List (Except Fault ByteArray)} {a : α}

/-- **A build.**  Once there is something to write and a file for it, the file holds the pieces up
to the first that cannot be had. -/
theorem on_drafted (hjob : job.WritesNothing) (ha : (job.on w).1 = .ok a)
    (hkey : w.target output = .ok key) :
    (drafted job output pieces).on w = ((fun _ => ()) <$> (pieces a).mapM id,
      { (job.on w).2 with files := w.files.insert key (written (pieces a)) }) := by
  have hsame := hjob w
  have hcreate : (create output).on (job.on w).2 =
      (.ok key, { (job.on w).2 with files := w.files.insert key ByteArray.empty }) := by
    rw [on_create_ok_iff, hsame.target, hsame.files]
    exact ⟨hkey, rfl⟩
  have hfill := on_fill key (pieces a) ByteArray.empty { (job.on w).2 with files := w.files }
  rw [drafted, on_bind, on_eq_of_fst ha]
  exact (on_bind ..).trans (by rw [hcreate]; exact hfill)

theorem exists_on_drafted (pieces : α → List (Except Fault ByteArray)) (hjob : job.WritesNothing)
    (ha : (job.on w).1 = .ok a) (hkey : w.target output = .ok key) :
    ∃ w', (drafted job output pieces).on w = ((fun _ => ()) <$> (pieces a).mapM id, w') ∧
      w'.read output = .ok (written (pieces a)) :=
  ⟨_, on_drafted hjob ha hkey, Workspace.read_ok_iff.2
    ⟨key, Workspace.target_of_folders (hjob w).folders hkey, Table.find?_insert_self ..⟩⟩

theorem sameFiles_of_drafted (hjob : job.WritesNothing)
    (hnone : ∀ a key, (job.on w).1 = .ok a → w.target output ≠ .ok key)
    (h : (drafted job output pieces).on w = (.error f, w')) : SameFiles w w' := by
  have hsame := hjob w
  obtain h | ⟨a, v, ha, h⟩ := on_bind_eq_error_iff.1 h
  · exact hjob.failsClean w f w' h
  rw [ha] at hsame
  obtain h | ⟨key, v', hkey, -⟩ := on_bind_eq_error_iff.1 h
  · have hclean : (create output).FailsClean :=
      .bind (.of_quiet fun _ => rfl) fun _ => .bind (.lift _) fun _ _ _ _ h => by cases h
    exact hsame.trans (hclean v f w' h)
  · obtain ⟨hkey, -⟩ := on_create_ok_iff.1 hkey
    rw [hsame.target] at hkey
    exact absurd hkey (hnone a key (by rw [ha]))

/-- A build has emptied its output and cannot write all of it; `bytes` are there. -/
inductive Spoils (job : Job α) (output : String) (pieces : α → List (Except Fault ByteArray))
    (w : Workspace) : ByteArray → Prop
  | intro {a : α} {key : String} {f : Fault} (ha : (job.on w).1 = .ok a)
      (hkey : w.target output = .ok key) (hfault : (pieces a).mapM id = .error f) :
      Spoils job output pieces w (written (pieces a))

/-- **What a failed build leaves**: its output as it was, or spoiled. -/
theorem read_drafted_iff (hjob : job.WritesNothing)
    (h : (drafted job output pieces).on w = (.error f, w')) :
    w'.read output = w.read output ↔
      ∀ bytes, Spoils job output pieces w bytes → w.read output = .ok bytes := by
  by_cases hsome : ∃ a key, (job.on w).1 = .ok a ∧ w.target output = .ok key
  · obtain ⟨a, key, ha, hkey⟩ := hsome
    obtain ⟨v, hon, hread⟩ := exists_on_drafted pieces hjob ha hkey
    rw [hon, Prod.mk.injEq] at h
    obtain ⟨hfault, rfl⟩ := h
    rw [hread]
    constructor
    · rintro hsame _ ⟨ha', -, -⟩
      obtain rfl := Except.ok.inj (ha.symm.trans ha')
      exact hsame.symm
    · intro hold
      cases hparts : (pieces a).mapM id with
      | error g => exact (hold _ (.intro ha hkey hparts)).symm
      | ok parts =>
        rw [hparts] at hfault
        cases hfault
  · have hnone : ∀ a key, (job.on w).1 = .ok a → w.target output ≠ .ok key :=
      fun a key ha hkey => hsome ⟨a, key, ha, hkey⟩
    refine iff_of_true ((sameFiles_of_drafted hjob hnone h).read output) ?_
    rintro _ ⟨ha, hkey, -⟩
    exact absurd hkey (hnone _ _ ha)

theorem spoils_singleton_iff {x : α → Except Fault β} {g : α → β → ByteArray} :
    Spoils job output (fun a => [g a <$> x a]) w bytes ↔
      ∃ a key f, (job.on w).1 = .ok a ∧ w.target output = .ok key ∧ x a = .error f ∧
        bytes = ByteArray.empty := by
  constructor
  · rintro ⟨ha, hkey, hfault⟩
    rename_i a key f
    cases hx : x a with
    | error g => exact ⟨a, key, g, ha, hkey, hx, rfl⟩
    | ok b =>
      rw [hx] at hfault
      cases hfault
  · rintro ⟨a, key, f, ha, hkey, hx, rfl⟩
    have hfault : ([g a <$> x a]).mapM id = .error f := by
      rw [hx]
      rfl
    have hwritten : written [g a <$> x a] = ByteArray.empty := by
      rw [hx]
      rfl
    rw [← hwritten]
    exact .intro ha hkey hfault

end Job

/-! ### What the programs write -/

namespace Tilemap

def draft (input : String) : Job (List Int) := do encodeText (← readMarkedText input)

theorem writesNothing_code (p : Charset.Piece) : p.code.WritesNothing := by
  cases p with
  | known code => exact .pure code
  | escaped digits => exact .demand _ _
  | unknown c => exact .bind (.say _) fun _ => .pure _

theorem writesNothing_pack (cells : List Int) : (pack cells).WritesNothing := by
  unfold pack
  split
  · exact .pure _
  · exact .throw _
  · exact .bind (.say _) fun _ => .throw _
  · exact .throw _

theorem writesNothing_encodeRows (mode : Int) (rows : List Char) :
    (encodeRows mode rows).WritesNothing := by
  have hencode (s : List Char) : (Charset.encode rowCodes s).WritesNothing :=
    .mapM writesNothing_code _
  unfold encodeRows
  split
  · exact .bind (.mapM hencode _) fun cells => writesNothing_pack _
  · exact .bind (hencode rows) fun _ => .pure _

theorem writesNothing_draft (input : String) : (draft input).WritesNothing :=
  .bind (.of_quiet (.readMarkedText input)) fun _ => .bind (.lift _) fun mode =>
    .bind (writesNothing_encodeRows mode _) fun _ => .pure _

theorem buildFile_eq (output input : String) :
    buildFile output input =
      drafted (draft input) output fun map => [(⟨·.toArray⟩) <$> ofInts map] := by
  simp only [buildFile, drafted, draft, bind_assoc, fill_singleton]

end Tilemap

namespace Bytes

theorem exists_ofInts_iff {ns : List Int} :
    (∃ bytes, ofInts ns = .ok bytes) ↔ ∀ n ∈ ns, 0 ≤ n ∧ n < 0x100 := by
  constructor
  · rintro ⟨bytes, hbytes⟩ n hn
    obtain ⟨b, -, hb⟩ := exists_mem_of_mapM hbytes hn
    by_contra hbig
    rw [byteOf, if_neg hbig] at hb
    cases hb
  · intro h
    exact exists_mapM_eq_ok fun n hn => ⟨_, if_pos (h n hn)⟩

theorem exists_word_iff {n : Int} : (∃ l, word n = .ok l) ↔ 0 ≤ n ∧ n < 0x10000 := by
  simp only [word_ok_iff]
  exact ⟨fun ⟨_, h, _⟩ => h, fun h => ⟨_, h, rfl⟩⟩

end Bytes

namespace Dialog

def draft (input pointers portraits column version : String) :
    Job (Layout × List (Nat × Nat) × List UInt8) := do
  let t ← readTypeface pointers portraits
  let sheet := Text.Csv.parse (← readMarkedText input)
  let header ← demand sheet.head? (.plain .noMember)
  let c ← lift (Sheet.Columns.find header column)
  let l ← layOut t c version (sheet.drop 1)
  let spans ← lift l.spans
  let table ← lift (words (spans.flatMap fun s => [(s.1 : Int), (s.2 : Int)]))
  return (l, spans, table)

theorem writesNothing_addEntry (t : Typeface) (l : Layout) (e : Entry) :
    (addEntry t l e).WritesNothing := by
  have hreport (s : List Char) (flaw : Script.Flaw) : (report e.pointer s flaw).WritesNothing := by
    unfold report
    split
    · exact .bind (.say _) fun _ => .bind (.say _) fun _ => .bind (.say _) fun _ => .say _
    · exact .bind (.say _) fun _ => .say _
  unfold addEntry
  split
  · exact .bind (.demand _ _) fun _ => .pure _
  · exact .pure _
  · split
    · exact .bind (hreport _ _) fun _ => .throw _
    · exact .bind (.lift _) fun _ => .pure _

theorem writesNothing_draft (input pointers portraits column version : String) :
    (draft input pointers portraits column version).WritesNothing := by
  refine .bind (.of_quiet (quiet_readTypeface _ _)) fun t =>
    .bind (.of_quiet (.readMarkedText input)) fun _ => .bind (.demand _ _) fun _ =>
      .bind (.lift _) fun c => .bind (.foldlM ?_ _ _) fun l => .bind (.lift _) fun spans =>
        .bind (.lift _) fun table => .pure _
  intro l row
  refine .bind (.lift _) fun choice => ?_
  cases choice with
  | none => exact .pure l
  | some e => exact writesNothing_addEntry t l e

def pieces (d : Layout × List (Nat × Nat) × List UInt8) : List (Except Fault ByteArray) :=
  [(fun count => ⟨(count ++ d.2.2).toArray ++ d.1.text⟩) <$> word d.2.1.length]

theorem build_eq (output input pointers portraits column version : String) :
    build output input pointers portraits column version =
      drafted (draft input pointers portraits column version) output pieces := by
  simp only [build, drafted, draft, pieces, bind_assoc, pure_bind, fill_singleton]

end Dialog

namespace PointerList

def draft (default : Lettering) (input version : String) : Job (Heading × Body × Layout) := do
  let lines := Text.lines (← readMarkedText input)
  let h ← lift (Heading.read (lines.headD []))
  let l ← letteringOf h default
  lift (h.check input)
  let body ← lift (Body.read (lines.drop 1))
  let layout ← layOut h l input version body.rows
  return (h, body, layout)

theorem writesNothing_encodeFields (h : Heading) (l : Lettering) (i : Nat) (fields : List String) :
    (encodeFields h l i fields).WritesNothing := by
  induction fields generalizing i with
  | nil => exact .pure []
  | cons field rest ih =>
    refine .bind (.lift _) fun _ => .bind (.lift _) fun _ => ?_
    split
    · exact .bind (ih _) fun _ => .pure _
    · exact .throw _
    · exact .bind (.say _) fun _ => .throw _

theorem writesNothing_addRow (h : Heading) (l : Lettering) (path version : String) (layout : Layout)
    (row : List String) : (addRow h l path version layout row).WritesNothing := by
  have hfields (index offset : Int) (fields : List String) :
      (addFields h l layout index offset fields).WritesNothing :=
    .bind (writesNothing_encodeFields h l 0 fields) fun _ => .pure _
  refine .bind (.demand _ _) fun cell => .bind (.lift _) fun choice => ?_
  cases choice with
  | none => exact .pure layout
  | some index =>
    refine .bind (.lift _) fun _ => .bind (.lift _) fun slot => ?_
    cases slot with
    | repeated other => exact .bind (.demand _ _) fun _ => .pure _
    | fixed address fields =>
      refine .bind (.say _) fun _ => ?_
      cases fields with
      | none => exact .pure _
      | some fields => exact hfields index address fields
    | own fields => exact hfields index layout.text.size fields

theorem writesNothing_draft (default : Lettering) (input version : String) :
    (draft default input version).WritesNothing :=
  .bind (.of_quiet (.readMarkedText input)) fun _ => .bind (.lift _) fun h =>
    .bind (.of_quiet (quiet_letteringOf h default)) fun l => .bind (.lift _) fun _ =>
      .bind (.lift _) fun _ => .bind (.bind (.lift _) fun _ =>
        .foldlM (writesNothing_addRow h l input version) _ _) fun _ => .pure _

theorem build_eq (default : Lettering) (output input version : String) :
    build default output input version =
      drafted (draft default input version) output fun d => pieces d.1 d.2.1 d.2.2 := by
  simp only [build, write, drafted, draft, bind_assoc, pure_bind]

/-- The numbers of a list fit their places, and every pointer has a length. -/
structure Fits (h : Heading) (body : Body) (layout : Layout) : Prop where
  general : ∃ b, byteField h.general = .ok b
  slots : 0 ≤ body.slots ∧ body.slots < 0x10000
  empty : 0 ≤ body.emptyWord ∧ body.emptyWord < 0x10000
  lengths : ∀ k ∈ layout.offsets.keys, ∃ n, layout.lengths.find? k = some n
  spans : ∀ k offset n, layout.offsets.find? k = some offset → layout.lengths.find? k = some n →
    (0 ≤ offset ∧ offset < 0x10000) ∧ n < 0x10000
  count : layout.offsets.keys.length < 0x10000

variable {h : Heading} {body : Body} {layout : Layout}

theorem spans_ok_iff {spans : List (Int × Nat)} :
    layout.spans = .ok spans ↔ List.Forall₂ (fun k s =>
      layout.offsets.find? k = some s.1 ∧ layout.lengths.find? k = some s.2)
      (layout.offsets.keys.mergeSort fun a b => decide (a ≤ b)) spans := by
  have hspan (k : Int) (s : Int × Nat) : (do
      let offset ← demand (layout.offsets.find? k) (.plain .key)
      let length ← demand (layout.lengths.find? k) (.plain .key)
      return (offset, length) : Except Fault (Int × Nat)) = .ok s ↔
        layout.offsets.find? k = some s.1 ∧ layout.lengths.find? k = some s.2 := by
    obtain ⟨offset, n⟩ := s
    simp only [bind_ok_iff, demand_ok_iff, pure_ok_iff, Prod.mk.injEq]
    constructor
    · rintro ⟨_, hoffset, _, hn, rfl, rfl⟩
      exact ⟨hoffset, hn⟩
    · rintro ⟨hoffset, hn⟩
      exact ⟨offset, hoffset, n, hn, rfl, rfl⟩
  simp only [Layout.spans, mapM_ok_iff, hspan]

theorem exists_stored_iff : (∃ data, layout.stored = .ok data) ↔
    (∀ k ∈ layout.offsets.keys, ∃ n, layout.lengths.find? k = some n) ∧
    (∀ k offset n, layout.offsets.find? k = some offset → layout.lengths.find? k = some n →
      (0 ≤ offset ∧ offset < 0x10000) ∧ n < 0x10000) ∧
    layout.offsets.keys.length < 0x10000 := by
  have hsorted (k : Int) :
      k ∈ (layout.offsets.keys.mergeSort fun a b => decide (a ≤ b)) ↔ k ∈ layout.offsets.keys :=
    mem_mergeSort
  constructor
  · rintro ⟨data, hdata⟩
    simp only [Layout.stored, bind_ok_iff] at hdata
    obtain ⟨spans, hspans, table, htable, count, hcount, -⟩ := hdata
    rw [spans_ok_iff] at hspans
    obtain ⟨hwords, -⟩ := words_ok_iff.1 htable
    obtain ⟨hcount, -⟩ := word_ok_iff.1 hcount
    have hlength := hspans.length_eq
    rw [length_mergeSort] at hlength
    have hmem (k : Int) (hk : k ∈ layout.offsets.keys) : ∃ s ∈ spans,
        layout.offsets.find? k = some s.1 ∧ layout.lengths.find? k = some s.2 := by
      obtain ⟨i, hi, rfl⟩ := mem_iff_getElem.1 ((hsorted k).2 hk)
      have hi' : i < spans.length := hspans.length_eq ▸ hi
      exact ⟨spans[i], getElem_mem hi', (forall₂_iff_get.1 hspans).2 i hi hi'⟩
    refine ⟨fun k hk => ?_, fun k offset n hoffset hn => ?_, by omega⟩
    · obtain ⟨s, -, -, hs⟩ := hmem k hk
      exact ⟨s.2, hs⟩
    · obtain ⟨s, hs, hoffset', hn'⟩ := hmem k (Table.mem_keys_iff.2 ⟨offset, hoffset⟩)
      obtain rfl := Option.some.inj (hoffset.symm.trans hoffset')
      obtain rfl := Option.some.inj (hn.symm.trans hn')
      have hfirst := hwords s.1 (mem_flatMap.2 ⟨s, hs, by simp⟩)
      have hsecond := hwords s.2 (mem_flatMap.2 ⟨s, hs, by simp⟩)
      exact ⟨hfirst, by omega⟩
  · rintro ⟨hlengths, hfit, hcount⟩
    obtain ⟨spans, hspans⟩ : ∃ spans, layout.spans = .ok spans := by
      refine exists_mapM_eq_ok fun k hk => ?_
      obtain ⟨offset, hoffset⟩ := Table.mem_keys_iff.1 ((hsorted k).1 hk)
      obtain ⟨n, hn⟩ := hlengths k ((hsorted k).1 hk)
      exact ⟨(offset, n), by rw [hoffset, hn]; rfl⟩
    have hforall := spans_ok_iff.1 hspans
    have hlength := hforall.length_eq
    rw [length_mergeSort] at hlength
    obtain ⟨table, htable⟩ : ∃ table,
        words (spans.flatMap fun s => [s.1, (s.2 : Int)]) = .ok table := by
      refine ⟨_, words_ok_iff.2 ⟨fun n hn => ?_, rfl⟩⟩
      obtain ⟨s, hs, hn⟩ := mem_flatMap.1 hn
      obtain ⟨i, hi, rfl⟩ := mem_iff_getElem.1 hs
      obtain ⟨hoffset, hn'⟩ :=
        (forall₂_iff_get.1 hforall).2 i (hforall.length_eq ▸ hi) hi
      obtain ⟨hoffset, hsize⟩ := hfit _ _ _ hoffset hn'
      simp only [get_eq_getElem] at hoffset hsize
      simp only [mem_cons, not_mem_nil, or_false] at hn
      rcases hn with rfl | rfl
      · exact hoffset
      · omega
    obtain ⟨count, hcount⟩ := exists_word_iff.2
      (show 0 ≤ (spans.length : Int) ∧ (spans.length : Int) < 0x10000 by omega)
    refine ⟨⟨(count ++ table).toArray ++ layout.text⟩, ?_⟩
    simp only [Layout.stored, bind_ok_iff, pure_ok_iff]
    exact ⟨spans, hspans, table, htable, count, hcount, rfl⟩

theorem fits_iff : Fits h body layout ↔ ∃ parts, (pieces h body layout).mapM id = .ok parts := by
  have hmap {α : Type} {x : Except Fault α} {g : α → ByteArray} :
      (∃ b, id (g <$> x) = .ok b) ↔ ∃ a, x = .ok a := by
    simp only [id, map_ok_iff]
    exact ⟨fun ⟨_, a, ha, _⟩ => ⟨a, ha⟩, fun ⟨a, ha⟩ => ⟨_, a, ha, rfl⟩⟩
  constructor
  · rintro ⟨hgeneral, hslots, hempty, hlengths, hspans, hcount⟩
    refine exists_mapM_eq_ok fun piece hpiece => ?_
    simp only [pieces, mem_cons, not_mem_nil, or_false] at hpiece
    rcases hpiece with rfl | rfl | rfl | rfl
    · exact hmap.2 hgeneral
    · exact hmap.2 (exists_word_iff.2 hslots)
    · exact hmap.2 (exists_word_iff.2 hempty)
    · exact exists_stored_iff.2 ⟨hlengths, hspans, hcount⟩
  · rintro ⟨parts, hparts⟩
    simp only [pieces, mapM_ok_iff, forall₂_cons_left_iff, forall₂_nil_left_iff] at hparts
    obtain ⟨_, _, hgeneral, ⟨_, _, hslots, ⟨_, _, hempty, ⟨_, _, hstored, -⟩, -⟩, -⟩, -⟩ := hparts
    obtain ⟨hlengths, hspans, hcount⟩ := exists_stored_iff.1 ⟨_, hstored⟩
    exact ⟨hmap.1 ⟨_, hgeneral⟩, exists_word_iff.1 (hmap.1 ⟨_, hslots⟩),
      exists_word_iff.1 (hmap.1 ⟨_, hempty⟩), hlengths, hspans, hcount⟩

end PointerList

/-! ### Programs that fail -/

theorem Prebuilt.of_orBuild_error {root name output : String} {build : Job Unit}
    (h : (orBuild root name output build).on w = (.error f, w')) :
    (w.hasFile (Path.join root name) = true ∧ w.SameFiles w') ∨
      (w.hasFile (Path.join root name) = false ∧ build.on w = (.error f, w')) := by
  obtain hget | ⟨_, _, hget, h⟩ := on_bind_eq_error_iff.1 h
  · cases hget
  obtain ⟨rfl, rfl⟩ : w = _ ∧ w = _ := by simpa using hget
  by_cases hfile : w.hasFile (Path.join root name) = true
  · rw [if_pos hfile] at h
    have hclean : (do say ("\tUsing prebuilt " ++ Path.join root name)
                      copy (Path.join root name) output
                      return .quit none : Job Ending).FailsClean :=
      .bind (.say _) fun _ => (FailsClean.copy _ _).map _
    exact .inl ⟨hfile, hclean w f w' h⟩
  · rw [if_neg hfile] at h
    obtain h | ⟨_, _, -, h⟩ := on_bind_eq_error_iff.1 h
    · exact .inr ⟨Bool.eq_false_iff.2 hfile, h⟩
    · cases h

namespace Program

variable {column input pointers portraits prebuilt version : String} {i : Nat} {rest : List String}

/-- The programs that build one file, the one that their first argument names. -/
def builders : List Program := [buildMap, buildTileset, buildDialog, buildPointerList]

/-- A program empties its output and then fails; `bytes` are left in it. -/
inductive Spoils (w : Workspace) : Program → List String → ByteArray → Prop
  | map {output input prebuilt key : String} {rest : List String} {map : List Int}
      (hprebuilt : w.hasFile (Path.join prebuilt (Path.stem input ++ ".map")) = false)
      (hmap : ((Tilemap.draft input).on w).1 = .ok map) (hkey : w.target output = .ok key)
      (hbig : ∃ n ∈ map, ¬(0 ≤ n ∧ n < 0x100)) :
      Spoils w buildMap (output :: input :: prebuilt :: rest) ByteArray.empty
  | dialog {output input pointers portraits column version key : String} {rest : List String}
      {l : Dialog.Layout} {spans : List (Nat × Nat)} {table : List UInt8}
      (hdraft : ((Dialog.draft input pointers portraits column version).on w).1 =
        .ok (l, spans, table))
      (hkey : w.target output = .ok key) (hmany : 0x10000 ≤ spans.length) :
      Spoils w buildDialog
        (output :: input :: pointers :: portraits :: column :: version :: rest) ByteArray.empty
  | list {output input version key : String} {rest : List String} {lettering : Lettering}
      {h : Heading} {body : Body} {layout : Layout}
      (hlettering : (read.on w).1 = .ok lettering)
      (hdraft : ((draft lettering input version).on w).1 = .ok (h, body, layout))
      (hkey : w.target output = .ok key) (hunfit : ¬Fits h body layout) :
      Spoils w buildPointerList (output :: input :: version :: rest)
        (written (pieces h body layout))

variable {name output a : String} {args : List String}

theorem toEnd_eq_error_iff {job : Job Unit} :
    (toEnd job).on w = (.error f, w') ↔ job.on w = (.error f, w') := by
  rw [toEnd, on_bind_eq_error_iff]
  constructor
  · rintro (h | ⟨_, _, -, h⟩)
    · exact h
    · cases h
  · exact .inl

theorem exists_error_iff {x : Except Fault α} : (∃ f, x = .error f) ↔ ¬∃ a, x = .ok a := by
  cases x <;> simp

theorem spoils_map_iff :
    Spoils w buildMap (output :: input :: prebuilt :: rest) bytes ↔
      w.hasFile (Path.join prebuilt (Path.stem input ++ ".map")) = false ∧
        Job.Spoils (Tilemap.draft input) output
          (fun map => [(⟨·.toArray⟩) <$> ofInts map]) w bytes := by
  rw [spoils_singleton_iff]
  have hbig (map : List Int) : (∃ n ∈ map, ¬(0 ≤ n ∧ n < 0x100)) ↔
      ∃ f, ofInts map = .error f := by
    rw [exists_error_iff, exists_ofInts_iff, not_forall₂]
    simp only [exists_prop]
  constructor
  · intro h
    cases h with
    | map hprebuilt hmap hkey hn =>
      obtain ⟨g, hg⟩ := (hbig _).1 hn
      exact ⟨hprebuilt, _, _, g, hmap, hkey, hg, rfl⟩
  · rintro ⟨hprebuilt, map, key, g, hmap, hkey, hg, rfl⟩
    exact .map hprebuilt hmap hkey ((hbig map).2 ⟨g, hg⟩)

theorem spoils_dialog_iff :
    Spoils w buildDialog (output :: input :: pointers :: portraits :: column :: version :: rest)
      bytes ↔
        Job.Spoils (Dialog.draft input pointers portraits column version) output Dialog.pieces w
          bytes := by
  unfold Dialog.pieces
  rw [spoils_singleton_iff]
  have hmany (n : Nat) : 0x10000 ≤ n ↔ ∃ f, word n = .error f := by
    rw [exists_error_iff, exists_word_iff]
    omega
  constructor
  · intro h
    cases h with
    | dialog hdraft hkey hn =>
      obtain ⟨g, hg⟩ := (hmany _).1 hn
      exact ⟨_, _, g, hdraft, hkey, hg, rfl⟩
  · rintro ⟨⟨l, spans, table⟩, key, g, hdraft, hkey, hg, rfl⟩
    exact .dialog hdraft hkey ((hmany _).2 ⟨g, hg⟩)

theorem spoils_list_iff :
    Spoils w buildPointerList (output :: input :: version :: rest) bytes ↔
      Job.Spoils (do draft (← Lettering.read) input version) output
        (fun d => pieces d.1 d.2.1 d.2.2) w bytes := by
  have hread (d : Heading × Body × Layout) :
      ((do draft (← Lettering.read) input version).on w).1 = .ok d ↔
        ∃ lettering, (Lettering.read.on w).1 = .ok lettering ∧
          ((draft lettering input version).on w).1 = .ok d := by
    have hquiet := Quiet.readLettering w
    rw [on_bind]
    rcases hon : Lettering.read.on w with ⟨_ | lettering, v⟩
    · simp
    · obtain rfl : v = w := by rwa [hon] at hquiet
      simp
  constructor
  · intro h
    cases h with
    | list hlettering hdraft hkey hunfit =>
      obtain ⟨g, hg⟩ := exists_error_iff.2 (mt fits_iff.2 hunfit)
      exact .intro ((hread _).2 ⟨_, hlettering, hdraft⟩) hkey hg
  · rintro ⟨ha, hkey, hfault⟩
    obtain ⟨lettering, hlettering, hdraft⟩ := (hread _).1 ha
    exact .list hlettering hdraft hkey (mt fits_iff.1 (exists_error_iff.1 ⟨_, hfault⟩))

/-! ### One program at a time -/

theorem map_kept_iff (rest : List String)
    (h : (Tilemap.build output input prebuilt).on w = (.error f, w')) :
    w'.read output = w.read output ↔ ∀ bytes,
      Spoils w buildMap (output :: input :: prebuilt :: rest) bytes →
        w.read output = .ok bytes := by
  obtain ⟨hfile, hsame⟩ | ⟨hfile, hbuild⟩ := Prebuilt.of_orBuild_error h
  · refine iff_of_true (hsame.read output) fun bytes hspoils => ?_
    rw [(spoils_map_iff.1 hspoils).1] at hfile
    cases hfile
  · rw [Tilemap.buildFile_eq] at hbuild
    simp only [spoils_map_iff, hfile, true_and]
    exact Job.read_drafted_iff (Tilemap.writesNothing_draft input) hbuild

theorem failsClean_tileset (output input prebuilt : String) :
    (Tileset.build output input prebuilt).FailsClean := by
  intro w f w' h
  obtain ⟨-, hsame⟩ | ⟨-, hbuild⟩ := Prebuilt.of_orBuild_error h
  · exact hsame
  · have hbuilds : (Tileset.buildFile output input).FailsClean :=
      .bind (.of_quiet (.readFile input)) fun _ => .bind (.lift _) fun stored =>
        .writeFile output stored
    exact hbuilds w f w' hbuild

theorem dialog_kept_iff (rest : List String)
    (h : (Dialog.build output input pointers portraits column version).on w = (.error f, w')) :
    w'.read output = w.read output ↔ ∀ bytes,
      Spoils w buildDialog (output :: input :: pointers :: portraits :: column :: version :: rest)
        bytes → w.read output = .ok bytes := by
  rw [Dialog.build_eq] at h
  simp only [spoils_dialog_iff]
  exact Job.read_drafted_iff (Dialog.writesNothing_draft input pointers portraits column version) h

theorem buildList_eq (output input version : String) :
    (do build (← read) output input version) =
      drafted (do draft (← read) input version) output
        fun d => pieces d.1 d.2.1 d.2.2 := by
  simp only [build_eq, drafted, bind_assoc]

theorem writesNothing_draftList (input version : String) :
    (do draft (← read) input version).WritesNothing :=
  .bind (.of_quiet .readLettering) fun lettering =>
    writesNothing_draft lettering input version

theorem list_kept_iff (rest : List String)
    (h : (do build (← read) output input version).on w = (.error f, w')) :
    w'.read output = w.read output ↔ ∀ bytes,
      Spoils w buildPointerList (output :: input :: version :: rest) bytes →
        w.read output = .ok bytes := by
  rw [buildList_eq] at h
  simp only [spoils_list_iff]
  exact Job.read_drafted_iff (writesNothing_draftList input version) h

theorem argument_of_some (h : args[i]? = some a) : argument args i = pure a := by
  rw [argument, h]
  rfl

theorem failsClean_of_missing (h : args[i]? = none) (next : String → Job α) :
    (argument args i >>= next).FailsClean := by
  intro w f w' hon
  rw [argument, h] at hon
  obtain ⟨-, rfl⟩ := Prod.mk.inj hon
  exact .refl w

/-- **Failing builds.**  A build that fails leaves its output as it was, unless it has emptied it
before: then the output holds what was written up to the failure. -/
theorem output_kept_iff {p : Program} (hp : p ∈ builders) (houtput : args.head? = some output)
    (h : (p.run name args).on w = (.error f, w')) :
    w'.read output = w.read output ↔
      ∀ bytes, Spoils w p args bytes → w.read output = .ok bytes := by
  obtain ⟨rest, rfl⟩ : ∃ rest, args = output :: rest := by
    cases args with
    | nil => cases houtput
    | cons first rest => exact ⟨rest, by rw [Option.some.inj houtput]⟩
  have hclean (hjob : (p.run name (output :: rest)).FailsClean)
      (hnone : ∀ bytes, ¬Spoils w p (output :: rest) bytes) :
      w'.read output = w.read output ↔
        ∀ bytes, Spoils w p (output :: rest) bytes → w.read output = .ok bytes :=
    iff_of_true ((hjob w f w' h).read output) fun bytes hspoils => absurd hspoils (hnone bytes)
  have harg (i : Nat) : (argument (output :: rest) i).WritesNothing := .demand _ _
  simp only [builders, List.mem_cons, List.not_mem_nil, or_false] at hp
  rcases hp with rfl | rfl | rfl | rfl
  · rcases rest with _ | ⟨input, _ | ⟨prebuilt, rest⟩⟩
    case cons.cons =>
      simp only [run, argument_of_some (rfl : (output :: input :: prebuilt :: rest)[0]? = _),
        argument_of_some (rfl : (output :: input :: prebuilt :: rest)[1]? = _),
        argument_of_some (rfl : (output :: input :: prebuilt :: rest)[2]? = _), pure_bind] at h
      exact map_kept_iff rest h
    all_goals
      refine hclean ?_ (by rintro _ ⟨⟩)
      exact .bind (harg 0) fun _ => .bind (harg 1) fun _ => failsClean_of_missing rfl _
  · refine hclean ?_ (by rintro _ ⟨⟩)
    exact .bind (harg 0) fun o => .bind (harg 1) fun i => .bind (harg 2) fun p =>
      failsClean_tileset o i p
  · have hrun := toEnd_eq_error_iff.1 h
    rcases rest with _ | ⟨input, _ | ⟨pointers, _ | ⟨portraits, _ | ⟨column, _ | ⟨version, rest⟩⟩⟩⟩⟩
    case cons.cons.cons.cons.cons => exact dialog_kept_iff rest hrun
    all_goals
      refine hclean ?_ (by rintro _ ⟨⟩)
      exact .map (.bind (harg 0) fun _ => .bind (harg 1) fun _ => .bind (harg 2) fun _ =>
        .bind (harg 3) fun _ => .bind (harg 4) fun _ => failsClean_of_missing rfl _) _
  · have hrun := toEnd_eq_error_iff.1 h
    rcases rest with _ | ⟨input, _ | ⟨version, rest⟩⟩
    case cons.cons => exact list_kept_iff rest hrun
    all_goals
      refine hclean ?_ (by rintro _ ⟨⟩)
      exact .map (.bind (.of_quiet .readLettering) fun _ => .bind (harg 0) fun _ =>
        .bind (harg 1) fun _ => failsClean_of_missing rfl _) _

/-! ### An address without data -/

/-- A list of one entry that has an address and no data, an older output and a small lettering. -/
def addressed : Workspace where
  files := ⟨[("list", ("[1,[],[80],[None],0,None,[7],0,None]\n5\n-1\nindex,text\n" ++
      "0,##&C000\n").toUTF8),
    ("out", ⟨#[9]⟩),
    ("scripts/res/tilesets/MainDialog1.lst", "A\n".toUTF8),
    ("scripts/res/tilesets/MainDialog2.lst", "B\n".toUTF8),
    ("scripts/res/tilesets/Special.lst", "C\n".toUTF8),
    ("scripts/res/tilesets/Kanji.lst", "K\n".toUTF8)]⟩
  folders := ["", "scripts", "scripts/res", "scripts/res/tilesets"]

def draftAddressed : Job (Heading × Body × Layout) := do
  draft (← read) "list" "a"

-- everything about the sample is evaluated here, in one go
theorem run_addressed :
    ((draftAddressed.on addressed).1.toOption.isSome ∧
      ∀ d ∈ (draftAddressed.on addressed).1.toOption,
        d.2.2 = ⟨#[7], ⟨[(0, 0xC000)]⟩, ∅⟩ ∧ (pieces d.1 d.2.1 d.2.2).take 3 =
          [.ok ⟨#[0]⟩, .ok ⟨#[5, 0]⟩, .ok ⟨#[0xFF, 0xFF]⟩]) ∧
      addressed.target "out" = .ok "out" ∧ addressed.read "out" = .ok ⟨#[9]⟩ := by
  decide +kernel

theorem exists_draft_addressed :
    ∃ d, (draftAddressed.on addressed).1 = .ok d ∧
      pieces d.1 d.2.1 d.2.2 =
        [.ok ⟨#[0]⟩, .ok ⟨#[5, 0]⟩, .ok ⟨#[0xFF, 0xFF]⟩, .error (.plain .key)] := by
  obtain ⟨hsome, hall⟩ := run_addressed.1
  refine ⟨_, eq_ok_get hsome, ?_⟩
  obtain ⟨hlayout, htake⟩ := hall _ (Option.get_mem hsome)
  generalize (draftAddressed.on addressed).1.toOption.get hsome = d at hlayout htake
  have hstored : d.2.2.stored = .error (.plain .key) := by
    rw [hlayout, Layout.stored, Layout.spans, Table.keys,
      map_singleton, mergeSort_singleton]
    rfl
  have hpieces : pieces d.1 d.2.1 d.2.2 =
      (pieces d.1 d.2.1 d.2.2).take 3 ++ [d.2.2.stored] := rfl
  rw [hpieces, htake, hstored]
  rfl

theorem exists_on_run_addressed : ∃ w',
    (run buildPointerList "" ["out", "list", "a"]).on addressed = (.error (.plain .key), w') ∧
      w'.read "out" = .ok ⟨#[0, 5, 0, 0xFF, 0xFF]⟩ := by
  obtain ⟨d, hdraft, hpieces⟩ := exists_draft_addressed
  obtain ⟨w', hon, hread⟩ := exists_on_drafted (fun d => pieces d.1 d.2.1 d.2.2)
    (writesNothing_draftList "list" "a") hdraft run_addressed.2.1
  rw [hpieces] at hon hread
  rw [← buildList_eq] at hon
  exact ⟨w', toEnd_eq_error_iff.2 hon, hread⟩

theorem output_kept_iff_addressed : ∃ w',
    (run buildPointerList "" ["out", "list", "a"]).on addressed = (.error (.plain .key), w') ∧
      ¬w'.read "out" = addressed.read "out" ∧
      ∃ bytes, Spoils addressed buildPointerList ["out", "list", "a"] bytes ∧
        addressed.read "out" ≠ .ok bytes := by
  obtain ⟨w', hrun, hread⟩ := exists_on_run_addressed
  have hspoiled : ¬w'.read "out" = addressed.read "out" := by
    rw [hread, run_addressed.2.2]
    decide
  refine ⟨w', hrun, hspoiled, ?_⟩
  rw [output_kept_iff (by decide) rfl hrun] at hspoiled
  simpa only [not_forall, exists_prop] using hspoiled

/-- **An address without data.**  Such an entry is refused, and the older output is lost: the first
three numbers of the new one stand in its place. -/
theorem not_output_kept_addressed :
    addressed.read "out" = .ok ⟨#[9]⟩ ∧ ∃ w',
      (run buildPointerList "" ["out", "list", "a"]).on addressed = (.error (.plain .key), w') ∧
        w'.read "out" = .ok ⟨#[0, 5, 0, 0xFF, 0xFF]⟩ :=
  ⟨run_addressed.2.2, exists_on_run_addressed⟩

end Program

end Cartridge
