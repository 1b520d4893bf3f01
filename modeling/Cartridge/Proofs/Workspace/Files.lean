import Cartridge.Assembly
import Cartridge.Proofs.Text.Lines
import Cartridge.Proofs.Workspace
import Cartridge.Version
import Mathlib.Data.List.Infix

/-!
# Files told apart

A job that writes several files changes nothing else.  To say what a file holds at the end one has
to know that no later step has written to it, that is, that two paths lead to different files.

* `plainPath_join_inj`, `plainPath_below_inj`: different names in one folder are different files,
  and so is one name in different folders.
-/

open List

namespace Cartridge

open Except Table Assembly Charset Path

namespace Workspace

variable {w v w' : Workspace} {path key below e e' s stem : String} {P Q : String → Prop}
  {here es found names : List String}

/-! ### Where a path leads -/

def enter (here : List String) (name : String) : List String :=
  if name = "" ∨ name = "." then here else if name = ".." then here.dropLast else here ++ [name]

theorem enter_of_long {name : String} (h : 2 < name.toList.length) (here : List String) :
    enter here name = here ++ [name] := by
  rw [enter, if_neg, if_neg]
  · rintro rfl
    exact absurd h (by decide)
  · rintro (rfl | rfl) <;> exact absurd h (by decide)

def plainPath (path : String) : String := joinNames ((Text.parts '/' path).foldl enter [])

theorem foldl_enter_of_all_empty {rest : List String} (h : rest.all (· = "")) (here : List String) :
    rest.foldl enter here = here := by
  induction rest with
  | nil => rfl
  | cons name rest ih =>
    rw [all_cons, Bool.and_eq_true, decide_eq_true_eq] at h
    rw [foldl_cons, enter, if_pos (Or.inl h.1)]
    exact ih h.2

theorem walk_eq (h : w.walk here names = .ok found) :
    found = names.foldl enter here := by
  fun_induction walk w here names with
  | case1 here => exact (ok.inj h).symm
  | case2 here name rest hskip ih =>
    rw [foldl_cons, enter, if_pos hskip]
    exact ih h
  | case3 here rest hskip ih =>
    exact ih h
  | case4 here name rest hskip hup next hnext ih =>
    rw [foldl_cons, enter, if_neg hskip, if_neg hup]
    exact ih h
  | case5 here name rest hskip hup next hnext hslash =>
    rw [foldl_cons, enter, if_neg hskip, if_neg hup, foldl_enter_of_all_empty hslash]
    exact (ok.inj h).symm
  | case6 | case7 => cases h

theorem eq_plainPath (h : w.target path = .ok key) : key = plainPath path := by
  obtain ⟨hlocate, -⟩ := target_ok_iff.1 h
  obtain ⟨-, -, found, hwalk, hplace⟩ := locate_ok_iff.1 hlocate
  rw [← (Place.mk.inj hplace).1, walk_eq hwalk]
  rfl

/-! ### Endings -/

def EndsIn (s e : String) : Prop := e.toList <:+ s.toList

theorem endsIn_append (s e : String) : EndsIn (s ++ e) e := by
  rw [EndsIn, String.toList_append]
  exact suffix_append ..

theorem EndsIn.append (h : EndsIn s e) (t : String) : EndsIn (t ++ s) e := by
  rw [EndsIn, String.toList_append]
  exact h.trans (suffix_append ..)

theorem endsIn_join (folder name : String) (h : EndsIn name e) :
    EndsIn (join folder name) e := by
  unfold join
  split
  · exact h
  · split
    · exact h.append _
    · exact h.append _

theorem EndsIn.not_endsIn (h : EndsIn s e)
    (hne : ¬(e.toList <:+ e'.toList) ∧ ¬(e'.toList <:+ e.toList)) : ¬EndsIn s e' := by
  intro h'
  rcases suffix_or_suffix_of_suffix h h' with hsuffix | hsuffix
  · exact hne.1 hsuffix
  · exact hne.2 hsuffix

theorem joinNames_append_singleton (above : List String) (name : String) :
    joinNames (above ++ [name]) = if above = [] then name else joinNames above ++ "/" ++ name := by
  induction above with
  | nil => exact String.intercalate_singleton
  | cons first above ih =>
    cases above with
    | nil =>
      change String.intercalate "/" [first, name] = String.intercalate "/" [first] ++ "/" ++ name
      rw [String.intercalate_cons_cons, String.intercalate_singleton, String.intercalate_singleton]
    | cons second above =>
      change String.intercalate "/" (first :: second :: (above ++ [name])) =
        String.intercalate "/" (first :: second :: above) ++ "/" ++ name
      rw [String.intercalate_cons_cons, String.intercalate_cons_cons]
      change first ++ "/" ++ joinNames (second :: above ++ [name]) = _
      rw [ih]
      simp only [String.append_assoc]
      rfl

theorem endsIn_joinNames (above : List String) (name : String) :
    EndsIn (joinNames (above ++ [name])) name := by
  rw [joinNames_append_singleton]
  by_cases h : above = []
  · rw [if_pos h]
    exact suffix_rfl
  · rw [if_neg h]
    exact endsIn_append ..

theorem exists_getLast?_splitOn {e : List Char} (he : '/' ∉ e) (s : List Char) :
    ∃ n, (Text.splitOn '/' (s ++ e)).getLast? = some (n ++ e) := by
  induction s with
  | nil => exact ⟨[], by rw [nil_append, Text.splitOn_of_notMem he]; rfl⟩
  | cons c s ih =>
    obtain ⟨n, hn⟩ := ih
    rw [cons_append, Text.splitOn]
    rcases hparts : Text.splitOn '/' (s ++ e) with _ | ⟨first, rest⟩
    · rw [hparts] at hn
      cases hn
    · rw [hparts] at hn
      by_cases hc : c = '/'
      · exact ⟨n, by rw [if_pos hc, getLast?_cons_cons, hn]⟩
      · rw [if_neg hc]
        cases rest with
        | nil =>
          rw [getLast?_singleton, Option.some.injEq] at hn
          exact ⟨c :: n, by rw [hn]; rfl⟩
        | cons second rest =>
          exact ⟨n, hn⟩

/-- The name of a file: one that needs no folder and stands for none. -/
structure FileName (name : String) : Prop where
  slash : '/' ∉ name.toList
  long : 2 < name.toList.length

instance (name : String) : Decidable (FileName name) :=
  decidable_of_iff ('/' ∉ name.toList ∧ 2 < name.toList.length)
    ⟨fun h => ⟨h.1, h.2⟩, fun h => ⟨h.slash, h.long⟩⟩

/-- **A file keeps the ending of its path.** -/
theorem endsIn_plainPath (h : EndsIn path e) (he : FileName e) : EndsIn (plainPath path) e := by
  obtain ⟨s, hs⟩ := h
  obtain ⟨n, hn⟩ := exists_getLast?_splitOn he.slash s
  rw [hs] at hn
  have hlast : (Text.parts '/' path).getLast? = some (String.ofList (n ++ e.toList)) := by
    rw [Text.parts, getLast?_map, hn]
    rfl
  obtain ⟨before, hparts⟩ := getLast?_eq_some_iff.1 hlast
  -- the last name is too long to stand for the folder itself or the one above it
  have hlong : 2 < (String.ofList (n ++ e.toList)).toList.length := by
    rw [String.toList_ofList, length_append]
    exact Nat.lt_add_left _ he.long
  rw [plainPath, hparts, foldl_concat, enter_of_long hlong]
  refine List.IsSuffix.trans ?_ (endsIn_joinNames ..)
  rw [String.toList_ofList]
  exact suffix_append ..

theorem endsIn_plainPath_join (folder : String) {name : String} (h : EndsIn name e)
    (he : FileName e) : EndsIn (plainPath (join folder name)) e :=
  endsIn_plainPath (endsIn_join folder name h) he

theorem endsIn_image (v : Version) : EndsIn (plainPath v.image) ".gbc" :=
  endsIn_plainPath (endsIn_append ..) (by decide)

theorem not_exists_endsIn (h : EndsIn path e) (he : FileName e)
    (hes : ∀ e' ∈ es, ¬(e.toList <:+ e'.toList) ∧ ¬(e'.toList <:+ e.toList)) :
    ¬∃ e' ∈ es, EndsIn (plainPath path) e' := by
  rintro ⟨e', he', hends⟩
  exact (endsIn_plainPath h he).not_endsIn (hes e' he') hends

/-! ### Names in one folder -/

theorem exists_join_eq (folder : String) : ∃ above : String, (above = "" ∨ EndsIn above "/") ∧
    ∀ name : String, name.startsWith "/" = false → Path.join folder name = above ++ name := by
  by_cases hopen : folder.isEmpty ∨ folder.endsWith "/"
  · refine ⟨folder, ?_, fun name hname => ?_⟩
    · rw [String.isEmpty_iff, ← String.endsWith_toSlice, String.Slice.endsWith_string_iff,
        String.copy_toSlice] at hopen
      exact hopen
    · rw [join, hname, if_neg Bool.false_ne_true, if_pos hopen]
  · refine ⟨folder ++ "/", .inr (endsIn_append ..), fun name hname => ?_⟩
    rw [join, hname, if_neg Bool.false_ne_true, if_neg hopen]

theorem exists_parts_join (folder : String) : ∃ above : List String, ∀ name : String,
    name.startsWith "/" = false →
      Text.parts '/' (join folder name) = above ++ Text.parts '/' name := by
  obtain ⟨above, rfl | ⟨s, hs⟩, hjoin⟩ := exists_join_eq folder
  · refine ⟨[], fun name hname => ?_⟩
    rw [hjoin name hname]
    rfl
  · refine ⟨(Text.splitOn '/' s).map String.ofList, fun name hname => ?_⟩
    rw [hjoin name hname, Text.parts, String.toList_append, ← hs, append_assoc]
    exact (congrArg _ (Text.splitOn_append_cons '/' s name.toList)).trans map_append

namespace FileName

variable {name name' folder : String}

theorem startsWith (h : FileName name) : name.startsWith "/" = false := by
  rw [← Bool.not_eq_true, String.startsWith_string_iff]
  intro hstart
  exact h.slash (hstart.subset (mem_singleton_self '/'))

theorem parts (h : FileName name) : Text.parts '/' name = [name] := Text.parts_of_notMem h.slash

end FileName

theorem FileName.append (hstem : '/' ∉ stem.toList) (he : FileName e) :
    FileName (stem ++ e) where
  slash := by
    rw [String.toList_append, mem_append, not_or]
    exact ⟨hstem, he.slash⟩
  long := by
    rw [String.toList_append, length_append]
    exact Nat.lt_add_left _ he.long

theorem fileName_version (v : Version) : FileName v.name := by
  cases v with
  | kabuto | kuwagata => decide

theorem FileName.startsWith_below (h : FileName below) (name : String) :
    (below ++ "/" ++ name).startsWith "/" = false := by
  rw [← Bool.not_eq_true, String.startsWith_string_iff, String.toList_append,
    String.toList_append]
  rcases hchars : below.toList with _ | ⟨c, cs⟩
  · exact absurd h.long (by simp [hchars])
  · intro hsame
    have hc : '/' = c := (cons_prefix_cons.1 hsame).1
    exact h.slash (hchars ▸ hc ▸ mem_cons_self)

theorem join_version {name : String} (hname : name.startsWith "/" = false) (folder : String)
    (v : Version) :
    join (join folder v.name) name = join folder (v.name ++ "/" ++ name) := by
  obtain ⟨above, -, hjoin⟩ := exists_join_eq folder
  have hempty : ¬(above ++ v.name).isEmpty := by
    cases v with
    | kabuto | kuwagata => simp [Version.name]
  have hslash : ¬(above ++ v.name).endsWith "/" := by
    rw [← String.endsWith_toSlice, String.Slice.endsWith_string_iff, String.copy_toSlice]
    cases v with
    | kabuto => exact (endsIn_append above "kabuto").not_endsIn (by decide)
    | kuwagata => exact (endsIn_append above "kuwagata").not_endsIn (by decide)
  rw [hjoin _ (fileName_version v).startsWith, hjoin _ ((fileName_version v).startsWith_below _),
    join, hname, if_neg Bool.false_ne_true, if_neg (not_or.2 ⟨hempty, hslash⟩)]
  simp only [String.append_assoc]

theorem exists_plainPath_join (folder : String) : ∃ here : List String,
    (∀ name, FileName name → plainPath (join folder name) = joinNames (here ++ [name])) ∧
      ∀ below name, FileName below → FileName name →
        plainPath (join folder (below ++ "/" ++ name)) =
          joinNames (here ++ [below] ++ [name]) := by
  obtain ⟨above, habove⟩ := exists_parts_join folder
  refine ⟨above.foldl enter [], ?_, ?_⟩
  · intro name h
    rw [plainPath, habove name h.startsWith, h.parts, foldl_concat, enter_of_long h.long]
  · intro below name hbelow h
    have hparts : Text.parts '/' (below ++ "/" ++ name) = [below] ++ [name] := by
      rw [Text.parts_append (show "/".toList = ['/'] by decide) hbelow.slash, h.parts]
      rfl
    rw [plainPath, habove _ (hbelow.startsWith_below name), hparts, ← append_assoc,
      foldl_concat, foldl_concat, enter_of_long hbelow.long, enter_of_long h.long]

theorem joinNames_inj {name name' : String}
    (h : joinNames (here ++ [name]) = joinNames (here ++ [name'])) : name = name' := by
  rw [joinNames_append_singleton, joinNames_append_singleton] at h
  by_cases hroot : here = []
  · rwa [if_pos hroot, if_pos hroot] at h
  · rw [if_neg hroot, if_neg hroot] at h
    exact String.append_right_inj _ |>.1 h

theorem joinNames_below (here : List String) (below name : String) :
    joinNames (here ++ [below] ++ [name]) = joinNames (here ++ [below]) ++ "/" ++ name := by
  rw [joinNames_append_singleton, if_neg (append_ne_nil_of_right_ne_nil _ (cons_ne_nil _ _))]

/-- **Different names in one folder are different files.** -/
theorem plainPath_join_inj {folder name name' : String} (h : FileName name) (h' : FileName name')
    (heq : plainPath (join folder name) = plainPath (join folder name')) :
    name = name' := by
  obtain ⟨here, hhere, -⟩ := exists_plainPath_join folder
  rw [hhere name h, hhere name' h'] at heq
  exact joinNames_inj heq

theorem plainPath_below_inj {folder below' name : String} (h : FileName name)
    (hbelow : FileName below) (hbelow' : FileName below')
    (heq : plainPath (join folder (below ++ "/" ++ name)) =
      plainPath (Path.join folder (below' ++ "/" ++ name)))
    : below = below' := by
  obtain ⟨here, -, hhere⟩ := exists_plainPath_join folder
  rw [hhere below name hbelow h, hhere below' name hbelow' h, joinNames_below, joinNames_below,
    String.append_left_inj, String.append_left_inj] at heq
  exact joinNames_inj heq

theorem plainPath_version_inj {folder name : String} {v v' : Version} (h : FileName name)
    (heq : plainPath (join folder (v.name ++ "/" ++ name)) =
      plainPath (join folder (v'.name ++ "/" ++ name))) : v = v' := by
  have hname := plainPath_below_inj h (fileName_version v) (fileName_version v') heq
  revert hname
  cases v <;> cases v' <;> decide

theorem plainPath_join_ne {folder name : String} (h : FileName name) (hbelow : FileName below) :
    plainPath (join folder name) ≠ plainPath (join folder (below ++ "/" ++ name)) := by
  obtain ⟨here, hhere, hbelows⟩ := exists_plainPath_join folder
  rw [hhere name h, hbelows below name hbelow h, joinNames_below, joinNames_append_singleton,
    joinNames_append_singleton]
  intro heq
  have hlength := congrArg String.length heq
  have hslash : "/".length = 1 := by decide
  by_cases hroot : here = []
  · simp only [if_pos hroot, String.length_append] at hlength
    omega
  · simp only [if_neg hroot, String.length_append] at hlength
    omega

/-! ### What a run changes -/

/-- The workspace `w'` differs from `w` in files with the property `P` at most. -/
structure SameBut (P : String → Prop) (w w' : Workspace) : Prop where
  folders : w'.folders = w.folders
  files : ∀ key, ¬P key → w'.files.find? key = w.files.find? key

namespace SameBut

theorem refl (P : String → Prop) (w : Workspace) : SameBut P w w := ⟨rfl, fun _ _ => rfl⟩

theorem trans (h : SameBut P w v) (h' : SameBut P v w') : SameBut P w w' where
  folders := h'.folders.trans h.folders
  files key hkey := (h'.files key hkey).trans (h.files key hkey)

theorem mono (h : SameBut P w w') (hle : ∀ key, P key → Q key) : SameBut Q w w' where
  folders := h.folders
  files key hkey := h.files key fun hP => hkey (hle key hP)

theorem of_eq (h : SameBut (· = key) w w') (hkey : P key) : SameBut P w w' :=
  h.mono fun _ heq => heq ▸ hkey

theorem symm (h : SameBut P w w') : SameBut P w' w where
  folders := h.folders.symm
  files key hkey := (h.files key hkey).symm

theorem target (h : SameBut P w w') (htarget : w.target path = .ok key) :
    w'.target path = .ok key :=
  target_of_folders h.folders htarget

theorem read {data : ByteArray} (h : SameBut P w w') (hread : w.read path = .ok data)
    (hkey : ¬P (plainPath path)) : w'.read path = .ok data := by
  obtain ⟨key, htarget, hfile⟩ := read_ok_iff.1 hread
  rw [← eq_plainPath htarget] at hkey
  exact read_ok_iff.2 ⟨key, h.target htarget, (h.files key hkey).trans hfile⟩

end SameBut

end Workspace

namespace Job

open Workspace (SameBut plainPath)

variable {α β : Type} {w w' v v' : Workspace} {P : String → Prop} {bytes old : ByteArray}
  {set : Charset} {job : Job α} {u : PUnit} {f : α → Job β} {as : List α} {bs : List β}
  {key path : String}

theorem on_discard_ok_iff :
    (discard job).on w = (.ok u, w') ↔ ∃ a, job.on w = (.ok a, w') := by
  have hmap : discard job = (fun _ => PUnit.unit) <$> job := by
    rfl
  rw [hmap, on_map_ok_iff]
  simp

theorem on_mapM_cons_ok_iff {a : α} :
    ((a :: as).mapM f).on w = (.ok bs, w') ↔
      ∃ b v rest, (f a).on w = (.ok b, v) ∧ (as.mapM f).on v = (.ok rest, w') ∧ bs = b :: rest := by
  simp only [mapM_cons, on_bind_ok_iff, on_pure, Prod.mk.injEq, ok.injEq]
  constructor
  · rintro ⟨b, v, hfirst, rest, _, hrest, rfl, rfl⟩
    exact ⟨b, v, rest, hfirst, hrest, rfl⟩
  · rintro ⟨b, v, rest, hfirst, hrest, rfl⟩
    exact ⟨b, v, hfirst, rest, w', hrest, rfl, rfl⟩

theorem of_mapM {Q : α → β → Prop}
    (hstep : ∀ a ∈ as, ∀ w b w', (f a).on w = (.ok b, w') → SameBut P w w' ∧ Q a b)
    (h : (as.mapM f).on w = (.ok bs, w')) : SameBut P w w' ∧ Forall₂ Q as bs := by
  induction as generalizing w bs with
  | nil =>
    cases h
    exact ⟨.refl _ _, .nil⟩
  | cons a as ih =>
    obtain ⟨b, v, rest, hfirst, hrest, rfl⟩ := on_mapM_cons_ok_iff.1 h
    obtain ⟨hsame, hb⟩ := hstep a mem_cons_self w b v hfirst
    obtain ⟨hothers, hbs⟩ := ih (fun a ha => hstep a (mem_cons_of_mem _ ha)) hrest
    exact ⟨hsame.trans hothers, .cons hb hbs⟩

/-- An emptied file is empty, and nothing else has changed. -/
theorem of_create (h : (create path).on w = (.ok key, w')) :
    key = plainPath path ∧ w.target path = .ok key ∧ SameBut (· = key) w w' ∧
      w'.files.find? key = some ByteArray.empty := by
  obtain ⟨htarget, rfl⟩ := on_create_ok_iff.1 h
  exact ⟨Workspace.eq_plainPath htarget, htarget,
    ⟨rfl, fun k hk => find?_insert_of_ne _ hk _⟩, find?_insert_self ..⟩

theorem sameBut_of_append (h : (append key bytes).on w = (.ok (), w')) :
    SameBut (· = key) w w' := by
  obtain ⟨-, rfl⟩ := Prod.mk.inj h
  refine ⟨rfl, fun k hk => ?_⟩
  change (w.files.modify key (· ++ bytes)).find? k = _
  unfold Table.modify
  split
  · exact find?_insert_of_ne _ hk _
  · rfl

theorem of_append (hold : w.files.find? key = some old)
    (h : (append key bytes).on w = (.ok (), w')) :
    SameBut (· = key) w w' ∧ w'.files.find? key = some (old ++ bytes) := by
  refine ⟨sameBut_of_append h, ?_⟩
  obtain ⟨-, rfl⟩ := Prod.mk.inj h
  exact find?_modify_self hold

theorem of_create_append (hcreate : (create path).on w = (.ok key, v)) (hsame : SameBut P v v')
    (happend : (append key bytes).on v' = (.ok (), w')) (hpath : ¬P (plainPath path)) :
    SameBut (fun k => k = plainPath path ∨ P k) w w' ∧
      w'.files.find? (plainPath path) = some bytes ∧ w'.read path = .ok bytes := by
  obtain ⟨rfl, htarget, hcreated, hempty⟩ := of_create hcreate
  obtain ⟨hadded, hfull⟩ := of_append ((hsame.files _ hpath).trans hempty) happend
  have hall : SameBut (fun k => k = plainPath path ∨ P k) w w' :=
    ((hcreated.mono fun _ => .inl).trans (hsame.mono fun _ => .inr)).trans
      (hadded.mono fun _ => .inl)
  exact ⟨hall, hfull, Workspace.read_ok_iff.2 ⟨_, hall.target htarget, hfull⟩⟩

theorem on_readText_of_sameBut {text : List Char} (hsame : SameBut P w w')
    (hpath : ¬P (plainPath path)) (h : (readText path).on w = (.ok text, w)) :
    (readText path).on w' = (.ok text, w') := by
  obtain ⟨s, hread, rfl, -⟩ := on_readText_ok_iff.1 h
  exact on_readText (hsame.read hread hpath)

theorem on_ofTilesetAt_of_sameBut {name : String} {base : Int} (hsame : SameBut P w w')
    (hpath : ¬P (plainPath ("scripts/res/tilesets/" ++ name ++ ".lst")))
    (h : (ofTilesetAt name base).on w = (.ok set, w)) :
    (ofTilesetAt name base).on w' = (.ok set, w') := by
  simp only [ofTilesetAt, readList, on_map_ok_iff, on_bind_ok_iff, on_lift, Prod.mk.injEq] at h ⊢
  obtain ⟨listed, ⟨text, _, htext, hlisted, rfl⟩, rfl⟩ := h
  exact ⟨listed, ⟨text, w', on_readText_of_sameBut hsame hpath htext, hlisted, rfl⟩, rfl⟩

theorem on_readLetters_of_sameBut (hsame : SameBut P w w')
    (hpath : ∀ name : String, ¬P (plainPath ("scripts/res/tilesets/" ++ name ++ ".lst")))
    (h : Lettering.readLetters.on w = (.ok set, w)) :
    Lettering.readLetters.on w' = (.ok set, w') := by
  simp only [Lettering.readLetters, on_bind_ok_iff, on_pure, Prod.mk.injEq, ok.injEq] at h ⊢
  obtain ⟨first, w₁, hfirst, second, w₂, hsecond, special, w₃, hspecial, rfl, rfl⟩ := h
  obtain rfl := (Quiet.ofTilesetAt _ _).eq hfirst
  obtain rfl := (Quiet.ofTilesetAt _ _).eq hsecond
  exact ⟨first, w', on_ofTilesetAt_of_sameBut hsame (hpath _) hfirst, second, w',
    on_ofTilesetAt_of_sameBut hsame (hpath _) hsecond, special, w',
    on_ofTilesetAt_of_sameBut hsame (hpath _) hspecial, rfl, rfl⟩

theorem on_writeFile_ok_iff :
    (writeFile path bytes).on w = (.ok (), w') ↔
      ∃ key, w.target path = .ok key ∧ w' = { w with files := w.files.insert key bytes } := by
  simp only [writeFile, on_bind_ok_iff, on_get, on_lift, on_modify, Prod.mk.injEq, ok.injEq]
  constructor
  · rintro ⟨_, _, ⟨rfl, rfl⟩, key, _, ⟨htarget, rfl⟩, -, rfl⟩
    exact ⟨key, htarget, rfl⟩
  · rintro ⟨key, htarget, rfl⟩
    exact ⟨w, w, ⟨rfl, rfl⟩, key, w, ⟨htarget, rfl⟩, trivial, rfl⟩

theorem read_of_writeFile (h : (writeFile path bytes).on w = (.ok (), w')) :
    w'.read path = .ok bytes := by
  obtain ⟨key, htarget, rfl⟩ := on_writeFile_ok_iff.1 h
  exact Workspace.read_ok_iff.2
    ⟨key, Workspace.target_of_folders (w := w) rfl htarget, find?_insert_self ..⟩

/-- A file that was replaced holds the new content, and nothing else has changed. -/
theorem of_writeFile (h : (writeFile path bytes).on w = (.ok (), w')) :
    SameBut (· = plainPath path) w w' := by
  obtain ⟨key, htarget, rfl⟩ := on_writeFile_ok_iff.1 h
  rw [← Workspace.eq_plainPath htarget]
  exact ⟨rfl, fun k hk => find?_insert_of_ne _ hk _⟩

theorem of_readOrCreate {given : Option α} (hquiet : job.Quiet)
    (h : (do
        if (← get).hasPath path then some <$> job
        else
          discard (create path)
          return none : Job (Option α)).on w = (.ok given, w')) :
    SameBut (· = plainPath path) w w' ∧
      ((∃ a, given = some a ∧ job.on w = (.ok a, w)) ∨ given = none ∧ w.hasPath path = false) := by
  simp only [on_bind_ok_iff, on_get, Prod.mk.injEq, ok.injEq] at h
  obtain ⟨_, _, ⟨rfl, rfl⟩, h⟩ := h
  cases hpath : w.hasPath path with
  | true =>
    rw [hpath, if_pos rfl, on_map_ok_iff] at h
    obtain ⟨a, hread, rfl⟩ := h
    obtain rfl := hquiet.eq hread
    exact ⟨.refl _ _, .inl ⟨a, rfl, hread⟩⟩
  | false =>
    simp only [hpath, Bool.false_eq_true, if_false, on_bind_ok_iff, on_discard_ok_iff,
      on_pure, Prod.mk.injEq, ok.injEq] at h
    obtain ⟨_, v, ⟨key, hcreate⟩, rfl, rfl⟩ := h
    obtain ⟨rfl, -, hcreated, -⟩ := of_create hcreate
    exact ⟨hcreated, .inr ⟨rfl, rfl⟩⟩

theorem of_write {source : Except Fault (List Line)} (h : (write path source).on w = (.ok (), w')) :
    SameBut (· = plainPath path) w w' ∧ ∃ lines, source = .ok lines ∧
      w'.read path = .ok (render lines).toUTF8 := by
  simp only [write, on_bind_ok_iff, on_lift, Prod.mk.injEq] at h
  obtain ⟨key, v, hcreate, lines, _, ⟨hlines, rfl⟩, happend⟩ := h
  obtain ⟨hsame, -, hread⟩ := of_create_append hcreate (.refl (fun _ => False) _) happend id
  exact ⟨hsame.mono fun _ => Or.rec id False.elim, lines, hlines, hread⟩

theorem of_forIn_zipIdx {s : α → Nat → Job Unit} {path : Nat → String}
    {Q : Workspace → Nat → α → Prop} {n : Nat}
    (hinj : ∀ {i j}, plainPath (path i) = plainPath (path j) → i = j)
    (hstep : ∀ {w w' i a}, (s a i).on w = (.ok (), w') →
      SameBut (· = plainPath (path i)) w w' ∧ Q w' i a)
    (hkept : ∀ {P : String → Prop} {w w' i a}, SameBut P w w' → ¬P (plainPath (path i)) →
      Q w i a → Q w' i a)
    (h : (forIn (as.zipIdx n) PUnit.unit fun x _ => do
        s x.1 x.2
        pure (ForInStep.yield PUnit.unit) : Job PUnit).on w = (.ok u, w')) :
    SameBut (fun key => ∃ j ≥ n, key = plainPath (path j)) w w' ∧
      ∀ i a, as[i]? = some a → Q w' (n + i) a := by
  induction as generalizing n w with
  | nil =>
    cases h
    exact ⟨.refl _ _, by simp⟩
  | cons first as ih =>
    simp only [zipIdx_cons, forIn_cons, on_bind_ok_iff, on_pure, Prod.mk.injEq, ok.injEq] at h
    obtain ⟨_, v, ⟨⟨⟩, _, hwrite, rfl, rfl⟩, hrest⟩ := h
    obtain ⟨hsame, hothers⟩ := ih hrest
    obtain ⟨hfirst, hholds⟩ := hstep hwrite
    constructor
    · refine (hfirst.mono fun key hkey => ⟨n, le_rfl, hkey⟩).trans (hsame.mono ?_)
      rintro key ⟨j, hj, hkey⟩
      exact ⟨j, by omega, hkey⟩
    · intro i a hi
      cases i with
      | zero =>
        obtain rfl := Option.some.inj hi
        refine hkept hsame ?_ hholds
        rintro ⟨j, hj, heq⟩
        have := hinj heq
        omega
      | succ i =>
        rw [show n + (i + 1) = n + 1 + i by omega]
        exact hothers i a hi

end Job

end Cartridge
