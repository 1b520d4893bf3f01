import Cartridge.Lettering
import Cartridge.Proofs.Fault
import Cartridge.Proofs.Table

/-!
# Runs of jobs

When a job made of parts gives a result on a workspace, and what it leaves there.

* `Job.on_bind_ok_iff` takes a job apart: its parts give results one after the other, each on the
  workspace that the one before has left.
* `Workspace.read_fill`: a file that was created and then filled holds what it was filled with.
-/

namespace Cartridge

variable {α β : Type} {a : α} {b : β} {w w' : Workspace} {data bytes : ByteArray} {job : Job α}
  {next : α → Job β}

namespace Job

variable {s key path : String}

theorem on_bind (job : Job α) (next : α → Job β) (w : Workspace) :
    (job >>= next).on w =
      match job.on w with
      | (.ok a, v) => (next a).on v
      | (.error f, v) => (.error f, v) := by
  simp only [on, ExceptT.run_bind, StateT.run_bind]
  rcases job.run.run w with ⟨_ | _, _⟩ <;> rfl

theorem on_bind_ok_iff :
    (job >>= next).on w = (.ok b, w') ↔
      ∃ a v, job.on w = (.ok a, v) ∧ (next a).on v = (.ok b, w') := by
  rw [on_bind]
  rcases job.on w with ⟨result, v⟩
  cases result with
  | error f | ok a => simp

theorem on_eq_of_fst (h : (job.on w).1 = .ok a) : job.on w = (.ok a, (job.on w).2) :=
  Prod.ext h rfl

theorem on_map_ok_iff {f : α → β} :
    (f <$> job).on w = (.ok b, w') ↔ ∃ a, job.on w = (.ok a, w') ∧ f a = b := by
  rw [map_eq_pure_bind, on_bind_ok_iff]
  constructor
  · rintro ⟨a, v, hjob, hpure⟩
    obtain ⟨rfl, rfl⟩ := hpure
    exact ⟨a, hjob, rfl⟩
  · rintro ⟨a, hjob, rfl⟩
    exact ⟨a, w', hjob, rfl⟩

@[simp] theorem on_lift (x : Except Fault α) (w : Workspace) : (lift x).on w = (x, w) := rfl

@[simp] theorem on_get (w : Workspace) : (get : Job Workspace).on w = (.ok w, w) := rfl

@[simp] theorem on_modify (f : Workspace → Workspace) (w : Workspace) :
    (modify f : Job PUnit).on w = (.ok (), f w) := rfl

@[simp] theorem on_demand_ok_iff {o : Option α} {f : Fault} :
    (demand o f : Job α).on w = (.ok a, w') ↔ o = some a ∧ w' = w := by
  cases o with
  | none =>
    constructor
    · intro h
      cases h
    · rintro ⟨h, -⟩
      cases h
  | some a' =>
    simp only [demand, on_pure, Prod.mk.injEq, Except.ok.injEq, Option.some.injEq]
    exact and_congr_right fun _ => eq_comm

/-! ### Jobs that change nothing -/

/-- A job that leaves the workspace as it is, whether it gives a result or not. -/
def Quiet (job : Job α) : Prop := ∀ w, (job.on w).2 = w

theorem Quiet.eq (h : job.Quiet) (hon : job.on w = (.ok a, w')) : w' = w := by
  rw [← h w, hon]

theorem Quiet.pure (a : α) : Quiet (pure a) := fun _ => rfl

theorem Quiet.lift (x : Except Fault α) : Quiet (lift x) := fun _ => rfl

theorem Quiet.throw (f : Fault) : Quiet (throw f : Job α) := fun _ => rfl

theorem Quiet.demand (o : Option α) (f : Fault) : Quiet (demand o f) := by
  cases o with
  | none => exact .throw f
  | some a => exact .pure a

theorem Quiet.require (c : Bool) (f : Fault) : Quiet (require c f) := by
  cases c with
  | false => exact .throw f
  | true => exact .pure ()

theorem Quiet.bind (hjob : job.Quiet) (hnext : ∀ a, (next a).Quiet) : (job >>= next).Quiet := by
  intro w
  rw [on_bind]
  have hleft := hjob w
  rcases hon : job.on w with ⟨result, v⟩
  rw [hon] at hleft
  cases result with
  | error f => exact hleft
  | ok a => exact (hnext a v).trans hleft

theorem Quiet.map (hjob : job.Quiet) (f : α → β) : (f <$> job).Quiet := by
  exact hjob.bind fun a => .pure (f a)

theorem Quiet.readFile (path : String) : (readFile path).Quiet :=
  .bind (fun _ => rfl) fun w => .lift (w.read path)

theorem Quiet.readText (path : String) : (readText path).Quiet :=
  .bind (.readFile path) fun _ => .bind (.lift _) fun _ => .pure _

theorem Quiet.readMarkedText (path : String) : (readMarkedText path).Quiet :=
  (Quiet.readText path).map _

theorem Quiet.readTable (path : String) : (Charset.readTable path).Quiet :=
  .bind (.readText path) fun _ => .lift _

theorem Quiet.ofTilesetAt (name : String) (first : Int) : (Charset.ofTilesetAt name first).Quiet :=
  .map (.bind (.readText _) fun _ => .lift _) _

theorem Quiet.readLetters : Lettering.readLetters.Quiet :=
  .bind (.ofTilesetAt _ _) fun _ => .bind (.ofTilesetAt _ _) fun _ =>
    .bind (.ofTilesetAt _ _) fun _ => .pure _

theorem Quiet.readLettering : Lettering.read.Quiet :=
  .bind .readLetters fun _ => .bind (.ofTilesetAt _ _) fun _ =>
    .bind (.require _ _) fun _ => .pure _

/-! ### Reading and creating files -/

theorem on_readFile_ok_iff :
    (readFile path).on w = (.ok data, w') ↔ w.read path = .ok data ∧ w' = w := by
  rw [readFile, on_bind_ok_iff]
  constructor
  · rintro ⟨_, _, hget, hread⟩
    cases hget
    rw [Prod.mk.injEq] at hread
    exact ⟨hread.1, hread.2.symm⟩
  · rintro ⟨hread, rfl⟩
    exact ⟨w', w', rfl, by rw [on_lift, hread]⟩

theorem decode_toUTF8 (s : String) : decode s.toUTF8 = .ok s := by
  have h : String.fromUTF8? s.toUTF8 = some s := dif_pos s.isValidUTF8
  rw [decode, h]

theorem toUTF8_of_decode (h : decode data = .ok s) : data = s.toUTF8 := by
  unfold decode at h
  split at h
  · rename_i s' hs
    unfold String.fromUTF8? at hs
    split at hs
    · cases hs
      cases h
      rfl
    · cases hs
  · cases h

theorem on_readText_ok_iff {text : List Char} :
    (readText path).on w = (.ok text, w') ↔
      ∃ s : String, w.read path = .ok s.toUTF8 ∧ text = Text.unifyNewlines s.toList ∧ w' = w := by
  simp only [readText, on_bind_ok_iff, on_readFile_ok_iff, on_lift, on_pure, Prod.mk.injEq,
    Except.ok.injEq]
  constructor
  · rintro ⟨data, _, ⟨hread, rfl⟩, s, _, ⟨hdecode, rfl⟩, rfl, rfl⟩
    exact ⟨s, toUTF8_of_decode hdecode ▸ hread, rfl, rfl⟩
  · rintro ⟨s, hread, rfl, rfl⟩
    exact ⟨s.toUTF8, w', ⟨hread, rfl⟩, s, w', ⟨decode_toUTF8 s, rfl⟩, rfl, rfl⟩

theorem on_readText (h : w.read path = .ok s.toUTF8) :
    (readText path).on w = (.ok (Text.unifyNewlines s.toList), w) :=
  on_readText_ok_iff.2 ⟨s, h, rfl, rfl⟩

theorem on_create_ok_iff :
    (create path).on w = (.ok key, w') ↔ w.target path = .ok key ∧
      w' = { w with files := w.files.insert key ByteArray.empty } := by
  simp only [create, on_bind_ok_iff, on_get, on_lift, on_modify, on_pure, Prod.mk.injEq,
    Except.ok.injEq]
  constructor
  · rintro ⟨_, _, ⟨rfl, rfl⟩, _, _, ⟨htarget, rfl⟩, _, _, ⟨-, rfl⟩, rfl, rfl⟩
    exact ⟨htarget, rfl⟩
  · rintro ⟨htarget, rfl⟩
    exact ⟨w, w, ⟨rfl, rfl⟩, key, w, ⟨htarget, rfl⟩, (), _, ⟨trivial, rfl⟩, rfl, rfl⟩

def written : List (Except Fault ByteArray) → ByteArray
  | [] => ByteArray.empty
  | .ok bytes :: rest => bytes ++ written rest
  | .error _ :: _ => ByteArray.empty

theorem on_fill (key : String) (pieces : List (Except Fault ByteArray)) (content : ByteArray)
    (w : Workspace) :
    (fill key pieces).on { w with files := w.files.insert key content } =
      ((fun _ => ()) <$> pieces.mapM id,
        { w with files := w.files.insert key (content ++ written pieces) }) := by
  induction pieces generalizing content with
  | nil =>
    rw [written, ByteArray.append_empty]
    rfl
  | cons piece rest ih =>
    cases piece with
    | error f =>
      rw [written, ByteArray.append_empty]
      rfl
    | ok bytes =>
      have hstep : (fill key (.ok bytes :: rest)).on
          { w with files := w.files.insert key content } =
            (fill key rest).on { w with files := w.files.insert key (content ++ bytes) } := by
        rw [← Table.modify_insert w.files key content (· ++ bytes)]
        rfl
      rw [hstep, ih, ByteArray.append_assoc]
      rw [List.mapM_cons]
      rcases rest.mapM id with _ | _ <;> rfl

end Job

/-! ### Files -/

namespace Workspace

variable {here names found : List String} {path key : String} {place : Place}

theorem walk_of_folders (hfolders : w'.folders = w.folders)
    (h : w.walk here names = .ok found) : w'.walk here names = .ok found := by
  have hsame : ∀ path, w'.isFolder path = w.isFolder path := by
    intro path
    rw [isFolder, isFolder, hfolders]
  fun_induction walk w here names with
  | case1 here => exact h
  | case2 here name rest hskip ih =>
    rw [walk, if_pos hskip]
    exact ih h
  | case3 here rest hskip ih =>
    exact ih h
  | case4 here name rest hskip hup next hnext ih =>
    rw [walk, if_neg hskip, if_neg hup]
    rw [← hsame] at hnext
    exact (if_pos hnext).trans (ih h)
  | case5 here name rest hskip hup next hnext hslash =>
    rw [walk, if_neg hskip, if_neg hup]
    rw [← hsame] at hnext
    exact (if_neg hnext).trans ((if_pos hslash).trans h)
  | case6 | case7 => cases h

theorem locate_ok_iff : w.locate path = .ok place ↔
    ¬path.toList.contains (Char.ofNat 0) ∧ ¬(path.isEmpty ∨ path.startsWith "/") ∧
      ∃ found, w.walk [] (Text.parts '/' path) = .ok found ∧
        ⟨joinNames found, (Text.parts '/' path).getLast? == some ""⟩ = place := by
  simp only [locate, guard_ok_iff, bind_ok_iff, pure_ok_iff]

theorem target_ok_iff : w.target path = .ok key ↔
    w.locate path = .ok ⟨key, false⟩ ∧ ¬w.isFolder key := by
  simp only [target, bind_ok_iff, guard_ok_iff, pure_ok_iff]
  constructor
  · rintro ⟨⟨path, asFolder⟩, hlocate, hfolder, rfl⟩
    rw [not_or, Bool.not_eq_true asFolder] at hfolder
    obtain ⟨hfolder, rfl⟩ := hfolder
    exact ⟨hlocate, hfolder⟩
  · rintro ⟨hlocate, hfolder⟩
    exact ⟨_, hlocate, by simpa using hfolder, rfl⟩

theorem read_ok_iff : w.read path = .ok data ↔
    ∃ key, w.target path = .ok key ∧ w.files.find? key = some data := by
  simp only [read, target_ok_iff, bind_ok_iff, guard_ok_iff]
  constructor
  · rintro ⟨⟨key, asFolder⟩, hlocate, hfolder, h⟩
    cases hfile : w.files.find? key with
    | none =>
      simp only [hfile] at h
      cases h
    | some content =>
      simp only [hfile, guard_ok_iff, pure_ok_iff, Bool.not_eq_true] at h
      obtain ⟨rfl, rfl⟩ := h
      exact ⟨key, ⟨hlocate, hfolder⟩, hfile⟩
  · rintro ⟨key, ⟨hlocate, hfolder⟩, hfile⟩
    refine ⟨_, hlocate, hfolder, ?_⟩
    simp only [hfile]
    exact guard_ok_iff.2 ⟨Bool.false_ne_true, rfl⟩

theorem locate_of_folders (hfolders : w'.folders = w.folders) (h : w.locate path = .ok place) :
    w'.locate path = .ok place := by
  rw [locate_ok_iff] at h ⊢
  obtain ⟨hzero, hroot, found, hwalk, hplace⟩ := h
  exact ⟨hzero, hroot, found, walk_of_folders hfolders hwalk, hplace⟩

theorem target_of_folders (hfolders : w'.folders = w.folders) (h : w.target path = .ok key) :
    w'.target path = .ok key := by
  rw [target_ok_iff] at h ⊢
  rw [isFolder, hfolders]
  exact ⟨locate_of_folders hfolders h.1, h.2⟩

theorem read_fill (h : w.target path = .ok key) :
    ({ w with files := (w.files.insert key ByteArray.empty).modify key (· ++ bytes) } :
      Workspace).read path = .ok bytes := by
  refine read_ok_iff.2 ⟨key, target_of_folders (w := w) rfl h, ?_⟩
  rw [Table.find?_modify_self (Table.find?_insert_self ..), ByteArray.empty_append]

end Workspace

end Cartridge
