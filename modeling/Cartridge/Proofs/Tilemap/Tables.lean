import Cartridge.Proofs.Text.Numeral
import Cartridge.Proofs.Tilemap.Surveys
import Cartridge.Proofs.Workspace.Files
import Cartridge.Tilemap.Dump

/-!
# The tables of dumped maps

A dump of maps lists the pointers of every table and names what they lead to; a map that is not the
same in both versions is taken from a file that each version names by a constant of its own.

Main results: `count_labels` and `hasFiles_iff`.
-/

open List

namespace Cartridge

open Text.Numeral Text Job Except Table

namespace Assembly

/-- The names that are defined in source. -/
def labels (lines : List Line) : List String :=
  lines.filterMap fun
    | .label name => some name
    | .notedLabel name _ => some name
    | .localLabel name => some name
    | _ => none

/-- The operands of the words in source. -/
def words (lines : List Line) : List String :=
  lines.filterMap fun
    | .word operand => some operand
    | .notedWord operand _ => some operand
    | _ => none

/-- The constants that name files in source; a path stands in quotes. -/
def constants (lines : List Line) : List String :=
  lines.filterMap fun
    | .binary operand => if operand.toList.head? = some '"' then none else some operand
    | _ => none

/-- The constants that are given a file in source. -/
def defines (lines : List Line) : List String :=
  lines.filterMap fun
    | .define name _ => some name
    | _ => none

@[simp] theorem labels_append (l₁ l₂ : List Line) : labels (l₁ ++ l₂) = labels l₁ ++ labels l₂ :=
  filterMap_append

@[simp] theorem words_append (l₁ l₂ : List Line) : words (l₁ ++ l₂) = words l₁ ++ words l₂ :=
  filterMap_append

@[simp] theorem constants_append (l₁ l₂ : List Line) :
    constants (l₁ ++ l₂) = constants l₁ ++ constants l₂ :=
  filterMap_append

end Assembly

namespace Tilemap

open Assembly
open Workspace (SameBut EndsIn plainPath)

variable {bytes : List UInt8} {name note folder identity path : String} {q : Progress}

/-! ### Names -/

inductive Mark where
  | map (id : MapId)
  | versioned (id : MapId)
  | table (n : Nat)
  | stop (n : Nat)
  deriving DecidableEq

/-- The name, without the kind of map in front. -/
def Mark.text : Mark → String
  | map id => id.text
  | versioned id => id.text ++ "_GAMEVERSION"
  | table n => "Table" ++ upperHex 2 n
  | stop n => endName n

/-- The parts of a name between its underscores. -/
def Mark.parts : Mark → List (List Char)
  | map id => [(upperHex 2 id.table).toList, (upperHex 2 id.index).toList]
  | versioned id => [(upperHex 2 id.table).toList,
      (upperHex 2 id.index).toList, "GAMEVERSION".toList]
  | table n => ["Table".toList ++ (upperHex 2 n).toList]
  | stop n => ["Table".toList ++ (upperHex 2 n).toList ++ "Terminator".toList]

theorem Mark.splitOn_text (m : Mark) : Text.splitOn '_' m.text.toList = m.parts := by
  have hhex : ∀ n : Nat, '_' ∉ (upperHex 2 n).toList := notMem_upperHex (by decide) 2
  have htable : '_' ∉ "Table".toList := by decide
  have hstop : '_' ∉ "Terminator".toList := by decide
  cases m with
  | map id =>
    have hchars : (Mark.map id).text.toList = (upperHex 2 id.table).toList ++
        '_' :: (upperHex 2 id.index).toList := by
      simp [Mark.text, MapId.text]
    rw [hchars, splitOn_append (hhex _), splitOn_of_notMem (hhex _)]
    rfl
  | versioned id =>
    have hchars : (Mark.versioned id).text.toList = (upperHex 2 id.table).toList ++
        '_' :: ((upperHex 2 id.index).toList ++ '_' :: "GAMEVERSION".toList) := by
      simp [Mark.text, MapId.text]
    rw [hchars, splitOn_append (hhex _), splitOn_append (hhex _)]
    rfl
  | table n =>
    rw [Mark.text, String.toList_append, splitOn_of_notMem]
    · rfl
    · rw [mem_append, not_or]
      exact ⟨htable, hhex n⟩
  | stop n =>
    rw [Mark.text, endName, String.toList_append, String.toList_append, splitOn_of_notMem]
    · rfl
    · rw [mem_append, mem_append, not_or, not_or]
      exact ⟨⟨htable, hhex n⟩, hstop⟩

variable {m : Mark}

/-- **Names of different things differ.** -/
theorem Mark.text_inj {m' : Mark} (h : m.text = m'.text) : m = m' := by
  have hparts : m.parts = m'.parts := by rw [← splitOn_text, ← splitOn_text, h]
  -- no numeral ends in the letters of an end
  have hstop : ∀ a b : Nat, "Table".toList ++ (upperHex 2 a).toList ≠
      "Table".toList ++ (upperHex 2 b).toList ++ "Terminator".toList := by
    intro a b heq
    rw [append_assoc, append_cancel_left_eq] at heq
    have hT : 'T' ∈ (upperHex 2 a).toList := by
      rw [heq]
      exact mem_append_right _ (by decide)
    exact notMem_upperHex (by decide) 2 a hT
  cases m <;> cases m' <;> simp only [parts, List.cons.injEq, reduceCtorEq, and_false, and_true,
    String.toList_inj, append_cancel_left_eq, append_cancel_right_eq] at hparts
  case map.map a b =>
    rw [map.injEq, MapId.mk.injEq]
    exact ⟨upperHex_inj hparts.1, upperHex_inj hparts.2⟩
  case versioned.versioned a b =>
    rw [versioned.injEq, MapId.mk.injEq]
    exact ⟨upperHex_inj hparts.1, upperHex_inj hparts.2⟩
  case table.table a b => rw [upperHex_inj hparts]
  case table.stop a b => exact absurd hparts (hstop a b)
  case stop.table a b => exact absurd hparts.symm (hstop b a)
  case stop.stop a b => rw [upperHex_inj hparts]

/-! ### What a map adds -/

variable {t : Target} {names files : Table String String} {tables : List Address} {vs : Versions}
  {p p' q₁ q₂ : Progress} {e : MapId × Held} {es es' : List (MapId × Held)} {w w' w'' : Workspace}
  {id : MapId} {v v' : Version}

def leadsTo (vs : Versions) (e : MapId × Held) : Mark :=
  if vs.ids.contains e.1 then .versioned e.1
  else match vs.first.copies.find? e.1, e.2.position, e.2.bytes with
    | some source, none, none => .map source
    | some _, _, _ => .map e.1
    | none, _, some _ => .map e.1
    | none, _, none => .stop e.1.table

def brings (vs : Versions) (e : MapId × Held) : Option Mark :=
  if vs.ids.contains e.1 then some (.versioned e.1)
  else match vs.first.copies.find? e.1, e.2.position, e.2.bytes with
    | some _, none, none => none
    | some _, _, _ => some (.map e.1)
    | none, _, some _ => some (.map e.1)
    | none, _, none => none

def Progress.definitions (p : Progress) : Version → Table String String
  | .kabuto => p.first
  | .kuwagata => p.second

def HasFile (vs : Versions) (v : Version) (id : MapId) : Prop :=
  (∃ source, (vs.survey v).copies.find? id = some source) ∨
    ∃ held, (vs.survey v).held.find? id = some held ∧ held.bytes.isSome

def Recorded (vs : Versions) (v : Version) (id : MapId) : Prop :=
  (vs.survey v).copies.find? id = none → id ∈ (vs.survey v).held.keys

theorem of_writeText (h : (writeText folder name bytes).on w = (.ok (), w')) :
    SameBut (EndsIn · ".txt") w w' := by
  simp only [writeText, on_bind_ok_iff, on_lift, Prod.mk.injEq] at h
  obtain ⟨key, v, hcreate, text, _, ⟨-, rfl⟩, happend⟩ := h
  obtain ⟨rfl, -, hcreated, -⟩ := of_create hcreate
  exact (hcreated.trans (sameBut_of_append happend)).of_eq
    (Workspace.endsIn_plainPath_join _ (Workspace.endsIn_append ..) (by decide))

theorem of_addFile (h : (p.addFile t names identity bytes).on w = (.ok (name, p'), w')) :
    SameBut (EndsIn · ".txt") w w' ∧ p' = { p with files := p.files.insert identity name } := by
  simp only [Progress.addFile, on_bind_ok_iff, on_pure, Prod.mk.injEq, ok.injEq] at h
  obtain ⟨⟨⟩, _, hwrite, ⟨rfl, rfl⟩, rfl⟩ := h
  exact ⟨of_writeText hwrite, rfl⟩

/-- The steps of a dump leave the source so far as it is. -/
structure SameSource (p p' : Progress) : Prop where
  table : p'.table = p.table
  blocks : p'.blocks = p.blocks
  lines : p'.lines = p.lines

theorem contains_definitions_define (p : Progress) (v v' : Version) (constant file k : String) :
    ((p.define v constant file).definitions v').contains k ↔
      (p.definitions v').contains k ∨ (v' = v ∧ k = constant) := by
  cases v <;> cases v' <;> simp [Progress.define, Progress.definitions, contains_insert_iff]

theorem sameSource_define (p : Progress) (v : Version) (constant file : String) :
    SameSource p (p.define v constant file) := by
  cases v <;> exact ⟨rfl, rfl, rfl⟩

theorem of_addVersion (h : (p.addVersion t names vs id v).on w = (.ok p', w')) :
    SameBut (EndsIn · ".txt") w w' ∧ SameSource p p' ∧ Recorded vs v id ∧
      ∀ v' k, (p'.definitions v').contains k ↔ (p.definitions v').contains k ∨
        (v' = v ∧ k = (Mark.versioned id).text ∧ HasFile vs v id) := by
  unfold Progress.addVersion at h
  cases hcopy : (vs.survey v).copies.find? id with
  | some source =>
    simp only [hcopy, on_bind_ok_iff, on_lift, on_pure, Prod.mk.injEq, ok.injEq] at h
    obtain ⟨file, _, ⟨-, rfl⟩, rfl, rfl⟩ := h
    have hfile : HasFile vs v id := .inl ⟨source, hcopy⟩
    refine ⟨.refl _ _, sameSource_define .., ?_, fun v' k => ?_⟩
    · intro hnone
      rw [hcopy] at hnone
      cases hnone
    · simp only [contains_definitions_define, hfile, and_true, Mark.text]
  | none =>
    simp only [hcopy, on_bind_ok_iff, on_demand_ok_iff] at h
    obtain ⟨held, _, ⟨hheld, rfl⟩, h⟩ := h
    have hrecorded : Recorded vs v id := fun _ => mem_keys_iff.2 ⟨held, hheld⟩
    cases hbytes : held.bytes with
    | none =>
      rw [hbytes] at h
      cases h
      have hnoFile : ¬HasFile vs v id := by
        rintro (⟨source, hsource⟩ | ⟨held', hheld', hsome⟩)
        · rw [hcopy] at hsource
          cases hsource
        · obtain rfl := Option.some.inj (hheld.symm.trans hheld')
          rw [hbytes] at hsome
          cases hsome
      exact ⟨.refl _ _, ⟨rfl, rfl, rfl⟩, hrecorded, fun v' k => by simp [hnoFile]⟩
    | some bytes =>
      simp only [hbytes, on_bind_ok_iff, on_pure, Prod.mk.injEq, ok.injEq] at h
      obtain ⟨⟨name, p₁⟩, _, hadd, rfl, rfl⟩ := h
      obtain ⟨hsame, rfl⟩ := of_addFile hadd
      have hfile : HasFile vs v id := .inr ⟨held, hheld, by rw [hbytes]; rfl⟩
      refine ⟨hsame, ?_, hrecorded, fun v' k => ?_⟩
      · obtain ⟨htable, hblocks, hlines⟩ := sameSource_define
          { p with files := p.files.insert (id.text ++ "_" ++ v.name) name } v
          (id.text ++ "_GAMEVERSION") name
        exact ⟨htable, hblocks, hlines⟩
      · simp only [contains_definitions_define, hfile, and_true, Mark.text]
        cases v' <;> rfl

/-- What a map adds to the tables: its pointer, its data if it brings any, and the constants of the
versions that have a file for it. -/
structure Adds (t : Target) (vs : Versions) (e : MapId × Held) (p p' : Progress) : Prop where
  table : p'.table = p.table
  lines : ∃ note, p'.lines = p.lines ++ [.notedWord (t.title ++ (leadsTo vs e).text) note]
  blocks : ∃ blocks, p'.blocks = p.blocks ++ blocks ∧
    labels (blocks.flatMap (Block.lines t)) =
      (brings vs e).toList.map (fun m => t.title ++ m.text) ∧
    constants (blocks.flatMap (Block.lines t)) =
      if vs.ids.contains e.1 then ["c" ++ t.title ++ (Mark.versioned e.1).text] else []
  recorded : vs.ids.contains e.1 → ∀ v, Recorded vs v e.1
  constants : ∀ v k, (p'.definitions v).contains k ↔ (p.definitions v).contains k ∨
    (vs.ids.contains e.1 ∧ k = (Mark.versioned e.1).text ∧ HasFile vs v e.1)

def Progress.atTable (t : Target) (tables : List Address) (table : Nat) (p : Progress) : Progress :=
  if p.table = some table then p else p.startTable t tables table

theorem constants_quoted (path : String) : constants [.binary (quoted path)] = [] := by
  have hhead : (quoted path).toList.head? = some '"' := by
    simp [quoted]
  simp [constants, hhead]

theorem adds_addPointer (hid : ¬vs.ids.contains e.1) (hleads : leadsTo vs e = m)
    (hbrings : brings vs e = none) :
    Adds t vs e q (q.addPointer t m.text note) where
  table := rfl
  lines := ⟨note, by rw [hleads]; rfl⟩
  blocks := ⟨[], (append_nil _).symm, by rw [hbrings]; rfl, by rw [if_neg hid]; rfl⟩
  recorded h := absurd h hid
  constants v k := by
    simp only [hid, Bool.false_eq_true, false_and, or_false]
    cases v <;> rfl

theorem adds_addFile (hid : ¬vs.ids.contains e.1) (hleads : leadsTo vs e = .map e.1)
    (hbrings : brings vs e = some (.map e.1)) :
    Adds t vs e q ({ q with files := files }.addBlock t (.file e.1.text path) e.1.text note) where
  table := rfl
  lines := ⟨note, by rw [hleads]; rfl⟩
  blocks := by
    refine ⟨[.file e.1.text path], rfl, by rw [hbrings]; rfl, ?_⟩
    rw [if_neg hid]
    exact constants_quoted path
  recorded h := absurd h hid
  constants v k := by
    simp only [hid, Bool.false_eq_true, false_and, or_false]
    cases v <;> rfl

theorem adds_versioned (hid : vs.ids.contains e.1)
    (h₁ : (q.addVersion t names vs e.1 .kabuto).on w = (.ok q₁, w'))
    (h₂ : (q₁.addVersion t names vs e.1 .kuwagata).on w' = (.ok q₂, w'')) :
    SameBut (EndsIn · ".txt") w w'' ∧
      Adds t vs e q (q₂.addBlock t (.constant (e.1.text ++ "_GAMEVERSION"))
        (e.1.text ++ "_GAMEVERSION") note) := by
  obtain ⟨hsame₁, hsource₁, hrecorded₁, hconstants₁⟩ := of_addVersion h₁
  obtain ⟨hsame₂, hsource₂, hrecorded₂, hconstants₂⟩ := of_addVersion h₂
  have hleads : leadsTo vs e = .versioned e.1 := if_pos hid
  have hbrings : brings vs e = some (.versioned e.1) := if_pos hid
  refine ⟨hsame₁.trans hsame₂, ?_, ⟨note, ?_⟩,
    ⟨[.constant (e.1.text ++ "_GAMEVERSION")], ?_, ?_, ?_⟩, fun _ v => ?_, fun v k => ?_⟩
  · exact hsource₂.table.trans hsource₁.table
  · rw [hleads, ← hsource₁.lines, ← hsource₂.lines]
    rfl
  · rw [← hsource₁.blocks, ← hsource₂.blocks]
    rfl
  · rw [hbrings]
    rfl
  · have hhead : ("c" ++ t.title ++ (e.1.text ++ "_GAMEVERSION")).toList.head? ≠ some '"' := by
      simp
    rw [if_pos hid]
    simp only [flatMap_singleton, Block.lines, constants, filterMap_cons, if_neg hhead]
    rfl
  · cases v with
    | kabuto => exact hrecorded₁
    | kuwagata => exact hrecorded₂
  · have hstep : ((q₂.addBlock t (.constant (e.1.text ++ "_GAMEVERSION"))
        (e.1.text ++ "_GAMEVERSION") note).definitions v).contains k ↔
          (q₂.definitions v).contains k := by
      cases v <;> rfl
    have hmem : e.1 ∈ vs.ids := contains_iff_mem.1 hid
    rw [hstep, hconstants₂, hconstants₁]
    cases v <;> simp [hmem]

theorem of_add (h : (p.add t names tables vs e).on w = (.ok p', w')) :
    SameBut (EndsIn · ".txt") w w' ∧ Adds t vs e (p.atTable t tables e.1.table) p' := by
  change (if vs.ids.contains e.1 then _ else _ : Job Progress).on w = _ at h
  rw [← Progress.atTable] at h
  generalize p.atTable t tables e.1.table = q at h
  by_cases hid : vs.ids.contains e.1
  · simp only [if_pos hid, Version.all, foldlM_cons, foldlM_nil, on_bind_ok_iff,
      on_pure, Prod.mk.injEq, ok.injEq] at h
    obtain ⟨_, _, ⟨q₁, w₁, h₁, q₂, w₂, h₂, rfl, rfl⟩, rfl, rfl⟩ := h
    exact adds_versioned hid h₁ h₂
  · rw [if_neg hid] at h
    have hleads : leadsTo vs e = _ := if_neg hid
    have hbrings : brings vs e = _ := if_neg hid
    obtain ⟨id, position, bytes⟩ := e
    -- a copy with a position of its own is stored again
    have hstored {source : MapId} (hleads : leadsTo vs (id, ⟨position, bytes⟩) = .map id)
        (hbrings : brings vs (id, ⟨position, bytes⟩) = some (.map id))
        (h : (do
          let file ← demand (q.files.find? source.text) (.plain .key)
          return q.addBlock t (.file id.text (t.mapPath file)) id.text
            (upperHex 2 id.index) : Job Progress).on w = (.ok p', w')) :
        SameBut (EndsIn · ".txt") w w' ∧ Adds t vs (id, ⟨position, bytes⟩) q p' := by
      simp only [on_bind_ok_iff, on_demand_ok_iff, on_pure, Prod.mk.injEq, ok.injEq] at h
      obtain ⟨file, _, ⟨-, rfl⟩, rfl, rfl⟩ := h
      exact ⟨.refl _ _, adds_addFile hid hleads hbrings⟩
    cases hcopy : vs.first.copies.find? id with
    | some source =>
      simp only [hcopy] at h hleads hbrings
      cases position with
      | some position => exact hstored hleads hbrings h
      | none =>
        cases bytes with
        | some bytes => exact hstored hleads hbrings h
        | none =>
          cases h
          exact ⟨.refl _ _, adds_addPointer hid hleads hbrings⟩
    | none =>
      simp only [hcopy] at h hleads hbrings
      cases bytes with
      | some bytes =>
        simp only [on_bind_ok_iff, on_pure, Prod.mk.injEq, ok.injEq] at h
        obtain ⟨⟨name, q₁⟩, _, hadd, rfl, rfl⟩ := h
        obtain ⟨hsame, rfl⟩ := of_addFile hadd
        exact ⟨hsame, adds_addFile hid hleads hbrings⟩
      | none =>
        cases h
        exact ⟨.refl _ _, adds_addPointer hid hleads hbrings⟩

/-! ### The tables -/

def Target.nameOf (t : Target) (m : Mark) : String := t.title ++ m.text

def Target.constantOf (t : Target) (id : MapId) : String :=
  "c" ++ t.title ++ (Mark.versioned id).text

def marks (vs : Versions) (ns : List Nat) (es : List (MapId × Held)) : List Mark :=
  ns.flatMap (fun n => [.table n, .stop n]) ++ es.filterMap (brings vs)

/-- The tables `ns` after the maps `es`. -/
structure Progress.After (t : Target) (vs : Versions) (ns : List Nat) (es : List (MapId × Held))
    (p : Progress) : Prop where
  table : p.table = ns.getLast?
  sorted : ns.Pairwise (· < ·)
  words : words p.lines = es.map fun e => t.nameOf (leadsTo vs e)
  labels : (labels (p.lines ++ p.closing t)).Perm ((marks vs ns es).map t.nameOf)
  constants : constants (p.lines ++ p.closing t) =
    (es.filter fun e => vs.ids.contains e.1).map fun e => t.constantOf e.1
  recorded : ∀ e ∈ es, vs.ids.contains e.1 → ∀ v, Recorded vs v e.1
  defined : ∀ v k, (p.definitions v).contains k ↔
    ∃ e ∈ es, vs.ids.contains e.1 ∧ k = (Mark.versioned e.1).text ∧ HasFile vs v e.1

theorem words_blocks (t : Target) (blocks : List Block) :
    words (blocks.flatMap (Block.lines t)) = [] := by
  induction blocks with
  | nil => rfl
  | cons block blocks ih =>
    rw [flatMap_cons, words_append, ih]
    cases block <;> rfl

@[simp] theorem words_closing (t : Target) (p : Progress) : words (p.closing t) = [] := by
  rw [Progress.closing, words_append, words_append, words_blocks]
  cases p.table <;> rfl

@[simp] theorem labels_closing (t : Target) (p : Progress) : labels (p.closing t) =
    labels (p.blocks.flatMap (Block.lines t)) ++
      p.table.toList.map (fun n => t.nameOf (.stop n)) := by
  rw [Progress.closing, labels_append, labels_append, append_assoc]
  cases p.table <;> rfl

@[simp] theorem constants_closing (t : Target) (p : Progress) :
    constants (p.closing t) = constants (p.blocks.flatMap (Block.lines t)) := by
  rw [Progress.closing, constants_append, constants_append, append_assoc]
  cases p.table <;> exact append_nil _

namespace Progress.After

variable {ns : List Nat} {n : Nat}

theorem empty (t : Target) (vs : Versions) : After t vs [] [] {} where
  table := rfl
  sorted := .nil
  words := rfl
  labels := .refl _
  constants := rfl
  recorded := nofun
  defined v k := by cases v <;> exact ⟨nofun, fun ⟨_, he, _⟩ => absurd he not_mem_nil⟩

theorem start (h : After t vs ns es p) (hlt : ∀ m ∈ ns, m < n) :
    After t vs (ns ++ [n]) es (p.startTable t tables n) where
  table := getLast?_concat.symm
  sorted := by
    refine pairwise_append.2 ⟨h.sorted, pairwise_singleton _ _, fun m hm k hk => ?_⟩
    rw [mem_singleton.1 hk]
    exact hlt m hm
  words := by
    rw [← h.words, startTable, words_append, words_append, words_closing, append_nil]
    exact append_nil _
  labels := by
    have hlines : Assembly.labels ((p.startTable t tables n).lines ++
        (p.startTable t tables n).closing t) =
        Assembly.labels (p.lines ++ p.closing t) ++ [.table n, .stop n].map t.nameOf := by
      rw [startTable, labels_append, labels_closing]
      simp [Assembly.labels, Target.nameOf, Mark.text, String.append_assoc]
    rw [hlines, marks, flatMap_append, append_assoc, map_append]
    refine (h.labels.append_right _).trans ?_
    rw [marks, map_append, append_assoc]
    exact perm_append_comm.append_left _
  constants := by
    rw [← h.constants, startTable, constants_append, constants_closing]
    simp [Assembly.constants]
  recorded := h.recorded
  defined v k := by
    rw [← h.defined v k]
    cases v <;> rfl

theorem add (h : After t vs ns es p) (hadds : Adds t vs e p p') : After t vs ns (es ++ [e]) p' := by
  obtain ⟨note, hlines⟩ := hadds.lines
  obtain ⟨blocks, hblocks, hlabels, hconstants⟩ := hadds.blocks
  refine ⟨hadds.table.trans h.table, h.sorted, ?_, ?_, ?_, ?_, fun v k => ?_⟩
  · rw [hlines, words_append, h.words, map_append]
    rfl
  · have hadded : (Assembly.labels (p'.lines ++ p'.closing t)).Perm
        (Assembly.labels (p.lines ++ p.closing t) ++ (brings vs e).toList.map t.nameOf) := by
      have hword : Assembly.labels [.notedWord (t.title ++ (leadsTo vs e).text) note] = [] := rfl
      simp only [labels_append, labels_closing, hlines, hblocks, hadds.table, hword,
        flatMap_append, hlabels, append_assoc, nil_append]
      exact (perm_append_comm.append_left _).append_left _
    refine hadded.trans ((h.labels.append_right _).trans (.of_eq ?_))
    cases hbrings : brings vs e <;> simp [marks, hbrings]
  · have hword : Assembly.constants [.notedWord (t.title ++ (leadsTo vs e).text) note] = [] := rfl
    have hold := h.constants
    simp only [constants_append, constants_closing] at hold
    simp only [constants_append, constants_closing, hlines, hblocks, hword, flatMap_append,
      hconstants, append_nil, ← append_assoc, hold, filter_append, map_append, filter_singleton]
    cases vs.ids.contains e.1 <;> rfl
  · intro e' he'
    rcases mem_append.1 he' with he' | he'
    · exact h.recorded e' he'
    · rw [mem_singleton.1 he']
      exact hadds.recorded
  · rw [hadds.constants, h.defined]
    simp only [mem_append, mem_singleton, or_and_right, exists_or, exists_eq_left]

/-- **One map**, of the table at hand or of a later one. -/
theorem step (h : After t vs ns es p) (htables : ∀ m, m ∈ ns ↔ ∃ e ∈ es, e.1.table = m)
    (hle : ∀ e' ∈ es, e'.1.table ≤ e.1.table)
    (hadds : Adds t vs e (p.atTable t tables e.1.table) p') :
    ∃ ns', After t vs ns' (es ++ [e]) p' ∧ ∀ m, m ∈ ns' ↔ ∃ e' ∈ es ++ [e], e'.1.table = m := by
  have hadded : ∀ m, (∃ e' ∈ es ++ [e], e'.1.table = m) ↔ m ∈ ns ∨ e.1.table = m := by
    intro m
    simp only [htables, mem_append, mem_singleton, or_and_right, exists_or, exists_eq_left]
  unfold atTable at hadds
  by_cases htable : p.table = some e.1.table
  · rw [if_pos htable] at hadds
    refine ⟨ns, h.add hadds, fun m => ?_⟩
    have hmem : e.1.table ∈ ns := mem_of_getLast? (h.table.symm.trans htable)
    rw [hadded, or_iff_left_of_imp fun heq => heq ▸ hmem]
  · rw [if_neg htable] at hadds
    refine ⟨ns ++ [e.1.table], (h.start fun m hm => ?_).add hadds, fun m => ?_⟩
    · have hbelow : ∀ m ∈ ns, m ≤ e.1.table := by
        intro m hm
        obtain ⟨e', he', rfl⟩ := (htables m).1 hm
        exact hle e' he'
      -- the table at hand is the last so far, and it is another one
      obtain ⟨last, hlast⟩ :=
        Option.isSome_iff_exists.1 (getLast?_isSome.2 (ne_nil_of_mem hm))
      have hne : last ≠ e.1.table := by
        rintro rfl
        exact htable (h.table.trans hlast)
      have hlt := Nat.lt_of_le_of_ne (hbelow last (mem_of_getLast? hlast)) hne
      have hle : m ≤ last := by
        have hsorted := h.sorted
        obtain ⟨before, rfl⟩ := getLast?_eq_some_iff.1 hlast
        rcases mem_append.1 hm with hm | hm
        · exact Nat.le_of_lt ((pairwise_append.1 hsorted).2.2 m hm last (mem_singleton_self _))
        · exact Nat.le_of_eq (mem_singleton.1 hm)
      exact Nat.lt_of_le_of_lt hle hlt
    · rw [hadded, mem_append, mem_singleton, eq_comm]

theorem run (h : After t vs ns es p) (htables : ∀ m, m ∈ ns ↔ ∃ e ∈ es, e.1.table = m)
    (hsorted : (es ++ es').Pairwise fun e e' => e.1.table ≤ e'.1.table)
    (hon : (es'.foldlM (Progress.add t names tables vs) p).on w = (.ok p', w')) :
    SameBut (EndsIn · ".txt") w w' ∧ ∃ ns', After t vs ns' (es ++ es') p' ∧
      ∀ m, m ∈ ns' ↔ ∃ e ∈ es ++ es', e.1.table = m := by
  induction es' generalizing es ns p w with
  | nil =>
    cases hon
    rw [append_nil]
    exact ⟨.refl _ _, ns, h, htables⟩
  | cons e es' ih =>
    rw [foldlM_cons, on_bind_ok_iff] at hon
    obtain ⟨p₁, w₁, hadd, hrest⟩ := hon
    obtain ⟨hsame, hadds⟩ := of_add hadd
    have hle : ∀ e' ∈ es, e'.1.table ≤ e.1.table := fun e' he' =>
      (pairwise_append.1 hsorted).2.2 e' he' e mem_cons_self
    obtain ⟨ns₁, h₁, htables₁⟩ := h.step htables hle hadds
    rw [append_cons] at hsorted ⊢
    obtain ⟨hsame₁, hrest⟩ := ih h₁ htables₁ hsorted hrest
    exact ⟨hsame.trans hsame₁, hrest⟩

end Progress.After

/-! ### Every name is defined once -/

def Mark.id? : Mark → Option MapId
  | map id => some id
  | versioned id => some id
  | _ => none

theorem id?_of_brings (h : brings vs e = some m) : m.id? = some e.1 := by
  unfold brings at h
  split at h
  · cases h
    rfl
  · split at h <;> cases h <;> rfl

theorem nodup_marks {ns : List Nat} (hns : ns.Pairwise (· < ·)) (hes : (es.map Prod.fst).Nodup) :
    (marks vs ns es).Nodup := by
  refine nodup_append.2 ⟨?_, ?_, ?_⟩
  · rw [nodup_flatMap]
    refine ⟨fun n _ => by simp, hns.imp fun {m n} hlt => ?_⟩
    have hne := (Nat.ne_of_lt hlt).symm
    simp [Function.onFun, hne]
  · refine pairwise_filterMap.2 ((pairwise_map.1 hes).imp fun {e e'} hne => ?_)
    rintro m hm m' hm' rfl
    exact hne (Option.some.inj ((id?_of_brings hm).symm.trans (id?_of_brings hm')))
  · rintro m hm m' hm' rfl
    obtain ⟨n, -, hn⟩ := mem_flatMap.1 hm
    obtain ⟨e, -, he⟩ := mem_filterMap.1 hm'
    have hid := id?_of_brings he
    simp only [mem_cons, not_mem_nil, or_false] at hn
    rcases hn with rfl | rfl <;> cases hid

theorem leadsTo_cases (vs : Versions) (e : MapId × Held) :
    brings vs e = some (leadsTo vs e) ∨
      (∃ source, ¬vs.ids.contains e.1 ∧ vs.first.copies.find? e.1 = some source ∧
        leadsTo vs e = .map source) ∨
      leadsTo vs e = .stop e.1.table := by
  unfold brings leadsTo
  by_cases hid : vs.ids.contains e.1
  · rw [if_pos hid, if_pos hid]
    exact .inl rfl
  · rw [if_neg hid, if_neg hid]
    split
    · rename_i source hcopy _ _
      exact .inr (.inl ⟨source, hid, hcopy, rfl⟩)
    · exact .inl rfl
    · exact .inl rfl
    · exact .inr (.inr rfl)

theorem brings_of_position (hs : vs.first.Sound) (hid : ¬vs.ids.contains e.1)
    (he : vs.first.held.find? e.1 = some e.2) (hposition : e.2.position.isSome) :
    brings vs e = some (.map e.1) := by
  obtain ⟨id, position, bytes⟩ := e
  obtain ⟨position, rfl⟩ := Option.isSome_iff_exists.1 hposition
  rw [brings, if_neg hid]
  cases hcopy : vs.first.copies.find? id with
  | some source => rfl
  | none =>
    rcases hs.own id _ he hcopy with hend | ⟨-, hbytes⟩
    · cases hend
    · obtain ⟨bytes, rfl⟩ := Option.isSome_iff_exists.1 hbytes
      rfl

variable {second : Survey} {differs : List MapId} {ns : List Nat}

theorem leadsTo_mem_marks (h : Compared vs.first second differs vs.ids)
    (hns : ∀ e ∈ vs.first.held.entries, e.1.table ∈ ns) (he : e ∈ vs.first.held.entries) :
    leadsTo vs e ∈ marks vs ns vs.first.held.entries := by
  rcases leadsTo_cases vs e with hbrings | ⟨source, hid, hcopy, hleads⟩ | hleads
  · exact mem_append_right _ (mem_filterMap.2 ⟨e, he, hbrings⟩)
  · rw [contains_iff_mem] at hid
    have hsource := (h.source_notMem hid hcopy).1
    obtain ⟨_, held, -, -, hheld, hposition⟩ := h.firstSound.copy _ (mem_of_find? hcopy)
    rw [← contains_iff_mem] at hsource
    rw [hleads]
    refine mem_append_right _ (mem_filterMap.2 ⟨(source, held), ?_, ?_⟩)
    · exact mem_of_find? hheld
    · exact brings_of_position h.firstSound hsource hheld hposition
  · rw [hleads]
    refine mem_append_left _ (mem_flatMap.2 ⟨e.1.table, hns e he, ?_⟩)
    exact mem_cons_of_mem _ (mem_singleton_self _)

/-- **Every name that is listed is defined exactly once.** -/
theorem count_labels (hafter : p.After t vs ns vs.first.held.entries)
    (hns : ∀ e ∈ vs.first.held.entries, e.1.table ∈ ns)
    (h : Compared vs.first second differs vs.ids) (hname : name ∈ words p.lines) :
    (labels (p.lines ++ p.closing t)).count name = 1 := by
  rw [hafter.words] at hname
  obtain ⟨e, he, rfl⟩ := mem_map.1 hname
  rw [hafter.labels.count_eq]
  refine count_eq_one_of_mem ?_ (mem_map_of_mem (leadsTo_mem_marks h hns he))
  exact (nodup_marks hafter.sorted h.firstSound.nodup).map fun _ _ heq =>
    Mark.text_inj ((String.append_right_inj _).1 heq)

/-! ### Constants -/

theorem find?_without (second : Survey) (differs : List MapId) (id : MapId) :
    (second.without differs).held.find? id =
      (second.held.find? id).map fun held => if differs.contains id then held else {} := by
  have hrecord : (fun e : MapId × Held => if differs.contains e.1 then e else (e.1, {})) =
      fun e => (e.1, if differs.contains e.1 then e.2 else {}) := by
    funext e
    split <;> rfl
  simp only [Survey.without, Table.find?, hrecord]
  induction second.held.entries with
  | nil => rfl
  | cons e es ih =>
    rw [map_cons, lookup_cons, lookup_cons]
    by_cases hk : id = e.1
    · simp [hk]
    · simp only [beq_eq_false_iff_ne.2 hk, ih]

def versionsOf (s : Version → Survey) (differs ids : List MapId) : Versions :=
  ⟨s .kabuto, (s .kuwagata).without differs, ids⟩

variable {s : Version → Survey} {ids : List MapId}

theorem Survey.Sound.not_isEnd_iff {s : Survey} (hs : s.Sound)
    (hid : s.copies.find? id = none → id ∈ s.held.keys) :
    ¬s.IsEnd id ↔ (∃ source, s.copies.find? id = some source) ∨
      ∃ held, s.held.find? id = some held ∧ held.bytes.isSome := by
  cases hcopy : s.copies.find? id with
  | some source => simp [IsEnd, hcopy]
  | none =>
    obtain ⟨held, hheld⟩ := mem_keys_iff.1 (hid hcopy)
    rcases hs.own id held hheld hcopy with rfl | ⟨-, hbytes⟩
    · simp [IsEnd, hcopy, hheld]
    · have hne : held ≠ {} := by
        rintro rfl
        cases hbytes
      simp [IsEnd, hcopy, hheld, hne, hbytes]

theorem mem_keys_of_recorded (hrecorded : Recorded (versionsOf s differs ids) .kuwagata id)
    (hnone : (s .kuwagata).copies.find? id = none) : id ∈ (s .kuwagata).held.keys := by
  obtain ⟨held, hheld⟩ := mem_keys_iff.1 (hrecorded hnone)
  change ((s .kuwagata).without differs).held.find? id = some held at hheld
  rw [find?_without, Option.map_eq_some_iff] at hheld
  obtain ⟨held, hheld, -⟩ := hheld
  exact mem_keys_iff.2 ⟨held, hheld⟩

section

variable (h : Compared (s .kabuto) (s .kuwagata) differs ids)

include h

/-- **A version has a file** for a map that is not the same in both, unless it is an end mark. -/
theorem hasFile_iff (hid : id ∈ ids) (hrecorded : Recorded (versionsOf s differs ids) v id) :
    HasFile (versionsOf s differs ids) v id ↔ ¬(s v).IsEnd id := by
  cases v with
  | kabuto => exact (h.firstSound.not_isEnd_iff hrecorded).symm
  | kuwagata =>
    refine Iff.trans (or_congr_right' fun hcopy => ?_)
      (h.secondSound.not_isEnd_iff fun hnone => mem_keys_of_recorded hrecorded hnone).symm
    change (∃ held, ((s .kuwagata).without differs).held.find? id = some held ∧ _) ↔ _
    rw [find?_without]
    by_cases hdiffers : id ∈ differs
    · simp [hdiffers]
    · -- a map that is told apart only as a copy has no bytes in either version
      have hbytes : ∀ held, (s .kuwagata).held.find? id = some held → held.bytes = none := by
        intro held hheld
        rcases h.cases_of_mem hid with hmem | hsome | ⟨source, hsource⟩
        · exact absurd hmem hdiffers
        · exact absurd hsome hcopy
        · obtain ⟨held', _, hheld', hnone, -⟩ := h.firstSound.copy _ (mem_of_find? hsource)
          by_contra hne
          exact hdiffers (h.mem_differs_iff.2 ⟨held', held, hheld', hheld, hnone ▸ hne⟩)
      constructor
      · rintro ⟨held, hheld, hsome⟩
        obtain ⟨_, -, rfl⟩ := Option.map_eq_some_iff.1 hheld
        rw [if_neg (by rwa [contains_iff_mem])] at hsome
        cases hsome
      · rintro ⟨held, hheld, hsome⟩
        rw [hbytes held hheld] at hsome
        cases hsome

theorem mem_of_isEnd (hend : (s v).IsEnd id) (hmem : id ∈ (s v').held.keys)
    (hnot : ¬(s v').IsEnd id) : id ∈ ids := by
  cases v with
  | kabuto =>
    cases v' with
    | kabuto => exact absurd hend hnot
    | kuwagata => exact h.mem_of_first_end hend hmem hnot
  | kuwagata =>
    cases v' with
    | kabuto => exact h.mem_of_second_end hend hnot
    | kuwagata => exact absurd hend hnot

/-- **Every map that is told apart has a file in a version** exactly if the end marks of the version
are end marks in every version that has the maps. -/
theorem hasFiles_iff (hrecorded : ∀ id ∈ (s .kabuto).held.keys, id ∈ ids →
      ∀ v, Recorded (versionsOf s differs ids) v id) :
    (∀ id ∈ (s .kabuto).held.keys, id ∈ ids → HasFile (versionsOf s differs ids) v id) ↔
      ∀ id, (s v).IsEnd id → ∀ v', id ∈ (s v').held.keys → (s v').IsEnd id := by
  constructor
  · intro hfiles id hend v' hmem
    by_contra hnot
    have hid := mem_of_isEnd h hend hmem hnot
    have hkey : id ∈ (s .kabuto).held.keys := by
      cases v with
      | kabuto => exact mem_keys_iff.2 ⟨_, hend.1⟩
      | kuwagata => exact h.mem_keys (mem_keys_iff.2 ⟨_, hend.1⟩)
    exact (hasFile_iff h hid (hrecorded id hkey hid v)).1 (hfiles id hkey hid) hend
  · intro hends id hkey hid
    rw [hasFile_iff h hid (hrecorded id hkey hid v)]
    intro hend
    cases v with
    | kabuto =>
      have hsecond : id ∈ (s .kuwagata).held.keys := by
        by_contra hmem
        exact hmem (mem_keys_of_recorded (hrecorded id hkey hid .kuwagata)
          (h.secondSound.notMem_copies hmem))
      exact h.notMem_of_ends hend (hends id hend .kuwagata hsecond) hid
    | kuwagata => exact h.notMem_of_ends (hends id hend .kabuto hkey) hend hid

end

end Tilemap

end Cartridge
