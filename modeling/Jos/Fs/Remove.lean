import Mathlib.Data.List.Find
import Jos.Fs.Truncate

/-! What `file_remove` takes out of a file system, and what it leaves. -/

set_option autoImplicit false

namespace Jos

open Foundation Function

namespace Fs

open Disk

def Disk.Walk.result : Walk → Except Int FilePtr
  | .found _ f => .ok f
  | .missing _ _ => .error (-eNotFound)
  | .failed r => .error r

def Disk.resolve (d : Disk) : FilePtr → List Path → Except Int FilePtr
  | f, [] => .ok f
  | f, name :: rest =>
    if maxNameLen ≤ name.length then .error (-eBadPath)
    else if d.fType f ≠ ftypeDir then .error (-eNotFound)
    else
      match (d.entries f).find? fun e => d.nameIs e name with
      | some next => d.resolve next rest
      | none => .error (-eNotFound)

/-- No block belongs to two files, or twice to one, or is free, and the names in a directory
differ. -/
structure Disk.WellFormed (d : Disk) : Prop where
  dirs : ∀ path dir, d.InTree path dir → d.fType dir = ftypeDir → ∃ n, d.Whole dir (n * pgSize)
  legal : ∀ path f, d.InTree path f → (d.fSize f).toNat ≤ maxFileSize
  blocks : ∀ path f, d.InTree path f → ∀ block ∈ d.owned f,
    d.OnDisk block ∧ d.bitmapEnd ≤ block * pgSize ∧ d.blockIsFree block = false
  once : ∀ path f, d.InTree path f → (d.owned f).Nodup
  apart : ∀ path f path' g block, d.InTree path f → d.InTree path' g →
    block ∈ d.owned f → block ∈ d.owned g → f = g
  names : ∀ path dir f g, d.InTree path dir → d.fType dir = ftypeDir → f ∈ d.entries dir →
    g ∈ d.entries dir → d f ≠ 0 → d g ≠ 0 → d.fName f = d.fName g → f = g

section Resolve

variable {d : Disk} {f g dir : FilePtr} {path names : List Path}

theorem resolve_append (first : List Path) :
    d.resolve f (first ++ names) = (d.resolve f first).bind fun g => d.resolve g names := by
  induction first generalizing f with
  | nil => rfl
  | cons name rest ih =>
    rw [List.cons_append, Disk.resolve, Disk.resolve]
    by_cases long : maxNameLen ≤ name.length
    · rw [if_pos long, if_pos long]
      rfl
    · rw [if_neg long, if_neg long]
      by_cases other : d.fType f ≠ ftypeDir
      · rw [if_pos other, if_pos other]
        rfl
      · rw [if_neg other, if_neg other]
        cases (d.entries f).find? fun e => d.nameIs e name with
        | none => rfl
        | some next => exact ih

theorem nameIs_congr {d' : Disk} {name : Path} (same : ∀ k ≤ name.length, d' (f + k) = d (f + k)) :
    d'.nameIs f name = d.nameIs f name := by
  apply Bool.eq_iff_iff.mpr
  simp only [Disk.nameIs, List.all_eq_true, List.mem_range, Nat.lt_succ_iff]
  exact forall₂_congr fun k few => by rw [same k few]

theorem fName_eq {name : Path} (same : d.nameIs f name = true) (text : ∀ c ∈ name, c ≠ 0)
    (short : name.length < fileSize) : d.fName f = name := by
  have bytes : ∀ k ≤ name.length, d (f + k) = name.getD k 0 := by
    simpa [Disk.nameIs, Nat.lt_succ_iff] using same
  have first : (List.range name.length).map (fun k => d (f + k)) = name := by
    refine List.ext_getElem (by simp) fun k inside inside' => ?_
    rw [List.getElem_map, List.getElem_range, bytes k (Nat.le_of_lt inside')]
    simp [inside']
  have last : d (f + name.length) = 0 := by
    rw [bytes _ (Nat.le_refl _)]
    simp
  obtain ⟨more, length⟩ : ∃ more, fileSize = name.length + (more + 1) :=
    ⟨fileSize - name.length - 1, by omega⟩
  rw [Disk.fName, length, List.range_add, List.map_append, first,
    List.takeWhile_append_of_pos (by simpa using text), List.range_succ_eq_map]
  simp [last]

theorem Disk.Solid.walkNames_eq (solid : d.Solid) {parent : Option FilePtr} (there : d.InTree path f)
    (text : ∀ name ∈ names, name ≠ [] ∧ ∀ c ∈ name, c ≠ 0) :
    (Fs.walkNames parent f names d).map (fun (walk, d) => (walk.result, d)) =
      some (d.resolve f names, d) := by
  induction names generalizing parent f path with
  | nil => rfl
  | cons name rest ih =>
    rw [Fs.walkNames, Disk.resolve]
    by_cases long : maxNameLen ≤ name.length
    · rw [if_pos long, if_pos long]
      rfl
    · rw [if_neg long, if_neg long]
      by_cases other : d.fType f ≠ ftypeDir
      · rw [if_pos other, if_pos other]
        rfl
      · rw [if_neg other, if_neg other]
        have directory : d.fType f = ftypeDir := not_not.mp other
        obtain ⟨n, whole⟩ := solid.dirs path f there directory
        rw [whole.dirLookup]
        cases found : (d.entries f).find? fun e => d.nameIs e name with
        | none =>
          dsimp only [fail, Option.bind_some]
          split
          · rfl
          · rfl
        | some next =>
          have child := there.found directory (text name List.mem_cons_self) found
          exact ih child fun later member => text later (List.mem_cons_of_mem _ member)

theorem components_text {path : Path} (text : ∀ c ∈ path, c ≠ 0) :
    ∀ name ∈ components path, name ≠ [] ∧ ∀ c ∈ name, c ≠ 0 := by
  intro name member
  obtain ⟨nonempty, letters⟩ := mem_components member
  exact ⟨nonempty, fun c inside => text c (letters c inside)⟩

theorem Disk.Solid.walkPath_result (solid : d.Solid) {path : Path} (text : ∀ c ∈ path, c ≠ 0) :
    ∃ walk, Disk.walkPath path d = some (walk, d) ∧ walk.result = d.resolve sRoot (components path) := by
  have walked : (Fs.walkNames none sRoot (components path) d).map _ = _ :=
    solid.walkNames_eq .root (components_text text)
  rw [← walkPath_eq] at walked
  obtain ⟨⟨walk, after⟩, ran, both⟩ := Option.map_eq_some_iff.mp walked
  obtain ⟨result, same⟩ := Prod.mk.inj both
  rw [same] at ran
  exact ⟨walk, ran, result⟩

theorem Disk.Solid.fileOpen (solid : d.Solid) {path : Path} (text : ∀ c ∈ path, c ≠ 0) :
    fileOpen path d = some (d.resolve sRoot (components path), d) := by
  obtain ⟨walk, ran, result⟩ := solid.walkPath_result text
  rw [Disk.fileOpen, ran, ← result]
  cases walk with
  | found => rfl
  | missing => rfl
  | failed => rfl

theorem resolve_inTree (there : d.InTree path f)
    (text : ∀ name ∈ names, name ≠ [] ∧ ∀ c ∈ name, c ≠ 0)
    (resolved : d.resolve f names = .ok g) : d.InTree (path ++ names) g := by
  induction names generalizing f path with
  | nil =>
    cases resolved
    rw [List.append_nil]
    exact there
  | cons name rest ih =>
    rw [Disk.resolve] at resolved
    split at resolved
    · cases resolved
    · rename_i short
      split at resolved
      · cases resolved
      · rename_i directory
        cases found : (d.entries f).find? fun e => d.nameIs e name with
        | none =>
          rw [found] at resolved
          cases resolved
        | some next =>
          rw [found] at resolved
          obtain ⟨nonempty, letters⟩ := text name List.mem_cons_self
          have named := List.find?_some found
          have used := nameIs_ne_zero named nonempty letters
          have child := InTree.entry there (not_not.mp directory)
            (List.mem_of_find?_eq_some found) used
          have limit : maxNameLen = 128 := rfl
          have size : fileSize = 256 := rfl
          rw [fName_eq named letters (by omega)] at child
          have below := ih child (fun later member => text later (List.mem_cons_of_mem _ member))
            resolved
          rw [List.append_assoc] at below
          exact below

end Resolve

section Tree

variable {d : Disk} {f g dir : Nat} {path path' : List Path}

theorem Disk.Whole.present {size bno : Nat} (whole : d.Whole f size) (here : bno * pgSize < size) :
    d.present f bno = true := by
  have filled := (whole.blocks bno here).1
  refine present_iff.mpr ⟨?_, fun null => filled (by rw [Disk.blockAt, null]; rfl)⟩
  by_cases direct : bno < nDirect
  · exact .inl direct
  · have beyond : nDirect * pgSize < size :=
      Nat.lt_of_le_of_lt (Nat.mul_le_mul_right pgSize (not_lt.mp direct)) here
    have filled := (whole.indirect beyond).1
    exact .inr fun null => filled (by rw [null]; rfl)

theorem Disk.Whole.blocksFor {n : Nat} (whole : d.Whole f (n * pgSize)) :
    blocksFor (d.fSize f) = n := by
  have small := whole.small
  have size : (d.fSize f).toNat = n * 4096 := by
    rw [whole.length, toNat_ofNat32 small, pgSize_eq]
  have legal : (d.fSize f).toNat ≤ maxFileSize := by
    rw [size]
    exact whole.legal
  rw [blocksFor_eq legal, size]
  omega

theorem Disk.WellFormed.entry (wellFormed : d.WellFormed) (there : d.InTree path dir)
    (directory : d.fType dir = ftypeDir) (member : f ∈ d.entries dir) :
    ∃ block ∈ d.dataBlocks dir, ∃ j < 16, f = block * 4096 + 256 * j := by
  obtain ⟨n, whole⟩ := wellFormed.dirs path dir there directory
  rw [Disk.entries, whole.blocksOf, Disk.entriesFrom, List.mem_flatMap] at member
  obtain ⟨bno, inside, member⟩ := member
  obtain ⟨j, few, rfl⟩ := List.mem_map.mp member
  have inside : bno < n := by
    have range := List.mem_range'_1.mp inside
    omega
  have here : bno * pgSize < n * pgSize := Nat.mul_lt_mul_of_pos_right inside (by decide)
  refine ⟨d.blockAt dir bno, mem_dataBlocks.mpr ⟨bno, ?_, whole.present here, rfl⟩, j,
    List.mem_range.mp few, rfl⟩
  rw [whole.blocksFor]
  exact inside

theorem mem_owned {block : Nat} (member : block ∈ d.dataBlocks f) : block ∈ d.owned f :=
  List.mem_append_left _ member

theorem Disk.WellFormed.behind (wellFormed : d.WellFormed) (there : d.InTree path dir)
    (directory : d.fType dir = ftypeDir) (member : f ∈ d.entries dir) : d.bitmapEnd ≤ f := by
  obtain ⟨block, inside, j, -, rfl⟩ := wellFormed.entry there directory member
  have low := (wellFormed.blocks path dir there block (mem_owned inside)).2.1
  exact Nat.le_trans low (Nat.le_add_right _ _)

theorem Disk.WellFormed.solid (wellFormed : d.WellFormed) : d.Solid where
  dirs := wellFormed.dirs
  placed path f there := by
    cases there with
    | root => exact .inl rfl
    | entry there directory member => exact .inr (wellFormed.behind there directory member)

theorem sRoot_before (d : Disk) : sRoot < d.bitmapEnd :=
  Nat.lt_of_lt_of_le (by decide) (bitmapEnd_le d)

theorem Disk.WellFormed.unique (wellFormed : d.WellFormed) (there : d.InTree path f)
    (there' : d.InTree path' f) : path = path' := by
  have before := sRoot_before d
  induction there generalizing path' with
  | root =>
    cases there' with
    | root => rfl
    | entry there directory member =>
      have behind := wellFormed.behind there directory member
      exact absurd behind (not_le.mpr before)
  | entry there directory member _ ih =>
    cases there' with
    | root =>
      have behind := wellFormed.behind there directory member
      exact absurd behind (not_le.mpr before)
    | entry there' directory' member' =>
      obtain ⟨block, inside, j, few, place⟩ := wellFormed.entry there directory member
      obtain ⟨block', inside', j', few', place'⟩ := wellFormed.entry there' directory' member'
      have same : block = block' := by omega
      subst same
      have dirs := wellFormed.apart _ _ _ _ block there there' (mem_owned inside)
        (mem_owned inside')
      subst dirs
      rw [ih there']

theorem inTree_nil (there : d.InTree path f) (none : path = []) : f = sRoot := by
  cases there with
  | root => rfl
  | entry => exact absurd none (List.append_ne_nil_of_right_ne_nil _ (List.cons_ne_nil _ _))

theorem inTree_snoc {name : Path} (there : d.InTree path' f) (last : path' = path ++ [name]) :
    ∃ dir, d.InTree path dir ∧ d.fType dir = ftypeDir ∧ f ∈ d.entries dir ∧ d f ≠ 0 ∧
      d.fName f = name := by
  cases there with
  | root => exact absurd last.symm (List.append_ne_nil_of_right_ne_nil _ (List.cons_ne_nil _ _))
  | entry there directory member used =>
    obtain ⟨rfl, same⟩ := List.append_inj' last rfl
    exact ⟨_, there, directory, member, used, List.head_eq_of_cons_eq same⟩

theorem Disk.WellFormed.functional (wellFormed : d.WellFormed) (there : d.InTree path f)
    (there' : d.InTree path g) : f = g := by
  induction there generalizing g with
  | root => exact (inTree_nil there' rfl).symm
  | entry there directory member used ih =>
    obtain ⟨dir', parent, -, member', used', named⟩ := inTree_snoc there' rfl
    have dirs := ih parent
    subst dirs
    exact wellFormed.names _ _ _ _ there directory member member' used used' named.symm

theorem Disk.WellFormed.only (wellFormed : d.WellFormed) {e : Nat} (there : d.InTree path dir)
    (directory : d.fType dir = ftypeDir) {name : Path} (member : e ∈ d.entries dir)
    (named : d.nameIs e name = true) (member' : g ∈ d.entries dir) (named' : d.nameIs g name = true)
    (nonempty : name ≠ []) (text : ∀ c ∈ name, c ≠ 0) (short : name.length < maxNameLen) : e = g := by
  have long : name.length < fileSize := Nat.lt_trans short (by decide)
  refine wellFormed.names _ _ _ _ there directory member member'
    (nameIs_ne_zero named nonempty text) (nameIs_ne_zero named' nonempty text) ?_
  rw [fName_eq named text long, fName_eq named' text long]

theorem Disk.WellFormed.stored (wellFormed : d.WellFormed) (there : d.InTree path f)
    (below : path ≠ []) : d.Stored f := by
  have inTree := there
  cases there with
  | root => exact absurd rfl below
  | @entry path dir f parent directory member =>
    refine ⟨wellFormed.legal _ _ inTree, wellFormed.behind parent directory member,
      fun block mine => ?_, fun filled => ?_⟩
    · have facts := wellFormed.blocks _ _ inTree block mine
      exact ⟨facts.1, facts.2.1⟩
    · obtain ⟨block, inside, j, few, place⟩ := wellFormed.entry parent directory member
      have length : fileSize = 256 := rfl
      have differ : block ≠ (d.fIndirect f).toNat := by
        rintro rfl
        have dirs := wellFormed.apart _ _ _ _ _ parent inTree (mem_owned inside)
          (mem_owned_indirect filled)
        rw [dirs] at parent
        have paths := congrArg List.length (wellFormed.unique parent inTree)
        simp at paths
      rw [length, pgSize_eq]
      omega

end Tree

/-! A file of which neither the record nor the pointers are stored to. -/

section Keeps

variable {d d' : Disk} {g : FilePtr} {bno n : Nat}

theorem fields_congr {g : Nat} (same : ∀ addr, g + 128 ≤ addr → addr < g + 256 → d' addr = d addr) :
    d'.fSize g = d.fSize g ∧ d'.fType g = d.fType g ∧ d'.fIndirect g = d.fIndirect g ∧
      ∀ i < 10, d'.fDirect g i = d.fDirect g i := by
  have field : ∀ off, 128 ≤ off → off + 4 ≤ 256 → d'.word (g + off) = d.word (g + off) :=
    fun off low high => word_congr fun k begun ended => same k (by omega) (by omega)
  refine ⟨field 128 (by omega) (by omega), field 132 (by omega) (by omega),
    field 176 (by omega) (by omega), fun i few => ?_⟩
  have slot := field (136 + 4 * i) (by omega) (by omega)
  rw [← Nat.add_assoc] at slot
  exact slot

structure Disk.KeepsFile (d d' : Disk) (g : FilePtr) : Prop where
  size : d'.fSize g = d.fSize g
  type : d'.fType g = d.fType g
  indirect : d'.fIndirect g = d.fIndirect g
  slots : ∀ bno, d.HasSlot g bno → d'.word (d.slotAt g bno) = d.word (d.slotAt g bno)

theorem Disk.KeepsFile.slotAt (keeps : d.KeepsFile d' g) (bno : Nat) :
    d'.slotAt g bno = d.slotAt g bno := by
  unfold Disk.slotAt
  rw [keeps.indirect]

theorem Disk.KeepsFile.present (keeps : d.KeepsFile d' g) (inside : bno < nDirect + nIndirect) :
    d'.present g bno = d.present g bno := by
  unfold Disk.present
  rw [keeps.slotAt, keeps.indirect]
  by_cases reached : bno < nDirect ∨ d.fIndirect g ≠ 0
  · rw [keeps.slots bno ⟨inside, reached⟩]
  · obtain ⟨far, null⟩ := not_or.mp reached
    rw [decide_eq_false far, decide_eq_false null, Bool.false_or, Bool.false_and, Bool.false_and]

theorem Disk.KeepsFile.blockAt (keeps : d.KeepsFile d' g) (slot : d.HasSlot g bno) :
    d'.blockAt g bno = d.blockAt g bno := by
  rw [Disk.blockAt, keeps.slotAt, keeps.slots bno slot]
  rfl

theorem Disk.Whole.hasSlot {size : Nat} (whole : d.Whole g size) (here : bno * pgSize < size) :
    d.HasSlot g bno :=
  ⟨whole.inRange here, (present_iff.mp (whole.present here)).1⟩

theorem Disk.KeepsFile.entries (keeps : d.KeepsFile d' g) (whole : d.Whole g (n * pgSize)) :
    d'.entries g = d.entries g := by
  unfold Disk.entries Disk.entriesFrom
  rw [keeps.size, whole.blocksOf]
  refine List.flatMap_congr fun bno member => ?_
  have inside : bno < n := by
    have range := List.mem_range'_1.mp member
    omega
  have here : bno * pgSize < n * pgSize := Nat.mul_lt_mul_of_pos_right inside (by decide)
  rw [keeps.blockAt (whole.hasSlot here)]

theorem Disk.KeepsFile.whole {size : Nat} (keeps : d.KeepsFile d' g) (count : d'.sNblocks = d.sNblocks)
    (whole : d.Whole g size) : d'.Whole g size := by
  refine ⟨keeps.size.trans whole.length, whole.legal, fun beyond => ?_, fun bno here => ?_⟩
  · rw [keeps.indirect, Disk.OnDisk, count]
    exact whole.indirect beyond
  · rw [keeps.blockAt (whole.hasSlot here), Disk.OnDisk, count]
    exact whole.blocks bno here

end Keeps

/-- The file at a place of the tree is emptied, and its name taken away. -/
structure Disk.Erases (d d' : Disk) (names : List Path) (f : Nat) : Prop where
  wellFormed : d.WellFormed
  there : d.InTree names f
  below : names ≠ []
  frame : ∀ addr, ¬d.Touched f addr → d' addr = d addr
  cleared : d' f = 0
  free : ∀ block, d'.blockIsFree block = true ↔ d.blockIsFree block = true ∨ block ∈ d.owned f

section Erases

variable {d d' : Disk} {f g e dir bno block : Nat} {names path : List Path}

section

variable (erases : d.Erases d' names f)

include erases

theorem Disk.Erases.parent :
    ∃ path dir, d.InTree path dir ∧ d.fType dir = ftypeDir ∧ f ∈ d.entries dir ∧
      path ++ [d.fName f] = names := by
  have below := erases.below
  cases erases.there with
  | root => exact absurd rfl below
  | entry there directory member => exact ⟨_, _, there, directory, member, rfl⟩

theorem Disk.Erases.stored : d.Stored f :=
  erases.wellFormed.stored erases.there erases.below

/-- A file is another one at every place that is not below the one that is emptied. -/
theorem Disk.Erases.other (there : d.InTree path g) (apart : ¬names <+: path) : g ≠ f := by
  rintro rfl
  rw [erases.wellFormed.unique there erases.there] at apart
  exact apart List.prefix_rfl

theorem Disk.Erases.inBlock (there : d.InTree path g) (differ : g ≠ f)
    (member : block ∈ d.owned g) {addr : Nat} (low : block * 4096 ≤ addr)
    (high : addr < block * 4096 + 4096) (outside : addr < f ∨ f + 256 ≤ addr) :
    d' addr = d addr := by
  refine erases.frame addr ?_
  have above := (erases.wellFormed.blocks _ _ there block member).2.1
  have length : fileSize = 256 := rfl
  rw [pgSize_eq] at above
  unfold Disk.Touched
  rw [length, pgSize_eq]
  rintro (bits | record | ⟨filled, slots⟩)
  · omega
  · omega
  · have same : (d.fIndirect f).toNat = block := by omega
    have mine := mem_owned_indirect filled
    rw [same] at mine
    exact differ (erases.wellFormed.apart _ _ _ _ block there erases.there member mine)

theorem Disk.Erases.entry (there : d.InTree path dir)
    (directory : d.fType dir = ftypeDir) (differ : dir ≠ f) (member : e ∈ d.entries dir)
    (other : e ≠ f) {addr : Nat} (low : e ≤ addr) (high : addr < e + 256) : d' addr = d addr := by
  obtain ⟨above, dir', there', directory', member', -⟩ := erases.parent
  obtain ⟨block, inside, j, few, place⟩ := erases.wellFormed.entry there directory member
  obtain ⟨block', -, j', few', place'⟩ := erases.wellFormed.entry there' directory' member'
  exact erases.inBlock there differ (mem_owned inside) (by omega) (by omega) (by omega)

theorem Disk.Erases.record (there : d.InTree path g)
    (apart : ¬names <+: path) {addr : Nat} (low : g ≤ addr) (high : addr < g + 256) :
    d' addr = d addr := by
  have other := erases.other there apart
  cases there with
  | root =>
    refine erases.frame addr fun touched => ?_
    have root : (4104 : Nat) = sRoot := rfl
    have start : bitmap = 8192 := rfl
    have above := erases.stored.touched_high touched
    rw [← root] at high
    omega
  | entry there directory member =>
    have apart' : ¬names <+: _ := fun inside => apart (inside.trans (List.prefix_append _ _))
    exact erases.entry there directory (erases.other there apart') member other low high

theorem Disk.Erases.fields (there : d.InTree path g)
    (apart : ¬names <+: path) : d'.fSize g = d.fSize g ∧ d'.fType g = d.fType g ∧
      d'.fIndirect g = d.fIndirect g ∧ ∀ i < 10, d'.fDirect g i = d.fDirect g i :=
  fields_congr fun addr low high => erases.record there apart (by omega) high

theorem Disk.Erases.slot (there : d.InTree path g)
    (apart : ¬names <+: path) (slot : d.HasSlot g bno) :
    d'.word (d.slotAt g bno) = d.word (d.slotAt g bno) := by
  rcases slotAt_place slot with ⟨few, place⟩ | ⟨low, high, filled, place⟩
  · rw [place]
    exact (erases.fields there apart).2.2.2 bno few
  · have mine := mem_owned_indirect filled
    obtain ⟨above, dir, there', directory, member, -⟩ := erases.parent
    obtain ⟨block, inside, j, few, place'⟩ := erases.wellFormed.entry there' directory member
    have differ : block ≠ (d.fIndirect g).toNat := by
      rintro rfl
      have same := erases.wellFormed.apart _ _ _ _ _ there there' mine (mem_owned inside)
      subst same
      have once := erases.wellFormed.once _ _ there
      rw [Disk.owned, if_neg filled] at once
      exact (List.nodup_append.mp once).2.2 _ inside _ List.mem_cons_self rfl
    rw [place]
    refine word_congr fun k first last => ?_
    have begun := Nat.le_trans (Nat.le_add_right _ _) first
    exact erases.inBlock there (erases.other there apart) mine begun (by omega) (by omega)

theorem Disk.Erases.keeps (there : d.InTree path g)
    (apart : ¬names <+: path) : d.KeepsFile d' g := by
  obtain ⟨size, type, indirect, -⟩ := erases.fields there apart
  exact ⟨size, type, indirect, fun _ => erases.slot there apart⟩

end

def Disk.InRecord (d : Disk) (dir f k : Nat) : Prop :=
  d.fType dir = ftypeDir ∧ f ≤ d.blockAt dir (k / pgSize) * pgSize + k % pgSize ∧
    d.blockAt dir (k / pgSize) * pgSize + k % pgSize < f + fileSize

section

variable (erases : d.Erases d' names f)

include erases

/-- The bytes of another file are as they were, but for the record in a directory. -/
theorem Disk.Erases.byteAt (there : d.InTree path g)
    (apart : ¬names <+: path) {k : Nat} (below : k < (d.fSize g).toNat)
    (outside : ¬d.InRecord g f k) : d'.byteAt g k = d.byteAt g k := by
  have legal := erases.wellFormed.legal _ _ there
  have count : blocksFor (d.fSize g) = _ := blocksFor_eq legal
  have most : maxFileSize = 1034 * 4096 := rfl
  have slots : nDirect + nIndirect = 1034 := rfl
  have inside : k / pgSize < nDirect + nIndirect := by
    rw [pgSize_eq]
    omega
  have here : k / pgSize < blocksFor (d.fSize g) := by
    rw [pgSize_eq]
    omega
  have keeps := erases.keeps there apart
  unfold Disk.byteAt
  rw [keeps.present inside]
  by_cases filled : d.present g (k / pgSize) = true
  · rw [if_pos filled, if_pos filled, Disk.contents, Disk.contents,
      keeps.blockAt ⟨inside, (present_iff.mp filled).1⟩]
    have mine := mem_dataBlocks.mpr ⟨_, here, filled, rfl⟩
    have rest : k % pgSize < 4096 := Nat.mod_lt k (by decide)
    refine erases.inBlock there (erases.other there apart) (mem_owned mine) (Nat.le_add_right _ _)
      (by rw [pgSize_eq] at rest ⊢; omega) ?_
    by_contra record
    obtain ⟨above, dir, there', directory, member, -⟩ := erases.parent
    obtain ⟨block, inside', j, few, place⟩ := erases.wellFormed.entry there' directory member
    have same : block = d.blockAt g (k / pgSize) := by
      rw [pgSize_eq] at record rest ⊢
      omega
    rw [← same] at mine
    have dirs := erases.wellFormed.apart _ _ _ _ _ there there' (mem_owned mine) (mem_owned inside')
    have length : fileSize = 256 := rfl
    rw [← dirs] at directory
    exact outside ⟨directory, by omega, by omega⟩
  · rw [if_neg filled, if_neg filled]

theorem Disk.Erases.entries (there : d.InTree path dir)
    (apart : ¬names <+: path) (directory : d.fType dir = ftypeDir) :
    d'.entries dir = d.entries dir := by
  obtain ⟨n, whole⟩ := erases.wellFormed.dirs _ _ there directory
  exact (erases.keeps there apart).entries whole

theorem Disk.Erases.sNblocks : d'.sNblocks = d.sNblocks :=
  erases.stored.held.sNblocks erases.frame

theorem Disk.Erases.inTree (there' : d'.InTree path g) : d.InTree path g ∧ ¬names <+: path := by
  induction there' with
  | root => exact ⟨.root, fun inside => erases.below (List.prefix_nil.mp inside)⟩
  | @entry path dir e parent directory member used ih =>
    obtain ⟨there, apart⟩ := ih
    rw [(erases.fields there apart).2.1] at directory
    rw [erases.entries there apart directory] at member
    have other : e ≠ f := by
      rintro rfl
      exact used erases.cleared
    have bytes : ∀ k < 256, d' (e + k) = d (e + k) := fun k few =>
      erases.entry there directory (erases.other there apart) member other (Nat.le_add_right _ _)
        (Nat.add_lt_add_left few e)
    have named : d'.fName e = d.fName e := by
      rw [Disk.fName, Disk.fName]
      refine congrArg _ (List.map_congr_left fun k few => bytes k (List.mem_range.mp few))
    have used : d e ≠ 0 := by
      have first := bytes 0 (by decide)
      rw [Nat.add_zero] at first
      rw [← first]
      exact used
    have child := InTree.entry there directory member used
    rw [named]
    refine ⟨child, fun inside => ?_⟩
    rcases List.prefix_concat_iff.mp inside with same | inside
    · rw [← same] at child
      exact other (erases.wellFormed.functional child erases.there)
    · exact apart inside

theorem Disk.Erases.solid : d'.Solid where
  dirs path dir there' directory := by
    obtain ⟨there, apart⟩ := erases.inTree there'
    rw [(erases.fields there apart).2.1] at directory
    obtain ⟨n, whole⟩ := erases.wellFormed.dirs _ _ there directory
    exact ⟨n, (erases.keeps there apart).whole erases.sNblocks whole⟩
  placed path g there' := by
    have placed := erases.wellFormed.solid.placed _ _ (erases.inTree there').1
    unfold Disk.Placed at placed ⊢
    rw [bitmapEnd_congr erases.sNblocks]
    exact placed

theorem Disk.Erases.nameIs (there : d.InTree path dir)
    (apart : ¬names <+: path) (directory : d.fType dir = ftypeDir) (member : e ∈ d.entries dir)
    (other : e ≠ f) {name : Path} (short : name.length < maxNameLen) :
    d'.nameIs e name = d.nameIs e name := by
  have limit : maxNameLen = 128 := rfl
  refine nameIs_congr fun k few => ?_
  exact erases.entry there directory (erases.other there apart) member other (Nat.le_add_right _ _)
    (by omega)

theorem Disk.Erases.nameIs_cleared {name : Path}
    (nonempty : name ≠ []) (text : ∀ c ∈ name, c ≠ 0) : d'.nameIs f name = false :=
  Bool.eq_false_iff.mpr fun named => nameIs_ne_zero named nonempty text erases.cleared

/-- A lookup in a directory finds what it found before, if that is not the file. -/
theorem Disk.Erases.find (there : d.InTree path dir)
    (apart : ¬names <+: path) (directory : d.fType dir = ftypeDir) {name : Path}
    (short : name.length < maxNameLen) (nonempty : name ≠ []) (text : ∀ c ∈ name, c ≠ 0)
    (other : d.nameIs f name = true → f ∉ d.entries dir) :
    (d'.entries dir).find? (fun e => d'.nameIs e name) =
      (d.entries dir).find? fun e => d.nameIs e name := by
  rw [erases.entries there apart directory]
  refine List.find?_congr fun e member => ?_
  by_cases same : e = f
  · subst same
    have before : d.nameIs e name = false := Bool.eq_false_iff.mpr fun named => other named member
    rw [before, erases.nameIs_cleared nonempty text]
  · exact erases.nameIs there apart directory member same short

theorem Disk.Erases.resolve_kept {more : List Path}
    (there : d.InTree path g) (text : ∀ name ∈ more, name ≠ [] ∧ ∀ c ∈ name, c ≠ 0)
    (apart : ¬names <+: path ++ more) : d'.resolve g more = d.resolve g more := by
  induction more generalizing g path with
  | nil => rfl
  | cons name rest ih =>
    have apart' : ¬names <+: path := fun inside => apart (inside.trans (List.prefix_append _ _))
    rw [Disk.resolve, Disk.resolve, (erases.fields there apart').2.1]
    by_cases long : maxNameLen ≤ name.length
    · rw [if_pos long, if_pos long]
    · rw [if_neg long, if_neg long]
      by_cases plain : d.fType g ≠ ftypeDir
      · rw [if_pos plain, if_pos plain]
      · obtain ⟨nonempty, letters⟩ := text name List.mem_cons_self
        have directory : d.fType g = ftypeDir := not_not.mp plain
        have limit : maxNameLen = 128 := rfl
        have size : fileSize = 256 := rfl
        have child : ∀ e ∈ d.entries g, d.nameIs e name = true → d.InTree (path ++ [name]) e := by
          intro e member named
          have below := InTree.entry there directory member (nameIs_ne_zero named nonempty letters)
          rw [fName_eq named letters (by omega)] at below
          exact below
        have split : path ++ name :: rest = (path ++ [name]) ++ rest := by simp
        rw [split] at apart
        have other : d.nameIs f name = true → f ∉ d.entries g := by
          intro named member
          rw [erases.wellFormed.unique erases.there (child f member named)] at apart
          exact apart (List.prefix_append _ _)
        rw [if_neg plain, if_neg plain,
          erases.find there apart' directory (not_le.mp long) nonempty letters other]
        cases found : (d.entries g).find? fun e => d.nameIs e name with
        | none => rfl
        | some next =>
          have named := List.find?_some found
          exact ih (child next (List.mem_of_find?_eq_some found) named)
            (fun later member => text later (List.mem_cons_of_mem _ member)) apart

theorem Disk.Erases.resolve_gone (more : List Path)
    (text : ∀ name ∈ names, name ≠ [] ∧ ∀ c ∈ name, c ≠ 0)
    (resolved : d.resolve sRoot names = .ok f) :
    d'.resolve sRoot (names ++ more) = .error (-eNotFound) := by
  obtain ⟨path, dir, there, directory, member, split⟩ := erases.parent
  obtain ⟨name, named⟩ : ∃ name, name = d.fName f := ⟨_, rfl⟩
  rw [← named] at split
  have apart : ¬names <+: path := by
    intro inside
    have length := inside.length_le
    rw [← split, List.length_append] at length
    exact absurd length (by simp)
  have last : name ∈ names := by
    rw [← split]
    exact List.mem_append_right _ List.mem_cons_self
  obtain ⟨nonempty, letters⟩ := text name last
  have text' : ∀ name ∈ path, name ≠ [] ∧ ∀ c ∈ name, c ≠ 0 := fun name inside =>
    text name (by rw [← split]; exact List.mem_append_left _ inside)
  rw [← split, resolve_append] at resolved
  cases before : d.resolve sRoot path with
  | error r =>
    rw [before] at resolved
    cases resolved
  | ok dir' =>
    rw [before] at resolved
    have same : dir' = dir :=
      erases.wellFormed.functional (resolve_inTree .root text' before) there
    subst same
    have kept := erases.resolve_kept .root text' apart
    have both : names ++ more = path ++ (name :: more) := by rw [← split]; simp
    rw [both, resolve_append, kept, before]
    change d.resolve dir' [name] = .ok f at resolved
    change d'.resolve dir' (name :: more) = _
    rw [Disk.resolve] at resolved ⊢
    by_cases long : maxNameLen ≤ name.length
    · rw [if_pos long] at resolved
      cases resolved
    · have plain : ¬d.fType dir' ≠ ftypeDir := not_not.mpr directory
      rw [if_neg long, if_neg plain] at resolved
      rw [if_neg long, (erases.fields there apart).2.1, if_neg plain]
      cases found : (d.entries dir').find? fun e => d.nameIs e name with
      | none =>
        rw [found] at resolved
        cases resolved
      | some next =>
        rw [found] at resolved
        obtain rfl : next = f := Except.ok.inj resolved
        have mine := List.find?_some found
        have none : (d'.entries dir').find? (fun e => d'.nameIs e name) = none := by
          rw [erases.entries there apart directory]
          refine List.find?_eq_none.mpr fun e member' named' => ?_
          by_cases same : e = next
          · subst same
            rw [erases.nameIs_cleared nonempty letters] at named'
            cases named'
          · rw [erases.nameIs there apart directory member' same (not_le.mp long)] at named'
            exact same (erases.wellFormed.only there directory member' named' member mine nonempty letters
              (not_le.mp long))
        rw [none]

end

end Erases

section Remove

variable {d d' mid : Disk} {f : Nat} {names : List Path} {path : Path}

theorem Disk.Emptied.erases (emptied : d.Emptied f mid) (wellFormed : d.WellFormed)
    (there : d.InTree names f) (below : names ≠ []) :
    d.Erases (setWord (update mid f 0) (fSizeAt f) 0) names f := by
  have stored := wellFormed.stored there below
  have place : fSizeAt f = f + 128 := rfl
  have length : fileSize = 256 := rfl
  have behind := stored.behind
  have kept : ∀ addr, addr < f ∨ f + 256 ≤ addr →
      setWord (update mid f 0) (fSizeAt f) 0 addr = mid addr := by
    intro addr outside
    have other : addr ≠ f := by omega
    rw [setWord_other (by omega), update_of_ne other]
  refine ⟨wellFormed, there, below, fun addr untouched => ?_, ?_, fun block => ?_⟩
  · have outside : addr < f ∨ f + 256 ≤ addr := by
      by_contra inside
      exact untouched (.inr (.inl (by omega)))
    rw [kept addr outside, emptied.frame addr untouched]
  · rw [setWord_other (.inl (by omega)), update_self]
  · have ends := bitmapEnd_congr (stored.held.sNblocks emptied.frame)
    rw [blockIsFree_congr fun addr low => kept addr (.inl (by omega))]
    exact emptied.free block

/-- What is left when a path is removed that led to a file: nothing at or below the path, the
other files with the bytes they had, and some more free blocks. -/
structure Disk.Removed (d d' : Disk) (path : Path) (f : FilePtr) (gains : Nat → Prop) : Prop where
  gone : ∀ other, (∀ c ∈ other, c ≠ 0) → components path <+: components other →
    fileOpen other d' = fail (-eNotFound) d'
  kept : ∀ other, (∀ c ∈ other, c ≠ 0) → ¬components path <+: components other →
    ∃ r, fileOpen other d = some (r, d) ∧ fileOpen other d' = some (r, d')
  size : ∀ other g, (∀ c ∈ other, c ≠ 0) → ¬components path <+: components other →
    fileOpen other d = done g d → d'.fSize g = d.fSize g
  bytes : ∀ other g, (∀ c ∈ other, c ≠ 0) → ¬components path <+: components other →
    fileOpen other d = done g d → ∀ k < (d.fSize g).toNat, ¬d.InRecord g f k →
      d'.byteAt g k = d.byteAt g k
  free : ∀ block, d.blockIsFree block = true → d'.blockIsFree block = true
  gained : ∀ block, (d.blockIsFree block = false ∧ d'.blockIsFree block = true) ↔ gains block

theorem Disk.WellFormed.opened (wellFormed : d.WellFormed) (text : ∀ c ∈ path, c ≠ 0)
    (opens : fileOpen path d = done f d) :
    d.resolve sRoot (components path) = .ok f ∧ d.InTree (components path) f := by
  rw [wellFormed.solid.fileOpen text] at opens
  have resolved : d.resolve sRoot (components path) = .ok f :=
    (Prod.mk.inj (Option.some.inj opens)).1
  exact ⟨resolved, resolve_inTree .root (components_text text) resolved⟩

theorem Disk.Erases.removed (erases : d.Erases d' (components path) f) (text : ∀ c ∈ path, c ≠ 0)
    (resolved : d.resolve sRoot (components path) = .ok f) :
    d.Removed d' path f (· ∈ d.owned f) where
  gone other text' inside := by
    obtain ⟨more, split⟩ := inside
    rw [erases.solid.fileOpen text', ← split,
      erases.resolve_gone more (components_text text) resolved]
    rfl
  kept other text' apart := by
    refine ⟨_, erases.wellFormed.solid.fileOpen text', ?_⟩
    rw [erases.solid.fileOpen text', erases.resolve_kept .root (components_text text') apart]
  size other g text' apart opens :=
    (erases.fields (erases.wellFormed.opened text' opens).2 apart).1
  bytes other g text' apart opens k below outside :=
    erases.byteAt (erases.wellFormed.opened text' opens).2 apart below outside
  free block before := (erases.free block).mpr (.inl before)
  gained block := by
    rw [erases.free]
    constructor
    · rintro ⟨before, same | mine⟩
      · rw [before] at same
        cases same
      · exact mine
    · intro mine
      exact ⟨(erases.wellFormed.blocks _ _ erases.there block mine).2.2, .inr mine⟩

/-- `file_remove` takes a file away, and what was below it, and frees the blocks of the file
itself. -/
theorem fileRemove_removed (wellFormed : d.WellFormed) (text : ∀ c ∈ path, c ≠ 0)
    (below : components path ≠ []) (opens : fileOpen path d = done f d) :
    ∃ d', fileRemove path d = some (0, d') ∧ d.Removed d' path f (· ∈ d.owned f) := by
  obtain ⟨resolved, there⟩ := wellFormed.opened text opens
  obtain ⟨walk, walked, result⟩ := wellFormed.solid.walkPath_result text
  rw [resolved] at result
  obtain ⟨mid, ran, emptied⟩ := (wellFormed.stored there below).held.fileTruncateBlocks
  refine ⟨_, ?_, (emptied.erases wellFormed there below).removed text resolved⟩
  rw [fileRemove, walked]
  cases walk with
  | found parent g =>
    cases result
    change (fileTruncateBlocks f 0 d).map _ = _
    rw [ran]
    rfl
  | missing => cases result
  | failed => cases result

end Remove

/-- A disk of eight blocks: the directory "a" in the root, and in it the file "b" of one byte. -/
def nestedDisk : Disk := fun addr =>
  if addr = super + 4 then 8
  else if addr = bitmap then 0xC0
  else if addr = sRoot then slash
  else if addr = fSizeAt sRoot + 1 then 16
  else if addr = fTypeAt sRoot then 1
  else if addr = fDirectAt sRoot 0 then 3
  else if addr = 3 * pgSize then 97
  else if addr = fSizeAt (3 * pgSize) + 1 then 16
  else if addr = fTypeAt (3 * pgSize) then 1
  else if addr = fDirectAt (3 * pgSize) 0 then 4
  else if addr = 4 * pgSize then 98
  else if addr = fSizeAt (4 * pgSize) then 1
  else if addr = fDirectAt (4 * pgSize) 0 then 5
  else 0

def pathA : Path := [slash, 97]
def pathB : Path := [slash, 97, slash, 98]

theorem nestedDisk_tree {path : List Path} {f : FilePtr} (there : nestedDisk.InTree path f) :
    f ∈ [sRoot, 3 * pgSize, 4 * pgSize] := by
  induction there with
  | root => exact List.mem_cons_self
  | entry _ directory member used ih =>
    have all : ∀ dir ∈ [sRoot, 3 * pgSize, 4 * pgSize], nestedDisk.fType dir = ftypeDir →
        ∀ f ∈ nestedDisk.entries dir, nestedDisk f ≠ 0 → f ∈ [sRoot, 3 * pgSize, 4 * pgSize] := by
      decide +kernel
    exact all _ ih directory _ member used

theorem nestedDisk_wellFormed : nestedDisk.WellFormed where
  dirs path dir there directory := by
    have whole : ∀ dir ∈ [sRoot, 3 * pgSize], nestedDisk.Whole dir (1 * pgSize) := by
      intro dir known
      have facts : ∀ dir ∈ [sRoot, 3 * pgSize],
          nestedDisk.fSize dir = BitVec.ofNat 32 (1 * pgSize) ∧ nestedDisk.blockAt dir 0 ≠ 0 ∧
            nestedDisk.blockAt dir 0 < nestedDisk.sNblocks := by decide +kernel
      obtain ⟨length, present, inside⟩ := facts dir known
      refine ⟨length, by decide, fun beyond => absurd beyond (by decide), fun bno here => ?_⟩
      obtain rfl : bno = 0 := by
        rw [pgSize_eq] at here
        omega
      exact ⟨present, inside⟩
    have only : ∀ dir ∈ [sRoot, 3 * pgSize, 4 * pgSize], nestedDisk.fType dir = ftypeDir →
        dir ∈ [sRoot, 3 * pgSize] := by decide +kernel
    exact ⟨1, whole dir (only dir (nestedDisk_tree there) directory)⟩
  legal path f there := by
    have all : ∀ f ∈ [sRoot, 3 * pgSize, 4 * pgSize], (nestedDisk.fSize f).toNat ≤ maxFileSize := by
      decide +kernel
    exact all f (nestedDisk_tree there)
  blocks path f there := by
    have all : ∀ f ∈ [sRoot, 3 * pgSize, 4 * pgSize], ∀ block ∈ nestedDisk.owned f,
        (block ≠ 0 ∧ block < nestedDisk.sNblocks) ∧ nestedDisk.bitmapEnd ≤ block * pgSize ∧
          nestedDisk.blockIsFree block = false := by decide +kernel
    exact all f (nestedDisk_tree there)
  once path f there := by
    have all : ∀ f ∈ [sRoot, 3 * pgSize, 4 * pgSize], (nestedDisk.owned f).Nodup := by decide +kernel
    exact all f (nestedDisk_tree there)
  apart path f path' g block there there' mine mine' := by
    have all : ∀ f ∈ [sRoot, 3 * pgSize, 4 * pgSize], ∀ g ∈ [sRoot, 3 * pgSize, 4 * pgSize],
        ∀ block ∈ nestedDisk.owned f, block ∈ nestedDisk.owned g → f = g := by decide +kernel
    exact all f (nestedDisk_tree there) g (nestedDisk_tree there') block mine mine'
  names path dir f g there directory member member' used used' _ := by
    have all : ∀ dir ∈ [sRoot, 3 * pgSize, 4 * pgSize], nestedDisk.fType dir = ftypeDir →
        ∀ f ∈ nestedDisk.entries dir, ∀ g ∈ nestedDisk.entries dir, nestedDisk f ≠ 0 →
          nestedDisk g ≠ 0 → f = g := by decide +kernel
    exact all dir (nestedDisk_tree there) directory f member g member' used used'

theorem nestedDisk_opens {path : Path} {f : FilePtr} (text : ∀ c ∈ path, c ≠ 0)
    (resolved : (nestedDisk.resolve sRoot (components path)).toOption = some f) :
    fileOpen path nestedDisk = done f nestedDisk := by
  rw [nestedDisk_wellFormed.solid.fileOpen text]
  cases same : nestedDisk.resolve sRoot (components path) with
  | ok g =>
    rw [same] at resolved
    cases resolved
    rfl
  | error r =>
    rw [same] at resolved
    cases resolved

/-- Removing "/a/b" gives back block 5. -/
theorem removed_nested : ∃ d', fileRemove pathB nestedDisk = some (0, d') ∧
    nestedDisk.Removed d' pathB (4 * pgSize) (· ∈ nestedDisk.owned (4 * pgSize)) ∧
      nestedDisk.owned (4 * pgSize) = [5] := by
  have opens : fileOpen pathB nestedDisk = done (4 * pgSize) nestedDisk :=
    nestedDisk_opens (by decide) (by decide +kernel)
  obtain ⟨d', ran, removed⟩ := fileRemove_removed nestedDisk_wellFormed (by decide) (by decide) opens
  exact ⟨d', ran, removed, by decide +kernel⟩

/-- The block of "/a/b" stays marked as used when "/a" is removed. -/
theorem not_removed_nested : ¬∀ (d d' : Disk) (path : Path) (f : FilePtr), d.WellFormed →
    (∀ c ∈ path, c ≠ 0) → components path ≠ [] → fileOpen path d = done f d →
    fileRemove path d = some (0, d') → d.Removed d' path f fun block =>
      ∃ below g, d.InTree (components path ++ below) g ∧ block ∈ d.owned g := by
  intro all
  have runs : ((fileRemove pathA nestedDisk).any fun out =>
      out.1 = 0 ∧ out.2.blockIsFree 5 = false) = true := by decide +kernel
  obtain ⟨⟨r, after⟩, ran, holds⟩ := (Option.any_eq_true _ _).mp runs
  obtain ⟨rfl, used⟩ := of_decide_eq_true holds
  have text : ∀ c ∈ pathA, c ≠ 0 := by decide
  have opensA : fileOpen pathA nestedDisk = done (3 * pgSize) nestedDisk :=
    nestedDisk_opens text (by decide +kernel)
  have opensB : fileOpen pathB nestedDisk = done (4 * pgSize) nestedDisk :=
    nestedDisk_opens (by decide) (by decide +kernel)
  have removed := all _ _ _ _ nestedDisk_wellFormed text (by decide) opensA ran
  have there := (nestedDisk_wellFormed.opened (by decide) opensB).2
  have gained := (removed.gained 5).mpr ⟨[[98]], 4 * pgSize, there, by decide +kernel⟩
  rw [used] at gained
  exact Bool.false_ne_true gained.2

end Fs

end Jos
