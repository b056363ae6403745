import Jos.Fs.Consistent
import Jos.Fs.Tree

/-! The file server reads back what fsformat wrote. -/

set_option autoImplicit false

namespace Jos

open Foundation Function

namespace Fs

open Disk

namespace Fsformat

section Whole

variable {nblocks : Nat} {memory d : Disk} {args : List Argument} {f start size : Nat}

theorem Run.whole (run : Run args f start size) (image : Image nblocks memory args d) :
    d.Whole f size := by
  obtain ⟨described, small, low, high⟩ := run.described image
  have bound := run.small image
  have fits := image.fits
  have grow : blocks size ≤ total size := Nat.le_add_right _ _
  refine ⟨described.length, Nat.le_of_lt small, fun many => ?_, fun bno inside => ?_⟩
  · have many : nDirect ≤ blocks size := by
      have ten : nDirect = 10 := rfl
      rw [ten, pgSize_eq] at many
      rw [ten, blocks]
      omega
    have whole : total size = blocks size + 1 := by rw [total, if_pos many]
    rw [Disk.OnDisk, described.indirect many, toNat_ofNat32 (by omega), image.count]
    omega
  · have inside : bno < blocks size := by
      rw [pgSize_eq] at inside
      rw [blocks]
      omega
    rw [Disk.OnDisk, described.blockAt bound inside, image.count]
    omega

theorem Run.contents (run : Run args f start size) (image : Image nblocks memory args d) {k : Nat}
    (inside : k < size) : d.contents f k = d (start * pgSize + k) := by
  have bound := run.small image
  have block : k / 4096 < blocks size := by
    rw [blocks]
    omega
  have place : (start + k / 4096) * 4096 + k % 4096 = start * 4096 + k := by omega
  rw [Disk.contents, pgSize_eq, (run.described image).1.blockAt bound block, place]

theorem Image.mem_entries (image : Image nblocks memory args d) {flag : Flag} {g : Nat} :
    g ∈ d.entries (fileOf args flag) ↔
      ∃ j < blkFiles * blocks (dirSize (countOf args flag)), g = entryAt args flag j := by
  have run : Run args _ _ _ := .dir flag
  obtain ⟨described, small, -, -⟩ := run.described image
  have bound := run.small image
  have length : blocksOf (d.fSize (fileOf args flag)) = blocks (dirSize (countOf args flag)) := by
    rw [described.length, blocksOf_ofNat (Nat.lt_trans small (by decide)), blocks, dirSize, pgSize_eq]
    omega
  have count : blkFiles = 16 := rfl
  have place : ∀ i k, i < blocks (dirSize (countOf args flag)) → k < 16 →
      fileAt (d.blockAt (fileOf args flag) i * pgSize) k = entryAt args flag (16 * i + k) := by
    intro i k inside few
    have bytes : fileSize = 256 := rfl
    have sum : (dirStart args flag + i) * 4096 + 256 * k =
        dirStart args flag * 4096 + 256 * (16 * i + k) := by omega
    rw [described.blockAt bound inside, fileAt, entryAt, bytes, pgSize_eq]
    exact sum
  simp only [Disk.entries, Disk.entriesFrom, length, List.mem_flatMap, List.mem_range'_1, List.mem_map,
    List.mem_range, count]
  constructor
  · rintro ⟨i, inside, k, few, rfl⟩
    exact ⟨16 * i + k, by omega, place i k (by omega) few⟩
  · rintro ⟨j, inside, rfl⟩
    refine ⟨j / 16, by omega, j % 16, Nat.mod_lt _ (by decide), ?_⟩
    rw [place _ _ (by omega) (Nat.mod_lt _ (by decide)), Nat.div_add_mod]

end Whole

theorem string_unique {mem : Disk} {f : Nat} {a b : Path} (left : ∀ k ≤ a.length, mem (f + k) = a.getD k 0)
    (right : ∀ k ≤ b.length, mem (f + k) = b.getD k 0) (text : ∀ c ∈ a, c ≠ 0)
    (text' : ∀ c ∈ b, c ≠ 0) : a = b := by
  have shorter : ∀ a b : Path, (∀ k ≤ a.length, mem (f + k) = a.getD k 0) →
      (∀ k ≤ b.length, mem (f + k) = b.getD k 0) → (∀ c ∈ b, c ≠ 0) → b.length ≤ a.length := by
    intro a b left right text
    by_contra longer
    have here := left a.length (Nat.le_refl _)
    rw [right a.length (by omega), List.getD_eq_getElem?_getD, List.getD_eq_getElem?_getD,
      List.getElem?_eq_none (Nat.le_refl _), List.getElem?_eq_getElem (by omega)] at here
    exact text _ (List.getElem_mem _) here
  have length : a.length = b.length :=
    Nat.le_antisymm (shorter b a right left text) (shorter a b left right text')
  refine List.ext_getElem length fun k inside inside' => ?_
  have here := left k (by omega)
  rw [right k (by omega), List.getD_eq_getElem?_getD, List.getD_eq_getElem?_getD,
    List.getElem?_eq_getElem inside, List.getElem?_eq_getElem inside'] at here
  exact here.symm

theorem nameIs_iff {d : Disk} {f : Nat} {name : Path} :
    d.nameIs f name = true ↔ ∀ k ≤ name.length, d (f + k) = name.getD k 0 := by
  simp only [Disk.nameIs, List.all_eq_true, List.mem_range, Nat.lt_succ_iff, decide_eq_true_eq]

/-- The names in a directory differ, those of the root from "bin" and "sbin" too. -/
structure Distinct (args : List Argument) : Prop where
  files : (assigned args .root).Pairwise fun a b => a.1 = b.1 → lastName a.2.name ≠ lastName b.2.name
  dirs : ∀ a ∈ assigned args .root, a.1 = .root →
    lastName a.2.name ≠ nameBin ∧ lastName a.2.name ≠ nameSbin

theorem base_text (e : Entry) : e.base ≠ [] ∧ ∀ c ∈ e.base, c ≠ 0 := by
  refine ⟨e.file.named, fun c member => e.file.text c ?_⟩
  have prefixed : c ∈ e.file.name.reverse.takeWhile (· ≠ slash) := List.mem_reverse.mp member
  exact List.mem_reverse.mp ((List.takeWhile_prefix _).subset prefixed)

section Lookup

variable {nblocks : Nat} {memory d : Disk} {args : List Argument}

theorem Distinct.entries (distinct : Distinct args) {a b : Entry} (left : a ∈ filesOf args)
    (right : b ∈ filesOf args) (dir : a.dir = b.dir) (base : a.base = b.base) : a = b := by
  have names : (filesOf args).Pairwise fun a b => a.dir = b.dir → a.base ≠ b.base := by
    have files := distinct.files
    rw [← layout_files (assigned args .root) firstSlot 3, List.pairwise_map] at files
    exact files
  have symmetric : Std.Symm fun a b : Entry => a.dir = b.dir → a.base ≠ b.base :=
    ⟨fun _ _ differ same => (differ same.symm).symm⟩
  by_contra other
  exact names.forall left right other dir base

theorem mem_assigned {e : Entry} (member : e ∈ filesOf args) :
    (e.dir, e.file) ∈ assigned args .root := by
  rw [← layout_files (assigned args .root) firstSlot 3]
  exact List.mem_map_of_mem member

section

variable (image : Image nblocks memory args d)

include image

theorem Image.file_nameIs {e : Entry} (member : e ∈ filesOf args)
    {name : Path} (text : ∀ c ∈ name, c ≠ 0) :
    d.nameIs (entryAt args e.dir e.slot) name = true ↔ name = e.base := by
  have stored := (image.files e member).name
  rw [nameIs_iff]
  constructor
  · exact fun named => string_unique named stored text (base_text e).2
  · rintro rfl
    exact stored

theorem Image.dir_nameIs {flag : Flag} (inner : flag ≠ .root)
    {name : Path} (text : ∀ c ∈ name, c ≠ 0) :
    d.nameIs (fileOf args flag) name = true ↔ name = dirName flag := by
  have stored := image.name flag inner
  have letters : ∀ c ∈ dirName flag, c ≠ 0 := by cases flag <;> decide
  rw [nameIs_iff]
  constructor
  · exact fun named => string_unique named stored text letters
  · rintro rfl
    exact stored

/-- The entries of a directory are its files, and in the root the two directories. -/
theorem Image.entry_cases {flag : Flag} {j : Nat} (below : j < countOf args flag) :
    (∃ e ∈ filesOf args, e.dir = flag ∧ e.slot = j) ∨
      (flag = .root ∧ ∃ inner, inner ≠ .root ∧ entryAt args .root j = fileOf args inner) := by
  by_cases first : firstSlot flag ≤ j
  · exact .inl ((image.slots flag j).mpr ⟨first, below⟩)
  · cases flag
    · have first : ¬2 ≤ j := first
      obtain rfl | rfl : j = 0 ∨ j = 1 := by omega
      · exact .inr ⟨rfl, .bin, by decide, rfl⟩
      · exact .inr ⟨rfl, .sbin, by decide, rfl⟩
    · exact absurd (Nat.zero_le j) first
    · exact absurd (Nat.zero_le j) first

/-- Looking a name up in a directory that is not empty finds an entry with the name, when
there is one. -/
theorem Image.dirLookup {flag : Flag}
    (some : 0 < countOf args flag) {name : Path} (nonempty : name ≠ []) (text : ∀ c ∈ name, c ≠ 0) :
    (∃ j < countOf args flag, d.nameIs (entryAt args flag j) name = true ∧
      dirLookup (fileOf args flag) name d = done (entryAt args flag j) d) ∨
    ((∀ j < countOf args flag, d.nameIs (entryAt args flag j) name = false) ∧
      dirLookup (fileOf args flag) name d = fail (-eNotFound) d) := by
  have run : Run args _ _ _ := .dir flag
  have whole := run.whole image
  have inside := entry_inside (countOf args flag)
  rw [dirSize] at whole
  rw [whole.dirLookup]
  obtain ⟨found, search⟩ : ∃ found, (d.entries (fileOf args flag)).find? (fun f => d.nameIs f name) =
      found := ⟨_, rfl⟩
  rw [search]
  cases found with
  | some g =>
    have named := List.find?_some search
    obtain ⟨j, low, rfl⟩ := image.mem_entries.mp (List.mem_of_find?_eq_some search)
    refine .inl ⟨j, ?_, named, rfl⟩
    by_contra beyond
    refine nameIs_ne_zero named nonempty text (image.empty flag _ ?_ ?_)
    · exact Nat.add_le_add_left (Nat.mul_le_mul_left fileSize (not_lt.mp beyond)) _
    · have count : blkFiles = 16 := rfl
      have bytes : fileSize = 256 := rfl
      rw [blocks_dirSize, Nat.max_eq_right (dirBlocks_pos some), count] at low
      rw [entryAt, Nat.add_mul, bytes, pgSize_eq]
      omega
  | none =>
    refine .inr ⟨fun j below => ?_, rfl⟩
    have absent := List.find?_eq_none.mp search (entryAt args flag j)
      (image.mem_entries.mpr ⟨j, by omega, rfl⟩)
    exact Bool.eq_false_iff.mpr absent

theorem Image.dirLookup_file (distinct : Distinct args) {e : Entry} (member : e ∈ filesOf args) :
    Disk.dirLookup (fileOf args e.dir) e.base d = done (entryAt args e.dir e.slot) d := by
  obtain ⟨nonempty, text⟩ := base_text e
  have below := ((image.slots e.dir e.slot).mp ⟨e, member, rfl, rfl⟩).2
  rcases image.dirLookup (Nat.lt_of_le_of_lt (Nat.zero_le _) below) nonempty text with
    ⟨j, inside, named, found⟩ | ⟨absent, -⟩
  · rcases image.entry_cases inside with ⟨e', member', dir, rfl⟩ | ⟨root, flag, inner, place⟩
    · rw [← dir] at named
      have base := (image.file_nameIs member' text).mp named
      rw [found, distinct.entries member' member dir base.symm]
    · rw [root, place] at named
      have base := (image.dir_nameIs inner text).mp named
      have other := distinct.dirs _ (mem_assigned member) root
      cases flag
      · exact absurd rfl inner
      · exact absurd base other.1
      · exact absurd base other.2
  · have other := absent e.slot below
    exact absurd ((image.file_nameIs member text).mpr rfl) (Bool.eq_false_iff.mp other)

theorem Image.dirLookup_dir (distinct : Distinct args) {flag : Flag} (inner : flag ≠ .root) :
    Disk.dirLookup sRoot (dirName flag) d = done (fileOf args flag) d := by
  have two : 2 ≤ countOf args .root := Nat.le_add_right _ _
  have nonempty : dirName flag ≠ [] := by cases flag <;> decide
  have text : ∀ c ∈ dirName flag, c ≠ 0 := by cases flag <;> decide
  have here := (image.dir_nameIs inner text).mpr rfl
  have some : 0 < countOf args .root := by omega
  rcases image.dirLookup some nonempty text with
    ⟨j, inside, named, found⟩ | ⟨absent, -⟩
  · rcases image.entry_cases inside with ⟨e, member, dir, rfl⟩ | ⟨-, flag', inner', place⟩
    · rw [← dir] at named
      have base := (image.file_nameIs member text).mp named
      have other := distinct.dirs _ (mem_assigned member) dir
      cases flag
      · exact absurd rfl inner
      · exact absurd base.symm other.1
      · exact absurd base.symm other.2
    · rw [place] at named found
      have name := (image.dir_nameIs inner' text).mp named
      have same : flag = flag' := by
        cases flag <;> cases flag' <;> first
          | rfl
          | exact absurd name (by decide)
      subst same
      exact found
  · cases flag
    · exact absurd rfl inner
    · have other := absent 0 (by omega)
      exact absurd here (Bool.eq_false_iff.mp other)
    · have other := absent 1 (by omega)
      exact absurd here (Bool.eq_false_iff.mp other)

end

end Lookup

section Walk

variable {d : Disk} {dir : Option FilePtr} {f next : FilePtr} {name : Path} {rest : List Path}

theorem walkNames_step (short : name.length < maxNameLen) (type : d.fType f = ftypeDir)
    (found : Disk.dirLookup f name d = done next d) :
    walkNames dir f (name :: rest) d = walkNames (some f) next rest d := by
  rw [walkNames, if_neg (not_le.mpr short), if_neg (not_not.mpr type), found]
  rfl

def Lost (walk : Walk) : Prop :=
  walk = .failed (-eBadPath) ∨ walk = .failed (-eNotFound) ∨ ∃ dir name, walk = .missing dir name

theorem walkNames_file (type : d.fType f ≠ ftypeDir) :
    ∃ walk, walkNames dir f (name :: rest) d = some (walk, d) ∧ Lost walk := by
  rw [walkNames]
  split
  · exact ⟨_, rfl, .inl rfl⟩
  · exact ⟨_, rfl, .inr (.inl rfl)⟩

theorem walkNames_absent (type : d.fType f = ftypeDir)
    (absent : Disk.dirLookup f name d = fail (-eNotFound) d) :
    ∃ walk, walkNames dir f (name :: rest) d = some (walk, d) ∧ Lost walk := by
  rw [walkNames]
  split
  · exact ⟨_, rfl, .inl rfl⟩
  · rw [if_neg (not_not.mpr type), absent]
    simp only [fail, Option.bind_some]
    split
    · exact ⟨_, rfl, .inr (.inr ⟨_, _, rfl⟩)⟩
    · exact ⟨_, rfl, .inr (.inl rfl)⟩

theorem walkNames_long (long : maxNameLen ≤ name.length) :
    ∃ walk, walkNames dir f (name :: rest) d = some (walk, d) ∧ Lost walk := by
  rw [walkNames, if_pos long]
  exact ⟨_, rfl, .inl rfl⟩

theorem fileOpen_found {path : Path} (walked : walkNames none sRoot (components path) d =
    some (.found dir f, d)) : fileOpen path d = done f d := by
  rw [Disk.fileOpen, walkPath_eq, walked]
  rfl

theorem fileOpen_lost {path : Path} {walk : Walk} (lost : Lost walk)
    (walked : walkNames none sRoot (components path) d = some (walk, d)) :
    fileOpen path d = fail (-eNotFound) d ∨ fileOpen path d = fail (-eBadPath) d := by
  rw [Disk.fileOpen, walkPath_eq, walked]
  rcases lost with rfl | rfl | ⟨parent, last, rfl⟩
  · exact .inr rfl
  · exact .inl rfl
  · exact .inl rfl

end Walk

def namesOf (flag : Flag) (base : Path) : List Path :=
  match flag with
  | .root => [base]
  | .bin => [nameBin, base]
  | .sbin => [nameSbin, base]

/-- The paths, as names, of the directories and of the files that the arguments name. -/
def Known (args : List Argument) (names : List Path) : Prop :=
  names = [] ∨ names = [nameBin] ∨ names = [nameSbin] ∨
    ∃ a ∈ assigned args .root, names = namesOf a.1 (lastName a.2.name)

section RoundTrip

variable {nblocks : Nat} {memory d : Disk} {args : List Argument}

theorem Image.fileOpen (image : Image nblocks memory args d) (distinct : Distinct args) {e : Entry}
    (member : e ∈ filesOf args) {path : Path} (names : components path = namesOf e.dir e.base) :
    Disk.fileOpen path d = done (entryAt args e.dir e.slot) d := by
  have short := (image.files e member).short
  have root : d.fType sRoot = ftypeDir := image.type .root
  have last := image.dirLookup_file distinct member
  have inner : ∀ flag, flag ≠ .root → e.dir = flag → (dirName flag).length < maxNameLen →
      walkNames none sRoot [dirName flag, e.base] d =
        some (.found (some (fileOf args flag)) (entryAt args e.dir e.slot), d) := by
    intro flag differ dir length
    rw [walkNames_step length root (image.dirLookup_dir distinct differ)]
    rw [dir] at last ⊢
    rw [walkNames_step short (image.type flag) last]
    rfl
  suffices walked : walkNames none sRoot (components path) d =
      some (.found (some (fileOf args e.dir)) (entryAt args e.dir e.slot), d) from fileOpen_found walked
  rw [names]
  obtain ⟨flag, dir⟩ : ∃ flag, e.dir = flag := ⟨_, rfl⟩
  rw [dir] at last ⊢
  cases flag
  · have last : Disk.dirLookup sRoot e.base d = done (entryAt args .root e.slot) d := last
    change walkNames none sRoot [e.base] d = _
    rw [walkNames_step short root last]
    rfl
  · have walked := inner .bin (by decide) dir (by decide)
    rw [dir] at walked
    exact walked
  · have walked := inner .sbin (by decide) dir (by decide)
    rw [dir] at walked
    exact walked

theorem Image.fileRead (image : Image nblocks memory args d) {e : Entry} (member : e ∈ filesOf args)
    (buf : Bytes) : (d.fSize (entryAt args e.dir e.slot)).toNat = e.size ∧
      Disk.fileRead (entryAt args e.dir e.slot) buf e.size 0 d =
        some ((e.size : Int), fun k => if k < e.size then e.file.contents.getD k 0 else buf k, d) := by
  have run := Run.file member
  have whole := run.whole image
  have small := whole.small
  have read : Disk.fileRead (entryAt args e.dir e.slot) buf e.size (BitVec.ofNat 32 0) d =
      some (((min e.size (e.size - 0) : Nat) : Int),
        d.readInto (entryAt args e.dir e.slot) 0 (min e.size (e.size - 0)) 0 buf, d) :=
    whole.fileRead (by decide) (by omega)
  refine ⟨run.blocks_fSize image, ?_⟩
  rw [Nat.sub_zero, Nat.min_self] at read
  refine read.trans ?_
  congr 3
  funext k
  rw [Disk.readInto]
  by_cases inside : k < e.size
  · rw [if_pos ⟨Nat.zero_le k, inside⟩, if_pos inside, Nat.zero_add, run.contents image inside]
    exact (image.files e member).contents k inside
  · rw [if_neg (fun both => inside both.2), if_neg inside]

theorem Image.lost (image : Image nblocks memory args d) (filled : Filled args) {names : List Path}
    (text : ∀ name ∈ names, name ≠ [] ∧ ∀ c ∈ name, c ≠ 0) (unknown : ¬Known args names) :
    ∃ walk, walkNames none sRoot names d = some (walk, d) ∧ Lost walk := by
  have two : 2 ≤ countOf args .root := Nat.le_add_right _ _
  have root : d.fType sRoot = ftypeDir := image.type .root
  have regular : ∀ e ∈ filesOf args, d.fType (entryAt args e.dir e.slot) ≠ ftypeDir := by
    intro e member directory
    rw [(image.files e member).type] at directory
    exact absurd directory (by decide)
  cases names with
  | nil => exact absurd (.inl rfl) unknown
  | cons first rest =>
    obtain ⟨nonempty, letters⟩ := text first List.mem_cons_self
    by_cases long : maxNameLen ≤ first.length
    · exact walkNames_long long
    · have some : 0 < countOf args .root := by omega
      rcases image.dirLookup some nonempty letters with
        ⟨j, inside, named, found⟩ | ⟨-, absent⟩
      · rw [walkNames_step (not_le.mp long) root found]
        rcases image.entry_cases inside with ⟨e, member, dir, rfl⟩ | ⟨-, flag, inner, place⟩
        · rw [← dir] at named ⊢
          have base := (image.file_nameIs member letters).mp named
          cases rest with
          | nil =>
            refine absurd (.inr (.inr (.inr ⟨_, mem_assigned member, ?_⟩))) unknown
            rw [base, dir]
            rfl
          | cons second rest => exact walkNames_file (regular e member)
        · rw [place] at named ⊢
          have name := (image.dir_nameIs inner letters).mp named
          cases rest with
          | nil =>
            refine absurd ?_ unknown
            rw [name]
            cases flag
            · exact absurd rfl inner
            · exact .inr (.inl rfl)
            · exact .inr (.inr (.inl rfl))
          | cons second rest =>
            obtain ⟨nonempty', letters'⟩ := text second (by simp)
            have some : 0 < countOf args flag := by
              cases flag
              · exact absurd rfl inner
              · exact filled.1
              · exact filled.2
            by_cases long' : maxNameLen ≤ second.length
            · exact walkNames_long long'
            · rcases image.dirLookup some nonempty' letters' with
                ⟨j', inside', named', found'⟩ | ⟨-, absent'⟩
              · rw [walkNames_step (not_le.mp long') (image.type flag) found']
                rcases image.entry_cases inside' with ⟨e, member, dir, rfl⟩ | ⟨other, -⟩
                · rw [← dir] at named' ⊢
                  have base := (image.file_nameIs member letters').mp named'
                  cases rest with
                  | nil =>
                    refine absurd (.inr (.inr (.inr ⟨_, mem_assigned member, ?_⟩))) unknown
                    rw [name, base, dir]
                    cases flag
                    · exact absurd rfl inner
                    · rfl
                    · rfl
                  | cons third rest => exact walkNames_file (regular e member)
                · exact absurd other inner
              · exact walkNames_absent (image.type flag) absent'
      · exact walkNames_absent root absent

/-- What fsformat wrote, `file_open` finds and `file_read` reads back, and nothing else is
found. -/
theorem round_trip
    (short : ∀ a ∈ assigned args .root, (lastName a.2.name).length < maxNameLen)
    (distinct : Distinct args) (filled : Filled args) (ran : main nblocks args memory = some d) :
    (∀ a ∈ assigned args .root, ∀ path, components path = namesOf a.1 (lastName a.2.name) →
      ∃ f, Disk.fileOpen path d = done f d ∧ (d.fSize f).toNat = a.2.contents.length ∧
        ∀ buf, Disk.fileRead f buf a.2.contents.length 0 d =
          some ((a.2.contents.length : Int),
            fun k => if k < a.2.contents.length then a.2.contents.getD k 0 else buf k, d)) ∧
    ∀ path : Path, (∀ c ∈ path, c ≠ 0) → ¬Known args (components path) →
      Disk.fileOpen path d = fail (-eNotFound) d ∨ Disk.fileOpen path d = fail (-eBadPath) d := by
  have image := image short ran
  constructor
  · intro a member path names
    obtain ⟨e, entry, rfl⟩ : ∃ e ∈ filesOf args, (e.dir, e.file) = a := by
      rw [← layout_files (assigned args .root) firstSlot 3] at member
      exact List.mem_map.mp member
    exact ⟨_, image.fileOpen distinct entry names, (image.fileRead entry fun _ => 0).1,
      fun buf => (image.fileRead entry buf).2⟩
  · intro path text unknown
    obtain ⟨walk, walked, lost⟩ := image.lost filled (fun name member =>
      ⟨(mem_components member).1, fun c inside => text c ((mem_components member).2 c inside)⟩) unknown
    exact fileOpen_lost lost walked

end RoundTrip

/-- After -b a -sb a the path /bin/a leads to the byte of a, and the path a to nothing. -/
theorem round_trip_a : ∃ d, main 16 [dashB, fileA, dashSb, fileA] (fun _ => 0) = some d ∧
    (∃ f, Disk.fileOpen ([slash] ++ nameBin ++ [slash, letter 'a']) d = done f d ∧
      (d.fSize f).toNat = 1 ∧ ∀ buf, Disk.fileRead f buf 1 0 d =
        some (1, fun k => if k < 1 then fileA.contents.getD k 0 else buf k, d)) ∧
    (Disk.fileOpen [letter 'a'] d = fail (-eNotFound) d ∨
      Disk.fileOpen [letter 'a'] d = fail (-eBadPath) d) := by
  have runs : (main 16 [dashB, fileA, dashSb, fileA] fun _ => 0).isSome = true := by decide +kernel
  obtain ⟨d, ran⟩ := Option.isSome_iff_exists.mp runs
  have distinct : Distinct [dashB, fileA, dashSb, fileA] := ⟨by decide +kernel, by decide +kernel⟩
  have filled : Filled [dashB, fileA, dashSb, fileA] := ⟨by decide +kernel, by decide +kernel⟩
  obtain ⟨found, lost⟩ := round_trip (by decide +kernel) distinct filled ran
  have files : assigned [dashB, fileA, dashSb, fileA] .root = [(.bin, fileA), (.sbin, fileA)] := rfl
  refine ⟨d, ran, found (.bin, fileA) (files ▸ List.mem_cons_self) _ (by decide +kernel), lost _ (by decide) ?_⟩
  rintro (none | none | none | ⟨a, member, same⟩)
  · exact absurd none (by decide +kernel)
  · exact absurd none (by decide +kernel)
  · exact absurd none (by decide +kernel)
  · have other : ∀ a ∈ assigned [dashB, fileA, dashSb, fileA] .root,
        components [letter 'a'] ≠ namesOf a.1 (lastName a.2.name) := by decide +kernel
    exact absurd same (other a member)

end Fsformat

end Fs

end Jos
