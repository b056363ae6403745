import Jos.Fs.Remove

/-! `walk_path` against the tree of directories. -/

set_option autoImplicit false

namespace Jos

open Foundation Function

namespace Fs

open Disk

/-- The directories of the tree have all of their blocks, and the names in each are
terminated and differ. -/
structure Disk.Named (d : Disk) : Prop where
  dirs : ∀ path dir, d.InTree path dir → d.fType dir = ftypeDir → ∃ n, d.Whole dir (n * pgSize)
  short : ∀ path f, d.InTree path f → path ≠ [] → (d.fName f).length < maxNameLen
  names : ∀ path dir f g, d.InTree path dir → d.fType dir = ftypeDir → f ∈ d.entries dir →
    g ∈ d.entries dir → d f ≠ 0 → d g ≠ 0 → d.fName f = d.fName g → f = g

structure Disk.Child (d : Disk) (dir : FilePtr) (name : Path) (f : FilePtr) : Prop where
  directory : d.fType dir = ftypeDir
  member : f ∈ d.entries dir
  used : d f ≠ 0
  named : d.fName f = name

/-- Names lead from a file to another one, and to the directory in which that is. -/
def Disk.Follows (d : Disk) : Option FilePtr → FilePtr → List Path → Option FilePtr → FilePtr → Prop
  | parent, f, [], dir, g => dir = parent ∧ g = f
  | _, f, name :: rest, dir, g => ∃ next, d.Child f name next ∧ d.Follows (some f) next rest dir g

def Disk.ReachesLong (d : Disk) (f : FilePtr) (names : List Path) : Prop :=
  ∃ before name after, names = before ++ name :: after ∧
    (∃ dir g, d.Follows none f before dir g) ∧ maxNameLen ≤ name.length

/-- Only the last of the names is missing, in a directory that is there. -/
def Disk.LacksLast (d : Disk) (f : FilePtr) (names : List Path) (dir : FilePtr) (last : Path) : Prop :=
  ∃ before, names = before ++ [last] ∧ (∃ parent, d.Follows none f before parent dir) ∧
    d.fType dir = ftypeDir ∧ last.length < maxNameLen ∧ ∀ g, ¬d.Child dir last g

section Steps

variable {d : Disk} {f dir next : FilePtr} {name last : Path} {names rest path : List Path}

theorem follows_any {parent dir' : Option FilePtr} {g : FilePtr} (parent' : Option FilePtr)
    (follows : d.Follows parent f names dir' g) : ∃ dir', d.Follows parent' f names dir' g := by
  cases names with
  | nil => exact ⟨parent', rfl, follows.2⟩
  | cons name rest => exact ⟨dir', follows⟩

theorem Disk.Child.inTree (child : d.Child f name next) (there : d.InTree path f) :
    d.InTree (path ++ [name]) next := by
  rw [← child.named]
  exact .entry there child.directory child.member child.used

theorem Disk.Child.functional (named : d.Named) (there : d.InTree path f) {other : FilePtr}
    (child : d.Child f name next) (child' : d.Child f name other) : next = other :=
  named.names _ _ _ _ there child.directory child.member child'.member child.used child'.used
    (child.named.trans child'.named.symm)

theorem Disk.Child.short (named : d.Named) (there : d.InTree path f) (child : d.Child f name next) :
    name.length < maxNameLen := by
  have limit := named.short _ _ (child.inTree there) (by simp)
  rw [child.named] at limit
  exact limit

/-- A name that is terminated is one that `strcmp` finds equal. -/
theorem nameIs_fName (short : (d.fName f).length < fileSize) : d.nameIs f (d.fName f) = true := by
  obtain ⟨bytes, same⟩ : ∃ bytes, bytes = (List.range fileSize).map fun k => d (f + k) := ⟨_, rfl⟩
  have length : bytes.length = fileSize := by
    rw [same, List.length_map, List.length_range]
  have stored : ∀ k < fileSize, bytes.getD k 0 = d (f + k) := by
    intro k inside
    simp [same, inside]
  obtain ⟨front, named⟩ : ∃ front, front = d.fName f := ⟨_, rfl⟩
  obtain ⟨rest, split⟩ : ∃ rest, bytes = front ++ 0 :: rest := by
    have whole : front ++ bytes.dropWhile (· ≠ 0) = bytes := by
      rw [named, Disk.fName, ← same]
      exact List.takeWhile_append_dropWhile
    cases left : bytes.dropWhile (· ≠ 0) with
    | nil =>
      rw [left, List.append_nil] at whole
      rw [← named, whole, length] at short
      exact absurd short (lt_irrefl _)
    | cons c rest =>
      have head := List.head?_dropWhile_not (fun c => decide (c ≠ (0 : BitVec 8))) bytes
      rw [left] at head
      have null : c = 0 := by simpa using head
      rw [left, null] at whole
      exact ⟨rest, whole.symm⟩
  rw [← named] at short ⊢
  simp only [Disk.nameIs, List.all_eq_true, List.mem_range, Nat.lt_succ_iff, decide_eq_true_eq]
  intro k inside
  rw [← stored k (Nat.lt_of_le_of_lt inside short), split, List.getD_eq_getElem?_getD,
    List.getD_eq_getElem?_getD]
  rcases Nat.lt_or_eq_of_le inside with before | rfl
  · rw [List.getElem?_append_left before]
  · rw [List.getElem?_append_right (Nat.le_refl _), Nat.sub_self,
      List.getElem?_eq_none (Nat.le_refl _)]
    rfl

theorem child_iff (named : d.Named) (there : d.InTree path f) (directory : d.fType f = ftypeDir)
    (short : name.length < maxNameLen) (nonempty : name ≠ []) (text : ∀ c ∈ name, c ≠ 0) :
    (d.entries f).find? (fun e => d.nameIs e name) = some next ↔ d.Child f name next := by
  have limit : name.length < fileSize := Nat.lt_trans short (by decide)
  have sound : ∀ e, (d.entries f).find? (fun e => d.nameIs e name) = some e → d.Child f name e := by
    intro e found
    have same := List.find?_some found
    exact ⟨directory, List.mem_of_find?_eq_some found, nameIs_ne_zero same nonempty text,
      fName_eq same text limit⟩
  refine ⟨sound next, fun child => ?_⟩
  have same : d.nameIs next name = true := by
    have own : (d.fName next).length < fileSize := by
      rw [child.named]
      exact limit
    have equal := nameIs_fName own
    rw [child.named] at equal
    exact equal
  cases found : (d.entries f).find? fun e => d.nameIs e name with
  | none => exact absurd same (List.find?_eq_none.mp found next child.member)
  | some e => rw [(sound e found).functional named there child]

theorem reachesLong_cons :
    d.ReachesLong f (name :: rest) ↔
      maxNameLen ≤ name.length ∨ ∃ next, d.Child f name next ∧ d.ReachesLong next rest := by
  constructor
  · rintro ⟨before, long, after, split, ⟨dir, g, follows⟩, length⟩
    cases before with
    | nil =>
      obtain ⟨rfl, -⟩ := List.cons.inj split
      exact .inl length
    | cons first before =>
      obtain ⟨rfl, rfl⟩ := List.cons.inj split
      obtain ⟨next, child, follows⟩ := follows
      obtain ⟨dir, follows⟩ := follows_any none follows
      exact .inr ⟨next, child, before, long, after, rfl, ⟨dir, g, follows⟩, length⟩
  · rintro (long | ⟨next, child, before, long, after, rfl, ⟨dir, g, follows⟩, length⟩)
    · exact ⟨[], name, rest, rfl, ⟨none, f, rfl, rfl⟩, long⟩
    · obtain ⟨dir, follows⟩ := follows_any (some f) follows
      exact ⟨name :: before, long, after, rfl, ⟨dir, g, next, child, follows⟩, length⟩

theorem not_reachesLong_nil : ¬d.ReachesLong f [] := by
  rintro ⟨before, name, after, split, -⟩
  exact absurd split.symm (by simp)

theorem lacksLast_cons :
    d.LacksLast f (name :: rest) dir last ↔
      (rest = [] ∧ dir = f ∧ last = name ∧ d.fType f = ftypeDir ∧ name.length < maxNameLen ∧
        ∀ g, ¬d.Child f name g) ∨
      ∃ next, d.Child f name next ∧ d.LacksLast next rest dir last := by
  constructor
  · rintro ⟨before, split, ⟨parent, follows⟩, directory, short, missing⟩
    cases before with
    | nil =>
      obtain ⟨rfl, rfl⟩ := List.cons.inj split
      obtain ⟨-, rfl⟩ := follows
      exact .inl ⟨rfl, rfl, rfl, directory, short, missing⟩
    | cons first before =>
      obtain ⟨rfl, rfl⟩ := List.cons.inj split
      obtain ⟨next, child, follows⟩ := follows
      obtain ⟨parent, follows⟩ := follows_any none follows
      exact .inr ⟨next, child, before, rfl, ⟨parent, follows⟩, directory, short, missing⟩
  · rintro (⟨rfl, rfl, rfl, directory, short, missing⟩ |
      ⟨next, child, before, rfl, ⟨parent, follows⟩, directory, short, missing⟩)
    · exact ⟨[], rfl, ⟨none, rfl, rfl⟩, directory, short, missing⟩
    · obtain ⟨parent, follows⟩ := follows_any (some f) follows
      exact ⟨name :: before, rfl, ⟨parent, next, child, follows⟩, directory, short, missing⟩

theorem not_lacksLast_nil : ¬d.LacksLast f [] dir last := by
  rintro ⟨before, split, -⟩
  exact absurd split.symm (by simp)

end Steps

structure Disk.Walks (d : Disk) (parent : Option FilePtr) (f : FilePtr) (names : List Path)
    (walk : Walk) : Prop where
  found : ∀ dir g, walk = .found dir g ↔ d.Follows parent f names dir g
  long : walk = .failed (-eBadPath) ↔ d.ReachesLong f names
  missing : ∀ dir last, walk = .missing dir last ↔ d.LacksLast f names dir last
  failed : ∀ r, walk = .failed r → r = -eBadPath ∨ r = -eNotFound

section Walks

variable {d : Disk} {f dir next : FilePtr} {parent : Option FilePtr} {name last : Path}
  {names rest path : List Path} {walk : Walk}

theorem walks_nil : d.Walks parent f [] (.found parent f) where
  found dir g := by
    constructor
    · rintro ⟨⟩
      exact ⟨rfl, rfl⟩
    · rintro ⟨rfl, rfl⟩
      rfl
  long := ⟨nofun, fun long => absurd long not_reachesLong_nil⟩
  missing dir last := ⟨nofun, fun lacks => absurd lacks not_lacksLast_nil⟩
  failed := nofun

theorem walks_long (named : d.Named) (there : d.InTree path f) (long : maxNameLen ≤ name.length) :
    d.Walks parent f (name :: rest) (.failed (-eBadPath)) := by
  have no : ∀ next, ¬d.Child f name next := fun next child =>
    absurd (child.short named there) (not_lt.mpr long)
  refine ⟨fun dir g => ⟨nofun, ?_⟩, ⟨fun _ => reachesLong_cons.mpr (.inl long), fun _ => rfl⟩,
    fun dir last => ⟨nofun, fun lacks => ?_⟩, ?_⟩
  · rintro ⟨next, child, -⟩
    exact absurd child (no next)
  · rcases lacksLast_cons.mp lacks with ⟨-, -, -, -, short, -⟩ | ⟨next, child, -⟩
    · exact absurd short (not_lt.mpr long)
    · exact absurd child (no next)
  · rintro r ⟨⟩
    exact .inl rfl

theorem walks_absent (short : name.length < maxNameLen) (no : ∀ next, ¬d.Child f name next)
    (early : rest ≠ [] ∨ d.fType f ≠ ftypeDir) :
    d.Walks parent f (name :: rest) (.failed (-eNotFound)) := by
  refine ⟨fun dir g => ⟨nofun, ?_⟩, ⟨fun same => ?_, fun long => ?_⟩,
    fun dir last => ⟨nofun, fun lacks => ?_⟩, ?_⟩
  · rintro ⟨next, child, -⟩
    exact absurd child (no next)
  · exact absurd (Walk.failed.inj same) (by decide)
  · rcases reachesLong_cons.mp long with long | ⟨next, child, -⟩
    · exact absurd short (not_lt.mpr long)
    · exact absurd child (no next)
  · rcases lacksLast_cons.mp lacks with ⟨none, -, -, directory, -⟩ | ⟨next, child, -⟩
    · exact (early.elim (fun more => more none) fun other => other directory).elim
    · exact absurd child (no next)
  · rintro r ⟨⟩
    exact .inr rfl

theorem walks_missing (short : name.length < maxNameLen) (directory : d.fType f = ftypeDir)
    (no : ∀ next, ¬d.Child f name next) : d.Walks parent f [name] (.missing f name) := by
  refine ⟨fun dir g => ⟨nofun, ?_⟩, ⟨nofun, fun long => ?_⟩, fun dir last => ⟨?_, fun lacks => ?_⟩,
    nofun⟩
  · rintro ⟨next, child, -⟩
    exact absurd child (no next)
  · rcases reachesLong_cons.mp long with long | ⟨next, child, -⟩
    · exact absurd short (not_lt.mpr long)
    · exact absurd child (no next)
  · rintro ⟨⟩
    exact lacksLast_cons.mpr (.inl ⟨rfl, rfl, rfl, directory, short, no⟩)
  · rcases lacksLast_cons.mp lacks with ⟨-, rfl, rfl, -⟩ | ⟨next, child, -⟩
    · rfl
    · exact absurd child (no next)

theorem walks_next (named : d.Named) (there : d.InTree path f) (child : d.Child f name next)
    (walks : d.Walks (some f) next rest walk) : d.Walks parent f (name :: rest) walk := by
  have only : ∀ {other}, d.Child f name other → other = next := fun child' =>
    child'.functional named there child
  refine ⟨fun dir g => (walks.found dir g).trans ⟨fun follows => ⟨next, child, follows⟩, ?_⟩,
    walks.long.trans ⟨fun long => reachesLong_cons.mpr (.inr ⟨next, child, long⟩), fun long => ?_⟩,
    fun dir last => (walks.missing dir last).trans
      ⟨fun lacks => lacksLast_cons.mpr (.inr ⟨next, child, lacks⟩), fun lacks => ?_⟩, walks.failed⟩
  · rintro ⟨other, child', follows⟩
    rw [← only child']
    exact follows
  · rcases reachesLong_cons.mp long with long | ⟨other, child', long⟩
    · exact absurd (child.short named there) (not_lt.mpr long)
    · rw [← only child']
      exact long
  · rcases lacksLast_cons.mp lacks with ⟨-, -, -, -, -, no⟩ | ⟨other, child', lacks⟩
    · exact absurd child (no next)
    · rw [← only child']
      exact lacks

theorem Disk.Named.walkNames (named : d.Named) (there : d.InTree path f)
    (text : ∀ name ∈ names, name ≠ [] ∧ ∀ c ∈ name, c ≠ 0) :
    ∃ walk, Fs.walkNames parent f names d = some (walk, d) ∧ d.Walks parent f names walk := by
  induction names generalizing parent f path with
  | nil => exact ⟨_, rfl, walks_nil⟩
  | cons name rest ih =>
    rw [Fs.walkNames]
    by_cases long : maxNameLen ≤ name.length
    · rw [if_pos long]
      exact ⟨_, rfl, walks_long named there long⟩
    · have short := not_le.mp long
      rw [if_neg long]
      by_cases plain : d.fType f ≠ ftypeDir
      · rw [if_pos plain]
        exact ⟨_, rfl, walks_absent short (fun _ child => plain child.directory) (.inr plain)⟩
      · have directory := not_not.mp plain
        obtain ⟨nonempty, letters⟩ := text name List.mem_cons_self
        have children {next : FilePtr} :
            (d.entries f).find? (fun e => d.nameIs e name) = some next ↔ d.Child f name next :=
          child_iff named there directory short nonempty letters
        obtain ⟨n, whole⟩ := named.dirs path f there directory
        rw [if_neg plain, whole.dirLookup]
        cases found : (d.entries f).find? fun e => d.nameIs e name with
        | none =>
          have no : ∀ next, ¬d.Child f name next := by
            intro next child
            rw [children.mpr child] at found
            cases found
          dsimp only [fail, Option.bind_some]
          by_cases last : rest = []
          · subst last
            exact ⟨_, rfl, walks_missing short directory no⟩
          · rw [if_neg fun both => last both.2]
            exact ⟨_, rfl, walks_absent short no (.inl last)⟩
        | some next =>
          have child := children.mp found
          obtain ⟨walk, ran, walks⟩ := ih (child.inTree there) fun later member =>
            text later (List.mem_cons_of_mem _ member)
          exact ⟨walk, ran, walks_next named there child walks⟩

end Walks

/-- What `walk_path` returns. -/
def Disk.Walk.code : Walk → Int
  | .found _ _ => 0
  | .missing _ _ => -eNotFound
  | .failed r => r

/-- `walk_path` follows the names of a path from the root: it finds the file and its directory
if all names are there, fails with `-E_BAD_PATH` if a name that it reaches is too long, and
fails with `-E_NOT_FOUND` if not, with the directory and the last name if that alone is
missing. -/
theorem walkPath_resolves {d : Disk} (named : d.Named) {path : Path} (text : ∀ c ∈ path, c ≠ 0) :
    ∃ walk, walkPath path d = some (walk, d) ∧
      (∀ dir f, walk = .found dir f ↔ d.Follows none sRoot (components path) dir f) ∧
      (walk.code = 0 ↔ ∃ dir f, d.Follows none sRoot (components path) dir f) ∧
      (walk.code = -eBadPath ↔ d.ReachesLong sRoot (components path)) ∧
      (walk.code = -eNotFound ↔ ¬(∃ dir f, d.Follows none sRoot (components path) dir f) ∧
        ¬d.ReachesLong sRoot (components path)) ∧
      ∀ dir last, walk = .missing dir last ↔ d.LacksLast sRoot (components path) dir last := by
  rw [walkPath_eq]
  obtain ⟨walk, ran, walks⟩ := named.walkNames .root (components_text text)
  refine ⟨walk, ran, walks.found, ?_⟩
  rw [← walks.long]
  simp only [← walks.found]
  have bad : -eBadPath ≠ 0 := by decide
  have absent : -eNotFound ≠ 0 := by decide
  have apart : -eNotFound ≠ -eBadPath := by decide
  cases walk with
  | found dir f => simp [Walk.code, bad.symm, absent.symm, walks.missing]
  | missing dir last => simp [Walk.code, absent, apart, ← walks.missing]
  | failed r =>
    rcases walks.failed r rfl with rfl | rfl
    · simp [Walk.code, bad, apart.symm, ← walks.missing]
    · simp [Walk.code, absent, apart, ← walks.missing]

theorem nestedDisk_named : nestedDisk.Named where
  dirs := nestedDisk_wellFormed.dirs
  short path f there more := by
    have all : ∀ f ∈ [sRoot, 3 * pgSize, 4 * pgSize], (nestedDisk.fName f).length < maxNameLen := by
      decide +kernel
    exact all f (nestedDisk_tree there)
  names := nestedDisk_wellFormed.names

/-- "/a/b" is found in the directory "a". -/
theorem walkPath_nested :
    walkPath pathB nestedDisk = some (.found (some (3 * pgSize)) (4 * pgSize), nestedDisk) := by
  obtain ⟨walk, ran, found, -⟩ := walkPath_resolves nestedDisk_named (show ∀ c ∈ pathB, c ≠ 0 by decide)
  have outer : nestedDisk.Child sRoot [97] (3 * pgSize) :=
    ⟨by decide +kernel, by decide +kernel, by decide +kernel, by decide +kernel⟩
  have inner : nestedDisk.Child (3 * pgSize) [98] (4 * pgSize) :=
    ⟨by decide +kernel, by decide +kernel, by decide +kernel, by decide +kernel⟩
  have same : walk = .found (some (3 * pgSize)) (4 * pgSize) :=
    (found _ _).mpr ⟨_, outer, _, inner, rfl, rfl⟩
  rw [ran, same]

end Fs

end Jos
