import Jos.Fs.Grow

/-! What `file_create` adds to a file system. -/

set_option autoImplicit false

namespace Jos

open Foundation Function

namespace Fs

open Disk

section Missing

variable {d : Disk} {f dir : FilePtr} {path names : List Path} {name : Path}

/-- Where only the last name of a path is missing, the others lead to a directory without it. -/
theorem Disk.Solid.walkNames_missing (solid : d.Solid) {parent : Option FilePtr}
    (there : d.InTree path f) (text : ∀ name ∈ names, name ≠ [] ∧ ∀ c ∈ name, c ≠ 0)
    (ran : Fs.walkNames parent f names d = some (.missing dir name, d)) :
    ∃ before, names = before ++ [name] ∧ d.resolve f before = .ok dir ∧ d.fType dir = ftypeDir ∧
      name.length < maxNameLen ∧ ∀ e ∈ d.entries dir, d.nameIs e name = false := by
  induction names generalizing parent f path with
  | nil => cases ran
  | cons first rest ih =>
    rw [Fs.walkNames] at ran
    by_cases long : maxNameLen ≤ first.length
    · rw [if_pos long] at ran
      cases ran
    · rw [if_neg long] at ran
      by_cases other : d.fType f ≠ ftypeDir
      · rw [if_pos other] at ran
        cases ran
      · rw [if_neg other] at ran
        have directory : d.fType f = ftypeDir := not_not.mp other
        obtain ⟨n, whole⟩ := solid.dirs path f there directory
        rw [whole.dirLookup] at ran
        cases found : (d.entries f).find? fun e => d.nameIs e first with
        | none =>
          rw [found] at ran
          simp only [fail, Option.bind_some, true_and] at ran
          by_cases last : rest = []
          · rw [if_pos last] at ran
            cases ran
            refine ⟨[], by rw [last]; rfl, rfl, directory, not_le.mp long, fun e member => ?_⟩
            exact Bool.eq_false_iff.mpr (List.find?_eq_none.mp found e member)
          · rw [if_neg last] at ran
            cases ran
        | some next =>
          rw [found] at ran
          simp only [done, Option.bind_some] at ran
          have child := there.found directory (text first List.mem_cons_self) found
          obtain ⟨before, split, resolved, rest⟩ :=
            ih child (fun later member => text later (List.mem_cons_of_mem _ member)) ran
          refine ⟨first :: before, by rw [split]; rfl, ?_, rest⟩
          rw [Disk.resolve, if_neg long, if_neg other, found]
          exact resolved

end Missing

/-- The bytes that may differ when a file is made: those of the bitmap, of the name, and of a
directory that is longer. -/
def Disk.Altered (d d' : Disk) (dir f addr : Nat) : Prop :=
  (bitmap ≤ addr ∧ addr < d.bitmapEnd) ∨ (f ≤ addr ∧ addr < f + 128) ∨
    (d'.fSize dir ≠ d.fSize dir ∧ dir + 128 ≤ addr ∧ addr < dir + 256) ∨
    (d'.fIndirect dir ≠ 0 ∧ (d'.fIndirect dir).toNat * 4096 ≤ addr ∧
      addr < (d'.fIndirect dir).toNat * 4096 + 4096)

def Disk.Home (d : Disk) (dir f : Nat) : Prop :=
  ∃ block j, f = block * 4096 + 256 * j ∧ j < 16 ∧
    (block ∈ d.dataBlocks dir ∧ d f = 0 ∨ d.blockIsFree block = true)

/-- An empty entry of a directory, perhaps of a new block, gets a name. -/
structure Disk.Makes (d d' : Disk) (names : List Path) (name : Path) (dir f : Nat) : Prop where
  wellFormed : d.WellFormed
  reserved : d.Reserved
  there : d.InTree names dir
  directory : d.fType dir = ftypeDir
  nonempty : name ≠ []
  text : ∀ c ∈ name, c ≠ 0
  short : name.length < maxNameLen
  missing : ∀ e ∈ d.entries dir, d.nameIs e name = false
  frame : ∀ addr, ¬d.Altered d' dir f addr → d' addr = d addr
  home : d.Home dir f
  pointers : d'.fIndirect dir ≠ 0 → d'.fIndirect dir = d.fIndirect dir ∨
    d.blockIsFree (d'.fIndirect dir).toNat = true
  typed : d'.fType dir = d.fType dir
  whole : ∃ m, d'.Whole dir (m * pgSize)
  old : ∀ bno < blocksFor (d.fSize dir),
    d'.present dir bno = true ∧ d'.blockAt dir bno = d.blockAt dir bno
  entries : ∃ extra, d'.entries dir = d.entries dir ++ extra ∧ ∀ e ∈ extra, e ≠ f → d' e = 0
  member : f ∈ d'.entries dir
  named : d'.nameIs f name = true
  regular : d'.fType f ≠ ftypeDir

section Makes

variable {d d' : Disk} {f g e h dir block bno addr : Nat} {path names more : List Path} {name : Path}

/-- The entry lies in a block behind the bitmap, in which no other file has bytes. -/
theorem Disk.Home.apart (home : d.Home dir f) (wellFormed : d.WellFormed) (reserved : d.Reserved)
    (there : d.InTree names dir) :
    ∃ block j, f = block * 4096 + 256 * j ∧ j < 16 ∧ d.bitmapEnd ≤ block * 4096 ∧
      ∀ path g, d.InTree path g → block ∈ d.owned g → d f = 0 ∧ g = dir ∧ block ∈ d.dataBlocks dir := by
  obtain ⟨block, j, place, few, home⟩ := home
  refine ⟨block, j, place, few, ?_⟩
  rcases home with ⟨inside, empty⟩ | free
  · refine ⟨(wellFormed.blocks _ _ there _ (mem_owned inside)).2.1, fun path g there' mine => ?_⟩
    exact ⟨empty, wellFormed.apart _ _ _ _ _ there' there mine (mem_owned inside), inside⟩
  · refine ⟨reserved block free, fun path g there' mine => ?_⟩
    have used := (wellFormed.blocks _ _ there' block mine).2.2
    rw [free] at used
    cases used

theorem Disk.Home.other (home : d.Home dir f) (wellFormed : d.WellFormed) (reserved : d.Reserved)
    (there : d.InTree names dir) (there' : d.InTree path g) : g + 256 ≤ f ∨ f + 256 ≤ g := by
  obtain ⟨block, j, place, few, behind, only⟩ := home.apart wellFormed reserved there
  have before := sRoot_before d
  have start := bitmapEnd_le d
  have first : bitmap = 8192 := rfl
  have root : (4104 : Nat) = sRoot := rfl
  cases there' with
  | root => omega
  | entry there' directory member used =>
    obtain ⟨block', inside, j', few', place'⟩ := wellFormed.entry there' directory member
    by_contra near
    have same : block' = block := by omega
    subst same
    have same : g = f := by omega
    subst same
    exact used (only _ _ there' (mem_owned inside)).1

theorem Disk.Home.pointers (home : d.Home dir f) (wellFormed : d.WellFormed) (reserved : d.Reserved)
    (there : d.InTree names dir) (there' : d.InTree path g) (filled : d.fIndirect g ≠ 0) :
    (d.fIndirect g).toNat * 4096 + 4096 ≤ f ∨ f + 256 ≤ (d.fIndirect g).toNat * 4096 := by
  obtain ⟨block, j, place, few, behind, only⟩ := home.apart wellFormed reserved there
  have differ : block ≠ (d.fIndirect g).toNat := by
    intro same
    have mine := mem_owned_indirect filled
    rw [← same] at mine
    obtain ⟨-, dirs, inside⟩ := only _ _ there' mine
    have once := wellFormed.once _ _ there'
    rw [Disk.owned, if_neg filled, dirs] at once
    rw [dirs] at same
    exact (List.nodup_append.mp once).2.2 _ inside _ List.mem_cons_self same
  omega

section

variable (makes : d.Makes d' names name dir f)

include makes

theorem Disk.Makes.apart :
    ∃ block j, f = block * 4096 + 256 * j ∧ j < 16 ∧ d.bitmapEnd ≤ block * 4096 ∧
      ∀ path g, d.InTree path g → block ∈ d.owned g → d f = 0 ∧ g = dir ∧ block ∈ d.dataBlocks dir :=
  makes.home.apart makes.wellFormed makes.reserved makes.there

section

variable (there : d.InTree path g)

include there

theorem Disk.Makes.other :
    g + 256 ≤ f ∨ f + 256 ≤ g := makes.home.other makes.wellFormed makes.reserved makes.there there

/-- The blocks of the files in the tree are not stored to, but for the indirect pointers of the
directory, the name, and records in other directories. -/
theorem Disk.Makes.inBlock (member : block ∈ d.owned g) (data : g = dir → block ∈ d.dataBlocks dir)
    (low : block * 4096 ≤ addr) (high : addr < block * 4096 + 4096)
    (offName : addr < f ∨ f + 128 ≤ addr)
    (offRecord : addr < dir + 128 ∨ dir + 256 ≤ addr ∨ d'.fSize dir = d.fSize dir) :
    d' addr = d addr := by
  refine makes.frame addr ?_
  have facts := makes.wellFormed.blocks _ _ there block member
  have behind := facts.2.1
  rw [pgSize_eq] at behind
  rintro (bits | inside | ⟨longer, record⟩ | ⟨filled, pointers⟩)
  · omega
  · omega
  · rcases offRecord with before | behind | kept
    · omega
    · omega
    · exact longer kept
  · have same : (d'.fIndirect dir).toNat = block := by omega
    rcases makes.pointers filled with kept | free
    · rw [kept] at same filled
      have mine := mem_owned_indirect filled
      rw [same] at mine
      have dirs := makes.wellFormed.apart _ _ _ _ _ there makes.there member mine
      have bare := makes.wellFormed.bare_indirect makes.there filled
      rw [same] at bare
      exact bare.2 _ _ makes.there makes.directory (data dirs)
    · rw [same, facts.2.2] at free
      cases free

theorem Disk.Makes.entry
    (directory : d.fType g = ftypeDir) (member : e ∈ d.entries g) (other : e ≠ f) (low : e ≤ addr)
    (high : addr < e + 256) (offRecord : e = dir → addr < dir + 128 ∨ d'.fSize dir = d.fSize dir) :
    d' addr = d addr := by
  obtain ⟨block, inside, j, few, place⟩ := makes.wellFormed.entry there directory member
  obtain ⟨block', j', place', few', -⟩ := makes.apart
  have behind := (makes.wellFormed.blocks _ _ there block (mem_owned inside)).2.1
  have start := bitmapEnd_le d
  have first : bitmap = 8192 := rfl
  have root : (4104 : Nat) = sRoot := rfl
  rw [pgSize_eq] at behind
  refine makes.inBlock there (mem_owned inside) (fun same => by rw [← same]; exact inside) (by omega)
    (by omega) (by omega) ?_
  by_cases same : e = dir
  · rcases offRecord same with before | kept
    · exact .inl before
    · exact .inr (.inr kept)
  · have apart : addr < dir + 128 ∨ dir + 256 ≤ addr := by
      cases makes.there with
      | root => omega
      | entry there' directory' member' =>
        obtain ⟨block', -, j', few', place'⟩ := makes.wellFormed.entry there' directory' member'
        omega
    exact apart.imp_right .inl

theorem Disk.Makes.record (low : g ≤ addr) (high : addr < g + 256)
    (offRecord : g = dir → addr < dir + 128 ∨ d'.fSize dir = d.fSize dir) : d' addr = d addr := by
  have other := makes.other there
  cases there with
  | root =>
    obtain ⟨block, j, place, few, behind, -⟩ := makes.apart
    have start := bitmapEnd_le d
    have first : bitmap = 8192 := rfl
    have root : (4104 : Nat) = sRoot := rfl
    refine makes.frame addr ?_
    rintro (bits | inside | ⟨longer, record⟩ | ⟨filled, pointers⟩)
    · omega
    · omega
    · have apart : sRoot ≠ dir := by
        intro same
        rcases offRecord same with before | kept
        · omega
        · exact longer kept
      have behind := (makes.wellFormed.solid.placed _ _ makes.there).resolve_left (Ne.symm apart)
      omega
    · rcases makes.pointers filled with kept | free
      · rw [kept] at filled pointers
        have behind := (makes.wellFormed.bare_indirect makes.there filled).1
        rw [pgSize_eq] at behind
        omega
      · have behind := makes.reserved _ free
        rw [pgSize_eq] at behind
        omega
  | entry there directory member =>
    exact makes.entry there directory member (by omega) low high offRecord

theorem Disk.Makes.fields (other : g ≠ dir) : d'.fSize g = d.fSize g ∧ d'.fType g = d.fType g ∧
      d'.fIndirect g = d.fIndirect g ∧ ∀ i < 10, d'.fDirect g i = d.fDirect g i :=
  fields_congr fun addr low high =>
    makes.record there (by omega) high fun same => absurd same other

theorem Disk.Makes.fType : d'.fType g = d.fType g := by
  by_cases same : g = dir
  · rw [same]
    exact makes.typed
  · exact (makes.fields there same).2.1

theorem Disk.Makes.slot (other : g ≠ dir) (slot : d.HasSlot g bno) :
    d'.word (d.slotAt g bno) = d.word (d.slotAt g bno) := by
  rcases slotAt_place slot with ⟨few, place⟩ | ⟨low, high, filled, place⟩
  · rw [place]
    exact (makes.fields there other).2.2.2 bno few
  · have mine := mem_owned_indirect filled
    have bare := makes.wellFormed.bare_indirect there filled
    have record := bare.record makes.wellFormed makes.there
    obtain ⟨block, j, place', few, -, only⟩ := makes.apart
    have differ : block ≠ (d.fIndirect g).toNat := by
      intro same
      rw [← same] at mine
      exact other (only _ _ there mine).2.1
    rw [place]
    refine word_congr fun k first last => ?_
    have begun := Nat.le_trans (Nat.le_add_right _ _) first
    have ended : k < (d.fIndirect g).toNat * 4096 + 4096 := by omega
    refine makes.inBlock there mine (fun same => absurd same other) begun ended ?_ ?_
    · omega
    · omega

theorem Disk.Makes.keeps (other : g ≠ dir) : d.KeepsFile d' g := by
  obtain ⟨size, type, indirect, -⟩ := makes.fields there other
  exact ⟨size, type, indirect, fun _ => makes.slot there other⟩

theorem Disk.Makes.present
    (below : bno < blocksFor (d.fSize g)) : d'.present g bno = d.present g bno ∧
      (d.present g bno = true → d'.blockAt g bno = d.blockAt g bno) := by
  by_cases same : g = dir
  · subst same
    obtain ⟨n, whole⟩ := makes.wellFormed.dirs _ _ there makes.directory
    have inside := below
    rw [whole.blocksFor] at inside
    rw [whole.present (Nat.mul_lt_mul_of_pos_right inside (by decide))]
    exact ⟨(makes.old bno below).1, fun _ => (makes.old bno below).2⟩
  · have keeps := makes.keeps there same
    have legal := makes.wellFormed.legal _ _ there
    have most : maxFileSize = 1034 * 4096 := rfl
    have slots : nDirect + nIndirect = 1034 := rfl
    have inside : bno < nDirect + nIndirect := by
      rw [blocksFor_eq legal] at below
      omega
    exact ⟨keeps.present inside, fun filled => keeps.blockAt ⟨inside, (present_iff.mp filled).1⟩⟩

/-- The bytes of another file are as they were, but for records in a directory. -/
theorem Disk.Makes.byteAt {k : Nat} (below : k < (d.fSize g).toNat) (offName : ¬d.InRecord g f k)
    (offRecord : d'.fSize dir = d.fSize dir ∨ ¬d.InRecord g dir k) : d'.byteAt g k = d.byteAt g k := by
  have legal := makes.wellFormed.legal _ _ there
  have count : blocksFor (d.fSize g) = _ := blocksFor_eq legal
  have length : fileSize = 256 := rfl
  have start := bitmapEnd_le d
  have first : bitmap = 8192 := rfl
  have root : (4104 : Nat) = sRoot := rfl
  have here : k / pgSize < blocksFor (d.fSize g) := by
    rw [pgSize_eq]
    omega
  obtain ⟨present, blockAt⟩ := makes.present there here
  unfold Disk.byteAt
  rw [present]
  by_cases filled : d.present g (k / pgSize) = true
  · rw [if_pos filled, if_pos filled, Disk.contents, Disk.contents, blockAt filled]
    have data := mem_dataBlocks.mpr ⟨_, here, filled, rfl⟩
    have mine := mem_owned data
    have behind := (makes.wellFormed.blocks _ _ there _ mine).2.1
    have rest : k % pgSize < 4096 := Nat.mod_lt k (by decide)
    obtain ⟨address, place⟩ : ∃ address, address = d.blockAt g (k / pgSize) * pgSize + k % pgSize :=
      ⟨_, rfl⟩
    obtain ⟨block, inBlock⟩ : ∃ block, block = d.blockAt g (k / pgSize) := ⟨_, rfl⟩
    rw [← inBlock] at data mine behind
    rw [← inBlock, pgSize_eq] at place
    rw [pgSize_eq] at behind rest
    unfold Disk.InRecord at offName offRecord
    rw [← inBlock, pgSize_eq, ← place, length] at offName offRecord
    rw [← inBlock, pgSize_eq, ← place]
    refine makes.inBlock there mine (fun same => by rw [← same]; exact data) (by omega) (by omega) ?_ ?_
    · by_contra inside
      obtain ⟨block', j, place', few, -, only⟩ := makes.apart
      have same : block' = block := by omega
      rw [same] at only
      have dirs := (only _ _ there mine).2.1
      exact offName ⟨by rw [dirs]; exact makes.directory, by omega, by omega⟩
    · by_contra inside
      obtain ⟨outside, longer⟩ : ¬(address < dir + 128 ∨ dir + 256 ≤ address) ∧
          d'.fSize dir ≠ d.fSize dir := by
        rw [← or_assoc, not_or] at inside
        exact inside
      refine offRecord.resolve_left longer ⟨?_, by omega, by omega⟩
      cases makes.there with
      | root => omega
      | entry there' directory' member' =>
        obtain ⟨block', inside', j, few, place'⟩ := makes.wellFormed.entry there' directory' member'
        have same : block' = block := by omega
        rw [same] at inside'
        rw [makes.wellFormed.apart _ _ _ _ _ there there' mine (mem_owned inside')]
        exact directory'
  · rw [if_neg filled, if_neg filled]

theorem Disk.Makes.entries_other
    (other : g ≠ dir) (directory : d.fType g = ftypeDir) : d'.entries g = d.entries g := by
  obtain ⟨n, whole⟩ := makes.wellFormed.dirs _ _ there directory
  exact (makes.keeps there other).entries whole

end

theorem Disk.Makes.sNblocks : d'.sNblocks = d.sNblocks := by
  have start := bitmapEnd_le d
  have first : bitmap = 8192 := rfl
  have second : super = 4096 := rfl
  have root : (4104 : Nat) = sRoot := rfl
  have same : ∀ k, super + 4 ≤ k → k < super + 4 + 4 → d' k = d k := by
    intro k low high
    refine makes.frame k ?_
    obtain ⟨block, j, place, few, behind, -⟩ := makes.apart
    rintro (bits | inside | ⟨-, record⟩ | ⟨filled, pointers⟩)
    · omega
    · omega
    · rcases makes.wellFormed.solid.placed _ _ makes.there with top | behind
      · rw [top, ← root] at record
        omega
      · omega
    · rcases makes.pointers filled with kept | free
      · rw [kept] at filled pointers
        have behind := (makes.wellFormed.bare_indirect makes.there filled).1
        rw [pgSize_eq] at behind
        omega
      · have behind := makes.reserved _ free
        rw [pgSize_eq] at behind
        omega
  rw [Disk.sNblocks, word_congr same]
  rfl

theorem Disk.Makes.dirs (there : d.InTree path g)
    (directory : d.fType g = ftypeDir) : ∃ n, d'.Whole g (n * pgSize) := by
  by_cases same : g = dir
  · rw [same]
    exact makes.whole
  · obtain ⟨n, whole⟩ := makes.wellFormed.dirs _ _ there directory
    exact ⟨n, (makes.keeps there same).whole makes.sNblocks whole⟩

/-- The entries of a directory are those that it had, and empty ones but for the new one. -/
theorem Disk.Makes.mem_entries (there : d.InTree path g)
    (directory : d.fType g = ftypeDir) (member : e ∈ d'.entries g) :
    e ∈ d.entries g ∨ e = f ∨ d' e = 0 := by
  by_cases same : g = dir
  · subst same
    obtain ⟨extra, split, empty⟩ := makes.entries
    rw [split, List.mem_append] at member
    refine member.imp_right fun later => ?_
    by_cases new : e = f
    · exact .inl new
    · exact .inr (empty e later new)
  · rw [makes.entries_other there same directory] at member
    exact .inl member

theorem Disk.Makes.inTree (there' : d'.InTree path g) : (∃ path, d.InTree path g) ∨ g = f := by
  induction there' with
  | root => exact .inl ⟨[], .root⟩
  | @entry path g e parent directory member used ih =>
    rcases ih with ⟨path, there⟩ | rfl
    · rw [makes.fType there] at directory
      rcases makes.mem_entries there directory member with old | new | empty
      · by_cases same : e = f
        · exact .inr same
        · have first := makes.entry there directory old same (Nat.le_refl e) (by omega)
            fun same => .inl (by omega)
          rw [first] at used
          exact .inl ⟨_, .entry there directory old used⟩
      · exact .inr new
      · exact absurd empty used
    · exact absurd directory makes.regular

theorem Disk.Makes.solid : d'.Solid where
  dirs path g there' directory := by
    rcases makes.inTree there' with ⟨path, there⟩ | rfl
    · rw [makes.fType there] at directory
      exact makes.dirs there directory
    · exact absurd directory makes.regular
  placed path g there' := by
    unfold Disk.Placed
    rw [bitmapEnd_congr makes.sNblocks]
    rcases makes.inTree there' with ⟨path, there⟩ | rfl
    · exact makes.wellFormed.solid.placed _ _ there
    · obtain ⟨block, j, place, few, behind, -⟩ := makes.apart
      exact .inr (by omega)

theorem Disk.Makes.nameIs (there : d.InTree path g)
    (directory : d.fType g = ftypeDir) (member : e ∈ d.entries g) (other : e ≠ f) {last : Path}
    (short : last.length < maxNameLen) : d'.nameIs e last = d.nameIs e last := by
  have limit : maxNameLen = 128 := rfl
  refine nameIs_congr fun k few => ?_
  exact makes.entry there directory member other (Nat.le_add_right _ _) (by omega)
    fun same => .inl (by omega)

theorem Disk.Makes.find_name : ((d'.entries dir).find? fun e => d'.nameIs e name) = some f := by
  cases found : (d'.entries dir).find? fun e => d'.nameIs e name with
  | none => exact absurd makes.named (List.find?_eq_none.mp found f makes.member)
  | some e =>
    have named := List.find?_some found
    by_contra differ
    have other : e ≠ f := fun same => differ (by rw [same])
    rcases makes.mem_entries makes.there makes.directory (List.mem_of_find?_eq_some found) with
      old | new | empty
    · rw [makes.nameIs makes.there makes.directory old other makes.short,
        makes.missing e old] at named
      cases named
    · exact other new
    · exact nameIs_ne_zero named makes.nonempty makes.text empty

theorem Disk.Makes.find_other (there : d.InTree path g)
    (directory : d.fType g = ftypeDir) {last : Path} (short : last.length < maxNameLen)
    (nonempty : last ≠ []) (text : ∀ c ∈ last, c ≠ 0) (apart : ¬(g = dir ∧ last = name)) :
    ((d'.entries g).find? fun e => d'.nameIs e last) =
      (d.entries g).find? fun e => d.nameIs e last := by
  have each : ∀ e ∈ d.entries g, d'.nameIs e last = d.nameIs e last := by
    intro e member
    by_cases same : e = f
    · subst same
      obtain ⟨block, j, place, few, behind, only⟩ := makes.apart
      obtain ⟨block', inside, j', few', place'⟩ := makes.wellFormed.entry there directory member
      have blocks : block' = block := by omega
      rw [blocks] at inside
      obtain ⟨empty, dirs, -⟩ := only _ _ there (mem_owned inside)
      have limit : maxNameLen < fileSize := by decide
      have after : d'.nameIs e last = false := by
        refine Bool.eq_false_iff.mpr fun named => apart ⟨dirs, ?_⟩
        rw [← fName_eq named text (Nat.lt_trans short limit),
          fName_eq makes.named makes.text (Nat.lt_trans makes.short limit)]
      have before : d.nameIs e last = false :=
        Bool.eq_false_iff.mpr fun named => nameIs_ne_zero named nonempty text empty
      rw [after, before]
    · exact makes.nameIs there directory member same short
  by_cases same : g = dir
  · subst same
    obtain ⟨extra, split, empty⟩ := makes.entries
    have none : extra.find? (fun e => d'.nameIs e last) = none := by
      refine List.find?_eq_none.mpr fun e member named => ?_
      by_cases new : e = f
      · subst new
        have limit : maxNameLen < fileSize := by decide
        refine apart ⟨rfl, ?_⟩
        rw [← fName_eq named text (Nat.lt_trans short limit),
          fName_eq makes.named makes.text (Nat.lt_trans makes.short limit)]
      · exact nameIs_ne_zero named nonempty text (empty e member new)
    rw [split, List.find?_append, none, Option.or_none]
    exact List.find?_congr each
  · rw [makes.entries_other there same directory]
    exact List.find?_congr each

theorem Disk.Makes.resolve_other (there : d.InTree path g)
    (text : ∀ name ∈ more, name ≠ [] ∧ ∀ c ∈ name, c ≠ 0) (apart : path ++ more ≠ names ++ [name]) :
    d'.resolve g more = .ok h ↔ d.resolve g more = .ok h := by
  induction more generalizing g path with
  | nil => exact Iff.rfl
  | cons last rest ih =>
    rw [Disk.resolve, Disk.resolve, makes.fType there]
    by_cases long : maxNameLen ≤ last.length
    · rw [if_pos long, if_pos long]
    · rw [if_neg long, if_neg long]
      by_cases plain : d.fType g ≠ ftypeDir
      · rw [if_pos plain, if_pos plain]
      · obtain ⟨nonempty, letters⟩ := text last List.mem_cons_self
        have directory : d.fType g = ftypeDir := not_not.mp plain
        rw [if_neg plain, if_neg plain]
        by_cases here : g = dir ∧ last = name
        · obtain ⟨rfl, rfl⟩ := here
          have missing : ((d.entries g).find? fun e => d.nameIs e last) = none :=
            List.find?_eq_none.mpr fun e member => Bool.eq_false_iff.mp (makes.missing e member)
          rw [makes.find_name, missing]
          have paths := makes.wellFormed.unique there makes.there
          cases rest with
          | nil => exact absurd (by rw [paths]) apart
          | cons next rest =>
            dsimp only
            rw [Disk.resolve]
            by_cases long : maxNameLen ≤ next.length
            · rw [if_pos long]
              exact ⟨by simp, by simp⟩
            · rw [if_neg long, if_pos makes.regular]
        · rw [makes.find_other there directory (not_le.mp long) nonempty letters here]
          cases found : (d.entries g).find? fun e => d.nameIs e last with
          | none => exact Iff.rfl
          | some next =>
            have named := List.find?_some found
            have used := nameIs_ne_zero named nonempty letters
            have child := InTree.entry there directory (List.mem_of_find?_eq_some found) used
            have limit : maxNameLen < fileSize := by decide
            rw [fName_eq named letters (Nat.lt_trans (not_le.mp long) limit)] at child
            refine ih child (fun later member => text later (List.mem_cons_of_mem _ member)) ?_
            rw [List.append_assoc]
            exact apart

theorem Disk.Makes.resolve_new (text : ∀ name ∈ names, name ≠ [] ∧ ∀ c ∈ name, c ≠ 0)
    (resolved : d.resolve sRoot names = .ok dir) : d'.resolve sRoot (names ++ [name]) = .ok f := by
  have parent : d'.resolve sRoot names = .ok dir := by
    refine (makes.resolve_other .root text fun same => ?_).mpr resolved
    have length := congrArg List.length same
    simp at length
  rw [resolve_append, parent]
  change d'.resolve dir [name] = .ok f
  rw [Disk.resolve, if_neg (not_le.mpr makes.short), makes.typed,
    if_neg (not_not.mpr makes.directory), makes.find_name]
  rfl

end

end Makes

section Elsewhere

variable {d d' : Disk} {f g : Nat}

/-- A file with its record and its pointers outside of 128 bytes that are stored to. -/
theorem keeps_elsewhere (frame : ∀ addr, addr < f ∨ f + 128 ≤ addr → d' addr = d addr)
    (record : g + 256 ≤ f ∨ f + 256 ≤ g)
    (pointers : d.fIndirect g ≠ 0 → (d.fIndirect g).toNat * 4096 + 4096 ≤ f ∨
      f + 256 ≤ (d.fIndirect g).toNat * 4096) : d.KeepsFile d' g := by
  obtain ⟨size, type, indirect, direct⟩ :=
    fields_congr (g := g) fun addr low high => frame addr (by omega)
  refine ⟨size, type, indirect, fun bno slot => ?_⟩
  rcases slotAt_place slot with ⟨few, place⟩ | ⟨low, high, filled, place⟩
  · rw [place]
    exact direct bno few
  · have outside := pointers filled
    obtain ⟨block, number⟩ : ∃ block, (d.fIndirect g).toNat = block := ⟨_, rfl⟩
    rw [number] at outside place
    rw [place]
    exact word_congr fun k first last => frame k (by omega)

end Elsewhere

def Disk.Blank (d : Disk) (f : FilePtr) : Prop :=
  d.fType f = ftypeReg ∧ d.fSize f = 0 ∧ (∀ i < nDirect, d.fDirect f i = 0) ∧ d.fIndirect f = 0

def Disk.Cleared (d : Disk) (block : Nat) : Prop :=
  d.Blank (fileAt (block * pgSize) 0) ∧ ∀ j < blkFiles, 0 < j → d (fileAt (block * pgSize) j) = 0

/-- The first empty entry of a directory is blank, or the block that is appended to it is clear. -/
inductive Disk.Fresh (d : Disk) (dir : FilePtr) : Prop where
  | entry {f : FilePtr} : (d.entries dir).find? (fun e => d e = 0) = some f → d.Blank f → Fresh d dir
  | block {block : Nat} {taken : List Nat} : (d.entries dir).find? (fun e => d e = 0) = none →
      d.Appends dir (blocksOf (d.fSize dir)) block taken → d.Cleared block → Fresh d dir

/-- A new file is in an empty entry of its directory, or is the only one in a block that was
free and is now the last of the directory. -/
inductive Disk.Placement (d d' : Disk) (dir f : FilePtr) : Prop where
  | entry : d'.fSize dir = d.fSize dir → d'.entries dir = d.entries dir → f ∈ d.entries dir →
      d f = 0 → Placement d d' dir f
  | block {block : Nat} : d'.fSize dir = d.fSize dir + BitVec.ofNat 32 pgSize →
      d'.entries dir = d.entries dir ++ (List.range blkFiles).map (fileAt (block * pgSize)) →
      f = fileAt (block * pgSize) 0 → d.blockIsFree block = true → d'.blockIsFree block = false →
      block ≠ (d'.fIndirect dir).toNat →
      (∀ j < blkFiles, 0 < j → d' (fileAt (block * pgSize) j) = 0) → Placement d d' dir f

section Build

variable {d d' : Disk} {f dir block n : Nat} {names : List Path} {name : Path} {taken : List Nat}

theorem setName_frame (short : name.length < maxNameLen) :
    ∀ addr, addr < f ∨ f + 128 ≤ addr → d.setName f name addr = d addr := by
  have limit : maxNameLen = 128 := rfl
  exact fun addr outside => setName_other (by omega)

theorem setName_named : Disk.nameIs (d.setName f name) f name = true := by
  simp only [Disk.nameIs, List.all_eq_true, List.mem_range, Nat.lt_succ_iff, decide_eq_true_eq]
  exact fun k inside => setName_here inside

theorem blank_congr (same : ∀ addr, f + 128 ≤ addr → addr < f + 256 → d' addr = d addr) :
    d'.Blank f ↔ d.Blank f := by
  obtain ⟨size, type, indirect, direct⟩ := fields_congr same
  unfold Disk.Blank
  rw [size, type, indirect]
  refine and_congr_right' (and_congr_right' (and_congr_left' (forall₂_congr fun i few => ?_)))
  rw [direct i few]

theorem makes_entry (wellFormed : d.WellFormed) (reserved : d.Reserved) (there : d.InTree names dir)
    (directory : d.fType dir = ftypeDir) (nonempty : name ≠ []) (text : ∀ c ∈ name, c ≠ 0)
    (short : name.length < maxNameLen) (missing : ∀ e ∈ d.entries dir, d.nameIs e name = false)
    (found : (d.entries dir).find? (fun e => d e = 0) = some f) (blank : d.Blank f) :
    d.Makes (d.setName f name) names name dir f ∧ d.Placement (d.setName f name) dir f := by
  obtain ⟨n, whole⟩ := wellFormed.dirs _ _ there directory
  have member := List.mem_of_find?_eq_some found
  have empty : d f = 0 := by simpa using List.find?_some found
  obtain ⟨block, inside, j, few, place⟩ := wellFormed.entry there directory member
  have home : d.Home dir f := ⟨block, j, place, few, .inl ⟨inside, empty⟩⟩
  have frame := setName_frame (d := d) (f := f) short
  have record := home.other wellFormed reserved there there
  have pointers := home.pointers wellFormed reserved there there
  obtain ⟨block', j', place', few', behind, -⟩ := home.apart wellFormed reserved there
  have start := bitmapEnd_le d
  have count := sNblocks_congr fun addr low => frame addr (.inl (by omega))
  have keeps := keeps_elsewhere frame record pointers
  have entries := keeps.entries whole
  refine ⟨⟨wellFormed, reserved, there, directory, nonempty, text, short, missing,
    fun addr outside => frame addr ?_, home, fun _ => .inl keeps.indirect, keeps.type,
    ⟨n, keeps.whole count whole⟩,
    fun bno below => ?_, ⟨[], by rw [entries, List.append_nil], nofun⟩, by rw [entries]; exact member,
    setName_named, ?_⟩, .entry keeps.size entries member empty⟩
  · by_contra inside
    exact outside (.inr (.inl (by omega)))
  · rw [whole.blocksFor] at below
    have here : bno * pgSize < n * pgSize := Nat.mul_lt_mul_of_pos_right below (by decide)
    rw [keeps.present (whole.inRange here), whole.present here, keeps.blockAt (whole.hasSlot here)]
    exact ⟨rfl, rfl⟩
  · rw [((blank_congr fun addr low _ => frame addr (.inr low)).mpr blank).1]
    decide

theorem Disk.Longer.size_ne {middle : Disk} (longer : d.Longer middle names dir n block taken) :
    middle.fSize dir ≠ d.fSize dir := by
  have page : BitVec.ofNat 32 pgSize ≠ 0 := by decide
  rw [longer.grown.size]
  exact fun same => page (BitVec.self_eq_add_right.mp same.symm)

theorem makes_block {middle : Disk} (longer : d.Longer middle names dir n block taken)
    (directory : d.fType dir = ftypeDir) (nonempty : name ≠ []) (text : ∀ c ∈ name, c ≠ 0)
    (short : name.length < maxNameLen) (missing : ∀ e ∈ d.entries dir, d.nameIs e name = false)
    (start : f = block * 4096) (cleared : d.Cleared block) :
    d.Makes (middle.setName f name) names name dir f ∧ d.Placement (middle.setName f name) dir f := by
  have sizeAt : fSizeAt dir = dir + 128 := rfl
  have indirectAt : fIndirectAt dir = dir + 176 := rfl
  have slots : nDirect + nIndirect = 1034 := rfl
  have legal := longer.grown.inside
  have free := (longer.grown.takes.were block longer.member).2
  have home : d.Home dir f :=
    ⟨block, 0, by rw [start, Nat.mul_zero, Nat.add_zero], by decide, .inr free⟩
  have frame := setName_frame (d := middle) (f := f) short
  have record := home.other longer.wellFormed longer.reserved longer.there longer.there
  have behind := longer.bare.1
  have low := bitmapEnd_le d
  rw [pgSize_eq] at behind
  have pointers : middle.fIndirect dir ≠ 0 →
      (middle.fIndirect dir).toNat * 4096 + 4096 ≤ f ∨
        f + 256 ≤ (middle.fIndirect dir).toNat * 4096 := by
    intro filled
    rcases longer.grown.indirect with ⟨-, same⟩ | ⟨-, -, first, -, differ, number⟩
    · rw [same] at filled ⊢
      exact home.pointers longer.wellFormed longer.reserved longer.there longer.there filled
    · omega
  have count := sNblocks_congr fun addr low => frame addr (.inl (by omega))
  have keeps := keeps_elsewhere frame record pointers
  have whole := longer.wholeAfter
  have entries := keeps.entries whole
  rw [longer.entries] at entries
  have empty : ∀ j < blkFiles, 0 < j → Disk.setName middle f name (fileAt (block * pgSize) j) = 0 := by
    intro j few later
    have inside : j < 16 := few
    have place : fileAt (block * pgSize) j = block * 4096 + 256 * j := rfl
    have zero := cleared.2 j few later
    rw [place] at zero ⊢
    have same : middle (block * 4096 + 256 * j) = d (block * 4096 + 256 * j) :=
      longer.appended (by omega) (by omega)
    rw [frame (block * 4096 + 256 * j) (by omega), same, zero]
  refine ⟨⟨longer.wellFormed, longer.reserved, longer.there, directory, nonempty, text, short, missing,
    fun addr outside => ?_, home, fun filled => ?_, keeps.type.trans longer.fType,
    ⟨_, keeps.whole count whole⟩,
    fun bno below => ?_, ⟨_, entries, fun e member other => ?_⟩, ?_, setName_named, ?_⟩,
    .block (keeps.size.trans longer.grown.size) entries (by rw [start, fileAt_first]) free ?_ ?_ empty⟩
  · unfold Disk.Altered at outside
    rw [keeps.size, keeps.indirect] at outside
    have longerSize := longer.size_ne
    simp only [not_or, not_and] at outside
    obtain ⟨bits, label, fields, block'⟩ := outside
    rw [frame addr (by omega)]
    refine longer.grown.frame addr ?_ ?_ ?_ ?_
    · omega
    · have fields := fields longerSize
      omega
    · have fields := fields longerSize
      omega
    · rcases longer.slot with ⟨few, place⟩ | ⟨many, filled, first, number, place, -⟩
      · have fields := fields longerSize
        omega
      · have block' := block' filled
        rw [number] at block'
        omega
  · rw [keeps.indirect] at filled ⊢
    rcases longer.grown.indirect with ⟨-, same⟩ | ⟨-, -, first, rfl, -, number⟩
    · exact .inl same
    · rw [number]
      exact .inr (longer.grown.takes.were first List.mem_cons_self).2
  · rw [longer.whole.blocksFor] at below
    have here : bno * pgSize < (n + 1) * pgSize :=
      Nat.mul_lt_mul_of_pos_right (Nat.lt_succ_of_lt below) (by decide)
    rw [keeps.present (whole.inRange here), whole.present here, keeps.blockAt (whole.hasSlot here),
      longer.old below]
    exact ⟨rfl, rfl⟩
  · obtain ⟨j, inside, rfl⟩ := List.mem_map.mp member
    refine empty j (List.mem_range.mp inside) (Nat.pos_of_ne_zero fun null => other ?_)
    rw [null, fileAt_first, start]
  · rw [entries, start, ← fileAt_first]
    exact List.mem_append_right _ (List.mem_map_of_mem (List.mem_range.mpr (by decide)))
  · have same : ∀ addr, f + 128 ≤ addr → addr < f + 256 → Disk.setName middle f name addr = d addr := by
      intro addr low high
      rw [frame addr (.inr low)]
      exact longer.appended (by omega) (by omega)
    have blank := cleared.1
    rw [fileAt_first, ← start] at blank
    rw [((blank_congr same).mpr blank).1]
    decide
  · have ends := bitmapEnd_congr longer.grown.takes.sNblocks
    rw [blockIsFree_congr fun addr low => frame addr (.inl (by omega)), longer.grown.takes.free,
      decide_eq_false (not_not.mpr longer.member), Bool.and_false]
  · rw [keeps.indirect]
    intro same
    by_cases filled : middle.fIndirect dir = 0
    · rw [filled] at same
      have zero : (0 : BitVec 32).toNat = 0 := rfl
      have first : bitmap = 8192 := rfl
      omega
    · have outside := pointers filled
      omega

end Build

/-- What a path that leads to a new file leaves as it was: where the other paths lead, and the
bytes there, but for the new record and that of a directory that is longer. -/
structure Disk.Created (d d' : Disk) (path : Path) (dir f : FilePtr) : Prop where
  resolves : fileOpen path d' = done f d'
  blank : d'.Blank f
  placement : d.Placement d' dir f
  kept : ∀ other g, (∀ c ∈ other, c ≠ 0) → components other ≠ components path →
    (fileOpen other d' = done g d' ↔ fileOpen other d = done g d)
  size : ∀ other g, (∀ c ∈ other, c ≠ 0) → fileOpen other d = done g d → g ≠ dir →
    d'.fSize g = d.fSize g
  bytes : ∀ other g, (∀ c ∈ other, c ≠ 0) → fileOpen other d = done g d →
    ∀ k < (d.fSize g).toNat, ¬d.InRecord g f k →
      (d'.fSize dir = d.fSize dir ∨ ¬d.InRecord g dir k) → d'.byteAt g k = d.byteAt g k

section Create

variable {d d' : Disk} {f dir block n : Nat} {path : Path} {names : List Path} {name : Path}
  {taken : List Nat}

theorem Disk.Solid.opens_iff (solid : d.Solid) (text : ∀ c ∈ path, c ≠ 0) :
    Disk.fileOpen path d = done f d ↔ d.resolve sRoot (components path) = .ok f := by
  rw [solid.fileOpen text]
  constructor
  · intro opens
    exact (Prod.mk.inj (Option.some.inj opens)).1
  · intro resolved
    rw [resolved]
    rfl

theorem Disk.Makes.created (makes : d.Makes d' names name dir f) (text : ∀ c ∈ path, c ≠ 0)
    (split : components path = names ++ [name]) (resolved : d.resolve sRoot names = .ok dir)
    (blank : d'.Blank f) (placement : d.Placement d' dir f) : d.Created d' path dir f where
  resolves := by
    have text' : ∀ name ∈ names, name ≠ [] ∧ ∀ c ∈ name, c ≠ 0 := fun last member =>
      components_text text last (by rw [split]; exact List.mem_append_left _ member)
    rw [makes.solid.opens_iff text, split]
    exact makes.resolve_new text' resolved
  blank := blank
  placement := placement
  kept other g text' differ := by
    rw [makes.solid.opens_iff text', makes.wellFormed.solid.opens_iff text']
    refine makes.resolve_other .root (components_text text') ?_
    rw [List.nil_append, ← split]
    exact differ
  size other g text' opens differ :=
    (makes.fields (makes.wellFormed.opened text' opens).2 differ).1
  bytes other g text' opens k below offName offRecord :=
    makes.byteAt (makes.wellFormed.opened text' opens).2 below offName offRecord

theorem fileFlush_eq (ran : fileFlush f d = some d') : d' = d := by
  obtain ⟨-, -, ran⟩ := Option.bind_eq_some_iff.mp ran
  split at ran
  · cases ran
    rfl
  · obtain ⟨-, -, rfl⟩ := Option.map_eq_some_iff.mp ran
    rfl

theorem Disk.Appends.functional {other : Nat} {taken' : List Nat}
    (appends : d.Appends dir n block taken)
    (appends' : d.Appends dir n other taken') : block = other := by
  cases appends with
  | reached near _ next =>
    cases appends' with
    | reached _ _ next' => exact Option.some.inj (next.symm.trans next')
    | indirect far absent => exact (near.elim (not_lt.mpr far) fun filled => filled absent).elim
  | indirect far absent first _ next =>
    cases appends' with
    | reached near => exact (near.elim (not_lt.mpr far) fun filled => filled absent).elim
    | indirect _ _ first' _ next' =>
      cases first.symm.trans first'
      exact Option.some.inj (next.symm.trans next')

theorem Disk.Appends.member (appends : d.Appends dir n block taken) : block ∈ taken := by
  cases appends with
  | reached => exact List.mem_cons_self
  | indirect => exact List.mem_cons_of_mem _ List.mem_cons_self

/-- A file in an empty entry is as it should be if and only if the entry was blank. -/
theorem created_entry (wellFormed : d.WellFormed) (reserved : d.Reserved) (there : d.InTree names dir)
    (directory : d.fType dir = ftypeDir) (short : name.length < maxNameLen)
    (missing : ∀ e ∈ d.entries dir, d.nameIs e name = false) (text : ∀ c ∈ path, c ≠ 0)
    (split : components path = names ++ [name]) (resolved : d.resolve sRoot names = .ok dir)
    (found : (d.entries dir).find? (fun e => d e = 0) = some f) :
    d.Created (d.setName f name) path dir f ↔ d.Fresh dir := by
  have frame := setName_frame (d := d) (f := f) short
  have same := blank_congr (d := d) (f := f) fun addr low _ => frame addr (.inr low)
  have empty : d f = 0 := by simpa using List.find?_some found
  constructor
  · intro created
    exact .entry found (same.mp created.blank)
  · intro fresh
    cases fresh with
    | entry found' blank =>
      cases found.symm.trans found'
      obtain ⟨nonempty, letters⟩ := components_text text name (by rw [split]; simp)
      obtain ⟨makes, placement⟩ := makes_entry wellFormed reserved there directory nonempty letters
        short missing found blank
      exact makes.created text split resolved (same.mpr blank) placement
    | block none =>
      rw [found] at none
      cases none

/-- A file at the start of a block is as it should be if and only if the block was clear. -/
theorem created_block {middle : Disk} (longer : d.Longer middle names dir n block taken)
    (directory : d.fType dir = ftypeDir) (short : name.length < maxNameLen)
    (missing : ∀ e ∈ d.entries dir, d.nameIs e name = false) (text : ∀ c ∈ path, c ≠ 0)
    (split : components path = names ++ [name]) (resolved : d.resolve sRoot names = .ok dir)
    (full : (d.entries dir).find? (fun e => d e = 0) = none)
    (appends : d.Appends dir n block taken) (start : f = block * 4096) :
    d.Created (middle.setName f name) path dir f ↔ d.Fresh dir := by
  have kept : ∀ addr, f + 128 ≤ addr → addr < f + 4096 → Disk.setName middle f name addr = d addr := by
    intro addr low high
    rw [setName_frame short addr (.inr low)]
    exact longer.appended (by omega) (by omega)
  have same := blank_congr fun addr low high => kept addr low (by omega)
  rw [start, ← fileAt_first] at same
  constructor
  · intro created
    have blank := created.blank
    rw [start, ← fileAt_first] at blank
    cases created.placement with
    | entry _ _ member empty =>
      exact absurd (decide_eq_true empty) (List.find?_eq_none.mp full f member)
    | @block block' _ _ place _ _ _ empty =>
      have place : f = block' * 4096 := place.trans (fileAt_first block')
      obtain rfl : block = block' := by omega
      refine .block full (by rw [longer.whole.blocksOf]; exact appends)
        ⟨same.mp blank, fun j few later => ?_⟩
      have inside : j < 16 := few
      have place : fileAt (block * pgSize) j = block * 4096 + 256 * j := rfl
      have zero := empty j few later
      rw [place] at zero ⊢
      rw [← kept (block * 4096 + 256 * j) (by omega) (by omega)]
      exact zero
  · intro fresh
    cases fresh with
    | entry found =>
      rw [full] at found
      cases found
    | block _ appends' cleared =>
      rw [longer.whole.blocksOf] at appends'
      rw [← appends.functional appends'] at cleared
      obtain ⟨nonempty, letters⟩ := components_text text name (by rw [split]; simp)
      obtain ⟨makes, placement⟩ :=
        makes_block longer directory nonempty letters short missing start cleared
      refine makes.created text split resolved ?_ placement
      have blank := same.mpr cleared.1
      rw [fileAt_first, ← start] at blank
      exact blank

theorem created_stale {middle : Disk} (wellFormed : d.WellFormed) (reserved : d.Reserved)
    (there : d.InTree names dir) (short : name.length < maxNameLen)
    (full : (d.entries dir).find? (fun e => d e = 0) = none)
    (none : ∀ block taken, ¬d.Appends dir (blocksOf (d.fSize dir)) block taken)
    (stale : d.Stale middle dir) : d.Created (middle.setName f name) path dir f ↔ d.Fresh dir := by
  refine iff_of_false (fun created => ?_) fun fresh => ?_
  · cases created.placement with
    | entry _ _ member empty =>
      exact absurd (decide_eq_true empty) (List.find?_eq_none.mp full f member)
    | @block block _ _ place free used differ _ =>
      obtain ⟨taken, takes, pointers⟩ := stale
      have place : f = block * 4096 := place.trans (fileAt_first block)
      have bare := wellFormed.bare_free reserved free
      have record := bare.record wellFormed there
      have behind := bare.1
      have ends := bitmapEnd_congr takes.sNblocks
      rw [pgSize_eq] at behind
      have frame := setName_frame (d := middle) (f := f) short
      rw [blockIsFree_congr fun addr low => frame addr (.inl (by omega)), takes.free, free,
        Bool.true_and, decide_eq_false_iff_not, not_not] at used
      have fields := fields_congr (g := dir) fun addr low high => frame addr (by omega)
      rw [fields.2.2.1] at differ
      exact differ (pointers block used)
  · cases fresh with
    | entry found =>
      rw [full] at found
      cases found
    | block _ appends => exact none _ _ appends

/-- A path that `file_create` returns 0 for leads to a new file that is regular and empty, and
nothing else has changed, if and only if the entry or the block that it takes is clear. -/
theorem fileCreate_created_iff (wellFormed : d.WellFormed) (reserved : d.Reserved)
    (text : ∀ c ∈ path, c ≠ 0) (ran : fileCreate path d = done f d') :
    ∃ dir name, walkPath path d = some (.missing dir name, d) ∧
      (d.Created d' path dir f ↔ d.Fresh dir) := by
  obtain ⟨⟨walk, middle⟩, walked, ran⟩ := Option.bind_eq_some_iff.mp ran
  obtain ⟨rfl, -⟩ := wellFormed.solid.walkPath text walked
  cases walk with
  | found parent g => cases ran
  | failed r => cases ran
  | missing dir name =>
    refine ⟨dir, name, walked, ?_⟩
    rw [walkPath_eq] at walked
    obtain ⟨names, split, resolved, directory, short, missing⟩ :=
      wellFormed.solid.walkNames_missing .root (components_text text) walked
    have there : InTree middle names dir := resolve_inTree .root
      (fun last member => components_text text last
        (by rw [split]; exact List.mem_append_left _ member)) resolved
    dsimp only at ran
    obtain ⟨⟨got, after⟩, alloced, ran⟩ := Option.bind_eq_some_iff.mp ran
    cases got with
    | error r => cases ran
    | ok g =>
      obtain ⟨flushed, flush, ran⟩ := Option.bind_eq_some_iff.mp ran
      cases ran
      rw [fileFlush_eq flush]
      rcases dirAllocFile_cases wellFormed reserved there directory alloced with
        ⟨found, rfl⟩ | ⟨full, ⟨block, taken, appends, grown, start⟩ | ⟨none, stale⟩⟩
      · exact created_entry wellFormed reserved there directory short missing text split resolved
          found
      · obtain ⟨n, whole⟩ := wellFormed.dirs _ _ there directory
        rw [whole.blocksOf] at appends grown
        exact created_block ⟨wellFormed, reserved, there, whole, appends.member, grown⟩ directory
          short missing text split resolved full appends start
      · exact created_stale wellFormed reserved there short full none stale

end Create

section Examples

variable {d : Disk}

theorem inTree_root (empty : ∀ f ∈ d.entries sRoot, d f = 0) {path : List Path} {f : FilePtr}
    (there : d.InTree path f) : f = sRoot := by
  induction there with
  | root => rfl
  | entry _ _ member used ih =>
    rw [ih] at member
    exact absurd (empty _ member) used

theorem Disk.WellFormed.of_root {n : Nat} (whole : d.Whole sRoot (n * pgSize))
    (empty : ∀ f ∈ d.entries sRoot, d f = 0) (once : (d.owned sRoot).Nodup)
    (blocks : ∀ block ∈ d.owned sRoot,
      d.OnDisk block ∧ d.bitmapEnd ≤ block * pgSize ∧ d.blockIsFree block = false) : d.WellFormed where
  dirs path dir there _ := by
    rw [inTree_root empty there]
    exact ⟨n, whole⟩
  legal path f there := by
    rw [inTree_root empty there, whole.length, toNat_ofNat32 whole.small]
    exact whole.legal
  blocks path f there := by
    rw [inTree_root empty there]
    exact blocks
  once path f there := by
    rw [inTree_root empty there]
    exact once
  apart path f path' g block there there' _ _ := by
    rw [inTree_root empty there, inTree_root empty there']
  names path dir f g there _ member _ used := by
    rw [inTree_root empty there] at member
    exact absurd (empty f member) used

theorem smallDisk_wellFormed : smallDisk.WellFormed := by
  have facts : smallDisk.fSize sRoot = BitVec.ofNat 32 (1 * pgSize) ∧ smallDisk.blockAt sRoot 0 ≠ 0 ∧
      smallDisk.blockAt sRoot 0 < smallDisk.sNblocks := by decide +kernel
  obtain ⟨length, present, inside⟩ := facts
  refine .of_root (n := 1)
    ⟨length, by decide, fun beyond => absurd beyond (by decide), fun bno here => ?_⟩ ?_ ?_ ?_
  · obtain rfl : bno = 0 := by
      rw [pgSize_eq] at here
      omega
    exact ⟨present, inside⟩
  · decide +kernel
  · decide +kernel
  · have all : ∀ block ∈ smallDisk.owned sRoot, (block ≠ 0 ∧ block < smallDisk.sNblocks) ∧
        smallDisk.bitmapEnd ≤ block * pgSize ∧ smallDisk.blockIsFree block = false := by decide +kernel
    exact all

theorem smallDisk_reserved : smallDisk.Reserved := by
  intro block free
  have inside : block < smallDisk.sNblocks := by
    rw [Disk.blockIsFree, Bool.and_eq_true, decide_eq_true_eq] at free
    exact free.1
  have few : smallDisk.sNblocks = 8 := by decide +kernel
  have all : ∀ block < 8, smallDisk.blockIsFree block = true →
      smallDisk.bitmapEnd ≤ block * pgSize := by decide +kernel
  rw [few] at inside
  exact all block inside free

/-- Creating "/a" in an empty root directory. -/
theorem created_small : ∃ d', fileCreate pathA smallDisk = done (3 * pgSize) d' ∧
    smallDisk.Created d' pathA sRoot (3 * pgSize) := by
  have runs : ((fileCreate pathA smallDisk).any fun out =>
      out.1.toOption = some (3 * pgSize)) = true := by decide +kernel
  obtain ⟨⟨r, d'⟩, ran, holds⟩ := (Option.any_eq_true _ _).mp runs
  cases r with
  | error r => cases of_decide_eq_true holds
  | ok f =>
    cases of_decide_eq_true holds
    refine ⟨d', ran, ?_⟩
    obtain ⟨dir, name, walked, exact_iff⟩ :=
      fileCreate_created_iff smallDisk_wellFormed smallDisk_reserved (by decide) ran
    have place : ((walkPath pathA smallDisk).any fun out => out.1.casesOn (fun _ _ => false)
        (fun dir _ => dir = sRoot) fun _ => false) = true := by decide +kernel
    rw [walked] at place
    obtain rfl : dir = sRoot := of_decide_eq_true place
    have found : (smallDisk.entries sRoot).find? (fun e => smallDisk e = 0) = some (3 * pgSize) := by
      decide +kernel
    have blank : smallDisk.fType (3 * pgSize) = ftypeReg ∧ smallDisk.fSize (3 * pgSize) = 0 ∧
        (∀ i < nDirect, smallDisk.fDirect (3 * pgSize) i = 0) ∧
          smallDisk.fIndirect (3 * pgSize) = 0 := by decide +kernel
    exact exact_iff.mpr (.entry found blank)

/-- When the directory "/a" has been removed, creating "/a" makes a directory. -/
theorem not_created_recycled : ¬∀ (before d d' : Disk) (gone path : Path) (f : FilePtr),
    before.WellFormed → fileRemove gone before = some (0, d) → (∀ c ∈ path, c ≠ 0) →
      fileCreate path d = done f d' → ∃ dir, d.Created d' path dir f := by
  intro all
  have runs : ((fileRemove pathA nestedDisk).any fun gone => gone.1 = 0 ∧
      ((fileCreate pathA gone.2).any fun out =>
        out.1.toOption = some (3 * pgSize) ∧ out.2.fType (3 * pgSize) = ftypeDir) = true) = true := by
    decide +kernel
  obtain ⟨⟨r, d⟩, removed, holds⟩ := (Option.any_eq_true _ _).mp runs
  obtain ⟨rfl, runs⟩ := of_decide_eq_true holds
  obtain ⟨⟨r, d'⟩, ran, holds⟩ := (Option.any_eq_true _ _).mp runs
  obtain ⟨made, directory⟩ := of_decide_eq_true holds
  cases r with
  | error r => cases made
  | ok f =>
    cases made
    obtain ⟨dir, created⟩ := all _ _ _ _ _ _ nestedDisk_wellFormed removed (by decide) ran
    rw [created.blank.1] at directory
    exact absurd directory (by decide)

end Examples

end Fs

end Jos
