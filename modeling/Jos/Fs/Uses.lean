import Jos.Fs.Ownership

/-! Runs of the functions of fs/fs.c, and what they bring into use as it is. -/

set_option autoImplicit false

namespace Jos

open Foundation Function

namespace Fs

open Disk

/-- What is brought into use without being cleared: a block of a file, the slots up to a new size,
and the entry of a new file. -/
inductive Use where
  | block (f : FilePtr) (bno : Nat) (d : Disk)
  | size (f : FilePtr) (newsize : BitVec 32) (d : Disk)
  | entry (f : FilePtr) (d : Disk)

namespace Use

def Clear : Use → Prop
  | block f bno d => d.Clear f bno
  | size f newsize d => newsize.toNat ≤ maxFileSize ∧
      ∀ bno, blocksFor (d.fSize f) ≤ bno → bno < blocksFor newsize → d.present f bno = false
  | entry f d => (d.fSize f).toNat ≤ maxFileSize ∧ d.owned f = []

/-- In a call of `file_get_block`, `alloc_block` may hand out a block: for the indirect slots, or
when the slot has been found. -/
inductive Hands : Use → Disk → Nat → Prop where
  | indirect {f : FilePtr} {bno block : Nat} {d after : Disk} :
      d.allocBlock = some (block, after) → Hands (.block f bno d) d block
  | data {f : FilePtr} {bno slot block : Nat} {d middle after : Disk} :
      fileBlockWalk f bno true d = done slot middle → middle.allocBlock = some (block, after) →
        Hands (.block f bno d) middle block

def Sound (use : Use) : Prop :=
  ∀ d block, use.Hands d block → ∀ g, d.Live g → block ∉ d.owned g

end Use

/-- The uses in the loop of `dir_lookup` and `dir_alloc_file`. -/
def searchUses (dir : FilePtr) (wanted : Disk → FilePtr → Bool) : Nat → Nat → Disk → List Use
  | 0, _, _ => []
  | left + 1, i, d => .block dir i d ::
      match fileGetBlock dir i d with
      | some (.ok blk, d) =>
        match entryIn blk (wanted d) with
        | some _ => []
        | none => searchUses dir wanted left (i + 1) d
      | _ => []

def lookupUses (dir : FilePtr) (name : Path) (d : Disk) : List Use :=
  if d.wholeBlocks dir then
    searchUses dir (fun d f => d.nameIs f name) (blocksOf (d.fSize dir)) 0 d
  else []

def allocUses (dir : FilePtr) (d : Disk) : List Use :=
  if d.wholeBlocks dir then
    let nblock := blocksOf (d.fSize dir)
    searchUses dir (fun d f => d f = 0) nblock 0 d ++
      match dirSearch dir (fun d f => d f = 0) nblock 0 d with
      | some (.ok none, d) =>
        let size := d.fSize dir + BitVec.ofNat 32 pgSize
        [.size dir size d, .block dir nblock (d.setWord (fSizeAt dir) size)]
      | _ => []
  else []

def walkUses : FilePtr → List Path → Disk → List Use
  | _, [], _ => []
  | f, name :: rest, d =>
    if maxNameLen ≤ name.length then []
    else if d.fType f ≠ ftypeDir then []
    else lookupUses f name d ++
      match dirLookup f name d with
      | some (.ok next, d) => walkUses next rest d
      | _ => []

def createUses (path : Path) (d : Disk) : List Use :=
  walkUses sRoot (components path) d ++
    match walkPath path d with
    | some (.missing dir _, d) => allocUses dir d ++
        match dirAllocFile dir d with
        | some (.ok f, d) => [.entry f d]
        | _ => []
    | _ => []

/-- The uses in the loops of `file_read` and `file_write`. -/
def movesUses (f : FilePtr) (offset : BitVec 32) (count : BitVec 64)
    (move : Move → Bytes × Disk → Bytes × Disk) : Nat → BitVec 32 → Nat → Bytes × Disk → List Use
  | 0, _, _, _ => []
  | left + 1, pos, base, s =>
    if before pos offset count then .block f (blocksOf pos) s.2 ::
      match fileGetBlock f (blocksOf pos) s.2 with
      | some (.ok blk, d) =>
        let m : Move := ⟨pos, base, blk, chunk pos offset count⟩
        movesUses f offset count move left (pos + BitVec.ofNat 32 m.bn) (base + m.bn)
          (move m (s.1, d))
      | _ => []
    else []

structure Disk.Passes (d d' : Disk) (uses : List Use) : Prop where
  owns : d'.Owns
  similar : d.Similar d'
  uses : ∀ use ∈ uses, use.Sound

section Walks

variable {d d' : Disk} {dir f : FilePtr} {uses : List Use}

theorem Disk.Passes.trans {d'' : Disk} {more : List Use} (first : d.Passes d' uses)
    (second : d'.Passes d'' more) : d.Passes d'' (uses ++ more) where
  owns := second.owns
  similar := first.similar.trans second.similar
  uses use member := (List.mem_append.mp member).elim (first.uses use) (second.uses use)

theorem Disk.Owns.passes (owns : d.Owns) : d.Passes d [] :=
  ⟨owns, .refl d, fun _ member => absurd member List.not_mem_nil⟩

theorem Disk.Owns.fresh {block : Nat} {after : Disk} (owns : d.Owns)
    (ran : d.allocBlock = some (block, after)) {g : FilePtr} (there : d.Live g) :
    block ∉ d.owned g := by
  intro member
  have used := (owns.blocks g there block member).2.2
  rw [(allocBlock_eq ran).2.1] at used
  cases used

theorem Disk.Owns.sound {bno : Nat} (owns : d.Owns) (there : d.Live f) (clear : d.Clear f bno) :
    Use.Sound (.block f bno d) := by
  intro state block hands g alive
  cases hands with
  | indirect ran => exact owns.fresh ran alive
  | data walked ran => exact (owns.walked there clear walked).1.fresh ran alive

theorem Use.sound_size {newsize : BitVec 32} : Use.Sound (.size f newsize d) :=
  fun _ _ hands => nomatch hands

theorem Use.sound_entry : Use.Sound (.entry f d) := fun _ _ hands => nomatch hands

theorem whole_blocks (whole : d.wholeBlocks dir = true) (legal : (d.fSize dir).toNat ≤ maxFileSize) :
    blocksFor (d.fSize dir) = blocksOf (d.fSize dir) := by
  have legal' : (d.fSize dir).toNat ≤ (10 + 1024) * 4096 := legal
  have size : d.fSize dir = BitVec.ofNat 32 (d.fSize dir).toNat := by
    rw [BitVec.ofNat_toNat, BitVec.setWidth_eq]
  have rest : (d.fSize dir).toNat % 4096 = 0 := by
    have zero := of_decide_eq_true whole
    rw [size, pgSize_eq, srem_ofNat (by omega) (by decide)] at zero
    have value := congrArg BitVec.toNat zero
    rw [toNat_ofNat32 (by omega)] at value
    exact value
  rw [blocksFor_eq legal, (blocksOf_le legal).1]
  omega

theorem Disk.Owns.dirSearch {wanted : Disk → FilePtr → Bool} {left i : Nat}
    {r : Except Int (Option FilePtr)} (owns : d.Owns) (there : d.Live dir)
    (whole : blocksFor (d.fSize dir) = blocksOf (d.fSize dir))
    (inside : i + left ≤ blocksOf (d.fSize dir))
    (clear : ∀ use ∈ searchUses dir wanted left i d, use.Clear)
    (ran : dirSearch dir wanted left i d = some (r, d')) :
    d.Passes d' (searchUses dir wanted left i d) ∧
      ∀ f, r = .ok (some f) → d'.InDir dir f ∧ wanted d' f = true := by
  induction left generalizing i d with
  | zero =>
    cases ran
    exact ⟨owns.passes, nofun⟩
  | succ left ih =>
    have first : d.Clear dir i := clear _ List.mem_cons_self
    obtain ⟨⟨got, d₁⟩, block, ran⟩ := Option.bind_eq_some_iff.mp ran
    obtain ⟨owns₁, similar, found⟩ := owns.fileGetBlock there (by omega) first block
    have passes : d.Passes d₁ [.block dir i d] :=
      ⟨owns₁, similar, fun use member => by
        rw [List.mem_singleton.mp member]
        exact owns.sound there first⟩
    rw [searchUses, block] at clear ⊢
    cases got with
    | error code =>
      cases ran
      exact ⟨passes, nofun⟩
    | ok blk =>
      dsimp only at ran clear ⊢
      cases entry : entryIn blk (wanted d₁) with
      | some f =>
        rw [entry] at ran
        cases ran
        refine ⟨passes, fun g same => ?_⟩
        cases same
        obtain ⟨j, search, place⟩ := Option.map_eq_some_iff.mp entry
        obtain ⟨other, member, rfl⟩ := found blk rfl
        obtain ⟨k, low, present, rfl⟩ := mem_dataBlocks.mp member
        have few := List.mem_range.mp (List.mem_of_find?_eq_some search)
        rw [similar.size dir there, whole, ← similar.size dir there] at low
        refine ⟨⟨k, low, present, j, few, place.symm⟩, ?_⟩
        have here := List.find?_some search
        rw [← place]
        exact here
      | none =>
        rw [entry] at ran clear
        have same := similar.size dir there
        obtain ⟨rest, result⟩ := ih owns₁ ((similar.live dir).mpr there)
          (by rw [same]; exact whole) (by rw [same]; omega)
          (fun use member => clear use (List.mem_cons_of_mem _ member)) ran
        exact ⟨passes.trans rest, result⟩

theorem Disk.Owns.dirLookup {name : Path} {r : Except Int FilePtr} (owns : d.Owns)
    (there : d.Live dir) (directory : d.fType dir = ftypeDir) (nonempty : name ≠ [])
    (text : ∀ c ∈ name, c ≠ 0) (clear : ∀ use ∈ lookupUses dir name d, use.Clear)
    (ran : dirLookup dir name d = some (r, d')) :
    d.Passes d' (lookupUses dir name d) ∧ ∀ f, r = .ok f → d'.Live f := by
  unfold Disk.dirLookup at ran
  unfold lookupUses at clear ⊢
  split at ran
  case isFalse => cases ran
  case isTrue whole =>
    rw [if_pos whole] at clear ⊢
    obtain ⟨⟨found, d₁⟩, search, ran⟩ := Option.bind_eq_some_iff.mp ran
    obtain ⟨passes, entry⟩ := owns.dirSearch there (whole_blocks whole (owns.legal dir there))
      (Nat.le_of_eq (Nat.zero_add _)) clear search
    cases found with
    | error code =>
      cases ran
      exact ⟨passes, nofun⟩
    | ok found =>
      cases found with
      | none =>
        cases ran
        exact ⟨passes, nofun⟩
      | some f =>
        cases ran
        refine ⟨passes, fun g same => ?_⟩
        cases same
        obtain ⟨member, named⟩ := entry f rfl
        have similar := passes.similar
        exact .entry ((similar.live dir).mpr there) ((similar.type dir there).trans directory)
          member (nameIs_ne_zero named nonempty text)

def Disk.Walk.Sound (d : Disk) : Walk → Prop
  | .found _ f => d.Live f
  | .missing dir name => d.Live dir ∧ d.fType dir = ftypeDir ∧ name.length < maxNameLen
  | .failed _ => True

theorem Disk.Owns.walkNames {parent : Option FilePtr} {names : List Path} {walk : Walk}
    (owns : d.Owns) (there : d.Live f) (text : ∀ name ∈ names, name ≠ [] ∧ ∀ c ∈ name, c ≠ 0)
    (clear : ∀ use ∈ walkUses f names d, use.Clear)
    (ran : walkNames parent f names d = some (walk, d')) :
    d.Passes d' (walkUses f names d) ∧ walk.Sound d' := by
  induction names generalizing parent f d with
  | nil =>
    cases ran
    exact ⟨owns.passes, there⟩
  | cons name rest ih =>
    rw [Fs.walkNames] at ran
    rw [walkUses] at clear ⊢
    split at ran
    case isTrue long =>
      cases ran
      rw [if_pos long]
      exact ⟨owns.passes, trivial⟩
    case isFalse short =>
      rw [if_neg short] at clear ⊢
      split at ran
      case isTrue other =>
        cases ran
        rw [if_pos other]
        exact ⟨owns.passes, trivial⟩
      case isFalse directory =>
        rw [if_neg directory] at clear ⊢
        obtain ⟨⟨r, d₁⟩, looked, ran⟩ := Option.bind_eq_some_iff.mp ran
        obtain ⟨nonempty, letters⟩ := text name List.mem_cons_self
        obtain ⟨passes, alive⟩ := owns.dirLookup there (not_not.mp directory) nonempty letters
          (fun use member => clear use (List.mem_append_left _ member)) looked
        rw [looked] at clear ⊢
        cases r with
        | ok next =>
          obtain ⟨rest, sound⟩ := ih passes.owns (alive next rfl)
            (fun later member => text later (List.mem_cons_of_mem _ member))
            (fun use member => clear use (List.mem_append_right _ member)) ran
          exact ⟨passes.trans rest, sound⟩
        | error code =>
          dsimp only at ran ⊢
          rw [List.append_nil]
          split at ran
          · cases ran
            have similar := passes.similar
            exact ⟨passes, (similar.live f).mpr there,
              (similar.type f there).trans (not_not.mp directory), not_le.mp short⟩
          · cases ran
            exact ⟨passes, trivial⟩

theorem Disk.Owns.walkPath {path : Path} {walk : Walk} (owns : d.Owns) (text : ∀ c ∈ path, c ≠ 0)
    (clear : ∀ use ∈ walkUses sRoot (components path) d, use.Clear)
    (ran : walkPath path d = some (walk, d')) :
    d.Passes d' (walkUses sRoot (components path) d) ∧ walk.Sound d' := by
  rw [walkPath_eq] at ran
  exact owns.walkNames .root (components_text text) clear ran

end Walks

section Create

variable {d d' : Disk} {dir f : Nat} {name path : Path}

theorem blocksFor_next (whole : d.wholeBlocks dir = true) (legal : (d.fSize dir).toNat ≤ maxFileSize)
    (legal' : (d.fSize dir + BitVec.ofNat 32 pgSize).toNat ≤ maxFileSize) :
    blocksFor (d.fSize dir + BitVec.ofNat 32 pgSize) = blocksOf (d.fSize dir) + 1 ∧
      blocksOf (d.fSize dir + BitVec.ofNat 32 pgSize) = blocksOf (d.fSize dir) + 1 ∧
      (d.fSize dir).toNat ≤ (d.fSize dir + BitVec.ofNat 32 pgSize).toNat := by
  have bound : (d.fSize dir).toNat ≤ (10 + 1024) * 4096 := legal
  have sum : (d.fSize dir + BitVec.ofNat 32 pgSize).toNat = (d.fSize dir).toNat + 4096 := by
    have page : (BitVec.ofNat 32 pgSize).toNat = 4096 := rfl
    rw [BitVec.toNat_add, page, Nat.mod_eq_of_lt (by omega)]
  have same := whole_blocks whole legal
  rw [blocksFor_eq legal, (blocksOf_le legal).1] at same
  rw [blocksFor_eq legal', (blocksOf_le legal').1, (blocksOf_le legal).1, sum]
  omega

/-- The entry that `dir_alloc_file` finds, or the first of the block that it appends. -/
theorem Disk.Owns.dirAllocFile {r : Except Int FilePtr} (owns : d.Owns) (there : d.Live dir)
    (directory : d.fType dir = ftypeDir) (clear : ∀ use ∈ allocUses dir d, use.Clear)
    (ran : dirAllocFile dir d = some (r, d')) :
    d'.Owns ∧ (∀ use ∈ allocUses dir d, use.Sound) ∧
      ∀ f, r = .ok f → d'.Live dir ∧ d'.fType dir = ftypeDir ∧ d'.InDir dir f := by
  unfold Disk.dirAllocFile at ran
  unfold allocUses at clear ⊢
  split at ran
  case isFalse => cases ran
  case isTrue whole =>
    rw [if_pos whole] at clear ⊢
    obtain ⟨⟨found, d₁⟩, search, ran⟩ := Option.bind_eq_some_iff.mp ran
    have same := whole_blocks whole (owns.legal dir there)
    obtain ⟨passes, entry⟩ := owns.dirSearch there same (Nat.le_of_eq (Nat.zero_add _))
      (fun use member => clear use (List.mem_append_left _ member)) search
    have similar := passes.similar
    have there₁ := (similar.live dir).mpr there
    have directory₁ := (similar.type dir there).trans directory
    dsimp only at clear ⊢
    rw [search] at clear ⊢
    cases found with
    | error code =>
      cases ran
      rw [List.append_nil]
      exact ⟨passes.owns, passes.uses, nofun⟩
    | ok found =>
      cases found with
      | some f =>
        cases ran
        rw [List.append_nil]
        refine ⟨passes.owns, passes.uses, fun g equal => ?_⟩
        cases equal
        exact ⟨there₁, directory₁, (entry f rfl).1⟩
      | none =>
        have sizes := similar.size dir there
        have longer : Use.Clear (.size dir (d₁.fSize dir + BitVec.ofNat 32 pgSize) d₁) :=
          clear _ (List.mem_append_right _ List.mem_cons_self)
        have whole₁ : d₁.wholeBlocks dir = true := by
          rw [Disk.wholeBlocks, sizes]
          exact whole
        have legal := passes.owns.legal dir there₁
        obtain ⟨next, next', more⟩ := blocksFor_next whole₁ legal longer.1
        obtain ⟨owns₂, live, types, -, -⟩ := passes.owns.growSize there₁ longer.1 more longer.2
          fun _ => (whole_blocks whole₁ legal).le
        have there₂ := (live dir).mpr there₁
        have size₂ : Disk.fSize (d₁.setWord (fSizeAt dir) (d₁.fSize dir + BitVec.ofNat 32 pgSize)) dir =
            d₁.fSize dir + BitVec.ofNat 32 pgSize := word_setWord
        have block : Disk.Clear (d₁.setWord (fSizeAt dir) (d₁.fSize dir + BitVec.ofNat 32 pgSize)) dir
            (blocksOf (d.fSize dir)) :=
          clear (.block dir _ _) (List.mem_append_right _ (List.mem_cons_of_mem _ List.mem_cons_self))
        obtain ⟨⟨got, d₃⟩, got', ran⟩ := Option.bind_eq_some_iff.mp ran
        obtain ⟨owns₃, similar₃, last⟩ := owns₂.fileGetBlock there₂
          (by rw [size₂, next, sizes]; exact Nat.lt_succ_self _) block got'
        have uses : ∀ use ∈ searchUses dir (fun d f => d f = 0) (blocksOf (d.fSize dir)) 0 d ++
            [.size dir (d₁.fSize dir + BitVec.ofNat 32 pgSize) d₁, .block dir (blocksOf (d.fSize dir))
              (d₁.setWord (fSizeAt dir) (d₁.fSize dir + BitVec.ofNat 32 pgSize))],
            use.Sound := by
          intro use member
          rcases List.mem_append.mp member with member | member
          · exact passes.uses use member
          · rcases List.mem_cons.mp member with rfl | member
            · exact Use.sound_size
            · rw [List.mem_singleton.mp member]
              exact owns₂.sound there₂ block
        cases got with
        | error code =>
          cases ran
          exact ⟨owns₃, uses, nofun⟩
        | ok blk =>
          cases ran
          refine ⟨owns₃, uses, fun g equal => ?_⟩
          cases equal
          obtain ⟨other, member, rfl⟩ := last blk rfl
          obtain ⟨k, low, present, rfl⟩ := mem_dataBlocks.mp member
          rw [similar₃.size dir there₂, size₂, next] at low
          refine ⟨(similar₃.live dir).mpr there₂, ?_, k, ?_, present, 0, by decide, rfl⟩
          · rw [similar₃.type dir there₂, types dir there₁]
            exact directory₁
          · rw [similar₃.size dir there₂, size₂, next']
            exact low

theorem Disk.Owns.setName (owns : d.Owns) (there : d.Live dir) (directory : d.fType dir = ftypeDir)
    (member : d.InDir dir f) (legal : (d.fSize f).toNat ≤ maxFileSize) (none : d.owned f = [])
    (short : name.length < maxNameLen) : Owns (d.setName f name) := by
  have limit : maxNameLen = 128 := rfl
  have spot : d.Spot f := .inr ⟨dir, there, directory, member⟩
  have frame : ∀ addr, addr < f ∨ f + 128 ≤ addr → d.setName f name addr = d addr :=
    fun addr outside => setName_other (by omega)
  obtain ⟨kept, names, count⟩ := @Disk.Owns.kept d (d.setName f name) f owns spot fun addr outside =>
    frame addr (by
      by_contra inside
      exact outside (.inr (.inl (by omega))))
  obtain ⟨block, inside, j, few, place⟩ := owns.entry there member
  have low := owns.low there (mem_owned inside)
  have behind : (4104 : Nat) ≠ f := by omega
  have differ : sRoot ≠ f := behind
  have unfilled : d.fIndirect f = 0 := by
    by_contra filled
    have mine := mem_owned_indirect filled
    rw [none] at mine
    cases mine
  have keeps : d.KeepsFile (d.setName f name) f := keepsFile_of fun addr inside => by
    rcases inside with inside | ⟨filled, -⟩
    · exact frame addr (by omega)
    · exact absurd unfilled filled
  have owned := keeps.owned legal
  have free : ∀ block, blockIsFree (d.setName f name) block = d.blockIsFree block :=
    blockIsFree_congr fun addr below => frame addr (by omega)
  have empty (e : FilePtr) : ¬Disk.InDir (d.setName f name) f e := by
    rw [keeps.inDir legal]
    rintro ⟨bno, less, present, -⟩
    have bound := (blocksOf_le legal).2.1
    have mine := mem_owned (mem_dataBlocks.mpr ⟨bno, by omega, present, rfl⟩)
    rw [none] at mine
    cases mine
  refine owns.change (fun g alive => live_or owns.legal kept names
    (fun _ e inside => absurd inside (empty e)) alive) kept count ?_ (fun block still => ?_)
    (fun g alive _ block mine => ?_) (fun _ => ?_) (fun _ block mine => ?_) fun _ => ?_
  · rw [(kept sRoot .root differ).type]
    exact owns.root
  · rw [free] at still
    rw [bitmapEnd_congr count]
    exact owns.reserved block still
  · rw [free]
    exact (owns.blocks g alive block mine).2.2
  · rw [keeps.size]
    exact legal
  · rw [owned, none] at mine
    cases mine
  · rw [owned, none]
    exact List.nodup_nil

theorem Disk.Owns.fileCreate {r : Except Int FilePtr} (owns : d.Owns) (text : ∀ c ∈ path, c ≠ 0)
    (clear : ∀ use ∈ createUses path d, use.Clear) (ran : fileCreate path d = some (r, d')) :
    d'.Owns ∧ ∀ use ∈ createUses path d, use.Sound := by
  obtain ⟨⟨walk, d₁⟩, walked, ran⟩ := Option.bind_eq_some_iff.mp ran
  unfold createUses at clear ⊢
  rw [walked] at clear ⊢
  obtain ⟨passes, sound⟩ := owns.walkPath text
    (fun use member => clear use (List.mem_append_left _ member)) walked
  cases walk with
  | found parent f =>
    cases ran
    rw [List.append_nil]
    exact ⟨passes.owns, passes.uses⟩
  | failed code =>
    cases ran
    rw [List.append_nil]
    exact ⟨passes.owns, passes.uses⟩
  | missing dir name =>
    obtain ⟨there, directory, short⟩ := sound
    dsimp only at clear ran ⊢
    obtain ⟨⟨got, d₂⟩, allocated, ran⟩ := Option.bind_eq_some_iff.mp ran
    obtain ⟨owns₂, uses, entry⟩ := passes.owns.dirAllocFile there directory
      (fun use member => clear use (List.mem_append_right _ (List.mem_append_left _ member)))
      allocated
    rw [allocated] at clear ⊢
    cases got with
    | error code =>
      cases ran
      refine ⟨owns₂, fun use member => ?_⟩
      rw [List.append_nil] at member
      exact (List.mem_append.mp member).elim (passes.uses use) (uses use)
    | ok f =>
      obtain ⟨there₂, directory₂, member₂⟩ := entry f rfl
      have blank : Use.Clear (.entry f d₂) :=
        clear _ (List.mem_append_right _ (List.mem_append_right _ List.mem_cons_self))
      have named := owns₂.setName there₂ directory₂ member₂ blank.1 blank.2 short
      obtain ⟨d₃, flushed, ran⟩ := Option.bind_eq_some_iff.mp ran
      cases ran
      refine ⟨by rw [fileFlush_eq flushed]; exact named, fun use member => ?_⟩
      rcases List.mem_append.mp member with member | member
      · exact passes.uses use member
      · rcases List.mem_append.mp member with member | member
        · exact uses use member
        · rw [List.mem_singleton.mp member]
          exact Use.sound_entry

end Create

/-- The uses of `file_read`. -/
def readUses (f : FilePtr) (buf : Bytes) (count : BitVec 64) (offset : BitVec 32) (d : Disk) :
    List Use :=
  if (d.fSize f).sle offset then []
  else
    let count := clipped d f count offset
    movesUses f offset count Move.read (count.toNat + 1) offset 0 (buf, d)

def setSizeUses (f : FilePtr) (newsize : BitVec 32) (d : Disk) : List Use :=
  if newsize.slt (d.fSize f) then [] else [.size f newsize d]

/-- The uses of `file_write`. -/
def writeUses (f : FilePtr) (buf : Bytes) (count : BitVec 64) (offset : BitVec 32) (d : Disk) :
    List Use :=
  let ends := offset.signExtend 64 + count
  let longer := ((d.fSize f).signExtend 64).ult ends
  (if longer then setSizeUses f (ends.setWidth 32) d else []) ++
    match if longer then fileSetSize f (ends.setWidth 32) d else some (0, d) with
    | some (_, d) => movesUses f offset count Move.write (count.toNat + 1) offset 0 (buf, d)
    | none => []

section Moves

variable {d d' : Disk} {f start p total block : Nat} {offset : BitVec 32} {count : BitVec 64}
  {buf : Bytes}

/-- A round of a loop stores to a data block of the file at most, for a file of a type that is
allowed. -/
def Move.Local (f : FilePtr) (allowed : BitVec 32 → Prop)
    (move : Move → Bytes × Disk → Bytes × Disk) : Prop :=
  ∀ (m : Move) (s : Bytes × Disk) (block p : Nat), s.2.Owns → s.2.Live f → allowed (s.2.fType f) →
    block ∈ s.2.dataBlocks f → m.blk = block * pgSize → within m.blk m.pos = m.blk + p →
    p + m.bn ≤ 4096 → s.2.Passes (move m s).2 []

theorem Move.read_local : Move.Local f (fun _ => True) Move.read :=
  fun _ _ _ _ owns _ _ _ _ _ _ => owns.passes

theorem Move.write_local : Move.Local f (fun type => type ≠ ftypeDir) Move.write := by
  intro m s block p owns there regular inside place at' few
  obtain ⟨owns', similar, -⟩ :=
    @Disk.Owns.storeData s.2 (Move.write m s).2 f block owns there regular inside fun addr outside => by
      have page := pgSize_eq
      have apart : ¬(within m.blk m.pos ≤ addr ∧ addr < within m.blk m.pos + m.bn) := by
        rw [at', place, page]
        omega
      exact if_neg apart
  exact ⟨owns', similar, fun _ member => absurd member List.not_mem_nil⟩

/-- The loops of `file_read` and `file_write`, where the positions are in the file. -/
theorem Disk.Owns.movesFrom {allowed : BitVec 32 → Prop} {move : Move → Bytes × Disk → Bytes × Disk}
    {left base : Nat} {s after : Bytes × Disk} {r : Int} {moves : List Move}
    (near : Move.Local f allowed move) (owns : s.2.Owns) (there : s.2.Live f)
    (type : allowed (s.2.fType f)) (sum : start + count.toNat = total) (inside : p ≤ total)
    (ends : total ≤ (s.2.fSize f).toNat)
    (clear : ∀ use ∈ movesUses f (BitVec.ofNat 32 start) count move left (BitVec.ofNat 32 p) base s,
      use.Clear)
    (ran : movesFrom f (BitVec.ofNat 32 start) count move left (BitVec.ofNat 32 p) base s =
      some (r, moves, after)) :
    s.2.Passes after.2
      (movesUses f (BitVec.ofNat 32 start) count move left (BitVec.ofNat 32 p) base s) := by
  have legal := owns.legal f there
  have bound : (s.2.fSize f).toNat ≤ 4235264 := legal
  have small : start < 2 ^ 31 := by omega
  have fits : total < 2 ^ 64 := by omega
  induction left generalizing p base s moves with
  | zero => cases ran
  | succ left ih =>
    have here : p < 2 ^ 31 := by omega
    rw [Fs.movesFrom, before_total small here sum fits] at ran
    rw [movesUses, before_total small here sum fits] at clear ⊢
    by_cases more : p < total
    · rw [decide_eq_true more, if_pos rfl] at ran clear ⊢
      obtain ⟨⟨got, d⟩, block, ran⟩ := Option.bind_eq_some_iff.mp ran
      have first : s.2.Clear f (blocksOf (BitVec.ofNat 32 p)) :=
        clear (.block f _ s.2) List.mem_cons_self
      have number := blocksOf_ofNat here
      obtain ⟨owns₁, similar, found⟩ := owns.fileGetBlock there
        (by rw [number, blocksFor_eq legal]; omega) first block
      have passes : s.2.Passes d [.block f (blocksOf (BitVec.ofNat 32 p)) s.2] :=
        ⟨owns₁, similar, fun use member => by
          rw [List.mem_singleton.mp member]
          exact owns.sound there first⟩
      rw [block] at clear ⊢
      cases got with
      | error code =>
        cases ran
        exact passes
      | ok blk =>
        obtain ⟨⟨r', rest, final⟩, looped, same⟩ := Option.map_eq_some_iff.mp ran
        cases same
        obtain ⟨other, member, place⟩ := found blk rfl
        have there₁ := (similar.live f).mpr there
        have bn := chunk_total small here sum fits inside
        have left' : p % 4096 < 4096 := Nat.mod_lt _ (by decide)
        have moved := near
          ⟨BitVec.ofNat 32 p, base, blk, chunk (BitVec.ofNat 32 p) (BitVec.ofNat 32 start) count⟩
          (s.1, d) other (p % 4096) owns₁ there₁ ((similar.type f there).symm ▸ type) member place
          (within_ofNat here) (by dsimp only; omega)
        have next : BitVec.ofNat 32 p + BitVec.ofNat 32
            (chunk (BitVec.ofNat 32 p) (BitVec.ofNat 32 start) count) =
            BitVec.ofNat 32 (p + chunk (BitVec.ofNat 32 p) (BitVec.ofNat 32 start) count) :=
          (BitVec.ofNat_add ..).symm
        have both := similar.trans moved.similar
        dsimp only at looped clear ⊢
        rw [next] at looped clear ⊢
        have size := both.size f there
        have rest := ih moved.owns ((both.live f).mpr there) ((both.type f there).symm ▸ type)
          (by omega) (by rw [size]; exact ends)
          (fun use member => clear use (List.mem_cons_of_mem _ member)) looped
          (moved.owns.legal f ((both.live f).mpr there)) (by rw [size]; exact bound)
        exact passes.trans (moved.trans rest)
    · rw [decide_eq_false more, if_neg Bool.false_ne_true] at ran clear ⊢
      cases ran
      exact owns.passes

theorem Disk.Owns.fileRead {buf' : Bytes} {r : Int} (owns : d.Owns) (there : d.Live f)
    (positive : 0 ≤ offset.toInt) (clear : ∀ use ∈ readUses f buf count offset d, use.Clear)
    (ran : fileRead f buf count.toNat offset d = some (r, buf', d')) :
    d.Passes d' (readUses f buf count offset d) := by
  rw [fileRead_moves] at ran
  obtain ⟨⟨r', moves, after⟩, moved, same⟩ := Option.map_eq_some_iff.mp ran
  cases same
  clear ran
  unfold fileReadMoves at moved
  unfold readUses at clear ⊢
  by_cases past : (d.fSize f).sle offset = true
  · rw [if_pos past] at moved ⊢
    cases moved
    exact owns.passes
  · rw [if_neg past] at moved clear ⊢
    have legal := owns.legal f there
    have bound : (d.fSize f).toNat ≤ 4235264 := legal
    have value : (d.fSize f).toInt = (d.fSize f).toNat := BitVec.toInt_eq_toNat_of_lt (by omega)
    have start : offset.toInt = offset.toNat :=
      BitVec.toInt_eq_toNat_of_lt (by have := (extend_positive positive).1; omega)
    have inside : offset.toNat < (d.fSize f).toNat := by
      rw [BitVec.sle_eq_decide, decide_eq_true_eq] at past
      omega
    have cut := @clipped_inside f offset count d legal inside.le
    have same : offset = BitVec.ofNat 32 offset.toNat := by rw [BitVec.ofNat_toNat, BitVec.setWidth_eq]
    dsimp only at moved clear ⊢
    generalize clipped d f count offset = count at *
    rw [same] at moved clear ⊢
    exact @Disk.Owns.movesFrom f offset.toNat offset.toNat (offset.toNat + count.toNat) count
      (fun _ => True) Move.read _ _ (buf, d) _ _ _ Move.read_local owns there trivial rfl
      (Nat.le_add_right _ _) (by dsimp only; omega) clear moved

/-- A file gets a size that is no smaller. A directory has whole blocks then, so that no entries
come back. -/
theorem Disk.Owns.lengthen {newsize : BitVec 32} (owns : d.Owns) (there : d.Live f)
    (whole : d.fType f = ftypeDir → (d.fSize f).toNat < newsize.toNat → d.wholeBlocks f = true)
    (longer : (d.fSize f).toNat ≤ newsize.toNat) (clear : Use.Clear (.size f newsize d)) :
    Owns (d.setWord (fSizeAt f) newsize) ∧ Live (d.setWord (fSizeAt f) newsize) f ∧
      fType (d.setWord (fSizeAt f) newsize) f = d.fType f := by
  rcases longer.eq_or_lt with equal | more
  · have same : d.setWord (fSizeAt f) newsize = d := by
      rw [← BitVec.eq_of_toNat_eq equal]
      exact setWord_word d (fSizeAt f)
    rw [same]
    exact ⟨owns, there, rfl⟩
  · obtain ⟨owns', live, types, -, -⟩ := owns.growSize there clear.1 longer clear.2
      fun directory => (whole_blocks (whole directory more) (owns.legal f there)).le
    exact ⟨owns', (live f).mpr there, types f there⟩

theorem slt_sizes {size newsize : BitVec 32} (legal : size.toNat ≤ maxFileSize)
    (legal' : newsize.toNat ≤ maxFileSize) :
    newsize.slt size = true ↔ newsize.toNat < size.toNat := by
  have bound : size.toNat ≤ 4235264 := legal
  have bound' : newsize.toNat ≤ 4235264 := legal'
  rw [BitVec.slt_eq_decide, decide_eq_true_eq, BitVec.toInt_eq_toNat_of_lt (by omega),
    BitVec.toInt_eq_toNat_of_lt (by omega), Int.ofNat_lt]

theorem written_ends {size : BitVec 32} (legal : size.toNat ≤ maxFileSize) (positive : 0 ≤ offset.toInt)
    (fits : offset.toNat + count.toNat ≤ maxFileSize) :
    ((offset.signExtend 64 + count).setWidth 32).toNat = offset.toNat + count.toNat ∧
      (size.signExtend 64).ult (offset.signExtend 64 + count) =
        decide (size.toNat < offset.toNat + count.toNat) := by
  have bound : size.toNat ≤ 4235264 := legal
  have fits' : offset.toNat + count.toNat ≤ 4235264 := fits
  have sum : (offset.signExtend 64 + count).toNat = offset.toNat + count.toNat := by
    rw [BitVec.toNat_add, (extend_positive positive).2, Nat.mod_eq_of_lt (by omega)]
  have extended : (size.signExtend 64).toNat = size.toNat := by
    have value := @toNat_signExtend_ofNat size.toNat (by omega)
    rwa [BitVec.ofNat_toNat, BitVec.setWidth_eq] at value
  constructor
  · rw [BitVec.toNat_setWidth, sum, Nat.mod_eq_of_lt (by omega)]
  · rw [BitVec.ult, extended, sum]

theorem Disk.Owns.fileWrite {r : Int} (owns : d.Owns) (there : d.Live f)
    (regular : d.fType f ≠ ftypeDir) (positive : 0 ≤ offset.toInt)
    (fits : offset.toNat + count.toNat ≤ maxFileSize)
    (clear : ∀ use ∈ writeUses f buf count offset d, use.Clear)
    (ran : fileWrite f buf count.toNat offset d = some (r, d')) :
    d'.Owns ∧ ∀ use ∈ writeUses f buf count offset d, use.Sound := by
  rw [fileWrite_moves] at ran
  obtain ⟨⟨r', moves, after⟩, moved, same⟩ := Option.map_eq_some_iff.mp ran
  cases same
  clear ran
  have legal := owns.legal f there
  obtain ⟨newsize, longer⟩ := written_ends legal positive fits
  have same : offset = BitVec.ofNat 32 offset.toNat := by rw [BitVec.ofNat_toNat, BitVec.setWidth_eq]
  -- The loop, on a disk on which the file is long enough.
  have loop (mid : Disk) (owns : mid.Owns) (there : mid.Live f) (regular : mid.fType f ≠ ftypeDir)
      (ends : offset.toNat + count.toNat ≤ (mid.fSize f).toNat)
      (clear : ∀ use ∈ movesUses f offset count Move.write (count.toNat + 1) offset 0 (buf, mid),
        use.Clear)
      (ran : Fs.movesFrom f offset count Move.write (count.toNat + 1) offset 0 (buf, mid) =
        some (r', moves, after)) :
      mid.Passes after.2 (movesUses f offset count Move.write (count.toNat + 1) offset 0 (buf, mid)) := by
    rw [same] at ran clear ⊢
    exact @Disk.Owns.movesFrom f offset.toNat offset.toNat (offset.toNat + count.toNat) count
      (fun type => type ≠ ftypeDir) Move.write _ _ (buf, mid) _ _ _ Move.write_local owns there regular
      rfl (Nat.le_add_right _ _) ends clear ran
  unfold fileWriteMoves at moved
  unfold writeUses at clear ⊢
  dsimp only at moved clear ⊢
  rw [longer] at moved clear ⊢
  by_cases more : (d.fSize f).toNat < offset.toNat + count.toNat
  · have less : ¬((offset.signExtend 64 + count).setWidth 32).slt (d.fSize f) = true := by
      rw [slt_sizes legal (by rw [newsize]; exact fits), newsize]
      omega
    rw [decide_eq_true more, if_pos rfl] at moved clear ⊢
    rw [setSizeUses, if_neg less, if_pos rfl, fileSetSize, if_neg less] at clear ⊢
    rw [fileSetSize, if_neg less] at moved
    have first := clear _ (List.mem_append_left _ List.mem_cons_self)
    obtain ⟨owns₁, there₁, type₁⟩ := owns.lengthen there (fun directory => absurd directory regular)
      (by rw [newsize]; omega) first
    have passes := loop _ owns₁ there₁ (by rw [type₁]; exact regular) (by rw [Disk.fSize, word_setWord, newsize])
      (fun use member => clear use (List.mem_append_right _ member)) moved
    refine ⟨passes.owns, fun use member => ?_⟩
    rcases List.mem_append.mp member with member | member
    · rw [List.mem_singleton.mp member]
      exact Use.sound_size
    · exact passes.uses use member
  · rw [decide_eq_false more, if_neg Bool.false_ne_true] at moved clear ⊢
    rw [if_neg Bool.false_ne_true, List.nil_append] at clear ⊢
    have passes := loop d owns there regular (by omega) clear moved
    exact ⟨passes.owns, passes.uses⟩

end Moves

section Truncate

variable {d d' mid : Disk} {f n : Nat} {newsize : BitVec 32} {path : Path}

theorem Disk.Owns.held (owns : d.Owns) (there : d.Live f) : d.Held f := by
  have page := pgSize_eq
  have length : fileSize = 256 := rfl
  refine ⟨owns.legal f there, ?_, fun block mine => ?_, fun filled => ?_⟩
  · rcases owns.place there.spot with root | ⟨-, -, -, block, -, behind, -, j, few, place⟩
    · exact .inl root
    · exact .inr (by omega)
  · obtain ⟨onDisk, behind, -⟩ := owns.blocks f there block mine
    exact ⟨onDisk, behind⟩
  · have record := owns.record (owns.plain_indirect there filled) there.spot
    rw [length, page]
    exact record

theorem Disk.Owns.storedFile (owns : d.Owns) (there : d.Live f) (regular : d.fType f ≠ ftypeDir) :
    d.Stored f := by
  have held := owns.held there
  refine ⟨held.legal, held.placed.resolve_left ?_, held.blocks, held.outside⟩
  rintro rfl
  exact regular owns.root

theorem Disk.Owns.touched (owns : d.Owns) (there : d.Live f) {addr : Nat}
    (touched : d.Touched f addr) : d.Within f addr := by
  rcases touched with inside | inside | ⟨filled, low, high⟩
  · exact .inl inside
  · exact .inr (.inl inside)
  · exact .inr (.inr ⟨_, there, mem_owned_indirect filled, owns.plain_indirect there filled, low, high⟩)

theorem tail_owned {block : Nat} (member : block ∈ d.tail f n) : block ∈ d.owned f := by
  rcases Disk.mem_tail.mp member with ⟨bno, -, low, present, same⟩ | ⟨⟨-, filled⟩, same⟩
  · exact mem_owned (mem_dataBlocks.mpr ⟨bno, low, present, same⟩)
  · rw [same]
    exact mem_owned_indirect filled

theorem kept_tail {k : Nat} (once : (d.owned f).Nodup) (low : k < n)
    (inside : k < blocksFor (d.fSize f)) (present : d.present f k = true) :
    d.blockAt f k ∉ d.tail f n := by
  obtain ⟨data, last⟩ := owned_nodup.mp once
  intro member
  rcases Disk.mem_tail.mp member with ⟨bno, high, low', present', same⟩ | ⟨⟨-, filled⟩, same⟩
  · have equal := data bno low' k inside present' present same
    omega
  · exact last filled k inside present same

/-- The blocks of a file whose first blocks are left, after its size is stored. -/
theorem Disk.Trimmed.sameBlocks (trimmed : d.Trimmed f n mid) (held : d.Held f)
    (few : n ≤ nDirect + nIndirect) : d.SameBlocks (mid.setWord (fSizeAt f) newsize) f n := by
  have sizeAt : fSizeAt f = f + 128 := rfl
  have indirectAt : fIndirectAt f = f + 176 := rfl
  have indirect : fIndirect (mid.setWord (fSizeAt f) newsize) f =
      if n ≤ nDirect then 0 else d.fIndirect f := by
    rw [Disk.fIndirect, word_setWord_other (by omega)]
    exact trimmed.indirect
  have slotAt {k : Nat} (low : k < n) :
      slotAt (mid.setWord (fSizeAt f) newsize) f k = d.slotAt f k := by
    unfold Disk.slotAt
    by_cases direct : k < nDirect
    · rw [if_pos direct, if_pos direct]
    · have more : ¬n ≤ nDirect := by omega
      rw [if_neg direct, if_neg direct, indirect, if_neg more]
  have words {k : Nat} (low : k < n) (slot : d.HasSlot f k) :
      word (mid.setWord (fSizeAt f) newsize) (d.slotAt f k) = d.word (d.slotAt f k) := by
    rw [word_setWord_other (held.slot slot).2.2.1.symm]
    exact trimmed.slots k (.inl low) slot
  have reached {k : Nat} (low : k < n) :
      (k < nDirect ∨ fIndirect (mid.setWord (fSizeAt f) newsize) f ≠ 0) ↔
        (k < nDirect ∨ d.fIndirect f ≠ 0) := by
    refine or_congr_right' fun far => ?_
    have more : ¬n ≤ nDirect := by omega
    rw [indirect, if_neg more]
  refine ⟨fun k low => Bool.eq_iff_iff.mpr ?_, fun k low filled => ?_⟩
  · rw [present_iff, present_iff, slotAt low, reached low]
    exact and_congr_right fun reach => by rw [words low ⟨by omega, reach⟩]
  · rw [Disk.blockAt, slotAt low, words low ⟨by omega, (present_iff.mp filled).1⟩]
    rfl

theorem Disk.Owns.shorten (owns : d.Owns) (there : d.Live f)
    (legal : newsize.toNat ≤ maxFileSize) (less : newsize.toNat < (d.fSize f).toNat)
    (ran : fileTruncateBlocks f newsize d = some mid) : Owns (mid.setWord (fSizeAt f) newsize) := by
  have held := owns.held there
  have old := owns.legal f there
  have once := owns.once f there
  have least : blocksFor newsize ≤ blocksFor (d.fSize f) := by
    rw [blocksFor_eq legal, blocksFor_eq old]
    omega
  have few := (blocksOf_le old).2.2
  have sizeAt : fSizeAt f = f + 128 := rfl
  have typeAt : fTypeAt f = f + 132 := rfl
  have indirectAt : fIndirectAt f = f + 176 := rfl
  have length : fileSize = 256 := rfl
  obtain ⟨after, ran', trimmed⟩ := held.fileTruncateBlocks_trims least
  rw [ran] at ran'
  cases ran'
  have same : d.SameBlocks (mid.setWord (fSizeAt f) newsize) f (blocksFor newsize) :=
    trimmed.sameBlocks held (by omega)
  have size : fSize (mid.setWord (fSizeAt f) newsize) f = newsize := word_setWord
  have type : fType (mid.setWord (fSizeAt f) newsize) f = d.fType f := by
    rw [Disk.fType, word_setWord_other (by omega)]
    exact trimmed.type
  have indirect : fIndirect (mid.setWord (fSizeAt f) newsize) f =
      if blocksFor newsize ≤ nDirect then 0 else d.fIndirect f := by
    rw [Disk.fIndirect, word_setWord_other (by omega)]
    exact trimmed.indirect
  have off := held.off
  have start : bitmap = 8192 := rfl
  have ends := bitmapEnd_congr (held.sNblocks trimmed.frame)
  have free (block : Nat) : blockIsFree (mid.setWord (fSizeAt f) newsize) block = true ↔
      d.blockIsFree block = true ∨ block ∈ d.tail f (blocksFor newsize) := by
    have away : ∀ addr, addr < 4104 ∨ (bitmap ≤ addr ∧ addr < mid.bitmapEnd) →
        mid.setWord (fSizeAt f) newsize addr = mid addr :=
      fun addr near => setWord_other (by omega)
    rw [blockIsFree_kept away, trimmed.free]
  have busy (block : Nat) (used : d.blockIsFree block = false)
      (left : block ∉ d.tail f (blocksFor newsize)) :
      blockIsFree (mid.setWord (fSizeAt f) newsize) block = false := by
    rw [← Bool.not_eq_true, free]
    rintro (other | gone)
    · rw [used] at other
      cases other
    · exact left gone
  obtain ⟨kept, names, count⟩ := @Disk.Owns.kept d (mid.setWord (fSizeAt f) newsize) f owns there.spot
    fun addr outside => by
      have apart : addr < fSizeAt f ∨ fSizeAt f + 4 ≤ addr := by
        by_contra inside
        exact outside (.inr (.inl (by omega)))
      rw [setWord_other apart]
      exact trimmed.frame addr fun touched => outside (owns.touched there touched)
  generalize mid.setWord (fSizeAt f) newsize = d' at *
  have size' : blocksFor (d'.fSize f) = blocksFor newsize := by rw [size]
  -- What the file owns now it owned before, and it is not among the blocks that go.
  have mine (block : Nat) (member : block ∈ d'.owned f) :
      block ∈ d.owned f ∧ block ∉ d.tail f (blocksFor newsize) := by
    rcases same.mem_owned (by omega) (fun k low _ => by omega) member with
      ⟨k, low, inside, present, rfl⟩ | ⟨filled, rfl⟩
    · exact ⟨mem_owned (mem_dataBlocks.mpr ⟨k, inside, present, rfl⟩),
        kept_tail once (by omega) inside present⟩
    · rw [indirect] at filled ⊢
      by_cases direct : blocksFor newsize ≤ nDirect
      · rw [if_pos direct] at filled
        exact absurd rfl filled
      · rw [if_neg direct] at filled ⊢
        refine ⟨mem_owned_indirect filled, fun gone => ?_⟩
        rcases Disk.mem_tail.mp gone with ⟨bno, -, low, present, equal⟩ | ⟨⟨direct', -⟩, -⟩
        · exact (owned_nodup.mp once).2 filled bno low present equal
        · exact direct direct'
  -- An entry that is left in a directory was there before.
  have entries (e : FilePtr) (member : d'.InDir f e) : d.InDir f e := by
    obtain ⟨bno, low, present, j, small, place⟩ := member
    have within := (blocksOf_le legal).2.1
    rw [size] at low
    rw [same.present bno (by omega)] at present
    rw [same.blockAt bno (by omega) present] at place
    refine ⟨bno, ?_, present, j, small, place⟩
    rw [(blocksOf_le old).1]
    rw [(blocksOf_le legal).1] at low
    omega
  have own (directory : d'.fType f = ftypeDir) (e : FilePtr) (member : d'.InDir f e) (used : d' e ≠ 0) :
      d.Live e ∨ e = f := by
    by_cases self : e = f
    · exact .inr self
    · rw [type] at directory
      rw [names f there directory e (entries e member) self] at used
      exact .inl (.entry there directory (entries e member) used)
  refine owns.change (fun g alive => live_or owns.legal kept names own alive) kept count ?_
    (fun block still => ?_) (fun g alive differ block member => ?_) (fun _ => ?_)
    (fun _ block member => ?_) fun _ => ?_
  · by_cases self : sRoot = f
    · rw [self, type, ← self]
      exact owns.root
    · rw [(kept sRoot .root self).type]
      exact owns.root
  · rw [bitmapEnd_congr count]
    rcases (free block).mp still with still | gone
    · exact owns.reserved block still
    · exact (owns.blocks f there block (tail_owned gone)).2.1
  · exact busy block (owns.blocks g alive block member).2.2 fun gone =>
      differ (owns.apart g f block alive there member (tail_owned gone))
  · rw [size]
    exact legal
  · obtain ⟨member, left⟩ := mine block member
    obtain ⟨onDisk, high, used⟩ := owns.blocks f there block member
    exact ⟨⟨onDisk, high, busy block used left⟩, fun g alive differ other =>
      differ (owns.apart g f block alive there other member)⟩
  · refine same.nodup (by omega) (fun k low _ => by omega) (fun filled => ?_) once
    rw [indirect] at filled ⊢
    by_cases direct : blocksFor newsize ≤ nDirect
    · rw [if_pos direct] at filled
      exact absurd rfl filled
    · rw [if_neg direct]

theorem Disk.Owns.fileSetSize {r : Int} (owns : d.Owns) (there : d.Live f)
    (legal : newsize.toNat ≤ maxFileSize)
    (whole : d.fType f = ftypeDir → (d.fSize f).toNat < newsize.toNat → d.wholeBlocks f = true)
    (clear : ∀ use ∈ setSizeUses f newsize d, use.Clear)
    (ran : fileSetSize f newsize d = some (r, d')) :
    d'.Owns ∧ ∀ use ∈ setSizeUses f newsize d, use.Sound := by
  have old := owns.legal f there
  have order := slt_sizes old legal
  unfold Disk.fileSetSize at ran
  unfold setSizeUses at clear ⊢
  obtain ⟨mid, truncated, same⟩ := Option.map_eq_some_iff.mp ran
  cases same
  clear ran
  by_cases less : newsize.slt (d.fSize f) = true
  · rw [if_pos less] at truncated ⊢
    exact ⟨owns.shorten there legal (order.mp less) truncated, fun _ member => absurd member
      List.not_mem_nil⟩
  · rw [if_neg less] at truncated clear ⊢
    cases truncated
    obtain ⟨owns', -⟩ := owns.lengthen there whole (not_lt.mp (order.not.mp less))
      (clear _ List.mem_cons_self)
    exact ⟨owns', fun use member => by
      rw [List.mem_singleton.mp member]
      exact Use.sound_size⟩

theorem Disk.Owns.erase (owns : d.Owns) (there : d.Live f)
    (ran : fileTruncateBlocks f 0 d = some mid) :
    Owns (Disk.setWord (update mid f 0) (fSizeAt f) 0) := by
  have held := owns.held there
  have none : blocksFor 0 = 0 := by decide
  have least : blocksFor 0 ≤ blocksFor (d.fSize f) := none.le.trans (Nat.zero_le _)
  obtain ⟨after, ran', trimmed⟩ := @Disk.Held.fileTruncateBlocks_trims d f held 0 least
  rw [ran] at ran'
  cases ran'
  have sizeAt : fSizeAt f = f + 128 := rfl
  have typeAt : fTypeAt f = f + 132 := rfl
  have indirectAt : fIndirectAt f = f + 176 := rfl
  have off := held.off
  have start : bitmap = 8192 := rfl
  have ends := bitmapEnd_congr (held.sNblocks trimmed.frame)
  have record (addr : Nat) (apart : addr ≠ f ∧ (addr < f + 128 ∨ f + 132 ≤ addr)) :
      Disk.setWord (update mid f 0) (fSizeAt f) 0 addr = mid addr := by
    rw [setWord_other (by omega), update_of_ne apart.1]
  have free (block : Nat) :
      blockIsFree (Disk.setWord (update mid f 0) (fSizeAt f) 0) block = true ↔
        d.blockIsFree block = true ∨ block ∈ d.tail f (blocksFor 0) := by
    rw [blockIsFree_kept fun addr near => record addr (by omega), trimmed.free]
  have size : fSize (Disk.setWord (update mid f 0) (fSizeAt f) 0) f = 0 := word_setWord
  have type : fType (Disk.setWord (update mid f 0) (fSizeAt f) 0) f = d.fType f := by
    rw [Disk.fType, word_congr fun k low _ => record k (by omega)]
    exact trimmed.type
  have indirect : fIndirect (Disk.setWord (update mid f 0) (fSizeAt f) 0) f = 0 := by
    rw [Disk.fIndirect, word_congr fun k low _ => record k (by omega)]
    exact trimmed.indirect.trans (if_pos (none.le.trans (Nat.zero_le _)))
  obtain ⟨kept, names, count⟩ :=
    @Disk.Owns.kept d (Disk.setWord (update mid f 0) (fSizeAt f) 0) f owns there.spot
      fun addr outside => by
        have apart : addr < f ∨ f + 256 ≤ addr := by
          by_contra inside
          exact outside (.inr (.inl (by omega)))
        rw [record addr (by omega)]
        exact trimmed.frame addr fun touched => outside (owns.touched there touched)
  generalize Disk.setWord (update mid f 0) (fSizeAt f) 0 = d' at *
  have nothing : d'.owned f = [] := by
    rw [Disk.owned, Disk.dataBlocks, size, none, indirect]
    rfl
  have bare (e : FilePtr) : ¬d'.InDir f e := by
    rintro ⟨bno, low, -⟩
    rw [size] at low
    exact Nat.not_lt_zero bno low
  refine owns.change (fun g alive => live_or owns.legal kept names
      (fun _ e member _ => absurd member (bare e)) alive) kept count ?_ (fun block still => ?_)
    (fun g alive differ block member => ?_) (fun _ => ?_) (fun _ block member => ?_) fun _ => ?_
  · by_cases self : sRoot = f
    · rw [self, type, ← self]
      exact owns.root
    · rw [(kept sRoot .root self).type]
      exact owns.root
  · rw [bitmapEnd_congr count]
    rcases (free block).mp still with still | gone
    · exact owns.reserved block still
    · exact (owns.blocks f there block (tail_owned gone)).2.1
  · rw [← Bool.not_eq_true, free]
    rintro (other | gone)
    · rw [(owns.blocks g alive block member).2.2] at other
      cases other
    · exact differ (owns.apart g f block alive there member (tail_owned gone))
  · rw [size]
    exact Nat.zero_le _
  · rw [nothing] at member
    cases member
  · rw [nothing]
    exact List.nodup_nil

theorem Disk.Owns.fileRemove {r : Int} (owns : d.Owns) (text : ∀ c ∈ path, c ≠ 0)
    (clear : ∀ use ∈ walkUses sRoot (components path) d, use.Clear)
    (ran : fileRemove path d = some (r, d')) :
    d'.Owns ∧ ∀ use ∈ walkUses sRoot (components path) d, use.Sound := by
  obtain ⟨⟨walk, d₁⟩, walked, ran⟩ := Option.bind_eq_some_iff.mp ran
  obtain ⟨passes, sound⟩ := owns.walkPath text clear walked
  refine ⟨?_, passes.uses⟩
  cases walk with
  | missing dir name =>
    cases ran
    exact passes.owns
  | failed code =>
    cases ran
    exact passes.owns
  | found parent f =>
    obtain ⟨mid, truncated, same⟩ := Option.map_eq_some_iff.mp ran
    cases same
    exact passes.owns.erase sound truncated

end Truncate

/-- A call of a function of fs/fs.c. -/
inductive FileCall where
  | create (path : Path)
  | openFile (path : Path)
  | read (f : FilePtr) (buf : Bytes) (count : BitVec 64) (offset : BitVec 32)
  | write (f : FilePtr) (buf : Bytes) (count : BitVec 64) (offset : BitVec 32)
  | setSize (f : FilePtr) (newsize : BitVec 32)
  | remove (path : Path)
  | flush (f : FilePtr)

namespace FileCall

def step (d : Disk) : FileCall → Option Disk
  | create path => (fileCreate path d).map Prod.snd
  | openFile path => (fileOpen path d).map Prod.snd
  | read f buf count offset => (fileRead f buf count.toNat offset d).map fun result => result.2.2
  | write f buf count offset => (fileWrite f buf count.toNat offset d).map Prod.snd
  | setSize f newsize => (fileSetSize f newsize d).map Prod.snd
  | remove path => (fileRemove path d).map Prod.snd
  | flush f => fileFlush f d

/-- The arguments are within range: strings without null characters, files of the tree, positions
up to the greatest size; and only files that are no directories are written, sized or removed. -/
def InRange (d : Disk) : FileCall → Prop
  | create path => ∀ c ∈ path, c ≠ 0
  | openFile path => ∀ c ∈ path, c ≠ 0
  | read f _ count offset => d.Live f ∧ 0 ≤ offset.toInt ∧ offset.toNat + count.toNat ≤ maxFileSize
  | write f _ count offset => (d.Live f ∧ d.fType f ≠ ftypeDir) ∧
      0 ≤ offset.toInt ∧ offset.toNat + count.toNat ≤ maxFileSize
  | setSize f newsize => (d.Live f ∧ d.fType f ≠ ftypeDir) ∧ newsize.toNat ≤ maxFileSize
  | remove path => (∀ c ∈ path, c ≠ 0) ∧
      ∀ parent f d', walkPath path d = some (.found parent f, d') → d'.fType f ≠ ftypeDir
  | flush f => d.Live f

def uses (d : Disk) : FileCall → List Use
  | create path => createUses path d
  | openFile path => walkUses sRoot (components path) d
  | read f buf count offset => readUses f buf count offset d
  | write f buf count offset => writeUses f buf count offset d
  | setSize f newsize => setSizeUses f newsize d
  | remove path => walkUses sRoot (components path) d
  | flush _ => []

def Clear (d : Disk) (call : FileCall) : Prop := ∀ use ∈ call.uses d, use.Clear

end FileCall

section Calls

variable {d d' : Disk} {call : FileCall}

/-- One call keeps the owners of the blocks, and is given blocks without owners. -/
theorem Disk.Owns.step (owns : d.Owns) (inRange : call.InRange d) (clear : call.Clear d)
    (ran : call.step d = some d') : d'.Owns ∧ ∀ use ∈ call.uses d, use.Sound := by
  cases call with
  | create path =>
    obtain ⟨⟨r, after⟩, called, rfl⟩ := Option.map_eq_some_iff.mp ran
    exact owns.fileCreate inRange clear called
  | openFile path =>
    obtain ⟨⟨r, after⟩, called, rfl⟩ := Option.map_eq_some_iff.mp ran
    obtain ⟨⟨walk, d₁⟩, walked, ended⟩ := Option.bind_eq_some_iff.mp called
    obtain ⟨passes, -⟩ := owns.walkPath inRange clear walked
    have same : d₁ = after := by
      cases walk with
      | found parent f =>
        cases ended
        rfl
      | missing dir name =>
        cases ended
        rfl
      | failed code =>
        cases ended
        rfl
    subst same
    exact ⟨passes.owns, passes.uses⟩
  | read f buf count offset =>
    obtain ⟨⟨r, buf', after⟩, called, rfl⟩ := Option.map_eq_some_iff.mp ran
    have passes := owns.fileRead inRange.1 inRange.2.1 clear called
    exact ⟨passes.owns, passes.uses⟩
  | write f buf count offset =>
    obtain ⟨⟨r, after⟩, called, rfl⟩ := Option.map_eq_some_iff.mp ran
    exact owns.fileWrite inRange.1.1 inRange.1.2 inRange.2.1 inRange.2.2 clear called
  | setSize f newsize =>
    obtain ⟨⟨r, after⟩, called, rfl⟩ := Option.map_eq_some_iff.mp ran
    exact owns.fileSetSize inRange.1.1 inRange.2 (fun directory => absurd directory inRange.1.2)
      clear called
  | remove path =>
    obtain ⟨⟨r, after⟩, called, rfl⟩ := Option.map_eq_some_iff.mp ran
    exact owns.fileRemove inRange.1 clear called
  | flush f =>
    rw [fileFlush_eq ran]
    exact ⟨owns, fun _ member => absurd member List.not_mem_nil⟩

/-- In a run of calls that bring into use what is clear, the owners of the blocks are in order in
every state, and a block that is handed out has no owner. -/
theorem blocks_owned (reached : Reachable Owns FileCall.step
      (fun d call => call.InRange d ∧ call.Clear d) d) :
    d.Owns ∧ ∀ call d', call.InRange d → call.Clear d → FileCall.step d call = some d' →
      ∀ use ∈ call.uses d, use.Sound := by
  have owns : d.Owns := reached.invariant Owns (fun _ begun => begun)
    fun before call after owns guard ran => (owns.step guard.1 guard.2 ran).1
  exact ⟨owns, fun call d' inRange clear ran => (owns.step inRange clear ran).2⟩

end Calls

section Examples

variable {d : Disk} {f : FilePtr}

theorem Disk.Live.inTree (there : d.Live f) : ∃ path, d.InTree path f := by
  induction there with
  | root => exact ⟨[], .root⟩
  | @entry dir e _ directory member used ih =>
    obtain ⟨path, there⟩ := ih
    obtain ⟨bno, low, -, j, few, rfl⟩ := member
    refine ⟨_, .entry there directory (List.mem_flatMap.mpr ⟨bno, ?_, ?_⟩) used⟩
    · rw [List.mem_range'_1]
      omega
    · exact List.mem_map.mpr ⟨j, List.mem_range.mpr few, rfl⟩

/-- In a file system whose directories have no holes, the owners are in order. -/
theorem Disk.WellFormed.owns (wellFormed : d.WellFormed) (reserved : d.Reserved)
    (root : d.fType sRoot = ftypeDir) : d.Owns where
  reserved := reserved
  root := root
  legal f there := by
    obtain ⟨path, there⟩ := there.inTree
    exact wellFormed.legal path f there
  blocks f there := by
    obtain ⟨path, there⟩ := there.inTree
    exact wellFormed.blocks path f there
  once f there := by
    obtain ⟨path, there⟩ := there.inTree
    exact wellFormed.once path f there
  apart f g block there there' := by
    obtain ⟨path, there⟩ := there.inTree
    obtain ⟨path', there'⟩ := there'.inTree
    exact wellFormed.apart path f path' g block there there'

set_option maxRecDepth 10000 in
/-- Creating "/a" in an empty root directory, whose first entry is given to the file. -/
theorem createUses_small : FileCall.uses smallDisk (.create pathA) =
    [.block sRoot 0 smallDisk, .block sRoot 0 smallDisk, .entry (3 * pgSize) smallDisk] := by
  with_unfolding_all rfl

theorem blocks_owned_small :
    ∃ d', FileCall.step smallDisk (.create pathA) = some d' ∧ d'.Owns := by
  have runs : (FileCall.step smallDisk (.create pathA)).isSome = true := by decide +kernel
  obtain ⟨d', ran⟩ := Option.isSome_iff_exists.mp runs
  have owns := smallDisk_wellFormed.owns smallDisk_reserved (by decide +kernel)
  have block : smallDisk.Clear sRoot 0 :=
    ⟨fun far => absurd far (by decide), fun _ absent => absurd absent (by decide +kernel)⟩
  have entry : Use.Clear (.entry (3 * pgSize) smallDisk) := ⟨by decide +kernel, by decide +kernel⟩
  have clear : FileCall.Clear smallDisk (.create pathA) := by
    intro use member
    rw [createUses_small] at member
    simp only [List.mem_cons, List.not_mem_nil, or_false] at member
    rcases member with rfl | rfl | rfl
    · exact block
    · exact block
    · exact entry
  have inRange : FileCall.InRange smallDisk (.create pathA) :=
    show ∀ c ∈ pathA, c ≠ 0 by decide
  exact ⟨d', ran, (blocks_owned ⟨smallDisk, [] ++ [.create pathA], owns,
    Along.nil.snoc ⟨inRange, clear⟩ ran⟩).1⟩

/-- A disk of eight blocks with an empty root directory. In the first free block there is what was
an entry for "b", whose block is the superblock. -/
def staleDisk : Disk := fun addr =>
  if addr = super + 4 then 8
  else if addr = bitmap then 0xF8
  else if addr = sRoot then slash
  else if addr = fTypeAt sRoot then 1
  else if addr = fileAt (3 * pgSize) 1 then 98
  else if addr = fSizeAt (fileAt (3 * pgSize) 1) + 1 then 16
  else if addr = fDirectAt (fileAt (3 * pgSize) 1) 0 then 1
  else 0

theorem staleDisk_owns : staleDisk.Owns := by
  have facts : blocksOf (staleDisk.fSize sRoot) = 0 ∧ (staleDisk.fSize sRoot).toNat ≤ maxFileSize ∧
      staleDisk.owned sRoot = [] ∧ staleDisk.sNblocks = 8 := by decide +kernel
  obtain ⟨none, legal, nothing, few⟩ := facts
  have only (f : FilePtr) (there : staleDisk.Live f) : f = sRoot := by
    induction there with
    | root => rfl
    | entry _ _ member _ ih =>
      obtain ⟨bno, low, -⟩ := member
      rw [ih, none] at low
      exact absurd low (Nat.not_lt_zero bno)
  refine ⟨fun block free => ?_, by decide +kernel, fun f there => ?_, fun f there block member => ?_,
    fun f there => ?_, fun f g block there there' _ _ => ?_⟩
  · have all : ∀ block < 8, staleDisk.blockIsFree block = true →
        staleDisk.bitmapEnd ≤ block * pgSize := by decide +kernel
    have inside : block < staleDisk.sNblocks := by
      rw [Disk.blockIsFree, Bool.and_eq_true, decide_eq_true_eq] at free
      exact free.1
    exact all block (few ▸ inside) free
  · rw [only f there]
    exact legal
  · rw [only f there, nothing] at member
    cases member
  · rw [only f there, nothing]
    exact List.nodup_nil
  · rw [only f there, only g there']

/-- Creating "/a" gives that block to the root directory as it is: "b" is a file again, and it
owns the superblock. -/
theorem stale_not_owned : staleDisk.Owns ∧ FileCall.InRange staleDisk (.create pathA) ∧
    ∃ d', FileCall.step staleDisk (.create pathA) = some d' ∧ ¬d'.Owns := by
  refine ⟨staleDisk_owns, show ∀ c ∈ pathA, c ≠ 0 by decide, ?_⟩
  have runs : ((FileCall.step staleDisk (.create pathA)).any fun d' =>
      (d'.fType sRoot = ftypeDir ∧ blocksOf (d'.fSize sRoot) = 1 ∧ d'.present sRoot 0 = true ∧
        d'.blockAt sRoot 0 = 3 ∧ d' (fileAt (3 * pgSize) 1) = 98) ∧
        1 ∈ d'.owned (fileAt (3 * pgSize) 1)) = true := by decide +kernel
  obtain ⟨d', ran, holds⟩ := (Option.any_eq_true _ _).mp runs
  obtain ⟨⟨directory, one, present, third, name⟩, superblock⟩ := of_decide_eq_true holds
  refine ⟨d', ran, fun owns => ?_⟩
  have member : d'.InDir sRoot (fileAt (3 * pgSize) 1) :=
    ⟨0, by rw [one]; decide, present, 1, by decide, by rw [third]⟩
  have alive : d'.Live (fileAt (3 * pgSize) 1) :=
    .entry .root directory member (by rw [name]; decide)
  have low := owns.low alive superblock
  omega

end Examples

end Fs

end Jos
