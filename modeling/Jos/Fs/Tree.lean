import Jos.Fs.Names
import Jos.Fs.Read

/-! The directories of a file system: how they are searched, and how a path is walked. -/

set_option autoImplicit false

namespace Jos

open Foundation Function

namespace Fs

open Disk

def Disk.entriesFrom (d : Disk) (dir : FilePtr) (i count : Nat) : List FilePtr :=
  (List.range' i count).flatMap fun bno =>
    (List.range blkFiles).map (fileAt (d.blockAt dir bno * pgSize))

def Disk.entries (d : Disk) (dir : FilePtr) : List FilePtr :=
  d.entriesFrom dir 0 (blocksOf (d.fSize dir))

inductive Disk.InTree (d : Disk) : List Path → FilePtr → Prop where
  | root : InTree d [] sRoot
  | entry {path : List Path} {dir f : FilePtr} :
      InTree d path dir → d.fType dir = ftypeDir → f ∈ d.entries dir → d f ≠ 0 →
      InTree d (path ++ [d.fName f]) f

def Disk.bitmapEnd (d : Disk) : Nat := bitmap + (d.sNblocks + (pgSize * 8 - 1)) / (pgSize * 8) * pgSize

def Disk.Placed (d : Disk) (f : FilePtr) : Prop := f = sRoot ∨ d.bitmapEnd ≤ f

structure Disk.Solid (d : Disk) : Prop where
  dirs : ∀ path dir, d.InTree path dir → d.fType dir = ftypeDir → ∃ n, d.Whole dir (n * pgSize)
  placed : ∀ path f, d.InTree path f → d.Placed f

section Search

variable {d : Disk} {dir : FilePtr} {n : Nat}

theorem Disk.Whole.blocksOf (whole : d.Whole dir (n * pgSize)) : blocksOf (d.fSize dir) = n := by
  rw [whole.length, blocksOf_ofNat whole.small, pgSize_eq, Nat.mul_div_cancel n (by decide)]

theorem Disk.Whole.wholeBlocks (whole : d.Whole dir (n * pgSize)) : d.wholeBlocks dir = true := by
  have rest : n * 4096 % 4096 = 0 := Nat.mul_mod_left n 4096
  have small := whole.small
  rw [pgSize_eq] at small
  rw [Disk.wholeBlocks, whole.length, pgSize_eq, srem_ofNat small (by decide), rest]
  rfl

theorem entryIn_eq (blk : Nat) (wanted : FilePtr → Bool) :
    entryIn blk wanted = ((List.range blkFiles).map (fileAt blk)).find? wanted := by
  rw [entryIn, List.find?_map]
  rfl

/-- The search of a directory that has all of its blocks changes nothing, and finds the
first entry that is wanted. -/
theorem Disk.Whole.dirSearch (whole : d.Whole dir (n * pgSize)) (wanted : Disk → FilePtr → Bool)
    {left i : Nat} (inside : i + left ≤ n) :
    dirSearch dir wanted left i d = done ((d.entriesFrom dir i left).find? (wanted d)) d := by
  induction left generalizing i with
  | zero => rfl
  | succ left ih =>
    have here : i * pgSize < n * pgSize := by
      rw [pgSize_eq]
      omega
    rw [Disk.dirSearch, whole.fileGetBlock here]
    simp only [andThen, done, Option.bind_some]
    have split : d.entriesFrom dir i (left + 1) =
        (List.range blkFiles).map (fileAt (d.blockAt dir i * pgSize)) ++
          d.entriesFrom dir (i + 1) left := by
      rw [Disk.entriesFrom, List.range'_succ, List.flatMap_cons]
      rfl
    rw [split, List.find?_append, ← entryIn_eq]
    cases entryIn (d.blockAt dir i * pgSize) (wanted d) with
    | some f => rfl
    | none => exact ih (by omega)

theorem Disk.Whole.dirLookup (whole : d.Whole dir (n * pgSize)) (name : Path) :
    dirLookup dir name d =
      match (d.entries dir).find? fun f => d.nameIs f name with
      | some f => done f d
      | none => fail (-eNotFound) d := by
  have found := whole.dirSearch (fun d f => d.nameIs f name) (Nat.le_of_eq (Nat.zero_add n))
  rw [Disk.dirLookup, if_pos whole.wholeBlocks, whole.blocksOf, found, Disk.entries, whole.blocksOf]
  cases (d.entriesFrom dir 0 n).find? fun f => d.nameIs f name with
  | some f => rfl
  | none => rfl

theorem nameIs_ne_zero {f : FilePtr} {name : Path} (same : d.nameIs f name = true)
    (nonempty : name ≠ []) (text : ∀ c ∈ name, c ≠ 0) : d f ≠ 0 := by
  cases name with
  | nil => exact absurd rfl nonempty
  | cons c rest =>
    have first := List.all_eq_true.mp same 0 (by simp)
    simp only [Nat.add_zero, decide_eq_true_eq, List.getD_cons_zero] at first
    rw [first]
    exact text c List.mem_cons_self

theorem Disk.InTree.found {path : List Path} {f : FilePtr} {name : Path} (there : d.InTree path dir)
    (directory : d.fType dir = ftypeDir) (text : name ≠ [] ∧ ∀ c ∈ name, c ≠ 0)
    (found : (d.entries dir).find? (fun f => d.nameIs f name) = some f) :
    d.InTree (path ++ [d.fName f]) f := by
  have named := List.find?_some found
  exact .entry there directory (List.mem_of_find?_eq_some found) (nameIs_ne_zero named text.1 text.2)

end Search

/-- Walking a path changes nothing, and where the last name is missing the directory is
one of the tree. -/
theorem Disk.Solid.walkNames {d d' : Disk} (solid : d.Solid) {parent : Option FilePtr} {f : FilePtr}
    {names path : List Path} {walk : Walk} (there : d.InTree path f)
    (text : ∀ name ∈ names, name ≠ [] ∧ ∀ c ∈ name, c ≠ 0)
    (ran : walkNames parent f names d = some (walk, d')) :
    d' = d ∧ ∀ dir name, walk = .missing dir name →
      (∃ path, d.InTree path dir) ∧ d.fType dir = ftypeDir := by
  induction names generalizing parent f path with
  | nil =>
    cases ran
    exact ⟨rfl, fun dir name same => by cases same⟩
  | cons name rest ih =>
    rw [Fs.walkNames] at ran
    split at ran
    · cases ran
      exact ⟨rfl, fun dir name same => by cases same⟩
    · split at ran
      · cases ran
        exact ⟨rfl, fun dir name same => by cases same⟩
      · rename_i directory
        have directory : d.fType f = ftypeDir := not_not.mp directory
        obtain ⟨n, whole⟩ := solid.dirs path f there directory
        rw [whole.dirLookup] at ran
        cases found : (d.entries f).find? fun e => d.nameIs e name with
        | none =>
          rw [found] at ran
          simp only [fail, Option.bind_some] at ran
          split at ran
          · cases ran
            refine ⟨rfl, fun dir name same => ?_⟩
            cases same
            exact ⟨⟨path, there⟩, directory⟩
          · cases ran
            exact ⟨rfl, fun dir name same => by cases same⟩
        | some next =>
          rw [found] at ran
          simp only [done, Option.bind_some] at ran
          have child := there.found directory (text name List.mem_cons_self) found
          exact ih child (fun later member => text later (List.mem_cons_of_mem _ member)) ran

theorem Disk.Solid.walkPath {d d' : Disk} (solid : d.Solid) {path : Path} {walk : Walk}
    (text : ∀ c ∈ path, c ≠ 0) (ran : walkPath path d = some (walk, d')) :
    d' = d ∧ ∀ dir name, walk = .missing dir name →
      (∃ names, d.InTree names dir) ∧ d.fType dir = ftypeDir := by
  rw [walkPath_eq] at ran
  refine solid.walkNames .root (fun name member => ?_) ran
  obtain ⟨nonempty, letters⟩ := mem_components member
  exact ⟨nonempty, fun c inside => text c (letters c inside)⟩

end Fs

end Jos
