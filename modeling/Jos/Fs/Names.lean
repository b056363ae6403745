import Jos.Fs.Disk

/-! The names on a path, which `walk_path` takes one after the other. -/

set_option autoImplicit false

namespace Jos

open Foundation Function

namespace Fs

open Disk

def nameList (split : Path × List Path) : List Path :=
  if split.1 = [] then split.2 else split.1 :: split.2

/-- The name that a path begins with, empty before a slash, and the names behind it. -/
def splitNames : Path → Path × List Path
  | [] => ([], [])
  | c :: rest =>
    if c = slash then ([], nameList (splitNames rest))
    else (c :: (splitNames rest).1, (splitNames rest).2)

def components (path : Path) : List Path := nameList (splitNames path)

section Split

variable {path : Path}

theorem splitNames_slash (rest : Path) : splitNames (slash :: rest) = ([], components rest) := by
  rw [splitNames, if_pos rfl]
  rfl

theorem splitNames_other {c : BitVec 8} (differ : c ≠ slash) (rest : Path) :
    splitNames (c :: rest) = (c :: (splitNames rest).1, (splitNames rest).2) := by
  rw [splitNames, if_neg differ]

theorem components_slash (rest : Path) : components (slash :: rest) = components rest := by
  rw [components, splitNames_slash]
  rfl

theorem components_skipSlash (path : Path) : components (skipSlash path) = components path := by
  induction path with
  | nil => rfl
  | cons c rest ih =>
    by_cases same : c = slash
    · rw [same, components_slash, ← ih, skipSlash, List.dropWhile_cons_of_pos (by simp)]
      rfl
    · rw [skipSlash, List.dropWhile_cons_of_neg (by simpa using same)]

theorem splitNames_eq (path : Path) :
    splitNames path = (path.takeWhile (· ≠ slash), components (path.dropWhile (· ≠ slash))) := by
  induction path with
  | nil => rfl
  | cons c rest ih =>
    by_cases same : c = slash
    · rw [same, splitNames_slash, List.takeWhile_cons_of_neg (by simp),
        List.dropWhile_cons_of_neg (by simp), components_slash]
    · rw [splitNames_other same, ih, List.takeWhile_cons_of_pos (by simpa using same),
        List.dropWhile_cons_of_pos (by simpa using same)]

theorem skipSlash_head (path : Path) : (skipSlash path).head? ≠ some slash := by
  intro first
  have kept := List.head?_dropWhile_not (fun c => decide (c = slash)) path
  rw [skipSlash] at first
  rw [first] at kept
  simp at kept

theorem takeWhile_name (more : path ≠ []) (relative : path.head? ≠ some slash) :
    path.takeWhile (· ≠ slash) ≠ [] := by
  cases path with
  | nil => exact absurd rfl more
  | cons c rest =>
    have other : c ≠ slash := fun same => relative (by rw [same]; rfl)
    rw [List.takeWhile_cons_of_pos (by simpa using other)]
    exact List.cons_ne_nil _ _

theorem components_eq (more : path ≠ []) (relative : path.head? ≠ some slash) :
    components path = path.takeWhile (· ≠ slash) ::
      components (skipSlash (path.dropWhile (· ≠ slash))) := by
  rw [components, splitNames_eq, components_skipSlash]
  exact if_neg (takeWhile_name more relative)

theorem components_nil (relative : path.head? ≠ some slash) : components path = [] ↔ path = [] := by
  constructor
  · intro none
    by_contra more
    rw [components_eq more relative] at none
    cases none
  · rintro rfl
    rfl

theorem mem_nameList {split : Path × List Path} {name : Path} (member : name ∈ nameList split) :
    (name = split.1 ∧ name ≠ []) ∨ name ∈ split.2 := by
  rw [nameList] at member
  split at member
  · exact .inr member
  · rename_i some
    rcases List.mem_cons.mp member with rfl | later
    · exact .inl ⟨rfl, some⟩
    · exact .inr later

theorem splitNames_mem (path : Path) : (∀ c ∈ (splitNames path).1, c ∈ path) ∧
    ∀ name ∈ (splitNames path).2, name ≠ [] ∧ ∀ c ∈ name, c ∈ path := by
  induction path with
  | nil => exact ⟨fun c member => (List.not_mem_nil member).elim, fun _ member => (List.not_mem_nil member).elim⟩
  | cons c rest ih =>
    by_cases same : c = slash
    · rw [same, splitNames_slash]
      refine ⟨fun c member => (List.not_mem_nil member).elim, fun name member => ?_⟩
      rcases mem_nameList member with ⟨rfl, some⟩ | later
      · exact ⟨some, fun c inside => List.mem_cons_of_mem _ (ih.1 c inside)⟩
      · exact ⟨(ih.2 name later).1, fun c inside => List.mem_cons_of_mem _ ((ih.2 name later).2 c inside)⟩
    · rw [splitNames_other same]
      refine ⟨fun a member => ?_, fun name member =>
        ⟨(ih.2 name member).1, fun a inside => List.mem_cons_of_mem _ ((ih.2 name member).2 a inside)⟩⟩
      rcases List.mem_cons.mp member with rfl | later
      · exact List.mem_cons_self
      · exact List.mem_cons_of_mem _ (ih.1 a later)

theorem mem_components {name : Path} (member : name ∈ components path) :
    name ≠ [] ∧ ∀ c ∈ name, c ∈ path := by
  have both := splitNames_mem path
  rcases mem_nameList member with ⟨rfl, some⟩ | later
  · exact ⟨some, both.1⟩
  · exact both.2 name later

end Split

/-- `walk_path` on the names of a path. -/
def walkNames : Option FilePtr → FilePtr → List Path → Disk → Option (Walk × Disk)
  | dir, f, [], d => some (.found dir f, d)
  | _, f, name :: rest, d =>
    if maxNameLen ≤ name.length then some (.failed (-eBadPath), d)
    else if d.fType f ≠ ftypeDir then some (.failed (-eNotFound), d)
    else
      (dirLookup f name d).bind fun (r, d) =>
        match r with
        | .ok next => walkNames (some f) next rest d
        | .error r =>
          if r = -eNotFound ∧ rest = [] then some (.missing f name, d) else some (.failed r, d)

theorem walkFrom_eq {left : Nat} {dir : Option FilePtr} {f : FilePtr} {path : Path} {d : Disk}
    (rounds : path.length < left) (relative : path.head? ≠ some slash) :
    walkFrom left dir f path d = walkNames dir f (components path) d := by
  induction left generalizing dir f path d with
  | zero => omega
  | succ left ih =>
    rw [Disk.walkFrom]
    by_cases more : path = []
    · rw [if_pos more, more]
      rfl
    · have named := takeWhile_name more relative
      have after := skipSlash_head (path.dropWhile (· ≠ slash))
      have shorter : (skipSlash (path.dropWhile (· ≠ slash))).length < path.length := by
        have parts := congrArg List.length
          (List.takeWhile_append_dropWhile (p := fun c => decide (c ≠ slash)) (l := path))
        have skipped := (List.dropWhile_suffix (l := path.dropWhile (· ≠ slash))
          fun c => decide (c = slash)).length_le
        have some := List.length_pos_iff.mpr named
        rw [List.length_append] at parts
        rw [skipSlash]
        omega
      rw [if_neg more, components_eq more relative, walkNames]
      dsimp only
      congr 2
      refine congrArg (Option.bind _) (funext fun result => ?_)
      obtain ⟨r, d⟩ := result
      cases r with
      | ok next => exact ih (by omega) after
      | error r => simp only [components_nil after]

theorem walkPath_eq (path : Path) (d : Disk) :
    walkPath path d = walkNames none sRoot (components path) d := by
  have shorter : (skipSlash path).length ≤ path.length :=
    (List.dropWhile_suffix fun c => decide (c = slash)).length_le
  have rounds : (skipSlash path).length < path.length + 1 := Nat.lt_succ_of_le shorter
  rw [Disk.walkPath, walkFrom_eq rounds (skipSlash_head path), components_skipSlash]

end Fs

end Jos
