import Jos.Lib.Argv

/-! What `spawn` leaves behind when it fails, and which program headers it looks at. -/

set_option autoImplicit false

namespace Jos.Spawn

open Foundation Function

/-- The caller has its descriptors and no page more than before, and the same
environments exist. -/
structure Clean (e : Nat) (s s' : State) : Prop where
  descriptors : ∀ fdnum, fdnum < Fds.maxFd →
    (s'.world.space e).uvpt (fdPage fdnum) = (s.world.space e).uvpt (fdPage fdnum)
  pages : ∀ pn entry, (s'.world.space e).uvpt pn = some entry →
    (s.world.space e).uvpt pn = some entry
  environments : s'.exists' = s.exists'

/-- The steps of `spawn` that fail without a trace. -/
def Step.Tidy : Step → Prop
  | .openFile | .header | .segmentAlloc => True
  | .exofork | .initStack | .segmentSeek | .segmentRead => False

/-- The call of `map_segment` that is refused first, from the page `j` on. -/
def refusedPage (a : Answers) (k memsz filesz : Nat) : Nat → Nat → Option Step
  | 0, _ => none
  | left + 1, j =>
    if memsz ≤ j * pgSize then none
    else if filesz ≤ j * pgSize then
      if a.blank k j < 0 then some .segmentAlloc
      else refusedPage a k memsz filesz left (j + 1)
    else if a.temp k j < 0 then some .segmentAlloc
    else if a.seek k j < 0 then some .segmentSeek
    else if a.read k j < 0 then some .segmentRead
    else refusedPage a k memsz filesz left (j + 1)

def refusedSegment (a : Answers) (k : Nat) (h : Proghdr) : Option Step :=
  refusedPage a k ((h.memsz + h.va % pgSize) % 2 ^ 64) ((h.filesz + h.va % pgSize) % 2 ^ 64)
    intPages 0

def refusedHeader (a : Answers) (file : Elf) (stack : Nat → Nat → Option (BitVec 8)) (k : Nat) :
    Option Step :=
  (littleEndian (elfBuf file stack k) 4 (file.header k)).bind fun type =>
    if type ≠ elfProgLoad then none
    else (proghdr (elfBuf file stack k) (file.header k)).bind fun h => refusedSegment a k h

def refusedHeaders (a : Answers) (file : Elf) (stack : Nat → Nat → Option (BitVec 8)) :
    Nat → Option Step
  | 0 => none
  | k + 1 => (refusedHeaders a file stack k).or (refusedHeader a file stack k)

def refusedStart (a : Answers) (e : Nat) (file : Elf) (argv : List Str) (w : World) : Option Step :=
  if fdSlot e w = none ∨ a.openFile < 0 then some .openFile
  else if a.readHeader < 0 ∨ file.bytes.length < elfBufSize ∨ file.magic ≠ elfMagic then some .header
  else if a.exofork < 0 then some .exofork
  else if back (argvStore argv) 16 < utemp ∨ a.stackAlloc < 0 ∨ a.stackMap < 0 ∨ a.stackUnmap < 0 then
    some .initStack
  else none

/-- The step that is refused first, by the answers, the file and the arguments alone. -/
def refused (a : Answers) (e : Nat) (file : Elf) (stack : Nat → Nat → Option (BitVec 8))
    (argv : List Str) (w : World) : Option Step :=
  (refusedStart a e file argv w).or (refusedHeaders a file stack file.phnum)

/-- The caller has the pages that it had, except perhaps the one at UTEMP. -/
structure Kept (e : Nat) (w w' : World) : Prop where
  other : ∀ q, q ≠ vpn utemp → (w'.space e).uvpt q = (w.space e).uvpt q
  temp : ∀ entry, (w'.space e).uvpt (vpn utemp) = some entry →
    (w.space e).uvpt (vpn utemp) = some entry
  next : w.next ≤ w'.next

structure Littered (e : Nat) (w w' : World) : Prop where
  other : ∀ q, q ≠ vpn utemp → (w'.space e).uvpt q = (w.space e).uvpt q
  temp : ∃ entry, (w'.space e).uvpt (vpn utemp) = some entry ∧ w.next ≤ entry.ppn

/-- What the steps of `map_segment` do to the caller. -/
inductive Mapped (e : Nat) (w : World) : Except Failure Unit × World → Prop where
  | ok {w' : World} (kept : Kept e w w') : Mapped e w (.ok (), w')
  | alloc {w' : World} {failure : Failure} (step : failure.step = .segmentAlloc)
      (kept : Kept e w w') : Mapped e w (.error failure, w')
  | file {w' : World} {failure : Failure}
      (step : failure.step = .segmentSeek ∨ failure.step = .segmentRead)
      (littered : Littered e w w') : Mapped e w (.error failure, w')

section Caller

variable {a : Answers} {e child k : Nat} {file : Elf} {w w' w'' : World} {perm : BitVec 12}
  {stack : Nat → Nat → Option (BitVec 8)} {result : Except Failure Unit × World}

theorem Kept.refl : Kept e w w := ⟨fun _ _ => rfl, fun _ there => there, le_rfl⟩

theorem Kept.trans (first : Kept e w w') (second : Kept e w' w'') : Kept e w w'' :=
  ⟨fun q apart => (second.other q apart).trans (first.other q apart),
    fun entry there => first.temp entry (second.temp entry there), first.next.trans second.next⟩

theorem Kept.mapped (kept : Kept e w w') (mapped : Mapped e w' result) : Mapped e w result := by
  cases mapped with
  | ok kept' => exact .ok (kept.trans kept')
  | alloc step kept' => exact .alloc step (kept.trans kept')
  | file step littered =>
    obtain ⟨entry, there, new⟩ := littered.temp
    exact .file step ⟨fun q apart => (littered.other q apart).trans (kept.other q apart),
      entry, there, kept.next.trans new⟩

theorem readn_space {offset : Int} {n : Nat} : (readn e file offset n w).space = w.space := by
  unfold readn
  split <;> rfl

theorem readn_next {offset : Int} {n : Nat} : (readn e file offset n w).next = w.next := by
  unfold readn
  split <;> rfl

theorem pageMap_other {src pn dst q p : Nat} (apart : e ≠ dst) :
    ((w.pageMap src pn dst q perm).space e).uvpt p = (w.space e).uvpt p := by
  unfold World.pageMap
  split
  · rw [World.insert_uvpt, if_neg fun both => apart both.1]
  · rfl

theorem pageMap_next {src pn dst q : Nat} : (w.pageMap src pn dst q perm).next = w.next := by
  unfold World.pageMap
  split <;> rfl

theorem kept_page {pn n : Nat} {offset : Int} (differ : child ≠ e) :
    Kept e w (((readn e file offset n (w.pageAlloc e (vpn utemp) permPrivate)).pageMap e (vpn utemp)
      child pn perm).remove e (vpn utemp)) where
  other q apart := by
    rw [World.remove_uvpt, if_neg fun both => apart both.2, pageMap_other differ.symm, readn_space,
      World.pageAlloc_uvpt, if_neg fun both => apart both.2]
  temp entry there := by
    rw [World.remove_uvpt, if_pos ⟨rfl, rfl⟩] at there
    cases there
  next := by
    have same := @pageMap_next (readn e file offset n (w.pageAlloc e (vpn utemp) permPrivate)) perm e
      (vpn utemp) child pn
    rw [readn_next] at same
    exact (Nat.le_succ w.next).trans same.ge

theorem littered_page : Littered e w (w.pageAlloc e (vpn utemp) permPrivate) where
  other q apart := by rw [World.pageAlloc_uvpt, if_neg fun both => apart both.2]
  temp := ⟨_, by rw [World.pageAlloc_uvpt, if_pos ⟨rfl, rfl⟩], le_rfl⟩

theorem mapPages_mapped {va memsz filesz left j : Nat} {fileoffset : Int} (differ : child ≠ e)
    (ran : mapPages a e child file k va memsz filesz fileoffset perm left j w = some result) :
    Mapped e w result := by
  induction left generalizing j w with
  | zero => cases ran
  | succ left ih =>
    unfold mapPages at ran
    dsimp only at ran
    split at ran
    · obtain rfl := Option.some.inj ran
      exact .ok .refl
    split at ran
    · split at ran
      · obtain rfl := Option.some.inj ran
        exact .alloc rfl .refl
      · refine Kept.mapped ⟨fun q _ => ?_, fun entry there => ?_, Nat.le_succ _⟩ (ih ran)
        · rw [World.pageAlloc_uvpt, if_neg fun both => differ both.1.symm]
        · rwa [World.pageAlloc_uvpt, if_neg fun both => differ both.1.symm] at there
    split at ran
    · obtain rfl := Option.some.inj ran
      exact .alloc rfl .refl
    split at ran
    · obtain rfl := Option.some.inj ran
      exact .file (.inl rfl) littered_page
    split at ran
    · obtain rfl := Option.some.inj ran
      exact .file (.inr rfl) littered_page
    split at ran
    · cases ran
    · exact (kept_page differ).mapped (ih ran)

theorem loadHeader_mapped (differ : child ≠ e)
    (ran : loadHeader a e child file stack k w = some result) : Mapped e w result := by
  obtain ⟨type, -, ran⟩ := Option.bind_eq_some_iff.mp ran
  split at ran
  · obtain rfl := Option.some.inj ran
    exact .ok .refl
  · obtain ⟨h, -, ran⟩ := Option.bind_eq_some_iff.mp ran
    exact mapPages_mapped differ ran

theorem loadHeaders_mapped {n : Nat} (differ : child ≠ e)
    (ran : loadHeaders a e child file stack w n = some result) : Mapped e w result := by
  induction n generalizing result with
  | zero =>
    cases ran
    exact .ok .refl
  | succ n ih =>
    obtain ⟨⟨before, w'⟩, first, ran⟩ := Option.bind_eq_some_iff.mp ran
    cases before with
    | error failure =>
      cases ran
      exact ih first
    | ok _ =>
      cases ih first with
      | ok kept => exact kept.mapped (loadHeader_mapped differ ran)

end Caller

/-- Where `spawn` can end before the program headers. -/
inductive Early (a : Answers) (e child : Nat) (file : Elf) (argv : List Str) (s : State) :
    Failure → State → Prop where
  | openFile {failure : Failure} (step : failure.step = .openFile) :
      Early a e child file argv s failure s
  | header {failure : Failure} {fdnum : Nat} (step : failure.step = .header)
      (slot : fdSlot e s.world = some fdnum) : Early a e child file argv s failure
        { s with world := close e fdnum (openPage e fdnum s.world) }
  | exofork {failure : Failure} {fdnum : Nat} (step : failure.step = .exofork)
      (slot : fdSlot e s.world = some fdnum) :
      Early a e child file argv s failure { s with world := openPage e fdnum s.world }
  | initStack {failure : Failure} {w : World} (step : failure.step = .initStack) :
      Early a e child file argv s failure
        { s with world := w, exists' := update s.exists' child true }

/-- `spawn` comes to the program headers. -/
structure Ready (a : Answers) (e child : Nat) (file : Elf) (argv : List Str) (s : State)
    (ready : Prepared) (s' : State) : Prop where
  slot : fdSlot e s.world = some ready.fdnum
  stack : initStack a e child argv ((openPage e ready.fdnum s.world).create child) =
    some (.ok ready.rsp, s'.world)
  exists' : s'.exists' = update s.exists' child true

section Prepare

variable {a : Answers} {e child k : Nat} {file : Elf} {w w' : World} {argv : List Str}
  {s s' : State} {stack : Nat → Nat → Option (BitVec 8)} {failure : Failure} {ready : Prepared}

theorem initStack_step (ran : initStack a e child argv w = some (.error failure, w')) :
    failure.step = .initStack := by
  unfold initStack at ran
  split at ran
  · obtain ⟨same, -⟩ := Prod.mk.inj (Option.some.inj ran)
    exact Except.error.inj same ▸ rfl
  split at ran
  · obtain ⟨same, -⟩ := Prod.mk.inj (Option.some.inj ran)
    exact Except.error.inj same ▸ rfl
  obtain ⟨stored, -, ran⟩ := Option.bind_eq_some_iff.mp ran
  dsimp only at ran
  split at ran
  · obtain ⟨same, -⟩ := Prod.mk.inj (Option.some.inj ran)
    exact Except.error.inj same ▸ rfl
  split at ran
  · obtain ⟨same, -⟩ := Prod.mk.inj (Option.some.inj ran)
    exact Except.error.inj same ▸ rfl
  · cases ran

theorem prepare_exofork {fdnum : Nat} (slot : fdSlot e s.world = some fdnum)
    (opened : ¬a.openFile < 0)
    (good : ¬(a.readHeader < 0 ∨ file.bytes.length < elfBufSize ∨ file.magic ≠ elfMagic))
    (full : a.exofork < 0) : prepare a e child file argv s =
      some (.error ⟨.exofork, a.exofork⟩, { s with world := openPage e fdnum s.world }) := by
  unfold prepare
  rw [slot]
  dsimp only
  rw [if_neg opened, if_neg good, if_pos full]

theorem prepare_ready {fdnum rsp : Nat} (slot : fdSlot e s.world = some fdnum)
    (opened : ¬a.openFile < 0)
    (good : ¬(a.readHeader < 0 ∨ file.bytes.length < elfBufSize ∨ file.magic ≠ elfMagic))
    (forked : ¬a.exofork < 0)
    (init : initStack a e child argv ((openPage e fdnum s.world).create child) = some (.ok rsp, w)) :
    prepare a e child file argv s = some (.ok ⟨fdnum, rsp⟩,
      { s with world := w, exists' := update s.exists' child true }) := by
  unfold prepare
  rw [slot]
  dsimp only
  rw [if_neg opened, if_neg good, if_neg forked, init, Option.map_some]

theorem prepare_error (ran : prepare a e child file argv s = some (.error failure, s')) :
    Early a e child file argv s failure s' := by
  unfold prepare at ran
  split at ran
  · obtain ⟨same, rfl⟩ := Prod.mk.inj (Option.some.inj ran)
    exact .openFile (Except.error.inj same ▸ rfl)
  rename_i fdnum slot
  split at ran
  · obtain ⟨same, rfl⟩ := Prod.mk.inj (Option.some.inj ran)
    exact .openFile (Except.error.inj same ▸ rfl)
  dsimp only at ran
  split at ran
  · obtain ⟨same, rfl⟩ := Prod.mk.inj (Option.some.inj ran)
    exact .header (Except.error.inj same ▸ rfl) slot
  split at ran
  · obtain ⟨same, rfl⟩ := Prod.mk.inj (Option.some.inj ran)
    exact .exofork (Except.error.inj same ▸ rfl) slot
  obtain ⟨⟨result, w⟩, called, ran⟩ := Option.map_eq_some_iff.mp ran
  cases result with
  | error failure' =>
    obtain ⟨same, rfl⟩ := Prod.mk.inj ran
    obtain rfl := Except.error.inj same
    exact .initStack (initStack_step called)
  | ok rsp => cases ran

theorem prepare_ok (ran : prepare a e child file argv s = some (.ok ready, s')) :
    Ready a e child file argv s ready s' := by
  unfold prepare at ran
  split at ran
  · cases ran
  rename_i fdnum slot
  split at ran
  · cases ran
  dsimp only at ran
  split at ran
  · cases ran
  split at ran
  · cases ran
  obtain ⟨⟨result, w⟩, called, ran⟩ := Option.map_eq_some_iff.mp ran
  cases result with
  | error failure => cases ran
  | ok rsp =>
    obtain ⟨same, rfl⟩ := Prod.mk.inj ran
    cases same
    exact ⟨slot, called, rfl⟩

/-- The descriptor that `open` takes is closed. -/
theorem fdSlot_closed {fdnum : Nat} (slot : fdSlot e w = some fdnum) :
    fdnum < Fds.maxFd ∧ (w.space e).uvpt (fdPage fdnum) = none := by
  unfold fdSlot at slot
  have closed := List.find?_some slot
  have range := List.mem_range.mp (List.mem_of_find?_eq_some slot)
  exact ⟨range, Option.isNone_iff_eq_none.mp closed⟩

theorem openPage_uvpt {fdnum q : Nat} : ((openPage e fdnum w).space e).uvpt q =
    if q = fdPage fdnum then some ⟨w.next, Fds.permShare ||| pteP⟩ else (w.space e).uvpt q := by
  unfold openPage
  rw [World.pageAlloc_uvpt]
  exact if_congr (and_iff_right rfl) rfl rfl

theorem close_uvpt {fdnum q : Nat} : ((close e fdnum w).space e).uvpt q =
    if q = fdPage fdnum then none else (w.space e).uvpt q := by
  unfold close
  rw [World.remove_uvpt]
  exact if_congr (and_iff_right rfl) rfl rfl

theorem create_other (differ : child ≠ e) {q : Nat} :
    ((w.create child).space e).uvpt q = (w.space e).uvpt q := by
  rw [World.create_uvpt, if_neg differ.symm]

theorem fdPage_temp {fdnum : Nat} : fdPage fdnum ≠ vpn utemp := by
  have page : vpn utemp = 1024 := rfl
  unfold fdPage
  simp only [vpn, pgSize] at *
  omega

theorem storeAll_space {stores : List (Nat × BitVec 8)} (ran : storeAll e stores w = some w') :
    w'.space = w.space ∧ w'.next = w.next := by
  induction stores generalizing w with
  | nil => exact Option.some.inj ran ▸ ⟨rfl, rfl⟩
  | cons s rest ih =>
    obtain ⟨w'', wrote, ran⟩ := Option.bind_eq_some_iff.mp ran
    obtain ⟨entry, -, wrote⟩ := Option.bind_eq_some_iff.mp wrote
    split at wrote
    · obtain rfl := Option.some.inj wrote
      exact @ih (w.poke entry.ppn s.1 s.2) ran
    · cases wrote

theorem initStack_kept {rsp : Nat} (differ : child ≠ e)
    (ran : initStack a e child argv w = some (.ok rsp, w')) : Kept e w w' := by
  unfold initStack at ran
  split at ran
  · cases ran
  split at ran
  · cases ran
  obtain ⟨stored, wrote, ran⟩ := Option.bind_eq_some_iff.mp ran
  dsimp only at ran
  split at ran
  · cases ran
  split at ran
  · cases ran
  obtain ⟨-, rfl⟩ := Prod.mk.inj (Option.some.inj ran)
  obtain ⟨spaces, next⟩ := storeAll_space wrote
  refine ⟨fun q apart => ?_, fun entry there => ?_, ?_⟩
  · rw [World.remove_uvpt, if_neg fun both => apart both.2, pageMap_other differ.symm, spaces,
      World.pageAlloc_uvpt, if_neg fun both => apart both.2]
  · rw [World.remove_uvpt, if_pos ⟨rfl, rfl⟩] at there
    cases there
  · have same := @pageMap_next stored permPrivate e (vpn utemp) child ustackPage
    rw [next] at same
    exact (Nat.le_succ w.next).trans same.ge

end Prepare

section Refused

variable {α : Type} {a : Answers} {e child k : Nat} {file : Elf} {w w' : World} {argv : List Str}
  {s s' : State} {stack : Nat → Nat → Option (BitVec 8)}

def ending : Except Failure α → Option Step
  | .ok _ => none
  | .error failure => some failure.step

theorem ending_ite {σ : Type} {x x' : σ} {bad : Prop} [Decidable bad]
    {stop result : Except Failure α} {more : Option (Except Failure α × σ)} {rest : Option Step}
    (ran : (if bad then some (stop, x) else more) = some (result, x'))
    (goesOn : more = some (result, x') → rest = ending result) :
    (if bad then ending stop else rest) = ending result := by
  by_cases stops : bad
  · rw [if_pos stops] at ran ⊢
    cases ran
    rfl
  · rw [if_neg stops] at ran ⊢
    exact goesOn ran

theorem mapPages_refused {va memsz filesz left j : Nat} {fileoffset : Int} {perm : BitVec 12}
    {result : Except Failure Unit}
    (ran : mapPages a e child file k va memsz filesz fileoffset perm left j w = some (result, w')) :
    refusedPage a k memsz filesz left j = ending result := by
  induction left generalizing j w with
  | zero => cases ran
  | succ left ih =>
    unfold mapPages at ran
    unfold refusedPage
    dsimp only at ran
    refine ending_ite ran fun ran => ?_
    split at ran
    · rename_i blank
      rw [if_pos blank]
      exact ending_ite ran ih
    rename_i data
    rw [if_neg data]
    refine ending_ite ran fun ran => ending_ite ran fun ran => ending_ite ran fun ran => ?_
    split at ran
    · cases ran
    · exact ih ran

theorem loadHeader_refused {result : Except Failure Unit}
    (ran : loadHeader a e child file stack k w = some (result, w')) :
    refusedHeader a file stack k = ending result := by
  unfold refusedHeader
  obtain ⟨type, found, ran⟩ := Option.bind_eq_some_iff.mp ran
  rw [found, Option.bind_some]
  split at ran
  · rename_i other
    cases ran
    exact if_pos other
  · rename_i load
    obtain ⟨h, header, ran⟩ := Option.bind_eq_some_iff.mp ran
    rw [if_neg load, header, Option.bind_some]
    exact mapPages_refused ran

theorem loadHeaders_refused {n : Nat} {result : Except Failure Unit}
    (ran : loadHeaders a e child file stack w n = some (result, w')) :
    refusedHeaders a file stack n = ending result := by
  induction n generalizing result w' with
  | zero =>
    cases ran
    rfl
  | succ n ih =>
    obtain ⟨⟨before, w''⟩, first, ran⟩ := Option.bind_eq_some_iff.mp ran
    unfold refusedHeaders
    rw [ih first]
    cases before with
    | error failure =>
      cases ran
      rfl
    | ok _ => exact loadHeader_refused ran

theorem prepare_refused {result : Except Failure Prepared}
    (ran : prepare a e child file argv s = some (result, s')) :
    refusedStart a e file argv s.world = ending result := by
  unfold prepare at ran
  unfold refusedStart
  split at ran
  · rename_i full
    cases ran
    exact if_pos (.inl full)
  rename_i fdnum slot
  split at ran
  · rename_i negative
    cases ran
    exact if_pos (.inr negative)
  rename_i opened
  rw [slot, if_neg (not_or.mpr ⟨Option.some_ne_none _, opened⟩)]
  dsimp only at ran
  refine ending_ite ran fun ran => ending_ite ran fun ran => ?_
  obtain ⟨⟨called, w⟩, init, ran⟩ := Option.map_eq_some_iff.mp ran
  unfold initStack at init
  split at init
  · rename_i low
    rw [if_pos (.inl low)]
    cases init
    cases ran
    rfl
  rename_i high
  split at init
  · rename_i negative
    rw [if_pos (.inr (.inl negative))]
    cases init
    cases ran
    rfl
  rename_i alloc
  obtain ⟨stored, -, init⟩ := Option.bind_eq_some_iff.mp init
  dsimp only at init
  split at init
  · rename_i negative
    rw [if_pos (.inr (.inr (.inl negative)))]
    cases init
    cases ran
    rfl
  rename_i map
  split at init
  · rename_i negative
    rw [if_pos (.inr (.inr (.inr negative)))]
    cases init
    cases ran
    rfl
  · rename_i unmap
    rw [if_neg (not_or.mpr ⟨high, not_or.mpr ⟨alloc, not_or.mpr ⟨map, unmap⟩⟩⟩)]
    cases init
    cases ran
    rfl

end Refused

/-- Where a `spawn` that fails can end. -/
inductive Failed (a : Answers) (e child : Nat) (file : Elf)
    (stack : Nat → Nat → Option (BitVec 8)) (argv : List Str) (s : State) (failure : Failure) :
    State → Prop where
  | early {s' : State} (early : Early a e child file argv s failure s') :
      Failed a e child file stack argv s failure s'
  | segment {ready : Prepared} {s' : State} {w : World} (begun : Ready a e child file argv s ready s')
      (mapped : Mapped e s'.world (.error failure, w)) :
      Failed a e child file stack argv s failure
        { s' with
          world := close e ready.fdnum (w.create child)
          exists' := update s'.exists' child false }

section Spawn

variable {a : Answers} {e child : Nat} {file : Elf} {argv : List Str} {s s' : State}
  {stack : Nat → Nat → Option (BitVec 8)} {failure : Failure}

theorem finish_error {ready : Prepared} :
    finish a e child file ready s ≠ some (.error failure, s') := by
  unfold finish
  intro failed
  split at failed
  · cases failed
  · obtain ⟨same, -⟩ := Prod.mk.inj (Option.some.inj failed)
    cases same

theorem spawn_refused (failed : spawn a e child file stack argv s = some (.error failure, s')) :
    refused a e file stack argv s.world = some failure.step := by
  unfold refused
  obtain ⟨⟨before, s''⟩, start, failed⟩ := Option.bind_eq_some_iff.mp failed
  rw [prepare_refused start]
  cases before with
  | error failure' =>
    obtain ⟨same, -⟩ := Prod.mk.inj (Option.some.inj failed)
    exact Except.error.inj same ▸ rfl
  | ok ready =>
    obtain ⟨⟨loaded, w⟩, load, failed⟩ := Option.bind_eq_some_iff.mp failed
    rw [loadHeaders_refused load]
    cases loaded with
    | error failure' =>
      obtain ⟨same, -⟩ := Prod.mk.inj (Option.some.inj failed)
      exact Except.error.inj same ▸ rfl
    | ok _ => exact absurd failed finish_error

theorem spawn_failed (differ : child ≠ e)
    (failed : spawn a e child file stack argv s = some (.error failure, s')) :
    Failed a e child file stack argv s failure s' := by
  obtain ⟨⟨before, s''⟩, start, failed⟩ := Option.bind_eq_some_iff.mp failed
  cases before with
  | error failure' =>
    obtain ⟨same, rfl⟩ := Prod.mk.inj (Option.some.inj failed)
    obtain rfl := Except.error.inj same
    exact .early (prepare_error start)
  | ok ready =>
    obtain ⟨⟨loaded, w⟩, load, failed⟩ := Option.bind_eq_some_iff.mp failed
    cases loaded with
    | error failure' =>
      obtain ⟨same, rfl⟩ := Prod.mk.inj (Option.some.inj failed)
      obtain rfl := Except.error.inj same
      exact @Failed.segment a e child file stack argv s failure' ready s'' w (prepare_ok start)
        (loadHeaders_mapped differ load)
    | ok _ => exact absurd failed finish_error

/-- What the program headers leave of the caller is what it had when `open` returned. -/
theorem Ready.kept {ready : Prepared} (differ : child ≠ e)
    (begun : Ready a e child file argv s ready s') :
    Kept e (openPage e ready.fdnum s.world) s'.world := by
  refine Kept.trans ⟨fun q _ => create_other differ, fun entry there => ?_, le_rfl⟩
    (initStack_kept differ begun.stack)
  rwa [create_other differ] at there

theorem Early.clean_iff (fresh : s.exists' child = false)
    (early : Early a e child file argv s failure s') : Clean e s s' ↔ failure.step.Tidy := by
  cases early with
  | openFile step =>
    rw [step]
    exact ⟨fun _ => trivial, fun _ => ⟨fun _ _ => rfl, fun _ _ there => there, rfl⟩⟩
  | header step slot =>
    rw [step]
    refine ⟨fun _ => trivial, fun _ => ⟨fun fdnum _ => ?_, fun pn entry there => ?_, rfl⟩⟩
    · dsimp only
      rw [close_uvpt, openPage_uvpt]
      split
      · rename_i same
        rw [same, (fdSlot_closed slot).2]
      · rfl
    · dsimp only at there
      rw [close_uvpt, openPage_uvpt] at there
      split at there
      · cases there
      · exact there
  | exofork step slot =>
    rw [step]
    refine ⟨fun clean => ?_, False.elim⟩
    have still := clean.descriptors _ (fdSlot_closed slot).1
    dsimp only at still
    rw [openPage_uvpt, if_pos rfl, (fdSlot_closed slot).2] at still
    cases still
  | initStack step =>
    rw [step]
    refine ⟨fun clean => ?_, False.elim⟩
    have still := congrFun clean.environments child
    dsimp only at still
    rw [update_self, fresh] at still
    cases still

theorem Ready.clean_iff {ready : Prepared} {w : World} (differ : child ≠ e)
    (fresh : s.exists' child = false) (begun : Ready a e child file argv s ready s')
    (mapped : Mapped e s'.world (.error failure, w)) :
    Clean e s { s' with
      world := close e ready.fdnum (w.create child)
      exists' := update s'.exists' child false } ↔ failure.step.Tidy := by
  obtain ⟨-, closed⟩ := fdSlot_closed begun.slot
  have kept := begun.kept differ
  cases mapped with
  | alloc step kept' =>
    rw [step]
    refine ⟨fun _ => trivial, fun _ => ⟨fun fdnum _ => ?_, fun pn entry there => ?_, ?_⟩⟩
    · dsimp only
      rw [close_uvpt, create_other differ]
      split
      · rename_i same
        rw [same, closed]
      · rename_i apart
        rw [kept'.other _ fdPage_temp, kept.other _ fdPage_temp, openPage_uvpt, if_neg apart]
    · dsimp only at there
      rw [close_uvpt, create_other differ] at there
      split at there
      · cases there
      rename_i apart
      have before : ((openPage e ready.fdnum s.world).space e).uvpt pn = some entry := by
        by_cases temp : pn = vpn utemp
        · subst temp
          exact kept.temp _ (kept'.temp _ there)
        · rwa [kept'.other _ temp, kept.other _ temp] at there
      rwa [openPage_uvpt, if_neg apart] at before
    · dsimp only
      rw [begun.exists', update_idem]
      exact update_eq_self_iff.mpr fresh.symm
  | file step littered =>
    have untidy : ¬failure.step.Tidy := by
      rcases step with step | step
      all_goals
        rw [step]
        exact id
    refine iff_of_false (fun clean => ?_) untidy
    obtain ⟨entry, there, new⟩ := littered.temp
    have before := clean.pages (vpn utemp) entry
    dsimp only at before
    rw [close_uvpt, if_neg fdPage_temp.symm, create_other differ] at before
    have old := s.world.mapped e _ entry (before there)
    have first : s.world.next < s'.world.next := (Nat.lt_succ_self _).trans_le kept.next
    exact absurd (old.trans first) (Nat.not_lt.mpr new)

/-- A `spawn` that fails leaves nothing behind exactly when what is refused first is
the program file, its header, or the memory for a segment. -/
theorem spawn_clean_iff (caller : s.exists' e = true) (fresh : s.exists' child = false)
    (failed : spawn a e child file stack argv s = some (.error failure, s')) :
    Clean e s s' ↔ ∀ step, refused a e file stack argv s.world = some step → step.Tidy := by
  have differ : child ≠ e := by
    rintro rfl
    rw [caller] at fresh
    cases fresh
  have tidy : (∀ step, refused a e file stack argv s.world = some step → step.Tidy) ↔
      failure.step.Tidy := by
    rw [spawn_refused failed]
    exact ⟨fun all => all _ rfl, fun one step same => Option.some.inj same ▸ one⟩
  rw [tidy]
  cases spawn_failed differ failed with
  | early early => exact early.clean_iff fresh
  | segment begun mapped => exact begun.clean_iff differ fresh mapped

end Spawn

def granted : Answers :=
  ⟨0, 0, 0, 0, 0, 0, 0, fun _ _ => 0, fun _ _ => 0, fun _ _ => 0, fun _ _ => 0, fun _ _ => 0,
    fun _ => 0, 0, 0⟩

/-- Environment 0 is alone and has no memory. -/
def alone : State where
  world := .empty
  exists' := update (fun _ => false) 0 true
  trapframe _ := ⟨0, 0⟩
  runnable := update (fun _ => false) 0 true

/-- A program that is not there. -/
theorem spawn_clean_missing : Clean 0 alone alone ↔ ∀ step,
    refused { granted with openFile := -10 } 0 ⟨[]⟩ (fun _ _ => none) [] alone.world = some step →
      step.Tidy :=
  @spawn_clean_iff { granted with openFile := -10 } 0 1 ⟨[]⟩ [] alone alone (fun _ _ => none)
    ⟨.openFile, -10⟩ (by decide) (by decide) rfl

def headerBlock (low high : BitVec 8) : Elf :=
  ⟨[0x7F, 0x45, 0x4C, 0x46] ++ List.replicate 28 0 ++ [low, high] ++ List.replicate 22 0 ++ [1] ++
    List.replicate 455 0⟩

theorem headerBlock_length {low high : BitVec 8} :
    (headerBlock low high).bytes.length = elfBufSize := by
  simp only [headerBlock, List.length_append, List.length_replicate, List.length_cons, List.length_nil]
  rfl

/-- When there is no environment for the child the program file stays open. -/
theorem spawn_leaks : ¬∀ a e child file stack argv s failure s',
    s.exists' e = true → s.exists' child = false →
      spawn a e child file stack argv s = some (.error failure, s') → Clean e s s' := by
  intro clean
  have magic : (headerBlock 64 0).magic = elfMagic := by decide +kernel
  have good : ¬((0 : Int) < 0 ∨ (headerBlock 64 0).bytes.length < elfBufSize ∨
      (headerBlock 64 0).magic ≠ elfMagic) := by
    rw [headerBlock_length, magic]
    decide
  have start : prepare { granted with exofork := -4 } 0 1 (headerBlock 64 0) [] alone =
      some (.error ⟨.exofork, -4⟩, { alone with world := openPage 0 0 alone.world }) :=
    prepare_exofork (by rfl) (by decide) good (by decide)
  have ran : spawn { granted with exofork := -4 } 0 1 (headerBlock 64 0) (fun _ _ => none) [] alone =
      some (.error ⟨.exofork, -4⟩, { alone with world := openPage 0 0 alone.world }) := by
    unfold spawn
    rw [start, Option.bind_some]
  have still := (clean _ _ _ _ _ _ _ _ _ (by decide) (by decide) ran).descriptors 0 (by decide)
  cases still

/-- The program headers are in the block that `spawn` reads. -/
def Inside (file : Elf) : Prop :=
  file.phnum = 0 ∨ file.phoff + file.phnum * proghdrSize ≤ elfBufSize

/-- `spawn` comes to the program header `k`. -/
def Looks (a : Answers) (e child : Nat) (file : Elf) (stack : Nat → Nat → Option (BitVec 8))
    (argv : List Str) (s : State) (k : Nat) : Prop :=
  k < file.phnum ∧ ∃ ready s' w, prepare a e child file argv s = some (.ok ready, s') ∧
    loadHeaders a e child file stack s'.world k = some (.ok (), w)

/-- Only what was read is taken for program headers, and a file that has some elsewhere
is refused. -/
structure Bounded (file : Elf) : Prop where
  inside : ∀ a e child stack argv s k, Looks a e child file stack argv s k →
    file.header k + proghdrSize ≤ elfBufSize
  rejected : ¬Inside file → ∀ a e child stack argv s, ∃ failure s',
    spawn a e child file stack argv s = some (.error failure, s')

section Headers

variable {file : Elf} {stack : Nat → Nat → Option (BitVec 8)}

theorem refusedPage_granted {k memsz filesz left j : Nat} :
    refusedPage granted k memsz filesz left j = none := by
  induction left generalizing j with
  | zero => rfl
  | succ left ih =>
    have blank : ¬granted.blank k j < 0 := lt_irrefl 0
    have temp : ¬granted.temp k j < 0 := lt_irrefl 0
    have seek : ¬granted.seek k j < 0 := lt_irrefl 0
    have read : ¬granted.read k j < 0 := lt_irrefl 0
    unfold refusedPage
    rw [if_neg blank, if_neg temp, if_neg seek, if_neg read, ite_self, ih, ite_self]

theorem refusedHeaders_granted {n : Nat} : refusedHeaders granted file stack n = none := by
  induction n with
  | zero => rfl
  | succ n ih =>
    unfold refusedHeaders refusedHeader
    rw [ih, Option.none_or]
    refine Option.bind_eq_none_iff.mpr fun type _ => ?_
    split
    · rfl
    · exact Option.bind_eq_none_iff.mpr fun h _ => refusedPage_granted

theorem granted_header (long : elfBufSize ≤ file.bytes.length) (magic : file.magic = elfMagic) :
    ¬(granted.readHeader < 0 ∨ file.bytes.length < elfBufSize ∨ file.magic ≠ elfMagic) := by
  rw [magic]
  exact not_or.mpr ⟨by decide, not_or.mpr ⟨Nat.not_lt.mpr long, fun differ => differ rfl⟩⟩

theorem refused_granted (long : elfBufSize ≤ file.bytes.length) (magic : file.magic = elfMagic) :
    refused granted 0 file stack [] alone.world = none := by
  unfold refused
  rw [refusedHeaders_granted, Option.or_none]
  have slot : fdSlot 0 alone.world = some 0 := rfl
  unfold refusedStart
  rw [slot, if_neg (by decide), if_neg (granted_header long magic), if_neg (by decide),
    if_neg (by decide)]

theorem Inside.header {k : Nat} (inside : Inside file) (range : k < file.phnum) :
    file.header k + proghdrSize ≤ elfBufSize := by
  have table := inside.resolve_left (Nat.ne_zero_of_lt range)
  unfold Elf.header
  simp only [proghdrSize, elfBufSize] at *
  omega

/-- Nothing but the header itself keeps `spawn` within the block that it reads. -/
theorem bounded_iff (long : elfBufSize ≤ file.bytes.length) (magic : file.magic = elfMagic) :
    Bounded file ↔ Inside file := by
  constructor
  · intro bounded
    by_contra outside
    obtain ⟨failure, s', failed⟩ :=
      bounded.rejected outside granted 0 1 (fun _ _ => none) [] alone
    have none := (spawn_refused failed).symm.trans (refused_granted long magic)
    cases none
  · intro inside
    exact ⟨fun _ _ _ _ _ _ _ looks => inside.header looks.1, fun outside => absurd inside outside⟩

theorem bounded_block : Bounded (headerBlock 64 0) ↔ Inside (headerBlock 64 0) :=
  bounded_iff headerBlock_length.ge (by decide +kernel)

/-- The program header behind the block is taken from the stack. -/
theorem looks_behind : ¬∀ file : Elf, elfBufSize ≤ file.bytes.length → file.magic = elfMagic →
    Bounded file := by
  intro bounded
  have magic : (headerBlock 0 2).magic = elfMagic := by decide +kernel
  have fits : Fits [] := by decide
  obtain ⟨w, init, -⟩ := @Arranged.handed [] granted 0 1 ((openPage 0 0 alone.world).create 1)
    fits.arranged (by decide) (by decide) (by decide) (by decide)
  have start := @prepare_ready granted 0 1 (headerBlock 0 2) w [] alone 0 _ (by rfl) (by decide)
    (granted_header headerBlock_length.ge magic) (by decide) init
  have looks : Looks granted 0 1 (headerBlock 0 2) (fun _ _ => none) [] alone 0 :=
    ⟨by decide +kernel, _, _, _, start, rfl⟩
  have inside := (bounded _ headerBlock_length.ge magic).inside _ _ _ _ _ _ _ looks
  have place : (headerBlock 0 2).header 0 = elfBufSize := by decide +kernel
  rw [place] at inside
  exact absurd inside (by decide)

end Headers

end Jos.Spawn
