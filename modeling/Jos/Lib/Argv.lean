import Mathlib.Data.List.Nodup
import Jos.Foundation.Overwrite
import Jos.Lib.Spawn

/-! The arguments that `init_stack` hands to the child. -/

set_option autoImplicit false

namespace Jos.Spawn

open Foundation

/-- The strings, the pointers to them with the null pointer, and the two words below
fit in one page. -/
def Fits (argv : List Str) : Prop := stringSize argv + 8 * (argv.length + 1) + 16 ≤ pgSize

instance (argv : List Str) : Decidable (Fits argv) := inferInstanceAs (Decidable (_ ≤ _))

def loadWord (w : World) (e va : Nat) : Option Nat := littleEndian (w.readByte e) 8 va

/-- The arguments of `libmain`, from `_start` of lib/entry.S. -/
def startArgs (w : World) (child rsp : Nat) : Option (Nat × Nat) :=
  if rsp = ustackTop then some (0, 0)
  else (loadWord w child (rsp + 8)).bind fun argv =>
    (loadWord w child rsp).map fun argc => (argc, argv)

def HasString (w : World) (e va : Nat) (arg : Str) : Prop :=
  ∀ j byte, (arg ++ [0])[j]? = some byte → w.readByte e (va + j) = some byte

def Received (w : World) (child rsp : Nat) (argv : List Str) : Prop :=
  ∃ args, startArgs w child rsp = some (argv.length, args) ∧
    (∀ i arg, argv[i]? = some arg →
      ∃ place, loadWord w child (args + 8 * i) = some place ∧ HasString w child place arg) ∧
    loadWord w child (args + 8 * argv.length) = some 0

/-- Arguments that do not fit are refused before anything is stored, and others are
stored in the page at UTEMP only and arrive when the kernel carries out the calls. -/
structure Survives (argv : List Str) : Prop where
  refused : ¬Fits argv → ∀ a e child w,
    initStack a e child argv w = some (.error ⟨.initStack, -eNoMem⟩, w)
  confined : Fits argv → ∀ store ∈ initStores argv, utemp ≤ store.1 ∧ store.1 < utemp + pgSize
  received : Fits argv → ∀ a e child w, child ≠ e → 0 ≤ a.stackAlloc → 0 ≤ a.stackMap →
    0 ≤ a.stackUnmap →
    ∃ rsp w', initStack a e child argv w = some (.ok rsp, w') ∧ Received w' child rsp argv

section Arithmetic

theorem back_of_le {addr bytes : Nat} (small : addr < 2 ^ 64) (le : bytes ≤ addr) :
    back addr bytes = addr - bytes := by
  unfold back
  omega

variable {argv : List Str}

theorem stringStore_of_fits (fits : Fits argv) :
    stringStore argv = utemp + pgSize - stringSize argv := by
  unfold Fits at fits
  have page : utemp = 4194304 := rfl
  unfold stringStore
  refine back_of_le ?_ ?_
  all_goals
    unfold pgSize at *
    omega

theorem argvStore_of_fits (fits : Fits argv) : argvStore argv =
    utemp + pgSize - stringSize argv - (utemp + pgSize - stringSize argv) % 8 -
      8 * (argv.length + 1) := by
  have page : utemp = 4194304 := rfl
  have small : 8 * (argv.length + 1) ≤ pgSize := by
    unfold Fits at fits
    omega
  have int : (8 * ((argv.length : Int) + 1)).bmod (2 ^ 32) = (8 * (argv.length + 1) : Nat) := by
    unfold pgSize at small
    rw [Int.bmod_eq_of_le (by omega) (by omega)]
    rfl
  unfold argvStore
  rw [int, stringStore_of_fits fits]
  unfold Fits at fits
  refine back_of_le ?_ ?_
  all_goals
    unfold pgSize at *
    omega

structure Arranged (argv : List Str) : Prop where
  low : utemp + 16 ≤ argvStore argv
  level : argvStore argv % 8 = 0
  apart : argvStore argv + 8 * (argv.length + 1) ≤ stringStore argv
  high : stringStore argv + stringSize argv = utemp + pgSize

theorem Fits.arranged (fits : Fits argv) : Arranged argv := by
  have store := stringStore_of_fits fits
  have args := argvStore_of_fits fits
  have page : utemp = 4194304 := rfl
  have size : pgSize = 4096 := rfl
  unfold Fits at fits
  exact ⟨by omega, by omega, by omega, by omega⟩

theorem Arranged.back_le (arranged : Arranged argv) {bytes : Nat} (few : bytes ≤ 16) :
    back (argvStore argv) bytes = argvStore argv - bytes := by
  have page : utemp = 4194304 := rfl
  have size : pgSize = 4096 := rfl
  obtain ⟨low, -, apart, high⟩ := arranged
  refine back_of_le ?_ ?_
  all_goals omega

theorem Arranged.back_eight (arranged : Arranged argv) :
    back (argvStore argv) 8 = argvStore argv - 8 :=
  @Arranged.back_le argv arranged 8 (by omega)

theorem Arranged.back_sixteen (arranged : Arranged argv) :
    back (argvStore argv) 16 = argvStore argv - 16 :=
  @Arranged.back_le argv arranged 16 (by omega)

end Arithmetic

section Places

variable {va value i store n : Nat} {arg : Str} {argv : List Str} {s : Nat × BitVec 8}

theorem storeWord_place (small : va + 8 ≤ 2 ^ 64) (member : s ∈ storeWord va value) :
    va ≤ s.1 ∧ s.1 < va + 8 := by
  obtain ⟨i, range, rfl⟩ := List.mem_map.mp member
  have bound := List.mem_range.mp range
  dsimp only
  omega

theorem storeWord_nodup : ((storeWord va value).map Prod.fst).Nodup := by
  unfold storeWord
  rw [List.map_map]
  refine List.Nodup.map_on (fun i member j member' same => ?_) List.nodup_range
  have bound := List.mem_range.mp member
  have bound' := List.mem_range.mp member'
  simp only [Function.comp_apply] at same
  omega

theorem strcpy_place (small : va + arg.length < 2 ^ 64) (member : s ∈ strcpy va arg) :
    va ≤ s.1 ∧ s.1 ≤ va + arg.length := by
  induction arg generalizing va with
  | nil =>
    rcases List.mem_singleton.mp member with rfl
    have whole : va < 2 ^ 64 := small
    dsimp only
    rw [Nat.mod_eq_of_lt whole]
    exact ⟨le_rfl, le_rfl⟩
  | cons byte rest ih =>
    rw [List.length_cons] at small ⊢
    rcases List.mem_cons.mp member with rfl | member
    · dsimp only
      omega
    · have later := ih (by omega) member
      omega

theorem strcpy_nodup (small : va + arg.length < 2 ^ 64) : ((strcpy va arg).map Prod.fst).Nodup := by
  induction arg generalizing va with
  | nil => exact List.nodup_singleton _
  | cons byte rest ih =>
    rw [List.length_cons] at small
    refine List.nodup_cons.mpr ⟨fun again => ?_, ih (by omega)⟩
    obtain ⟨s, member, same⟩ := List.mem_map.mp again
    have later := strcpy_place (by omega) member
    omega

/-- The stores of the loop go to the pointers that are left and to the strings. -/
theorem argStores_place {rest : List Str} {args : Nat}
    (below : args + 8 * (i + rest.length + 1) ≤ store) (top : store + stringSize rest < 2 ^ 64)
    (member : s ∈ argStores args i store rest) :
    args + 8 * i ≤ s.1 ∧ s.1 < args + 8 * (i + rest.length + 1) ∨
      store ≤ s.1 ∧ s.1 < store + stringSize rest := by
  induction rest generalizing i store with
  | nil =>
    have place := storeWord_place (by simp only [List.length_nil] at below; omega) member
    simp only [List.length_nil]
    omega
  | cons arg rest ih =>
    simp only [stringSize, List.map_cons, List.sum_cons, List.length_cons] at below top ⊢
    unfold argStores at member
    rw [Nat.mod_eq_of_lt (by omega)] at member
    rcases List.mem_append.mp member with member | member
    · rcases List.mem_append.mp member with member | member
      · have place := storeWord_place (by omega) member
        omega
      · have place := strcpy_place (by omega) member
        omega
    · have place := ih (by omega) (by unfold stringSize; omega) member
      unfold stringSize at place
      omega

theorem argStores_nodup {rest : List Str} {args : Nat}
    (below : args + 8 * (i + rest.length + 1) ≤ store) (top : store + stringSize rest < 2 ^ 64) :
    ((argStores args i store rest).map Prod.fst).Nodup := by
  induction rest generalizing i store with
  | nil => exact storeWord_nodup
  | cons arg rest ih =>
    simp only [stringSize, List.map_cons, List.sum_cons, List.length_cons] at below top
    unfold argStores
    rw [Nat.mod_eq_of_lt (by omega), List.map_append, List.map_append]
    have later : ∀ s ∈ argStores args (i + 1) (store + arg.length + 1) rest,
        args + 8 * (i + 1) ≤ s.1 ∧ s.1 < args + 8 * (i + 1 + rest.length + 1) ∨
          store + arg.length + 1 ≤ s.1 :=
      fun s member => (argStores_place (by omega) (by unfold stringSize; omega) member).imp_right And.left
    refine List.nodup_append.mpr ⟨List.nodup_append.mpr ⟨storeWord_nodup, strcpy_nodup (by omega), ?_⟩,
      ih (by omega) (by unfold stringSize; omega), ?_⟩
    · intro a first b second same
      obtain ⟨s, member, rfl⟩ := List.mem_map.mp first
      obtain ⟨s', member', rfl⟩ := List.mem_map.mp second
      have place := storeWord_place (by omega) member
      have place' := strcpy_place (by omega) member'
      omega
    · intro a first b second same
      obtain ⟨s', member', rfl⟩ := List.mem_map.mp second
      have place' := later s' member'
      rcases List.mem_append.mp first with first | first
      · obtain ⟨s, member, rfl⟩ := List.mem_map.mp first
        have place := storeWord_place (by omega) member
        omega
      · obtain ⟨s, member, rfl⟩ := List.mem_map.mp first
        have place := strcpy_place (by omega) member
        omega

theorem storeWord_mem (small : va + 8 ≤ 2 ^ 64) {j : Nat} (byte : j < 8) :
    (va + j, BitVec.ofNat 8 (value / 256 ^ j)) ∈ storeWord va value := by
  refine List.mem_map.mpr ⟨j, List.mem_range.mpr byte, ?_⟩
  rw [Nat.mod_eq_of_lt (by omega)]

theorem strcpy_mem (small : va + arg.length < 2 ^ 64) {j : Nat} {byte : BitVec 8}
    (there : (arg ++ [0])[j]? = some byte) : (va + j, byte) ∈ strcpy va arg := by
  induction arg generalizing va j with
  | nil =>
    cases j with
    | zero =>
      cases there
      have whole : va < 2 ^ 64 := small
      unfold strcpy
      rw [Nat.mod_eq_of_lt whole]
      exact List.mem_singleton.mpr rfl
    | succ j => cases there
  | cons first rest ih =>
    rw [List.length_cons] at small
    unfold strcpy
    cases j with
    | zero =>
      cases there
      rw [Nat.mod_eq_of_lt (by omega)]
      exact List.mem_cons_self
    | succ j =>
      have later := @ih (va + 1) (by omega) j there
      rw [Nat.add_assoc, Nat.add_comm 1 j] at later
      exact List.mem_cons_of_mem _ later

theorem argStores_mem {rest : List Str} {args j : Nat} (top : store + stringSize rest < 2 ^ 64)
    (there : rest[j]? = some arg) :
    (∀ s ∈ storeWord (args + 8 * (i + j)) (utemp2ustack (store + stringSize (rest.take j))),
        s ∈ argStores args i store rest) ∧
      ∀ s ∈ strcpy (store + stringSize (rest.take j)) arg, s ∈ argStores args i store rest := by
  induction rest generalizing i j store with
  | nil => cases there
  | cons first rest ih =>
    simp only [stringSize, List.map_cons, List.sum_cons] at top
    unfold argStores
    rw [Nat.mod_eq_of_lt (by omega)]
    cases j with
    | zero =>
      cases there
      exact ⟨fun s member => List.mem_append_left _ (List.mem_append_left _ member),
        fun s member => List.mem_append_left _ (List.mem_append_right _ member)⟩
    | succ j =>
      obtain ⟨words, strings⟩ := @ih (i + 1) (store + first.length + 1) j
        (by unfold stringSize; omega) there
      have place : store + stringSize ((first :: rest).take (j + 1)) =
          store + first.length + 1 + stringSize (rest.take j) := by
        simp only [stringSize, List.take_succ_cons, List.map_cons, List.sum_cons]
        omega
      rw [place, Nat.add_comm j 1, ← Nat.add_assoc i]
      exact ⟨fun s member => List.mem_append_right _ (words s member),
        fun s member => List.mem_append_right _ (strings s member)⟩

theorem argStores_last {rest : List Str} {args : Nat} :
    ∀ s ∈ storeWord (args + 8 * (i + rest.length)) 0, s ∈ argStores args i store rest := by
  induction rest generalizing i store with
  | nil => exact fun s member => member
  | cons first rest ih =>
    intro s member
    rw [List.length_cons, Nat.add_comm rest.length 1, ← Nat.add_assoc i] at member
    exact List.mem_append_right _ (ih s member)

variable (arranged : Arranged argv)
include arranged

theorem Arranged.bounds : argvStore argv + 8 * (0 + argv.length + 1) ≤ stringStore argv ∧
    stringStore argv + stringSize argv < 2 ^ 64 := by
  obtain ⟨low, -, apart, high⟩ := arranged
  have page : utemp = 4194304 := rfl
  have size : pgSize = 4096 := rfl
  omega

/-- Every store of `init_stack` is in the page at UTEMP. -/
theorem Arranged.place (member : s ∈ initStores argv) :
    argvStore argv - 16 ≤ s.1 ∧ s.1 < utemp + pgSize := by
  obtain ⟨below, top⟩ := arranged.bounds
  have low := arranged.low
  have apart := arranged.apart
  have high := arranged.high
  unfold initStores at member
  rw [arranged.back_eight, arranged.back_sixteen] at member
  rcases List.mem_append.mp member with member | member
  · rcases List.mem_append.mp member with member | member
    · have place := argStores_place below top member
      omega
    · have place := storeWord_place (by omega) member
      omega
  · have place := storeWord_place (by omega) member
    omega

theorem Arranged.nodup : ((initStores argv).map Prod.fst).Nodup := by
  obtain ⟨below, top⟩ := arranged.bounds
  have low := arranged.low
  have apart := arranged.apart
  unfold initStores
  rw [arranged.back_eight, arranged.back_sixteen, List.map_append, List.map_append]
  refine List.nodup_append.mpr ⟨List.nodup_append.mpr ⟨argStores_nodup below top, storeWord_nodup, ?_⟩,
    storeWord_nodup, ?_⟩
  · intro a first b second same
    obtain ⟨s, member, rfl⟩ := List.mem_map.mp first
    obtain ⟨s', member', rfl⟩ := List.mem_map.mp second
    have place := argStores_place below top member
    have place' := storeWord_place (by omega) member'
    omega
  · intro a first b second same
    obtain ⟨s', member', rfl⟩ := List.mem_map.mp second
    have place' := storeWord_place (by omega) member'
    rcases List.mem_append.mp first with first | first
    · obtain ⟨s, member, rfl⟩ := List.mem_map.mp first
      have place := argStores_place below top member
      omega
    · obtain ⟨s, member, rfl⟩ := List.mem_map.mp first
      have place := storeWord_place (by omega) member
      omega

end Places

section Page

variable {e va : Nat} {w : World} {entry : Pte} {stores : List (Nat × BitVec 8)}

theorem storeAll_page {pn : Nat} (inside : ∀ s ∈ stores, vpn s.1 = pn)
    (found : (w.space e).uvpt pn = some entry) (writable : entry.writable = true) :
    storeAll e stores w = some (w.store entry.ppn
      (overwrite (w.mem entry.ppn) (stores.map fun s => (pgOff s.1, s.2)))) := by
  induction stores generalizing w with
  | nil => exact congrArg some World.store_self.symm
  | cons s rest ih =>
    have here : (w.space e).uvpt (vpn s.1) = some entry := by
      rw [inside s List.mem_cons_self, found]
    have wrote : w.tryWrite e s.1 s.2 = some (w.poke entry.ppn s.1 s.2) := by
      unfold World.tryWrite
      rw [here, Option.bind_some, if_pos writable]
    have later := @ih (w.poke entry.ppn s.1 s.2)
      (fun s member => inside s (List.mem_cons_of_mem _ member)) found
    unfold storeAll
    rw [wrote, Option.bind_some, later]
    unfold World.poke
    rw [World.store_mem, World.store_store]
    rfl

theorem overwrite_page {page : Page} {byte : BitVec 8} {pn : Nat} (inside : ∀ s ∈ stores, vpn s.1 = pn)
    (nodup : (stores.map Prod.fst).Nodup) (member : (va, byte) ∈ stores) :
    overwrite page (stores.map fun s => (pgOff s.1, s.2)) (pgOff va) = byte := by
  refine overwrite_mem ?_ (List.mem_map.mpr ⟨(va, byte), member, rfl⟩)
  rw [List.map_map]
  refine List.Nodup.of_map (fun off : Fin 4096 => pn * pgSize + off.val) ?_
  have same : (List.map (fun off : Fin 4096 => pn * pgSize + off.val)
      (List.map (Prod.fst ∘ fun s : Nat × BitVec 8 => (pgOff s.1, s.2)) stores)) =
      stores.map Prod.fst := by
    rw [List.map_map]
    refine List.map_congr_left fun s member => ?_
    have page := inside s member
    simp only [Function.comp_apply, pgOff, Fin.ofNat]
    unfold vpn pgSize at *
    omega
  rw [same]
  exact nodup

theorem littleEndian_bytes {mem : Nat → Option (BitVec 8)} {n place value : Nat}
    (bytes : ∀ i < n, mem ((place + i) % 2 ^ 64) = some (BitVec.ofNat 8 (value / 256 ^ i))) :
    littleEndian mem n place = some (value % 256 ^ n) := by
  induction n generalizing place value with
  | zero =>
    rw [Nat.pow_zero, Nat.mod_one]
    rfl
  | succ n ih =>
    have first := bytes 0 (Nat.succ_pos n)
    rw [Nat.add_zero, Nat.pow_zero, Nat.div_one] at first
    have rest : littleEndian mem n (place + 1) = some (value / 256 % 256 ^ n) := by
      refine ih fun i small => ?_
      rw [Nat.add_assoc, Nat.add_comm 1 i, bytes (i + 1) (by omega), Nat.div_div_eq_div_mul,
        Nat.pow_succ']
    unfold littleEndian
    rw [first, Option.bind_some, rest, Option.map_some, Nat.pow_succ', Nat.mod_mul]
    rfl

end Page

section Child

variable {argv : List Str} {a : Answers} {e child va value : Nat} {w : World}

def stackShift : Nat := ustackTop - pgSize - utemp

theorem utemp2ustack_eq (low : utemp ≤ va) (high : va < utemp + pgSize) :
    utemp2ustack va = va + stackShift ∧ vpn (va + stackShift) = ustackPage ∧
      pgOff (va + stackShift) = pgOff va := by
  have page : utemp = 4194304 := rfl
  have top : ustackTop - pgSize = 4018130944 := rfl
  have shift : stackShift = 4013936640 := rfl
  have stack : ustackPage = 980989 := rfl
  have size : pgSize = 4096 := rfl
  refine ⟨?_, ?_, Fin.ext ?_⟩
  · unfold utemp2ustack
    rw [top, shift]
    refine (back_of_le (by omega) (by omega)).trans ?_
    omega
  · simp only [vpn, size]
    omega
  · simp only [pgOff, Fin.ofNat]
    omega

structure Handed (argv : List Str) (child : Nat) (w : World) : Prop where
  byte : ∀ va byte, (va, byte) ∈ initStores argv →
    w.readByte child (va + stackShift) = some byte

theorem Arranged.handed (arranged : Arranged argv) (differ : child ≠ e) (alloc : 0 ≤ a.stackAlloc)
    (map : 0 ≤ a.stackMap) (unmap : 0 ≤ a.stackUnmap) :
    ∃ w', initStack a e child argv w = some (.ok (utemp2ustack (argvStore argv - 16)), w') ∧
      Handed argv child w' := by
  have page : utemp = 4194304 := rfl
  have size : pgSize = 4096 := rfl
  have low := arranged.low
  have inside : ∀ s ∈ initStores argv, vpn s.1 = vpn utemp := by
    intro s member
    have place := arranged.place member
    simp only [vpn, size]
    omega
  have found : ((w.pageAlloc e (vpn utemp) permPrivate).space e).uvpt (vpn utemp) =
      some ⟨w.next, permPrivate ||| pteP⟩ := by
    rw [World.pageAlloc_uvpt, if_pos ⟨rfl, rfl⟩]
  have stored := storeAll_page inside found private_writable
  have test : ¬argvStore argv - 16 < utemp := by omega
  unfold initStack
  rw [arranged.back_sixteen, if_neg test, if_neg (Int.not_lt.mpr alloc), stored, Option.bind_some]
  dsimp only
  rw [if_neg (Int.not_lt.mpr map), if_neg (Int.not_lt.mpr unmap)]
  refine ⟨_, rfl, ⟨fun va byte member => ?_⟩⟩
  have place := arranged.place member
  obtain ⟨-, stack, off⟩ := @utemp2ustack_eq va (by omega) place.2
  generalize written : overwrite ((w.pageAlloc e (vpn utemp) permPrivate).mem w.next)
    ((initStores argv).map fun s => (pgOff s.1, s.2)) = full
  have still : (((w.pageAlloc e (vpn utemp) permPrivate).store w.next full).space e).uvpt (vpn utemp) =
      some ⟨w.next, permPrivate ||| pteP⟩ := found
  unfold World.readByte
  rw [stack, off, World.remove_uvpt, if_neg fun both => differ both.1, World.pageMap_some still,
    World.insert_uvpt, if_pos ⟨rfl, rfl⟩]
  refine congrArg some ?_
  change ((w.pageAlloc e (vpn utemp) permPrivate).store w.next full).mem w.next (pgOff va) = byte
  rw [World.store_mem, ← written]
  exact overwrite_page inside arranged.nodup member

theorem Handed.word (handed : Handed argv child w) (arranged : Arranged argv)
    (stored : ∀ s ∈ storeWord va value, s ∈ initStores argv) (high : va + 8 ≤ utemp + pgSize)
    (small : value < 256 ^ 8) : loadWord w child (va + stackShift) = some value := by
  have page : utemp = 4194304 := rfl
  have shift : stackShift = 4013936640 := rfl
  have size : pgSize = 4096 := rfl
  have low := arranged.low
  refine (littleEndian_bytes fun i below => ?_).trans (congrArg some (Nat.mod_eq_of_lt small))
  have byte := handed.byte _ _ (stored _ (@storeWord_mem va value (by omega) i below))
  rw [Nat.add_right_comm] at byte
  rw [Nat.mod_eq_of_lt (by omega), byte]

theorem Handed.string {arg : Str} (handed : Handed argv child w)
    (stored : ∀ s ∈ strcpy va arg, s ∈ initStores argv) (high : va + arg.length < 2 ^ 64) :
    HasString w child (va + stackShift) arg := by
  intro j byte there
  have read := handed.byte _ _ (stored _ (strcpy_mem high there))
  rwa [Nat.add_right_comm] at read

theorem stringSize_take {i : Nat} {arg : Str} (there : argv[i]? = some arg) :
    stringSize (argv.take i) + arg.length + 1 ≤ stringSize argv := by
  induction argv generalizing i with
  | nil => cases there
  | cons first rest ih =>
    unfold stringSize at *
    rw [List.map_cons, List.sum_cons]
    cases i with
    | zero =>
      cases there
      rw [List.take_zero, List.map_nil, List.sum_nil]
      omega
    | succ i =>
      have later := ih there
      rw [List.take_succ_cons, List.map_cons, List.sum_cons]
      omega

theorem Handed.received (handed : Handed argv child w) (arranged : Arranged argv) :
    Received w child (utemp2ustack (argvStore argv - 16)) argv := by
  have page : utemp = 4194304 := rfl
  have shift : stackShift = 4013936640 := rfl
  have size : pgSize = 4096 := rfl
  obtain ⟨below, top⟩ := arranged.bounds
  have low := arranged.low
  have apart := arranged.apart
  have high := arranged.high
  have looped : ∀ s ∈ argStores (argvStore argv) 0 (stringStore argv) argv, s ∈ initStores argv :=
    fun s member => List.mem_append_left _ (List.mem_append_left _ member)
  have argc : loadWord w child (argvStore argv - 16 + stackShift) = some argv.length := by
    refine handed.word arranged (fun s member => List.mem_append_right _ ?_) (by omega) ?_
    · rw [arranged.back_sixteen]
      exact member
    · omega
  have args : loadWord w child (argvStore argv - 16 + stackShift + 8) =
      some (argvStore argv + stackShift) := by
    have moved : argvStore argv - 16 + stackShift + 8 = argvStore argv - 8 + stackShift := by omega
    rw [moved]
    refine handed.word arranged
      (fun s member => List.mem_append_left _ (List.mem_append_right _ ?_)) (by omega) ?_
    · rw [arranged.back_eight, (utemp2ustack_eq (by omega) (by omega)).1]
      exact member
    · omega
  have apart' : argvStore argv - 16 + stackShift ≠ ustackTop := by
    have stack : ustackTop = 4018135040 := rfl
    omega
  rw [(utemp2ustack_eq (by omega) (by omega)).1]
  refine ⟨argvStore argv + stackShift, ?_, fun i arg there => ?_, ?_⟩
  · unfold startArgs
    rw [if_neg apart', args, argc]
    rfl
  · have taken := stringSize_take there
    have short := (List.getElem?_eq_some_iff.mp there).1
    obtain ⟨words, strings⟩ := @argStores_mem 0 _ arg argv (argvStore argv) i top there
    rw [Nat.zero_add, (utemp2ustack_eq (by omega) (by omega)).1] at words
    refine ⟨stringStore argv + stringSize (argv.take i) + stackShift, ?_, ?_⟩
    · rw [Nat.add_right_comm]
      exact handed.word arranged (fun s member => looped s (words s member)) (by omega) (by omega)
    · exact handed.string (fun s member => looped s (strings s member)) (by omega)
  · rw [Nat.add_right_comm]
    refine handed.word arranged (fun s member => looped s (argStores_last s ?_)) (by omega) (by omega)
    rw [Nat.zero_add]
    exact member

/-- Arguments that do not fit, whose place is not below UTEMP when it is taken in 64
bits, are not refused. -/
theorem not_survives (large : ¬Fits argv) (wraps : ¬back (argvStore argv) 16 < utemp) :
    ¬Survives argv := by
  intro survives
  have refused := survives.refused large ⟨0, 0, 0, 0, 0, 0, 0, fun _ _ => 0, fun _ _ => 0,
    fun _ _ => 0, fun _ _ => 0, fun _ _ => 0, fun _ => 0, 0, 0⟩ 0 1
    .empty
  unfold initStack at refused
  rw [if_neg wraps, if_neg (by decide)] at refused
  obtain ⟨w, -, ran⟩ := Option.bind_eq_some_iff.mp refused
  dsimp only at ran
  rw [if_neg (by decide), if_neg (by decide)] at ran
  cases ran

/-- The bounds test refuses what does not fit unless the addresses have come round. -/
theorem survives_iff : Survives argv ↔ Fits argv ∨ back (argvStore argv) 16 < utemp := by
  constructor
  · intro survives
    by_contra neither
    obtain ⟨large, wraps⟩ := not_or.mp neither
    exact not_survives large wraps survives
  · intro either
    refine ⟨fun large a e child w => ?_, fun fits s member => ?_,
      fun fits a e child w differ alloc map unmap => ?_⟩
    · unfold initStack
      rw [if_pos (either.resolve_left large)]
    · have place := fits.arranged.place member
      have low := fits.arranged.low
      omega
    · obtain ⟨w', ran, handed⟩ := fits.arranged.handed differ alloc map unmap
      exact ⟨_, w', ran, handed.received fits.arranged⟩

/-- One string of more than the four megabytes below the page at UTEMP. -/
theorem argv_wraps : ¬Survives [List.replicate (utemp + pgSize) 1] := by
  have large : stringSize [List.replicate (utemp + pgSize) (1 : BitVec 8)] = 4198401 := by
    unfold stringSize
    rw [List.map_singleton, List.sum_singleton, List.length_replicate]
    rfl
  have store : stringStore [List.replicate (utemp + pgSize) (1 : BitVec 8)] = 2 ^ 64 - 1 := by
    unfold stringStore
    rw [large]
    rfl
  refine not_survives ?_ ?_
  · unfold Fits
    rw [large]
    decide
  · unfold argvStore
    rw [store, List.length_singleton]
    decide

end Child

end Jos.Spawn
