import Jos.Fs.Serv

/-! Which file ids the server accepts. -/

set_option autoImplicit false

namespace Jos

open Foundation Function

namespace Fs

namespace Server

variable {σ File : Type} {fs : Files σ File} {s after : Server σ File}

/-- The ids of the slots, of the mappings that clients have, and of the opens so far. -/
structure Ids (s : Server σ File) : Prop where
  slot : ∀ i, (s.opentab i).oFileid.toNat % 1024 = i.val
  unused : ∀ i, s.mapped i = false → (s.opentab i).oFileid.toNat = i.val
  used : ∀ i, s.mapped i = true → 1024 ≤ (s.opentab i).oFileid.toNat
  clients : ∀ m ∈ s.clients, s.mapped m.slot = true ∧
    (s.opentab m.slot).oFileid = m.fileid ∧ ∃ h ∈ s.handed, h.fileid = m.fileid
  handed : ∀ h ∈ s.handed, 1024 ≤ h.fileid.toNat ∧
    h.fileid.toNat ≤ (s.opentab (slotOf h.fileid)).oFileid.toNat
  filled : ∀ h ∈ s.handed, (s.opentab (slotOf h.fileid)).oFileid = h.fileid →
    (s.opentab (slotOf h.fileid)).oFile = some h.file ∧
      (s.opentab (slotOf h.fileid)).oMode = h.mode

theorem slotOf_val (fileid : BitVec 32) : (slotOf fileid).val = fileid.toNat % 1024 := by
  simp [slotOf, maxOpen, Fin.ofNat]

theorem Ids.slotOf_oFileid (ids : Ids s) (i : Slot) : slotOf (s.opentab i).oFileid = i := by
  apply Fin.ext
  rw [slotOf_val, ids.slot i]

theorem Ids.same (ids : Ids s) (same : s.SameTable after) : Ids after := by
  obtain ⟨opentab, mapped, clients, handed⟩ := same
  constructor
  · rw [opentab]
    exact ids.slot
  · rw [opentab, mapped]
    exact ids.unused
  · rw [opentab, mapped]
    exact ids.used
  · rw [opentab, mapped, clients, handed]
    exact ids.clients
  · rw [opentab, handed]
    exact ids.handed
  · rw [opentab, handed]
    exact ids.filled

theorem ids_init (disk : σ) : Ids (init disk : Server σ File) where
  slot i := by simp [init]
  unused i _ := by simp [init]; omega
  used i mapped := by cases mapped
  clients m member := by cases member
  handed h member := by cases member
  filled h member := by cases member

/-- No client has the page of a slot that `openfile_alloc` stops at. -/
theorem Ids.available {i : Slot} (ids : Ids s) (found : s.available = some i) :
    ∀ m ∈ s.clients, m.slot ≠ i := by
  rintro m member rfl
  have few := List.find?_some found
  have counted : 0 < s.clients.countP fun other => other.slot = m.slot :=
    List.countP_pos_iff.mpr ⟨m, member, by simp⟩
  have mapped := (ids.clients m member).1
  simp only [pageref, mapped, Bool.toNat_true, decide_eq_true_eq] at few
  omega

structure Claimed (s : Server σ File) (i : Slot) : Prop extends Ids s where
  mapped : s.mapped i = true
  free : ∀ m ∈ s.clients, m.slot ≠ i
  fresh : ∀ h ∈ s.handed, slotOf h.fileid = i → h.fileid.toNat < (s.opentab i).oFileid.toNat

theorem Ids.claim {i : Slot} (ids : Ids s) (free : ∀ m ∈ s.clients, m.slot ≠ i)
    (small : (s.opentab i).oFileid.toNat + 1024 < 2 ^ 32) : Claimed (s.claim i) i := by
  have grown : ((s.opentab i).oFileid + BitVec.ofNat 32 maxOpen).toNat =
      (s.opentab i).oFileid.toNat + 1024 := by
    rw [BitVec.toNat_add, BitVec.toNat_ofNat, maxOpen]
    omega
  have slot := ids.slot i
  have handed : ∀ h ∈ s.handed, slotOf h.fileid = i →
      h.fileid.toNat < (s.opentab i).oFileid.toNat + 1024 := by
    rintro h member rfl
    have bound := (ids.handed h member).2
    omega
  refine ⟨⟨?_, ?_, ?_, ?_, ?_, ?_⟩, by simp [Server.claim], free, ?_⟩
  · intro j
    by_cases equal : j = i
    · subst equal
      simp only [Server.claim, update_self, grown]
      omega
    · simpa only [Server.claim, update_of_ne equal] using ids.slot j
  · intro j unmapped
    by_cases equal : j = i
    · subst equal
      simp [Server.claim] at unmapped
    · simp only [Server.claim, update_of_ne equal] at unmapped ⊢
      exact ids.unused j unmapped
  · intro j mapped
    by_cases equal : j = i
    · subst equal
      simp only [Server.claim, update_self, grown]
      omega
    · simp only [Server.claim, update_of_ne equal] at mapped ⊢
      exact ids.used j mapped
  · intro m member
    have other : m.slot ≠ i := free m member
    simpa only [Server.claim, update_of_ne other] using ids.clients m member
  · intro h member
    obtain ⟨large, bound⟩ := ids.handed h member
    refine ⟨large, ?_⟩
    by_cases equal : slotOf h.fileid = i
    · have later := handed h member equal
      simp only [Server.claim, equal, update_self, grown]
      omega
    · simpa only [Server.claim, update_of_ne equal] using bound
  · intro h member here
    by_cases equal : slotOf h.fileid = i
    · have later := handed h member equal
      simp only [Server.claim, equal, update_self] at here
      rw [← here, grown] at later
      omega
    · simp only [Server.claim, update_of_ne equal] at here ⊢
      exact ids.filled h member here
  · intro h member equal
    simp only [Server.claim, update_self, grown]
    exact handed h member equal

theorem Claimed.onDisk {i : Slot} (claimed : Claimed s i) (disk : σ) :
    Claimed { s with fs := disk } i :=
  ⟨claimed.toIds.same (.of_fs s disk), claimed.mapped, claimed.free, claimed.fresh⟩

theorem Claimed.fill {i : Slot} {f : File} {omode : BitVec 32} (claimed : Claimed s i) :
    Ids (s.fill i f omode) := by
  have ids := claimed.toIds
  have same : ∀ j, ((s.fill i f omode).opentab j).oFileid = (s.opentab j).oFileid := by
    intro j
    by_cases equal : j = i
    · subst equal
      simp [Server.fill]
    · simp [Server.fill, update_of_ne equal]
  constructor
  · intro j
    rw [same]
    exact ids.slot j
  · intro j
    rw [same]
    exact ids.unused j
  · intro j
    rw [same]
    exact ids.used j
  · intro m member
    obtain ⟨mapped, id, h, known, equal⟩ := ids.clients m member
    rw [same]
    exact ⟨mapped, id, h, List.mem_cons_of_mem _ known, equal⟩
  · intro h member
    rw [same]
    rcases List.mem_cons.mp member with rfl | old
    · simp only [ids.slotOf_oFileid]
      exact ⟨ids.used i claimed.mapped, le_rfl⟩
    · exact ids.handed h old
  · intro h member here
    rw [same] at here
    rcases List.mem_cons.mp member with rfl | old
    · simp only [ids.slotOf_oFileid]
      simp [Server.fill]
    · have other : slotOf h.fileid ≠ i := by
        intro equal
        have earlier := claimed.fresh h old equal
        rw [equal] at here
        rw [here] at earlier
        exact lt_irrefl _ earlier
      simpa only [Server.fill, update_of_ne other] using ids.filled h old here

def NoWrap (s : Server σ File) : Prop := ∀ i, (s.opentab i).oFileid.toNat + maxOpen < 2 ^ 32

theorem Ids.openfileAlloc (ids : Ids s) (noWrap : NoWrap s) (pageAlloc : Int) :
    (∃ r, s.openfileAlloc pageAlloc = (.error r, s)) ∨
      ∃ i, s.openfileAlloc pageAlloc = (.ok i, s.claim i) ∧ Claimed (s.claim i) i := by
  unfold Server.openfileAlloc
  cases found : s.available with
  | none => exact .inl ⟨_, rfl⟩
  | some i =>
    dsimp only
    split
    · exact .inl ⟨_, rfl⟩
    · exact .inr ⟨i, rfl, ids.claim (ids.available found) (noWrap i)⟩

/-- An open that succeeds hands out the id of a slot that the server has mapped. -/
theorem Ids.serveOpen {page : Request} {pageAlloc r : Int} {slot : Option Slot} (ids : Ids s)
    (noWrap : NoWrap s) (ran : s.serveOpen fs page pageAlloc = some (r, slot, after)) :
    Ids after ∧ ∀ i ∈ slot, after.mapped i = true ∧
      ∃ h ∈ after.handed, h.fileid = (after.opentab i).oFileid := by
  unfold Server.serveOpen at ran
  rcases ids.openfileAlloc noWrap pageAlloc with ⟨r', alloc⟩ | ⟨i, alloc, claimed⟩
  · rw [alloc] at ran
    cases ran
    exact ⟨ids, by simp⟩
  · rw [alloc] at ran
    dsimp only at ran
    split at ran
    · cases ran
      exact ⟨claimed.toIds, by simp⟩
    · obtain ⟨⟨found, disk⟩, -, ran⟩ := Option.bind_eq_some_iff.mp ran
      cases found with
      | error r' =>
        cases ran
        exact ⟨(claimed.onDisk disk).toIds, by simp⟩
      | ok f =>
        obtain ⟨⟨r', disk'⟩, -, equal⟩ := Option.map_eq_some_iff.mp ran
        dsimp only at equal
        split at equal
        · cases equal
          exact ⟨(claimed.onDisk disk').toIds, by simp⟩
        · cases equal
          refine ⟨(claimed.onDisk disk').fill, ?_⟩
          rintro j ⟨⟩
          refine ⟨claimed.mapped, _, List.mem_cons_self, ?_⟩
          simp [Server.fill]

theorem Ids.send {slot : Option Slot} {takes : Bool} (ids : Ids s)
    (filled : ∀ i ∈ slot, s.mapped i = true ∧ ∃ h ∈ s.handed, h.fileid = (s.opentab i).oFileid) :
    Ids (s.send slot takes) := by
  unfold Server.send
  split
  · rename_i i
    split
    · obtain ⟨mapped, known⟩ := filled i rfl
      refine ⟨ids.slot, ids.unused, ids.used, ?_, ids.handed, ids.filled⟩
      intro m member
      rcases List.mem_cons.mp member with rfl | old
      · exact ⟨mapped, rfl, known⟩
      · exact ids.clients m old
    · exact ids
  · exact ids

theorem Ids.serve {req : Nat} {page page' : Request} {pageAlloc r : Int} {slot : Option Slot}
    (ids : Ids s) (noWrap : NoWrap s)
    (ran : s.serve fs req page pageAlloc = some (r, page', slot, after)) :
    Ids after ∧ ∀ i ∈ slot, after.mapped i = true ∧
      ∃ h ∈ after.handed, h.fileid = (after.opentab i).oFileid := by
  unfold Server.serve at ran
  split at ran
  · obtain ⟨⟨r', slot', final⟩, opened, equal⟩ := Option.map_eq_some_iff.mp ran
    cases equal
    exact ids.serveOpen noWrap opened
  · split at ran
    · rename_i handler known
      obtain ⟨⟨r', page'', final⟩, handled, equal⟩ := Option.map_eq_some_iff.mp ran
      cases equal
      exact ⟨ids.same (handlers_table known handled), by simp⟩
    · cases ran
      exact ⟨ids, by simp⟩

theorem Ids.step {event : ClientEvent} (ids : Ids s) (noWrap : NoWrap s)
    (ran : serverStep fs s event = some after) : Ids after := by
  cases event with
  | request req page pageAlloc takes =>
    cases page with
    | none =>
      cases ran
      exact ids
    | some page =>
      obtain ⟨⟨r, page', slot, final⟩, served, equal⟩ := Option.map_eq_some_iff.mp ran
      cases equal
      obtain ⟨stays, filled⟩ := ids.serve noWrap served
      exact stays.send filled
  | dup mapping =>
    simp only [serverStep] at ran
    split at ran
    · rename_i member
      cases ran
      refine ⟨ids.slot, ids.unused, ids.used, ?_, ids.handed, ids.filled⟩
      intro m there
      rcases List.mem_cons.mp there with rfl | old
      · exact ids.clients m member
      · exact ids.clients m old
    · cases ran
  | close mapping =>
    simp only [serverStep] at ran
    split at ran
    · cases ran
      exact ⟨ids.slot, ids.unused, ids.used,
        fun m there => ids.clients m (List.mem_of_mem_erase there), ids.handed, ids.filled⟩
    · cases ran
  | writeFd mapping fd =>
    simp only [serverStep] at ran
    split at ran <;> cases ran
    exact ids.same ⟨rfl, rfl, rfl, rfl⟩

/-- The file server as the clients find it, in runs in which no id wraps around. -/
def Reached (fs : Files σ File) : Server σ File → Prop :=
  Reachable (fun s => ∃ disk, s = init disk) (serverStep fs) fun s _ => NoWrap s

theorem Reached.ids (reached : Reached fs s) : Ids s := by
  refine reached.invariant Ids ?_ fun before event after ids noWrap ran => ids.step noWrap ran
  rintro start ⟨disk, rfl⟩
  exact ids_init disk

/-- A file id is good for what it was handed out for: it is accepted just when an open
handed it out and some client still has the page of that open, and it leads to the file
and the mode of that open. -/
structure Capability (s : Server σ File) (fileid : BitVec 32) : Prop where
  accepted : (∃ i, s.openfileLookup fileid = .ok i) ↔
    (∃ h ∈ s.handed, h.fileid = fileid) ∧ ∃ m ∈ s.clients, m.fileid = fileid
  filled : ∀ i, s.openfileLookup fileid = .ok i → ∀ h ∈ s.handed, h.fileid = fileid →
    (s.opentab i).oFile = some h.file ∧ (s.opentab i).oMode = h.mode
  rejected : ∀ r, s.openfileLookup fileid = .error r → r = -eInval

theorem openfileLookup_ok {fileid : BitVec 32} {i : Slot} :
    s.openfileLookup fileid = .ok i ↔
      i = slotOf fileid ∧ s.pageref i ≠ 1 ∧ (s.opentab i).oFileid = fileid := by
  unfold openfileLookup
  constructor
  · intro found
    dsimp only at found
    split at found
    · cases found
    · rename_i good
      cases found
      simp only [not_or, ne_eq, not_not] at good
      exact ⟨rfl, good⟩
  · rintro ⟨rfl, several, same⟩
    dsimp only
    rw [if_neg]
    simp only [not_or, not_not]
    exact ⟨several, same⟩

theorem Ids.pageref {m : Mapping} (ids : Ids s) (member : m ∈ s.clients) :
    s.pageref m.slot ≠ 1 := by
  have counted : 0 < s.clients.countP fun other => other.slot = m.slot :=
    List.countP_pos_iff.mpr ⟨m, member, by simp⟩
  simp only [Server.pageref, (ids.clients m member).1, Bool.toNat_true]
  omega

/-- A file id is a capability if and only if its slot has been used or it is not the
number of a slot. -/
theorem fileid_capability (reached : Reached fs s) (fileid : BitVec 32) :
    Capability s fileid ↔ s.mapped (slotOf fileid) = true ∨ maxOpen ≤ fileid.toNat := by
  have ids := reached.ids
  constructor
  · intro capability
    by_contra neither
    simp only [not_or, Bool.not_eq_true, not_le] at neither
    obtain ⟨unused, small⟩ := neither
    have number : (s.opentab (slotOf fileid)).oFileid = fileid := by
      apply BitVec.eq_of_toNat_eq
      rw [ids.unused _ unused, slotOf_val]
      exact Nat.mod_eq_of_lt small
    have nobody : s.clients.countP (fun m => m.slot = slotOf fileid) = 0 := by
      rw [List.countP_eq_zero]
      intro m member same
      have mapped := (ids.clients m member).1
      rw [of_decide_eq_true same, unused] at mapped
      cases mapped
    have references : s.pageref (slotOf fileid) ≠ 1 := by
      simp [Server.pageref, unused, nobody]
    obtain ⟨⟨h, member, same⟩, -⟩ :=
      capability.accepted.mp ⟨_, openfileLookup_ok.mpr ⟨rfl, references, number⟩⟩
    have large := (ids.handed h member).1
    rw [same] at large
    exact absurd large (not_le.mpr small)
  · intro used
    refine ⟨⟨?_, ?_⟩, ?_, ?_⟩
    · rintro ⟨i, found⟩
      obtain ⟨rfl, several, same⟩ := openfileLookup_ok.mp found
      have mapped : s.mapped (slotOf fileid) = true := by
        rcases used with mapped | large
        · exact mapped
        · by_contra unmapped
          have number := ids.unused _ (Bool.not_eq_true _ ▸ unmapped)
          have inside := (slotOf fileid).isLt
          rw [same] at number
          simp only [maxOpen] at large
          omega
      have some : 0 < s.clients.countP fun m => m.slot = slotOf fileid := by
        simp only [Server.pageref, mapped, Bool.toNat_true] at several
        omega
      obtain ⟨m, member, there⟩ := List.countP_pos_iff.mp some
      obtain ⟨-, id, known⟩ := ids.clients m member
      rw [of_decide_eq_true there, same] at id
      exact ⟨id ▸ known, m, member, id.symm⟩
    · rintro ⟨-, m, member, rfl⟩
      obtain ⟨-, id, -⟩ := ids.clients m member
      have slot : slotOf m.fileid = m.slot := id ▸ ids.slotOf_oFileid m.slot
      exact ⟨m.slot, openfileLookup_ok.mpr ⟨slot.symm, ids.pageref member, id⟩⟩
    · rintro i found h member rfl
      obtain ⟨rfl, -, same⟩ := openfileLookup_ok.mp found
      exact ids.filled h member same
    · intro r refused
      unfold openfileLookup at refused
      dsimp only at refused
      split at refused
      · cases refused
        rfl
      · cases refused

def oneFile : Files Unit Unit where
  fileCreate _ disk := some (.error (-eFileExists), disk)
  fileOpen _ disk := some (.ok (), disk)
  fileSetSize _ _ disk := some (0, disk)
  fileRead _ buf _ _ disk := some (0, buf, disk)
  fileWrite _ _ _ _ disk := some (0, disk)
  fileFlush _ disk := some disk
  fileRemove _ disk := some (0, disk)
  fsSync disk := some disk
  fName _ _ := []
  fSize _ _ := 0
  isDir _ _ := false
  diskMapped _ _ := 0

theorem init_reached : Reached oneFile (init ()) := ⟨init (), [], ⟨(), rfl⟩, .nil⟩

/-- The id 5, which nobody has got, is accepted by a server that has just started. -/
theorem fileid_five_accepted :
    Reached oneFile (init ()) ∧ (init () : Server Unit Unit).openfileLookup 5 = .ok 5 ∧
      (init () : Server Unit Unit).handed = [] ∧ ¬Capability (init () : Server Unit Unit) 5 := by
  refine ⟨init_reached, by decide, rfl, fun capability => ?_⟩
  obtain ⟨⟨h, member, -⟩, -⟩ := capability.accepted.mp ⟨5, by decide⟩
  cases member

def opened : Server Unit Unit :=
  (serverStep oneFile (init ()) (.request fsreqOpen (some fun _ => 0) 0 true)).getD (init ())

theorem opened_reached : Reached oneFile opened := by
  refine ⟨init (), [.request fsreqOpen (some fun _ => 0) 0 true], ⟨(), rfl⟩, ?_⟩
  refine Along.snoc .nil ?_ ?_
  · intro i
    have inside := i.isLt
    simp only [init, BitVec.toNat_ofNat, maxOpen]
    omega
  · have runs : (serverStep oneFile (init ()) (.request fsreqOpen (some fun _ => 0) 0 true)).isSome =
        true := by decide +kernel
    obtain ⟨after, ran⟩ := Option.isSome_iff_exists.mp runs
    rw [opened, ran]
    rfl

theorem fileid_capability_opened :
    (opened.openfileLookup 1024 = .ok 0) ∧ Capability opened 1024 ∧ ¬Capability opened 7 :=
  ⟨by decide +kernel, (fileid_capability opened_reached 1024).mpr (.inr (by decide)),
    fun capability => absurd ((fileid_capability opened_reached 7).mp capability)
      (by decide +kernel)⟩

end Server

end Fs

end Jos
