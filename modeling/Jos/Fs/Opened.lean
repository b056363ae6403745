import Jos.Fs.Devfile
import Jos.Fs.Ids

/-! Which file an open file id leads to. A file is an entry of a directory from one
`file_create` of it to the next. -/

set_option autoImplicit false

namespace Jos

open Foundation Function

namespace Fs

variable {σ File : Type} {event : ClientEvent}

def Server.createdBy (fs : Files σ File) (s : Server σ File) : ClientEvent → Option File
  | .request req (some page) pageAlloc _ =>
    if req = fsreqOpen ∧ reqOmode page &&& oCreat ≠ 0 then
      match s.openfileAlloc pageAlloc with
      | (.error _, _) => none
      | (.ok i, claimed) =>
        if (claimed.opentab i).oFileid.toInt < 0 then none
        else
          match fs.fileCreate (pathOf page) s.fs with
          | some (.ok f, _) => some f
          | _ => none
    else none
  | _ => none

/-- The server, how often each entry was made a file, and for each id that was handed out
which of the files in the entry was opened. -/
structure Tracked (σ File : Type) where
  server : Server σ File
  born : File → Nat
  opened : BitVec 32 → Nat

section

variable [DecidableEq File] (fs : Files σ File)

def Tracked.bornAfter (t : Tracked σ File) (event : ClientEvent) : File → Nat :=
  match t.server.createdBy fs event with
  | some f => update t.born f (t.born f + 1)
  | none => t.born

def Tracked.openedAfter (t : Tracked σ File) (event : ClientEvent) :
    List (Handed File) → BitVec 32 → Nat
  | h :: rest =>
    if rest.length = t.server.handed.length then
      update t.opened h.fileid (t.bornAfter fs event h.file)
    else t.opened
  | [] => t.opened

def trackedStep (t : Tracked σ File) (event : ClientEvent) : Option (Tracked σ File) :=
  (serverStep fs t.server event).map fun after =>
    ⟨after, t.bornAfter fs event, t.openedAfter fs event after.handed⟩

/-- No entry to which a file id leads that a client has is made a new file. -/
def Server.Spares (s : Server σ File) (event : ClientEvent) : Prop :=
  ∀ f, s.createdBy fs event = some f → ∀ m ∈ s.clients, (s.opentab m.slot).oFile ≠ some f

end

structure Tracked.Stays (t : Tracked σ File) : Prop where
  ids : Server.Ids t.server
  same : ∀ m ∈ t.server.clients, ∀ h ∈ t.server.handed, h.fileid = m.fileid →
    t.born h.file = t.opened m.fileid

section Steps

variable {fs : Files σ File} {s after : Server σ File}

theorem Server.Ids.serveOpen_cases {page : Request} {pageAlloc r : Int} {slot : Option Slot}
    (ids : Ids s) (noWrap : NoWrap s)
    (ran : s.serveOpen fs page pageAlloc = some (r, slot, after)) :
    after.clients = s.clients ∧
      ((slot = none ∧ after.handed = s.handed) ∨
        ∃ i f, slot = some i ∧
          after.handed = ⟨(after.opentab i).oFileid, f, reqOmode page⟩ :: s.handed ∧
          (∀ h ∈ s.handed, h.fileid ≠ (after.opentab i).oFileid)) := by
  unfold Server.serveOpen at ran
  rcases ids.openfileAlloc noWrap pageAlloc with ⟨r', alloc⟩ | ⟨i, alloc, claimed⟩
  · rw [alloc] at ran
    cases ran
    exact ⟨rfl, .inl ⟨rfl, rfl⟩⟩
  · rw [alloc] at ran
    dsimp only at ran
    split at ran
    · cases ran
      exact ⟨rfl, .inl ⟨rfl, rfl⟩⟩
    · obtain ⟨⟨found, disk⟩, -, ran⟩ := Option.bind_eq_some_iff.mp ran
      cases found with
      | error r' =>
        cases ran
        exact ⟨rfl, .inl ⟨rfl, rfl⟩⟩
      | ok f =>
        obtain ⟨⟨r', disk'⟩, -, equal⟩ := Option.map_eq_some_iff.mp ran
        dsimp only at equal
        split at equal
        · cases equal
          exact ⟨rfl, .inl ⟨rfl, rfl⟩⟩
        · cases equal
          have id : (((({ s.claim i with fs := disk' } : Server σ File).fill i f
              (reqOmode page)).opentab i).oFileid) = ((s.claim i).opentab i).oFileid := by
            simp [Server.fill]
          refine ⟨rfl, .inr ⟨i, f, rfl, ?_, ?_⟩⟩
          · rw [id]
            rfl
          · intro h member same
            rw [id] at same
            have slot : slotOf h.fileid = i := by rw [same, claimed.slotOf_oFileid]
            have earlier := claimed.fresh h member slot
            rw [same] at earlier
            exact absurd earlier (lt_irrefl _)

theorem Server.serve_other {req : Nat} {page page' : Request} {pageAlloc r : Int}
    {slot : Option Slot} (other : req ≠ fsreqOpen)
    (ran : s.serve fs req page pageAlloc = some (r, page', slot, after)) :
    slot = none ∧ after.clients = s.clients ∧ after.handed = s.handed := by
  unfold Server.serve at ran
  rw [if_neg other] at ran
  split at ran
  · rename_i handler known
    obtain ⟨⟨r', page'', final⟩, handled, equal⟩ := Option.map_eq_some_iff.mp ran
    cases equal
    have table := handlers_table known handled
    exact ⟨rfl, table.clients, table.handed⟩
  · cases ran
    exact ⟨rfl, rfl, rfl⟩

variable [DecidableEq File] {t next : Tracked σ File}

theorem Tracked.bornAfter_spared (stays : t.Stays)
    (spares : t.server.Spares fs event) {m : Mapping} (member : m ∈ t.server.clients)
    {h : Handed File} (known : h ∈ t.server.handed) (same : h.fileid = m.fileid) :
    t.bornAfter fs event h.file = t.born h.file := by
  unfold Tracked.bornAfter
  cases made : t.server.createdBy fs event with
  | none => rfl
  | some f =>
    obtain ⟨-, id, -⟩ := stays.ids.clients m member
    have slot : Server.slotOf h.fileid = m.slot := by
      rw [same, ← id, stays.ids.slotOf_oFileid]
    have file := (stays.ids.filled h known (by rw [slot, id, same])).1
    rw [slot] at file
    have different : h.file ≠ f := fun equal =>
      spares f made m member (equal ▸ file)
    exact update_of_ne different ..

theorem Tracked.openedAfter_same {handed : List (Handed File)}
    (same : handed = t.server.handed) : t.openedAfter fs event handed = t.opened := by
  cases handed with
  | nil => rfl
  | cons h rest =>
    have length := congrArg List.length same
    rw [Tracked.openedAfter, if_neg]
    simp only [List.length_cons] at length
    omega

theorem Tracked.openedAfter_cons {h : Handed File} :
    t.openedAfter fs event (h :: t.server.handed) =
      update t.opened h.fileid (t.bornAfter fs event h.file) := by
  rw [Tracked.openedAfter, if_pos rfl]

/-- A step that makes no new file of an entry in use keeps the ids with their files. -/
theorem Tracked.Stays.step (stays : t.Stays)
    (noWrap : Server.NoWrap t.server) (spares : t.server.Spares fs event)
    (ran : trackedStep fs t event = some next) : next.Stays := by
  obtain ⟨final, stepped, rfl⟩ := Option.map_eq_some_iff.mp ran
  refine ⟨stays.ids.step noWrap stepped, ?_⟩
  have old : ∀ m ∈ t.server.clients, ∀ h ∈ t.server.handed, h.fileid = m.fileid →
      t.bornAfter fs event h.file = t.opened m.fileid := by
    intro m member h known same
    rw [Tracked.bornAfter_spared stays spares member known same]
    exact stays.same m member h known same
  -- a step that hands nothing out, and gives a page to nobody who had none
  have quiet : final.handed = t.server.handed → (∀ m ∈ final.clients, m ∈ t.server.clients) →
      ∀ m ∈ final.clients, ∀ h ∈ final.handed, h.fileid = m.fileid →
        t.bornAfter fs event h.file = t.openedAfter fs event final.handed m.fileid := by
    intro handed clients m member h known same
    rw [Tracked.openedAfter_same handed]
    exact old m (clients m member) h (handed ▸ known) same
  cases event with
  | dup mapping =>
    simp only [serverStep] at stepped
    split at stepped
    · rename_i there
      cases stepped
      refine quiet rfl fun m member => ?_
      rcases List.mem_cons.mp member with rfl | before
      · exact there
      · exact before
    · cases stepped
  | close mapping =>
    simp only [serverStep] at stepped
    split at stepped <;> cases stepped
    exact quiet rfl fun m member => List.mem_of_mem_erase member
  | writeFd mapping fd =>
    simp only [serverStep] at stepped
    split at stepped <;> cases stepped
    exact quiet rfl fun m member => member
  | request req page pageAlloc takes =>
    cases page with
    | none =>
      cases stepped
      exact quiet rfl fun m member => member
    | some page =>
      obtain ⟨⟨r, page', slot, served⟩, answered, equal⟩ := Option.map_eq_some_iff.mp stepped
      dsimp only at equal
      subst equal
      by_cases opens : req = Server.fsreqOpen
      · unfold Server.serve at answered
        rw [if_pos opens] at answered
        obtain ⟨⟨r', slot', served'⟩, opened, equal⟩ := Option.map_eq_some_iff.mp answered
        cases equal
        obtain ⟨clients, nothing | ⟨i, f, rfl, handed, fresh⟩⟩ :=
          stays.ids.serveOpen_cases noWrap opened
        · obtain ⟨rfl, handed⟩ := nothing
          exact quiet handed fun m member => clients ▸ member
        · intro m member h known same
          have record : (served.send (some i) takes).handed = served.handed := by
            unfold Server.send
            dsimp only
            split <;> rfl
          rw [record] at known
          rw [record, handed, Tracked.openedAfter_cons]
          dsimp only
          rw [handed] at known
          have others : ∀ n ∈ t.server.clients, n.fileid ≠ (served.opentab i).oFileid := by
            intro n before equal
            obtain ⟨-, -, h', known', id⟩ := stays.ids.clients n before
            exact fresh h' known' (id.trans equal)
          by_cases new : m.fileid = (served.opentab i).oFileid
          · rw [new, update_self]
            rcases List.mem_cons.mp known with rfl | before
            · rfl
            · exact absurd (same.trans new) (fresh h before)
          · rw [update_of_ne new]
            have before : m ∈ t.server.clients := by
              unfold Server.send at member
              dsimp only at member
              split at member
              · rcases List.mem_cons.mp member with rfl | before
                · exact absurd rfl new
                · exact clients ▸ before
              · exact clients ▸ member
            rcases List.mem_cons.mp known with rfl | earlier
            · exact absurd same.symm new
            · exact old m before h earlier same
      · obtain ⟨rfl, clients, handed⟩ := Server.serve_other opens answered
        exact quiet handed fun m member => clients ▸ member

end Steps

def Tracked.Begins (t : Tracked σ File) : Prop := ∃ disk, t.server = Server.init disk

def trackedStart : Tracked Disk FilePtr := ⟨Server.init smallDisk, fun _ => 0, fun _ => 0⟩

def openA : ClientEvent := .request Server.fsreqOpen (some createA) 0 true

def afterOpenA : Tracked Disk FilePtr := (trackedStep diskFiles trackedStart openA).getD trackedStart

theorem afterOpenA_reached : Reachable Tracked.Begins (trackedStep diskFiles)
    (fun t event => Server.NoWrap t.server ∧ t.server.Spares diskFiles event) afterOpenA := by
  refine ⟨trackedStart, [openA], ⟨smallDisk, rfl⟩, Along.snoc .nil ⟨?_, ?_⟩ ?_⟩
  · intro i
    have inside := i.isLt
    simp only [trackedStart, Server.init, BitVec.toNat_ofNat, maxOpen]
    omega
  · intro f _ m member
    cases member
  · have runs : (trackedStep diskFiles trackedStart openA).isSome = true := by decide +kernel
    obtain ⟨after, ran⟩ := Option.isSome_iff_exists.mp runs
    rw [afterOpenA, ran]
    rfl

def mappingA : Mapping := ⟨0, 1024⟩

def removeA : ClientEvent := .request 7 (some fun off => if off = 0 then 97 else 0) 0 false

def openB : ClientEvent :=
  .request Server.fsreqOpen (some fun off => if off = 0 then 98 else createA off) 0 true

/-- The request to stat the id 1024. -/
def statA : Request := fun off => if off = 1 then 4 else 0

end Fs

end Jos
