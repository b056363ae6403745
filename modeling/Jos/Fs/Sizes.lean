import Mathlib.Data.List.TakeWhile
import Jos.Fs.Opened
import Jos.Fs.Uses

/-! The sizes of the files over the runs of the file server, by the calls that its handlers make. -/

set_option autoImplicit false

namespace Jos

open Foundation Function

namespace Fs

open Disk

/-- A size that a file may have. A directory whose last block is cut is not made longer, since the
entries behind the cut would come back. -/
def Disk.Fits (d : Disk) (f : FilePtr) (newsize : BitVec 32) : Prop :=
  newsize.toNat ≤ maxFileSize ∧
    (d.fType f = ftypeDir → (d.fSize f).toNat < newsize.toNat → d.wholeBlocks f = true)

namespace FileCall

/-- What a request asks for: files are of the tree, they end within the greatest size, and nothing
is written into a directory. -/
def Fits (d : Disk) : FileCall → Prop
  | read f _ _ offset => d.Live f ∧ 0 ≤ offset.toInt
  | write f _ count offset => d.Live f ∧ (offset.signExtend 64 + count).toNat ≤ maxFileSize ∧
      d.Fits f ((offset.signExtend 64 + count).setWidth 32) ∧
      (before offset offset count = true → d.fType f ≠ ftypeDir)
  | setSize f newsize => d.Live f ∧ d.Fits f newsize
  | _ => True

def Text : FileCall → Prop
  | create path => ∀ c ∈ path, c ≠ 0
  | openFile path => ∀ c ∈ path, c ≠ 0
  | remove path => ∀ c ∈ path, c ≠ 0
  | _ => True

end FileCall

namespace Server

def resolveCalls (omode : BitVec 32) (path : Path) (d : Disk) : List FileCall :=
  if omode &&& oCreat ≠ 0 then
    .create path :: match Disk.fileCreate path d with
      | some (.error r, _) => if omode &&& oExcl = 0 ∧ r = -eFileExists then [.openFile path] else []
      | _ => []
  else [.openFile path]

/-- The calls of `serve_open`. -/
def openCalls (omode : BitVec 32) (path : Path) (d : Disk) : List FileCall :=
  resolveCalls omode path d ++
    match resolve diskFiles omode path d with
    | some (.ok f, _) => if omode &&& oTrunc ≠ 0 then [.setSize f 0] else []
    | _ => []

def fileCalls (s : Server Disk FilePtr) (i : Slot) (f : FilePtr) (req : Nat) (page : Request) :
    List FileCall :=
  match req with
  | 2 => [.setSize f (reqSize page)]
  | 3 =>
    let page := if pgSize < (reqN page).toNat then setSize page 8 (BitVec.ofNat 64 pgSize) else page
    [.read f page (reqN page) (s.fd i).offset]
  | 4 => [.write f (s.requestBuf diskFiles page) (reqN page) (s.fd i).offset]
  | 6 => [.flush f]
  | _ => []

/-- The calls of one round of `serve`. -/
def calls (s : Server Disk FilePtr) (req : Nat) (page : Request) (pageAlloc : Int) :
    List FileCall :=
  if req = fsreqOpen then
    match s.openfileAlloc pageAlloc with
    | (.error _, _) => []
    | (.ok i, claimed) =>
      if (claimed.opentab i).oFileid.toInt < 0 then []
      else openCalls (reqOmode page) (pathOf page) s.fs
  else if req = 7 then [.remove (pathOf page)]
  else
    match s.openfileLookup (reqFileid page) with
    | .error _ => []
    | .ok i =>
      match (s.opentab i).oFile with
      | none => []
      | some f => s.fileCalls i f req page

end Server

def ClientEvent.calls (s : Server Disk FilePtr) : ClientEvent → List FileCall
  | .request req (some page) pageAlloc _ => s.calls req page pageAlloc
  | _ => []

/-- Each call asks for what fits, and brings into use what is clear, where it is made. -/
def Server.Bounded (s : Server Disk FilePtr) (event : ClientEvent) : Prop :=
  ∀ disk, run FileCall.step s.fs (event.calls s) = some disk →
    Along FileCall.step (fun d call => call.Fits d ∧ call.Clear d) s.fs (event.calls s) disk

section Calls

variable {s after : Server Disk FilePtr} {page page' : Request} {d d' : Disk} {r : Int}
  {omode : BitVec 32} {path : Path} {call : FileCall} {pageAlloc : Int} {req : Nat}

theorem takeWhile_text (text : List (BitVec 8)) : ∀ c ∈ text.takeWhile (· ≠ 0), c ≠ 0 := by
  intro c member
  have kept := List.mem_takeWhile_imp member
  simpa using kept

theorem pathOf_text (page : Request) : ∀ c ∈ pathOf page, c ≠ 0 := takeWhile_text _

theorem openCalls_text (text : ∀ c ∈ path, c ≠ 0) (member : call ∈ Server.openCalls omode path d) :
    call.Text := by
  rcases List.mem_append.mp member with first | last
  · unfold Server.resolveCalls at first
    split at first
    · rcases List.mem_cons.mp first with rfl | second
      · exact text
      · split at second
        · split at second
          · rw [List.mem_singleton.mp second]
            exact text
          · cases second
        · cases second
    · rw [List.mem_singleton.mp first]
      exact text
  · split at last
    · split at last
      · rw [List.mem_singleton.mp last]
        trivial
      · cases last
    · cases last

theorem fileCalls_text {i : Slot} {f : FilePtr} (member : call ∈ s.fileCalls i f req page) :
    call.Text := by
  unfold Server.fileCalls at member
  split at member
  · rw [List.mem_singleton.mp member]
    trivial
  · rw [List.mem_singleton.mp member]
    trivial
  · rw [List.mem_singleton.mp member]
    trivial
  · rw [List.mem_singleton.mp member]
    trivial
  · cases member

theorem ClientEvent.calls_text {event : ClientEvent} (member : call ∈ event.calls s) : call.Text := by
  cases event with
  | request req page pageAlloc takes =>
    cases page with
    | none => cases member
    | some page =>
      change call ∈ s.calls req page pageAlloc at member
      unfold Server.calls at member
      split at member
      · split at member
        · cases member
        · split at member
          · cases member
          · exact openCalls_text (pathOf_text page) member
      · split at member
        · rw [List.mem_singleton.mp member]
          exact pathOf_text page
        · split at member
          · cases member
          · split at member
            · cases member
            · exact fileCalls_text member
  | dup mapping => cases member
  | close mapping => cases member
  | writeFd mapping fd => cases member

theorem run_single (ran : FileCall.step d call = some d') : run FileCall.step d [call] = some d' := by
  rw [run, ran]
  rfl

theorem resolve_run {found : Except Int FilePtr}
    (ran : Server.resolve diskFiles omode path d = some (found, d')) :
    run FileCall.step d (Server.resolveCalls omode path d) = some d' := by
  unfold Server.resolve at ran
  unfold Server.resolveCalls
  by_cases creates : omode &&& oCreat ≠ 0
  · rw [if_pos creates] at ran ⊢
    obtain ⟨⟨created, d₁⟩, made, ran⟩ := Option.bind_eq_some_iff.mp ran
    have made : Disk.fileCreate path d = some (created, d₁) := made
    have first : FileCall.step d (.create path) = some d₁ := Option.map_eq_some_iff.mpr ⟨_, made, rfl⟩
    rw [made, run, first, Option.bind_some]
    cases created with
    | ok f =>
      cases ran
      rfl
    | error code =>
      dsimp only at ran ⊢
      by_cases again : omode &&& oExcl = 0 ∧ code = -eFileExists
      · rw [if_pos again] at ran ⊢
        exact run_single (Option.map_eq_some_iff.mpr ⟨_, ran, rfl⟩)
      · rw [if_neg again] at ran ⊢
        cases ran
        rfl
  · rw [if_neg creates] at ran ⊢
    exact run_single (Option.map_eq_some_iff.mpr ⟨_, ran, rfl⟩)

theorem serveOpen_run {slot : Option Slot}
    (ran : s.serveOpen diskFiles page pageAlloc = some (r, slot, after)) :
    run FileCall.step s.fs (s.calls Server.fsreqOpen page pageAlloc) = some after.fs := by
  unfold Server.serveOpen at ran
  unfold Server.calls
  rw [if_pos rfl]
  have same : (s.openfileAlloc pageAlloc).2.fs = s.fs := by
    unfold Server.openfileAlloc
    split
    · rfl
    · split <;> rfl
  generalize s.openfileAlloc pageAlloc = alloc at *
  obtain ⟨claimed, s'⟩ := alloc
  cases claimed with
  | error code =>
    cases ran
    exact congrArg some same.symm
  | ok i =>
    dsimp only at ran same ⊢
    by_cases negative : (s'.opentab i).oFileid.toInt < 0
    · rw [if_pos negative] at ran ⊢
      cases ran
      exact congrArg some same.symm
    · rw [if_neg negative, same] at ran
      rw [if_neg negative]
      obtain ⟨⟨found, d₁⟩, resolved, ran⟩ := Option.bind_eq_some_iff.mp ran
      rw [Server.openCalls, run_append, resolve_run resolved, resolved, Option.bind_some]
      cases found with
      | error code =>
        cases ran
        rfl
      | ok f =>
        obtain ⟨⟨code, d₂⟩, truncated, equal⟩ := Option.map_eq_some_iff.mp ran
        have last : after.fs = d₂ := by
          dsimp only at equal
          split at equal <;> cases equal <;> rfl
        rw [last]
        unfold Server.truncate at truncated
        dsimp only
        by_cases shortens : reqOmode page &&& oTrunc ≠ 0
        · rw [if_pos shortens] at truncated ⊢
          exact run_single (Option.map_eq_some_iff.mpr ⟨_, truncated, rfl⟩)
        · rw [if_neg shortens] at truncated ⊢
          cases truncated
          rfl

theorem calls_error {pageAlloc code : Int} (other : req ≠ Server.fsreqOpen ∧ req ≠ 7)
    (found : s.openfileLookup (reqFileid page) = .error code) : s.calls req page pageAlloc = [] := by
  rw [Server.calls, if_neg other.1, if_neg other.2, found]

theorem calls_none {i : Slot}
    (other : req ≠ Server.fsreqOpen ∧ req ≠ 7) (found : s.openfileLookup (reqFileid page) = .ok i)
    (file : (s.opentab i).oFile = none) : s.calls req page pageAlloc = [] := by
  rw [Server.calls, if_neg other.1, if_neg other.2, found]
  dsimp only
  rw [file]

theorem calls_found {i : Slot} {f : FilePtr}
    (other : req ≠ Server.fsreqOpen ∧ req ≠ 7) (found : s.openfileLookup (reqFileid page) = .ok i)
    (file : (s.opentab i).oFile = some f) : s.calls req page pageAlloc = s.fileCalls i f req page := by
  rw [Server.calls, if_neg other.1, if_neg other.2, found]
  dsimp only
  rw [file]

theorem calls_quiet
    (other : req ≠ Server.fsreqOpen ∧ req ≠ 7) (quiet : req ≠ 2 ∧ req ≠ 3 ∧ req ≠ 4 ∧ req ≠ 6) :
    s.calls req page pageAlloc = [] := by
  cases found : s.openfileLookup (reqFileid page) with
  | error code => exact calls_error other found
  | ok i =>
    cases file : (s.opentab i).oFile with
    | none => exact calls_none other found file
    | some f =>
      rw [calls_found other found file, Server.fileCalls]
      · exact quiet.1
      · exact quiet.2.1
      · exact quiet.2.2.1
      · exact quiet.2.2.2

theorem serveSetSize_run (ran : s.serveSetSize diskFiles page = some (r, page', after)) :
    run FileCall.step s.fs (s.calls 2 page pageAlloc) = some after.fs := by
  unfold Server.serveSetSize at ran
  cases found : s.openfileLookup (reqFileid page) with
  | error code =>
    rw [found] at ran
    rw [calls_error (by decide) found]
    cases ran
    rfl
  | ok i =>
    rw [found] at ran
    obtain ⟨f, file, ran⟩ := Option.bind_eq_some_iff.mp ran
    obtain ⟨⟨code, d⟩, called, equal⟩ := Option.map_eq_some_iff.mp ran
    rw [calls_found (by decide) found file]
    cases equal
    exact run_single (Option.map_eq_some_iff.mpr ⟨_, called, rfl⟩)

theorem serveRead_run (ran : s.serveRead diskFiles page = some (r, page', after)) :
    run FileCall.step s.fs (s.calls 3 page pageAlloc) = some after.fs := by
  unfold Server.serveRead at ran
  cases found : s.openfileLookup (reqFileid page) with
  | error code =>
    rw [found] at ran
    rw [calls_error (by decide) found]
    cases ran
    rfl
  | ok i =>
    rw [found] at ran
    dsimp only at ran
    cases file : (s.opentab i).oFile with
    | none =>
      rw [file] at ran
      rw [calls_none (by decide) found file]
      cases ran
      rfl
    | some f =>
      rw [file] at ran
      obtain ⟨⟨code, buf, d⟩, called, equal⟩ := Option.map_eq_some_iff.mp ran
      have last : after.fs = d := by
        dsimp only at equal
        split at equal <;> cases equal <;> rfl
      rw [calls_found (by decide) found file, last]
      exact run_single (Option.map_eq_some_iff.mpr ⟨_, called, rfl⟩)

theorem serveWrite_run (ran : s.serveWrite diskFiles page = some (r, page', after)) :
    run FileCall.step s.fs (s.calls 4 page pageAlloc) = some after.fs := by
  unfold Server.serveWrite at ran
  cases found : s.openfileLookup (reqFileid page) with
  | error code =>
    rw [found] at ran
    rw [calls_error (by decide) found]
    cases ran
    rfl
  | ok i =>
    rw [found] at ran
    dsimp only at ran
    cases file : (s.opentab i).oFile with
    | none =>
      rw [file] at ran
      rw [calls_none (by decide) found file]
      cases ran
      rfl
    | some f =>
      rw [file] at ran
      obtain ⟨⟨code, d⟩, called, equal⟩ := Option.map_eq_some_iff.mp ran
      have last : after.fs = d := by
        dsimp only at equal
        split at equal <;> cases equal <;> rfl
      rw [calls_found (by decide) found file, last]
      exact run_single (Option.map_eq_some_iff.mpr ⟨_, called, rfl⟩)

theorem serveStat_run (ran : s.serveStat diskFiles page = some (r, page', after)) :
    run FileCall.step s.fs (s.calls 5 page pageAlloc) = some after.fs := by
  unfold Server.serveStat at ran
  cases found : s.openfileLookup (reqFileid page) with
  | error code =>
    rw [found] at ran
    rw [calls_error (by decide) found]
    cases ran
    rfl
  | ok i =>
    rw [found] at ran
    obtain ⟨f, file, equal⟩ := Option.map_eq_some_iff.mp ran
    rw [calls_found (by decide) found file]
    cases equal
    rfl

theorem serveFlush_run (ran : s.serveFlush diskFiles page = some (r, page', after)) :
    run FileCall.step s.fs (s.calls 6 page pageAlloc) = some after.fs := by
  unfold Server.serveFlush at ran
  cases found : s.openfileLookup (reqFileid page) with
  | error code =>
    rw [found] at ran
    rw [calls_error (by decide) found]
    cases ran
    rfl
  | ok i =>
    rw [found] at ran
    obtain ⟨f, file, ran⟩ := Option.bind_eq_some_iff.mp ran
    obtain ⟨d, called, equal⟩ := Option.map_eq_some_iff.mp ran
    rw [calls_found (by decide) found file]
    cases equal
    exact run_single called

theorem serveRemove_run (ran : s.serveRemove diskFiles page = some (r, page', after)) :
    run FileCall.step s.fs (s.calls 7 page pageAlloc) = some after.fs := by
  dsimp only [Server.serveRemove, diskFiles] at ran
  obtain ⟨⟨code, d⟩, called, equal⟩ := Option.map_eq_some_iff.mp ran
  rw [Server.calls, if_neg (by decide), if_pos rfl]
  have removed : FileCall.step s.fs (.remove (pathOf page)) = some d := by
    rw [FileCall.step, called, Option.map_some]
  cases equal
  exact run_single removed

theorem serveSync_run (ran : s.serveSync diskFiles page = some (r, page', after)) :
    run FileCall.step s.fs (s.calls 8 page pageAlloc) = some after.fs := by
  obtain ⟨d, called, equal⟩ := Option.map_eq_some_iff.mp ran
  have same : s.fs = d := by
    change (if s.fs.sNblocks ≤ 0xC0000 then some s.fs else none) = some d at called
    split at called
    · exact Option.some.inj called
    · cases called
  rw [calls_quiet (by decide) (by decide)]
  cases equal
  exact congrArg some same

theorem handlers_run {handler : Server Disk FilePtr → Request → Server.Reply Disk FilePtr}
    (known : Server.handlers diskFiles req = some handler)
    (ran : handler s page = some (r, page', after)) :
    run FileCall.step s.fs (s.calls req page pageAlloc) = some after.fs := by
  unfold Server.handlers at known
  split at known
  · obtain rfl := Option.some.inj known
    exact serveSetSize_run ran
  · obtain rfl := Option.some.inj known
    exact serveRead_run ran
  · obtain rfl := Option.some.inj known
    exact serveWrite_run ran
  · obtain rfl := Option.some.inj known
    exact serveStat_run ran
  · obtain rfl := Option.some.inj known
    exact serveFlush_run ran
  · obtain rfl := Option.some.inj known
    exact serveRemove_run ran
  · obtain rfl := Option.some.inj known
    exact serveSync_run ran
  · cases known

theorem send_fs (slot : Option Slot) (takes : Bool) : (s.send slot takes).fs = s.fs := by
  unfold Server.send
  split
  · split <;> rfl
  · rfl

theorem serverStep_run {event : ClientEvent} (ran : serverStep diskFiles s event = some after) :
    run FileCall.step s.fs (event.calls s) = some after.fs := by
  cases event with
  | request req page pageAlloc takes =>
    cases page with
    | none =>
      cases ran
      rfl
    | some page =>
      obtain ⟨⟨r, page', slot, served⟩, answered, equal⟩ := Option.map_eq_some_iff.mp ran
      cases equal
      change run FileCall.step s.fs (s.calls req page pageAlloc) = _
      rw [send_fs]
      unfold Server.serve at answered
      by_cases opens : req = Server.fsreqOpen
      · rw [if_pos opens] at answered
        obtain ⟨⟨r', slot', served'⟩, opened, equal⟩ := Option.map_eq_some_iff.mp answered
        cases equal
        rw [opens]
        exact serveOpen_run opened
      · rw [if_neg opens] at answered
        cases known : Server.handlers diskFiles req with
        | none =>
          rw [known] at answered
          have quiet : req ≠ 7 ∧ req ≠ 2 ∧ req ≠ 3 ∧ req ≠ 4 ∧ req ≠ 6 := by
            refine ⟨?_, ?_, ?_, ?_, ?_⟩ <;> (rintro rfl; cases known)
          rw [calls_quiet ⟨opens, quiet.1⟩ quiet.2]
          cases answered
          rfl
        | some handler =>
          rw [known] at answered
          obtain ⟨⟨r', page'', final⟩, handled, equal⟩ := Option.map_eq_some_iff.mp answered
          cases equal
          exact handlers_run known handled
  | dup mapping =>
    simp only [serverStep] at ran
    split at ran <;> cases ran
    rfl
  | close mapping =>
    simp only [serverStep] at ran
    split at ran <;> cases ran
    rfl
  | writeFd mapping fd =>
    simp only [serverStep] at ran
    split at ran <;> cases ran
    rfl

end Calls

section Sizes

variable {d d' : Disk} {f : FilePtr} {offset : BitVec 32} {count : BitVec 64} {buf : Bytes}
  {call : FileCall}

/-- Where bytes are written at all, the positions are not negative and their sum is exact. -/
theorem written_inside (some : before offset offset count = true)
    (ends : (offset.signExtend 64 + count).toNat ≤ maxFileSize) :
    0 ≤ offset.toInt ∧ offset.toNat + count.toNat ≤ maxFileSize := by
  have bound : (offset.signExtend 64 + count).toNat ≤ 4235264 := ends
  have first : (offset.signExtend 64).toNat < (offset.signExtend 64 + count).toNat := by
    rw [before, BitVec.ult, decide_eq_true_eq] at some
    exact some
  have positive : 0 ≤ offset.toInt := by
    have same : (offset.signExtend 64).toInt = offset.toInt :=
      BitVec.toInt_signExtend_of_le (by decide)
    rw [← same, BitVec.toInt_eq_toNat_of_lt (by omega)]
    exact Int.natCast_nonneg _
  refine ⟨positive, ?_⟩
  have sum := BitVec.toNat_add (offset.signExtend 64) count
  have few := count.isLt
  rw [(extend_positive positive).2] at first sum
  rw [sum] at first ends
  by_cases wraps : offset.toNat + count.toNat < 2 ^ 64
  · rw [Nat.mod_eq_of_lt wraps] at ends
    exact ends
  · rw [Nat.mod_eq_sub_mod (not_lt.mp wraps), Nat.mod_eq_of_lt (by omega)] at first
    omega

theorem Disk.Owns.fileWrite_fits {r : Int} (owns : d.Owns)
    (fits : FileCall.Fits d (.write f buf count offset))
    (clear : ∀ use ∈ writeUses f buf count offset d, use.Clear)
    (ran : Disk.fileWrite f buf count.toNat offset d = some (r, d')) : d'.Owns := by
  obtain ⟨there, ends, size, regular⟩ := fits
  by_cases some : before offset offset count = true
  · obtain ⟨positive, inside⟩ := written_inside some ends
    exact (owns.fileWrite there (regular some) positive inside clear ran).1
  · unfold Disk.fileWrite at ran
    rw [BitVec.ofNat_toNat, BitVec.setWidth_eq] at ran
    obtain ⟨⟨code, mid⟩, sized, looped⟩ := Option.bind_eq_some_iff.mp ran
    have same : mid = d' := by
      dsimp only at looped
      rw [writeFrom, if_neg some] at looped
      cases looped
      rfl
    subst same
    split at sized
    · rename_i longer
      unfold writeUses at clear
      dsimp only at clear
      rw [if_pos longer] at clear
      exact (owns.fileSetSize there size.1 size.2
        (fun use member => clear use (List.mem_append_left _ member)) sized).1
    · cases sized
      exact owns

theorem Disk.Owns.fitting (owns : d.Owns) (fits : call.Fits d) (clear : call.Clear d)
    (text : call.Text) (ran : call.step d = some d') : d'.Owns := by
  cases call with
  | create path => exact (@Disk.Owns.step d d' (.create path) owns text clear ran).1
  | openFile path => exact (@Disk.Owns.step d d' (.openFile path) owns text clear ran).1
  | read f buf count offset =>
    obtain ⟨⟨r, buf', after⟩, called, rfl⟩ := Option.map_eq_some_iff.mp ran
    exact (owns.fileRead fits.1 fits.2 clear called).owns
  | write f buf count offset =>
    obtain ⟨⟨r, after⟩, called, rfl⟩ := Option.map_eq_some_iff.mp ran
    exact owns.fileWrite_fits fits clear called
  | setSize f newsize =>
    obtain ⟨⟨r, after⟩, called, rfl⟩ := Option.map_eq_some_iff.mp ran
    exact (owns.fileSetSize fits.1 fits.2.1 fits.2.2 clear called).1
  | remove path =>
    obtain ⟨⟨r, after⟩, called, rfl⟩ := Option.map_eq_some_iff.mp ran
    exact (owns.fileRemove text clear called).1
  | flush f =>
    rw [fileFlush_eq ran]
    exact owns

theorem Server.Bounded.owns {s after : Server Disk FilePtr} {event : ClientEvent}
    (bounded : s.Bounded event) (owns : s.fs.Owns)
    (ran : serverStep diskFiles s event = some after) : after.fs.Owns := by
  have calls := serverStep_run ran
  have along := (bounded after.fs calls).with fun call member => ClientEvent.calls_text member
  exact along.preserves Disk.Owns owns fun before call after owns guard ran =>
    owns.fitting guard.1.1 guard.1.2 guard.2 ran

/-- A block within the size has a slot, or gets one as long as there are free blocks. -/
theorem Disk.Owns.fileBlockWalk (owns : d.Owns) (there : d.Live f) {bno : Nat}
    (low : bno < blocksFor (d.fSize f)) :
    ∃ r d', fileBlockWalk f bno true d = some (r, d') ∧ ∀ code, r = .error code → code = -eNoDisk := by
  have held := owns.held there
  obtain ⟨inside, covered⟩ := held.inside low
  unfold Disk.fileBlockWalk
  rw [if_neg (not_le.mpr inside), if_neg (not_lt.mpr covered)]
  by_cases direct : bno < nDirect
  · rw [if_pos direct]
    exact ⟨_, _, rfl, by simp⟩
  · rw [if_neg direct]
    by_cases filled : d.fIndirect f ≠ 0
    · rw [if_pos filled, (held.blocks _ (mem_owned_indirect filled)).1.diskaddr]
      exact ⟨_, _, rfl, by simp⟩
    · rw [if_neg filled, if_pos rfl]
      cases taken : d.allocBlock with
      | none =>
        refine ⟨_, _, rfl, fun code same => ?_⟩
        cases same
        rfl
      | some given =>
        obtain ⟨block, middle⟩ := given
        obtain ⟨owns', similar, kept, loose, count, frame⟩ := owns.allocBlock taken
        have indirectAt : fIndirectAt f = f + 176 := rfl
        have off := held.off
        have onDisk : OnDisk (middle.setWord (fIndirectAt f) (BitVec.ofNat 32 block)) block := by
          rw [Disk.OnDisk, sNblocks_below fun addr below => setWord_other (by omega)]
          exact loose.onDisk
        dsimp only
        rw [onDisk.diskaddr]
        exact ⟨_, _, rfl, by simp⟩

end Sizes

def Server.Starts (s : Server Disk FilePtr) : Prop := ∃ disk, disk.Owns ∧ s = Server.init disk

/-- In a run whose requests ask for what fits, and bring into use what is clear, the size of every
file of the tree is legal, and each of its blocks can be reached. -/
theorem sizes_legal {s : Server Disk FilePtr}
    (reached : Reachable Server.Starts (serverStep diskFiles) Server.Bounded s) {f : FilePtr}
    (there : s.fs.Live f) :
    (0 ≤ (s.fs.fSize f).toInt ∧ (s.fs.fSize f).toInt ≤ maxFileSize) ∧
      ∀ bno < blocksFor (s.fs.fSize f), bno < nDirect + nIndirect ∧
        ∃ r d', fileBlockWalk f bno true s.fs = some (r, d') ∧
          ∀ code, r = .error code → code = -eNoDisk := by
  have owns : s.fs.Owns := by
    refine reached.invariant (fun s => s.fs.Owns) ?_ fun before event after owns bounded ran =>
      bounded.owns owns ran
    rintro start ⟨disk, owns, rfl⟩
    exact owns
  have legal := owns.legal f there
  have bound : (s.fs.fSize f).toNat ≤ 4235264 := legal
  have value : (s.fs.fSize f).toInt = (s.fs.fSize f).toNat := BitVec.toInt_eq_toNat_of_lt (by omega)
  refine ⟨⟨by omega, by rw [value]; exact Int.ofNat_le.mpr legal⟩, fun bno low => ?_⟩
  exact ⟨((owns.held there).inside low).1, owns.fileBlockWalk there low⟩

/-- "a" is a file of the tree when its name is in the first entry of the root directory. -/
theorem firstEntry_live {d : Disk} (root : d.fType sRoot = ftypeDir ∧ blocksOf (d.fSize sRoot) = 1 ∧
      d.present sRoot 0 = true ∧ d.blockAt sRoot 0 = 3) (named : d (3 * pgSize) ≠ 0) :
    d.Live (3 * pgSize) := by
  obtain ⟨directory, one, present, third⟩ := root
  exact .entry .root directory ⟨0, by rw [one]; decide, present, 0, by decide, by rw [third]; rfl⟩ named

set_option maxRecDepth 10000 in
theorem openA_calls : openA.calls (Server.init smallDisk) = [.create [97]] := by
  with_unfolding_all rfl

set_option maxRecDepth 10000 in
theorem createUses_a : FileCall.uses smallDisk (.create [97]) =
    [.block sRoot 0 smallDisk, .block sRoot 0 smallDisk, .entry (3 * pgSize) smallDisk] := by
  with_unfolding_all rfl

theorem openA_bounded : Server.Bounded (Server.init smallDisk) openA := by
  intro disk ran
  rw [openA_calls] at ran ⊢
  have clear : FileCall.Clear smallDisk (.create [97]) := by
    intro use member
    rw [createUses_a] at member
    have block : smallDisk.Clear sRoot 0 :=
      ⟨fun far => absurd far (by decide), fun _ absent => absurd absent (by decide +kernel)⟩
    simp only [List.mem_cons, List.not_mem_nil, or_false] at member
    rcases member with rfl | rfl | rfl
    · exact block
    · exact block
    · exact ⟨by decide +kernel, by decide +kernel⟩
  obtain ⟨after, stepped, same⟩ := Option.bind_eq_some_iff.mp ran
  cases same
  exact @Along.snoc _ _ FileCall.step _ smallDisk [] smallDisk _ _ .nil ⟨trivial, clear⟩ stepped

/-- The new file "a" has the size 0. -/
theorem sizes_legal_a : ∃ s, serverStep diskFiles (Server.init smallDisk) openA = some s ∧
    s.fs.Live (3 * pgSize) ∧ 0 ≤ (s.fs.fSize (3 * pgSize)).toInt ∧
      (s.fs.fSize (3 * pgSize)).toInt ≤ maxFileSize := by
  have runs : ((serverStep diskFiles (Server.init smallDisk) openA).any fun s =>
      (s.fs.fType sRoot = ftypeDir ∧ blocksOf (s.fs.fSize sRoot) = 1 ∧
        s.fs.present sRoot 0 = true ∧ s.fs.blockAt sRoot 0 = 3) ∧ s.fs (3 * pgSize) ≠ 0) = true := by
    decide +kernel
  obtain ⟨s, ran, holds⟩ := (Option.any_eq_true _ _).mp runs
  obtain ⟨root, named⟩ := of_decide_eq_true holds
  have there := firstEntry_live root named
  have owns := smallDisk_wellFormed.owns smallDisk_reserved (by decide +kernel)
  exact ⟨s, ran, there, (sizes_legal ⟨Server.init smallDisk, [] ++ [openA], ⟨smallDisk, owns, rfl⟩,
    Along.nil.snoc openA_bounded ran⟩ there).1⟩

/-- The client sets the size of "a" to -1. -/
def sizeA : ClientEvent :=
  .request 2 (some fun off => if off = 1 then 4 else if 4 ≤ off ∧ off < 8 then 0xFF else 0) 0 false

theorem size_not_legal : smallDisk.Owns ∧
    ∃ s, run (serverStep diskFiles) (Server.init smallDisk) [openA, sizeA] = some s ∧
      s.fs.Live (3 * pgSize) ∧ ¬(0 ≤ (s.fs.fSize (3 * pgSize)).toInt ∧
        (s.fs.fSize (3 * pgSize)).toInt ≤ maxFileSize) := by
  have runs : ((run (serverStep diskFiles) (Server.init smallDisk) [openA, sizeA]).any fun s =>
      ((s.fs.fType sRoot = ftypeDir ∧ blocksOf (s.fs.fSize sRoot) = 1 ∧
        s.fs.present sRoot 0 = true ∧ s.fs.blockAt sRoot 0 = 3) ∧ s.fs (3 * pgSize) ≠ 0) ∧
        (s.fs.fSize (3 * pgSize)).toInt = -1) = true := by decide +kernel
  obtain ⟨s, ran, holds⟩ := (Option.any_eq_true _ _).mp runs
  obtain ⟨⟨root, named⟩, size⟩ := of_decide_eq_true holds
  refine ⟨smallDisk_wellFormed.owns smallDisk_reserved (by decide +kernel), s, ran,
    firstEntry_live root named, fun legal => ?_⟩
  rw [size] at legal
  exact absurd legal.1 (by decide)

end Fs

end Jos
