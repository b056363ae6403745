import Mathlib.Data.List.FinRange
import Mathlib.Logic.Function.Basic
import Jos.Inc.Env
import Jos.Foundation.Run

/-! The file server of fs/serv.c, over the functions of fs/fs.c that it calls. -/

set_option autoImplicit false

namespace Jos

open Foundation Function

namespace Fs

def eNoDisk : Int := 10
def eMaxOpen : Int := 11
def eNotFound : Int := 12
def eBadPath : Int := 13
def eFileExists : Int := 14

def maxPathLen : Nat := 1024
def maxOpen : Nat := 1024

def oAccMode : BitVec 32 := 0x0003
def oCreat : BitVec 32 := 0x0100
def oTrunc : BitVec 32 := 0x0200
def oExcl : BitVec 32 := 0x0400

abbrev Path := List (BitVec 8)

abbrev Bytes := Nat → BitVec 8

/-- The functions of fs/fs.c, on a state `σ` of the file system, with pointers to files of
type `File`. `none` is a panic or a fault of the server, `Except.error` a negative result.
`fileRead` gets the old contents of its buffer and gives the new ones. -/
structure Files (σ File : Type) where
  fileCreate : Path → σ → Option (Except Int File × σ)
  fileOpen : Path → σ → Option (Except Int File × σ)
  fileSetSize : File → BitVec 32 → σ → Option (Int × σ)
  fileRead : File → Bytes → Nat → BitVec 32 → σ → Option (Int × Bytes × σ)
  fileWrite : File → Bytes → Nat → BitVec 32 → σ → Option (Int × σ)
  fileFlush : File → σ → Option σ
  fileRemove : Path → σ → Option (Int × σ)
  fsSync : σ → Option σ
  fName : File → σ → Path
  fSize : File → σ → BitVec 32
  isDir : File → σ → Bool
  /-- The bytes from `DISKMAP` on. -/
  diskMapped : σ → Bytes

structure OpenFile (File : Type) where
  oFileid : BitVec 32
  oFile : Option File
  oMode : BitVec 32

/-- `struct Fd`, on a page of its own. -/
structure Fd where
  devId : BitVec 32
  offset : BitVec 32
  omode : BitVec 32
  fileId : BitVec 32
deriving DecidableEq

/-- What `memset` leaves. -/
def Fd.cleared : Fd := ⟨0, 0, 0, 0⟩

abbrev Slot := Fin 1024

/-- A client's mapping of the Fd page of a slot, with the id of the open that gave it. -/
structure Mapping where
  slot : Slot
  fileid : BitVec 32
deriving DecidableEq

/-- What a client got from an open that succeeded: the id, and what the server then had in
the slot. -/
structure Handed (File : Type) where
  fileid : BitVec 32
  file : File
  mode : BitVec 32

/-- `mapped` says which Fd pages the server has allocated. Only `handed` and the ids in
`clients` are a record that no code reads. -/
structure Server (σ File : Type) where
  fs : σ
  opentab : Slot → OpenFile File
  fd : Slot → Fd
  mapped : Slot → Bool
  clients : List Mapping
  handed : List (Handed File)

abbrev Request := Bytes

def int32At (page : Request) (off : Nat) : BitVec 32 :=
  page (off + 3) ++ page (off + 2) ++ page (off + 1) ++ page off

def sizeAt (page : Request) (off : Nat) : BitVec 64 := int32At page (off + 4) ++ int32At page off

def setInt32 (page : Request) (off : Nat) (value : BitVec 32) : Request :=
  update (update (update (update page off (value.extractLsb' 0 8)) (off + 1)
    (value.extractLsb' 8 8)) (off + 2) (value.extractLsb' 16 8)) (off + 3) (value.extractLsb' 24 8)

def setSize (page : Request) (off : Nat) (value : BitVec 64) : Request :=
  setInt32 (setInt32 page off (value.extractLsb' 0 32)) (off + 4) (value.extractLsb' 32 32)

/-- `req_path`, cut at `MAXPATHLEN-1`. -/
def pathOf (page : Request) : Path :=
  ((List.range (maxPathLen - 1)).map page).takeWhile (· ≠ 0)

/-- The fields of `union Fsipc`, by their offsets. -/
def reqFileid (page : Request) : BitVec 32 := int32At page 0
def reqOmode (page : Request) : BitVec 32 := int32At page maxPathLen
def reqSize (page : Request) : BitVec 32 := int32At page 4
def reqN (page : Request) : BitVec 64 := sizeAt page 8
def reqBuf : Nat := 16

section

variable {σ File : Type} (fs : Files σ File)

namespace Server

def pageref (s : Server σ File) (i : Slot) : Nat :=
  (s.mapped i).toNat + s.clients.countP fun m => m.slot = i

/-- `serve_init` -/
def init (disk : σ) : Server σ File where
  fs := disk
  opentab i := ⟨BitVec.ofNat 32 i.val, none, 0⟩
  fd _ := Fd.cleared
  mapped _ := false
  clients := []
  handed := []

/-- The slot that `openfile_alloc` stops at. -/
def available (s : Server σ File) : Option Slot :=
  (List.finRange 1024).find? fun i => s.pageref i = 0 ∨ s.pageref i = 1

def claim (s : Server σ File) (i : Slot) : Server σ File :=
  { s with
    opentab := update s.opentab i
      { s.opentab i with oFileid := (s.opentab i).oFileid + BitVec.ofNat 32 maxOpen }
    fd := update s.fd i Fd.cleared
    mapped := update s.mapped i true }

/-- `openfile_alloc`, with the answer of `sys_page_alloc`. -/
def openfileAlloc (s : Server σ File) (pageAlloc : Int) : Except Int Slot × Server σ File :=
  match s.available with
  | none => (.error (-eMaxOpen), s)
  | some i =>
    if s.pageref i = 0 ∧ pageAlloc < 0 then (.error pageAlloc, s) else (.ok i, s.claim i)

def slotOf (fileid : BitVec 32) : Slot := Fin.ofNat 1024 (fileid.toNat % maxOpen)

def openfileLookup (s : Server σ File) (fileid : BitVec 32) : Except Int Slot :=
  let i := slotOf fileid
  if s.pageref i = 1 ∨ (s.opentab i).oFileid ≠ fileid then .error (-eInval) else .ok i

/-- The file of `serve_open`: `file_create` with `O_CREAT`, else, or when it exists already,
`file_open`. -/
def resolve (omode : BitVec 32) (path : Path) (disk : σ) : Option (Except Int File × σ) :=
  if omode &&& oCreat ≠ 0 then
    (fs.fileCreate path disk).bind fun (created, disk) =>
      match created with
      | .ok f => some (.ok f, disk)
      | .error r =>
        if omode &&& oExcl = 0 ∧ r = -eFileExists then fs.fileOpen path disk
        else some (.error r, disk)
  else fs.fileOpen path disk

/-- `O_TRUNC` -/
def truncate (omode : BitVec 32) (f : File) (disk : σ) : Option (Int × σ) :=
  if omode &&& oTrunc ≠ 0 then fs.fileSetSize f 0 disk else some (0, disk)

def fill (s : Server σ File) (i : Slot) (f : File) (omode : BitVec 32) : Server σ File :=
  { s with
    opentab := update s.opentab i { s.opentab i with oFile := some f, oMode := omode }
    fd := update s.fd i
      { s.fd i with
        fileId := (s.opentab i).oFileid
        omode := omode &&& oAccMode
        devId := BitVec.ofNat 32 'f'.toNat }
    handed := ⟨(s.opentab i).oFileid, f, omode⟩ :: s.handed }

/-- `serve_open`. The slot is the one whose page goes to the client. -/
def serveOpen (s : Server σ File) (page : Request) (pageAlloc : Int) :
    Option (Int × Option Slot × Server σ File) :=
  let (claimed, s) := s.openfileAlloc pageAlloc
  match claimed with
  | .error r => some (r, none, s)
  | .ok i =>
    if (s.opentab i).oFileid.toInt < 0 then some ((s.opentab i).oFileid.toInt, none, s)
    else
      (resolve fs (reqOmode page) (pathOf page) s.fs).bind fun (found, disk) =>
        match found with
        | .error r => some (r, none, { s with fs := disk })
        | .ok f =>
          (truncate fs (reqOmode page) f disk).map fun (r, disk) =>
            if r < 0 then (r, none, { s with fs := disk })
            else (0, some i, { s with fs := disk }.fill i f (reqOmode page))

abbrev Reply (σ File : Type) := Option (Int × Request × Server σ File)

def serveSetSize (s : Server σ File) (page : Request) : Reply σ File :=
  match s.openfileLookup (reqFileid page) with
  | .error r => some (r, page, s)
  | .ok i =>
    (s.opentab i).oFile.bind fun f =>
      (fs.fileSetSize f (reqSize page) s.fs).map fun (r, disk) => (r, page, { s with fs := disk })

/-- `o->o_fd->fd_offset += r` -/
def advance (s : Server σ File) (i : Slot) (r : Int) : Server σ File :=
  { s with fd := update s.fd i { s.fd i with offset := (s.fd i).offset + BitVec.ofInt 32 r } }

def serveRead (s : Server σ File) (page : Request) : Reply σ File :=
  match s.openfileLookup (reqFileid page) with
  | .error r => some (r, page, s)
  | .ok i =>
    match (s.opentab i).oFile with
    | none => some (-1, page, s)
    | some f =>
      -- the count is cut in the request itself, which the data then overwrites
      let page := if pgSize < (reqN page).toNat then setSize page 8 (BitVec.ofNat 64 pgSize)
        else page
      (fs.fileRead f page (reqN page).toNat (s.fd i).offset s.fs).map fun (r, page, disk) =>
        if r ≤ 0 then (r, page, { s with fs := disk })
        else (r, page, { s with fs := disk }.advance i r)

/-- The memory from `req_buf` on: the rest of the page, and behind it the disk map. -/
def requestBuf (s : Server σ File) (page : Request) : Bytes := fun k =>
  if reqBuf + k < pgSize then page (reqBuf + k) else fs.diskMapped s.fs (reqBuf + k - pgSize)

def serveWrite (s : Server σ File) (page : Request) : Reply σ File :=
  match s.openfileLookup (reqFileid page) with
  | .error r => some (r, page, s)
  | .ok i =>
    match (s.opentab i).oFile with
    | none => some (-1, page, s)
    | some f =>
      (fs.fileWrite f (s.requestBuf fs page) (reqN page).toNat (s.fd i).offset s.fs).map
        fun (r, disk) =>
          if r < 0 then (r, page, { s with fs := disk })
          else (r, page, { s with fs := disk }.advance i r)

/-- `ret_name`, `ret_size` and `ret_isdir` -/
def statReply (name : Path) (size : BitVec 32) (isDir : Bool) (page : Request) : Request :=
  let page := fun k => if k < name.length then name.getD k 0 else if k = name.length then 0 else page k
  setInt32 (setInt32 page 128 size) 132 (if isDir then 1 else 0)

def serveStat (s : Server σ File) (page : Request) : Reply σ File :=
  match s.openfileLookup (reqFileid page) with
  | .error r => some (r, page, s)
  | .ok i =>
    (s.opentab i).oFile.map fun f =>
      (0, statReply (fs.fName f s.fs) (fs.fSize f s.fs) (fs.isDir f s.fs) page, s)

def serveFlush (s : Server σ File) (page : Request) : Reply σ File :=
  match s.openfileLookup (reqFileid page) with
  | .error r => some (r, page, s)
  | .ok i =>
    (s.opentab i).oFile.bind fun f =>
      (fs.fileFlush f s.fs).map fun disk => (0, page, { s with fs := disk })

def serveRemove (s : Server σ File) (page : Request) : Reply σ File :=
  (fs.fileRemove (pathOf page) s.fs).map fun (r, disk) => (r, page, { s with fs := disk })

def serveSync (s : Server σ File) (page : Request) : Reply σ File :=
  (fs.fsSync s.fs).map fun disk => (0, page, { s with fs := disk })

/-- The table `handlers`, by request code. -/
def handlers : Nat → Option (Server σ File → Request → Reply σ File)
  | 2 => some (serveSetSize fs)
  | 3 => some (serveRead fs)
  | 4 => some (serveWrite fs)
  | 5 => some (serveStat fs)
  | 6 => some (serveFlush fs)
  | 7 => some (serveRemove fs)
  | 8 => some (serveSync fs)
  | _ => none

def fsreqOpen : Nat := 1

/-- One round of `serve` for a request with an argument page: the reply, the page, and the
Fd page that goes to the client. -/
def serve (s : Server σ File) (req : Nat) (page : Request) (pageAlloc : Int) :
    Option (Int × Request × Option Slot × Server σ File) :=
  if req = fsreqOpen then
    (serveOpen fs s page pageAlloc).map fun (r, slot, s) => (r, page, slot, s)
  else
    match handlers fs req with
    | some handler => (handler s page).map fun (r, page, s) => (r, page, none, s)
    | none => some (-eInval, page, none, s)

def send (s : Server σ File) (slot : Option Slot) (takes : Bool) : Server σ File :=
  match slot with
  | some i =>
    if takes then { s with clients := ⟨i, (s.opentab i).oFileid⟩ :: s.clients } else s
  | none => s

end Server

/-- What the clients do: send a request, and map, unmap and write the Fd pages that they
have. A request without an argument page is dropped. -/
inductive ClientEvent where
  | request (req : Nat) (page : Option Request) (pageAlloc : Int) (takes : Bool)
  | dup (mapping : Mapping)
  | close (mapping : Mapping)
  | writeFd (mapping : Mapping) (fd : Fd)

def serverStep (s : Server σ File) : ClientEvent → Option (Server σ File)
  | .request _ none _ _ => some s
  | .request req (some page) pageAlloc takes =>
    (s.serve fs req page pageAlloc).map fun (_, _, slot, s) => s.send slot takes
  | .dup mapping =>
    if mapping ∈ s.clients then some { s with clients := mapping :: s.clients } else none
  | .close mapping =>
    if mapping ∈ s.clients then some { s with clients := s.clients.erase mapping } else none
  | .writeFd mapping fd =>
    if mapping ∈ s.clients then some { s with fd := update s.fd mapping.slot fd } else none

/-! The handlers other than that of an open leave the table alone. -/

/-- The table, the mappings of the Fd pages and the record of the opens are the same. -/
structure Server.SameTable (s after : Server σ File) : Prop where
  opentab : after.opentab = s.opentab
  mapped : after.mapped = s.mapped
  clients : after.clients = s.clients
  handed : after.handed = s.handed

theorem Server.SameTable.of_fs (s : Server σ File) (disk : σ) : s.SameTable { s with fs := disk } :=
  ⟨rfl, rfl, rfl, rfl⟩

variable {fs}

section Handlers

variable {s after : Server σ File} {page page' : Request} {r : Int}

theorem Server.serveSetSize_table (ran : s.serveSetSize fs page = some (r, page', after)) :
    s.SameTable after := by
  unfold Server.serveSetSize at ran
  split at ran
  · cases ran
    exact ⟨rfl, rfl, rfl, rfl⟩
  · obtain ⟨f, -, ran⟩ := Option.bind_eq_some_iff.mp ran
    obtain ⟨⟨_, disk⟩, -, equal⟩ := Option.map_eq_some_iff.mp ran
    cases equal
    exact .of_fs s disk

theorem Server.serveRead_table (ran : s.serveRead fs page = some (r, page', after)) :
    s.SameTable after := by
  unfold Server.serveRead at ran
  split at ran
  · cases ran
    exact ⟨rfl, rfl, rfl, rfl⟩
  · split at ran
    · cases ran
      exact ⟨rfl, rfl, rfl, rfl⟩
    · obtain ⟨⟨_, _, disk⟩, -, equal⟩ := Option.map_eq_some_iff.mp ran
      dsimp only at equal
      split at equal <;> cases equal
      · exact .of_fs s disk
      · exact ⟨rfl, rfl, rfl, rfl⟩

theorem Server.serveWrite_table (ran : s.serveWrite fs page = some (r, page', after)) :
    s.SameTable after := by
  unfold Server.serveWrite at ran
  split at ran
  · cases ran
    exact ⟨rfl, rfl, rfl, rfl⟩
  · split at ran
    · cases ran
      exact ⟨rfl, rfl, rfl, rfl⟩
    · obtain ⟨⟨_, disk⟩, -, equal⟩ := Option.map_eq_some_iff.mp ran
      dsimp only at equal
      split at equal <;> cases equal
      · exact .of_fs s disk
      · exact ⟨rfl, rfl, rfl, rfl⟩

theorem Server.serveStat_table (ran : s.serveStat fs page = some (r, page', after)) :
    s.SameTable after := by
  unfold Server.serveStat at ran
  split at ran
  · cases ran
    exact ⟨rfl, rfl, rfl, rfl⟩
  · obtain ⟨f, -, equal⟩ := Option.map_eq_some_iff.mp ran
    cases equal
    exact ⟨rfl, rfl, rfl, rfl⟩

theorem Server.serveFlush_table (ran : s.serveFlush fs page = some (r, page', after)) :
    s.SameTable after := by
  unfold Server.serveFlush at ran
  split at ran
  · cases ran
    exact ⟨rfl, rfl, rfl, rfl⟩
  · obtain ⟨f, -, ran⟩ := Option.bind_eq_some_iff.mp ran
    obtain ⟨disk, -, equal⟩ := Option.map_eq_some_iff.mp ran
    cases equal
    exact .of_fs s disk

theorem Server.serveRemove_table (ran : s.serveRemove fs page = some (r, page', after)) :
    s.SameTable after := by
  obtain ⟨⟨_, disk⟩, -, equal⟩ := Option.map_eq_some_iff.mp ran
  cases equal
  exact .of_fs s disk

theorem Server.serveSync_table (ran : s.serveSync fs page = some (r, page', after)) :
    s.SameTable after := by
  obtain ⟨disk, -, equal⟩ := Option.map_eq_some_iff.mp ran
  cases equal
  exact .of_fs s disk

theorem Server.handlers_table {req : Nat} {handler : Server σ File → Request → Server.Reply σ File}
    (known : Server.handlers fs req = some handler) (ran : handler s page = some (r, page', after)) :
    s.SameTable after := by
  unfold Server.handlers at known
  split at known <;> cases known
  · exact serveSetSize_table ran
  · exact serveRead_table ran
  · exact serveWrite_table ran
  · exact serveStat_table ran
  · exact serveFlush_table ran
  · exact serveRemove_table ran
  · exact serveSync_table ran

end Handlers

end

end Fs

end Jos
