import Jos.Kern.Dwarf

/-! `_dwarf_lineno_run_program` of kern/libdwarf_lineno.c, and the tables of lines that its
programs stand for. -/

set_option autoImplicit false

namespace Jos

namespace Dwarf

/-- The part of `_Dwarf_LineInfo` that the program header fills. -/
structure LineInfo where
  minlen : Byte
  defstmt : Byte
  lbase : Byte
  lrange : Byte
  opbase : Byte

/-- `_Dwarf_Line` -/
structure Line where
  (addr symndx fileno lineno column : BitVec 64)
  bblock : Bool
  stmt : BitVec 32
  endseq : Bool
deriving DecidableEq

structure Registers where
  (address file line column : BitVec 64)
  isStmt : BitVec 32
  (basicBlock endSequence prologueEnd epilogueBegin : Bool)

/-- `li_line` and `li_lnlen` -/
structure Found where
  line : Line
  lnlen : BitVec 64
deriving DecidableEq

namespace LineInfo

variable (li : LineInfo)

/-- `RESET_REGISTERS` -/
def reset : Registers := ⟨0, 1, 1, 0, li.defstmt.setWidth 32, false, false, false, false⟩

/-- `LINE(x)`, where `x` is not below `li_opbase` -/
def line (x : Byte) : BitVec 64 :=
  BitVec.ofInt 64 (li.lbase.toInt + ((x.toNat - li.opbase.toNat) % li.lrange.toNat : Nat))

/-- `ADDRESS(x)` -/
def address (x : Byte) : BitVec 64 :=
  BitVec.ofNat 64 ((x.toNat - li.opbase.toNat) / li.lrange.toNat * li.minlen.toNat)

end LineInfo

/-- The row that `APPEND_ROW` stores. -/
def Registers.row (r : Registers) : Line :=
  ⟨r.address, 0, r.file, r.line, r.column, r.basicBlock, r.isStmt, r.endSequence⟩

/-- What follows every `APPEND_ROW`. -/
def Registers.clear (r : Registers) : Registers :=
  { r with basicBlock := false, prologueEnd := false, epilogueBegin := false }

/-- `_dwarf_lineno_add_file` -/
def lineAddFile (p : List Byte) : Option (List Byte) :=
  match p.dropWhile (· ≠ 0) with
  | [] => none
  | _ :: src => do
    let dir ← decodeUleb128 src
    let time ← decodeUleb128 dir.2
    let length ← decodeUleb128 time.2
    return length.2

section Source

variable (dbg : Endianness) (addrSize : Nat) (li : LineInfo)

/-- An extended opcode, from its `opsize` on. -/
def extendedStep (r : Registers) (p : List Byte) : Option (Registers × List Byte × Bool) := do
  let opsize ← decodeUleb128 p
  match opsize.2 with
  | [] => none
  | code :: src =>
    match code.toNat with
    | 1 => some (li.reset, src, false)
    | 2 => (decode dbg src addrSize).map fun n => ({ r with address := n.1 }, n.2, false)
    | 3 => (lineAddFile src).map fun src => (r, src, false)
    | _ => some (r, opsize.2.drop opsize.1.toNat, false)

/-- The switch over the standard opcodes. A division by 0 traps. -/
def standardStep (r : Registers) (code : Byte) (src : List Byte) :
    Option (Registers × List Byte × Bool) :=
  match code.toNat with
  | 1 => some (r, src, true)
  | 2 => (decodeUleb128 src).map fun n =>
    ({ r with address := r.address + n.1 * li.minlen.setWidth 64 }, n.2, false)
  | 3 => (decodeSleb128 src).map fun n => ({ r with line := r.line + n.1 }, n.2, false)
  | 4 => (decodeUleb128 src).map fun n => ({ r with file := n.1 }, n.2, false)
  | 5 => (decodeUleb128 src).map fun n => ({ r with column := n.1 }, n.2, false)
  | 6 => some ({ r with isStmt := if r.isStmt = 0 then 1 else 0 }, src, false)
  | 7 => some ({ r with basicBlock := true }, src, false)
  | 8 =>
    if li.lrange = 0 then none
    else some ({ r with address := r.address + li.address 255 }, src, false)
  | 9 => (decode dbg src 2).map fun n => ({ r with address := r.address + n.1 }, n.2, false)
  | 10 => some ({ r with prologueEnd := true }, src, false)
  | 11 => some ({ r with epilogueBegin := true }, src, false)
  | 12 => (decodeUleb128 src).map fun n => (r, n.2, false)
  | _ => some (r, src, false)

/-- One pass of the loop: the registers, the rest of the program, and whether `APPEND_ROW` is
done with them. -/
def lineStep (r : Registers) : List Byte → Option (Registers × List Byte × Bool)
  | [] => none
  | code :: src =>
    if code = 0 then extendedStep dbg addrSize li r src
    else if code < li.opbase then standardStep dbg li r code src
    else if li.lrange = 0 then none
    else some ({ r with
      line := r.line + li.line code, address := r.address + li.address code }, src, true)

/-- The loop. Behind `pe` there are `after` bytes. -/
def lineLoop (pc : BitVec 64) (after : Nat) :
    Nat → Registers → Found → List Byte → Option Found
  | fuel, r, found, p =>
    if p.length ≤ after then some found
    else
      match fuel with
      | 0 => none
      | fuel + 1 => do
        let next ← lineStep dbg addrSize li r p
        if next.2.2 then
          if pc < next.1.address then return found
          lineLoop pc after fuel next.1.clear ⟨next.1.row, found.lnlen + 1⟩ next.2.1
        else lineLoop pc after fuel next.1 found next.2.1

/-- `_dwarf_lineno_run_program` -/
def linenoRunProgram (pc : BitVec 64) (found : Found) (p : List Byte) (after : Nat) :
    Option Found :=
  lineLoop dbg addrSize li pc after p.length li.reset found p

end Source

/-! The programs and what they mean. -/

inductive Extended where
  | endSequence
  | setAddress (address : BitVec 64)
  | defineFile (name : List Byte) (dir time length : Leb128)
  | other (code : Byte) (operands : List Byte)

inductive Standard where
  | copy
  | advancePc (n : Leb128)
  | advanceLine (n : Leb128)
  | setFile (n : Leb128)
  | setColumn (n : Leb128)
  | negateStmt
  | setBasicBlock
  | constAddPc
  | fixedAdvancePc (n : BitVec 64)
  | setPrologueEnd
  | setEpilogueBegin
  | setIsa (n : Leb128)

inductive LineOp where
  | extended (size : Leb128) (op : Extended)
  | standard (op : Standard)
  | special (code : Byte)

section Programs

variable (dbg : Endianness) (addrSize : Nat) (li : LineInfo)

def Extended.bytes : Extended → List Byte
  | .endSequence => [1]
  | .setAddress address => 2 :: encode dbg address addrSize
  | .defineFile name dir time length => 3 :: name ++ 0 :: dir.bytes ++ time.bytes ++ length.bytes
  | .other code operands => code :: operands

def Standard.bytes : Standard → List Byte
  | .copy => [1]
  | .advancePc n => 2 :: n.bytes
  | .advanceLine n => 3 :: n.bytes
  | .setFile n => 4 :: n.bytes
  | .setColumn n => 5 :: n.bytes
  | .negateStmt => [6]
  | .setBasicBlock => [7]
  | .constAddPc => [8]
  | .fixedAdvancePc n => 9 :: encode dbg n 2
  | .setPrologueEnd => [10]
  | .setEpilogueBegin => [11]
  | .setIsa n => 12 :: n.bytes

def LineOp.bytes : LineOp → List Byte
  | .extended size op => 0 :: size.bytes ++ op.bytes dbg addrSize
  | .standard op => op.bytes dbg
  | .special code => [code]

/-- What an instruction makes of the registers. -/
def LineOp.exec (r : Registers) : LineOp → Registers
  | .extended _ .endSequence => li.reset
  | .extended _ (.setAddress address) => { r with address := address }
  | .standard (.advancePc n) =>
    { r with address := r.address + BitVec.ofNat 64 n.unsigned * li.minlen.setWidth 64 }
  | .standard (.advanceLine n) => { r with line := r.line + BitVec.ofInt 64 n.signed }
  | .standard (.setFile n) => { r with file := BitVec.ofNat 64 n.unsigned }
  | .standard (.setColumn n) => { r with column := BitVec.ofNat 64 n.unsigned }
  | .standard .negateStmt => { r with isStmt := if r.isStmt = 0 then 1 else 0 }
  | .standard .setBasicBlock => { r with basicBlock := true }
  | .standard .constAddPc => { r with address := r.address + li.address 255 }
  | .standard (.fixedAdvancePc n) => { r with address := r.address + n }
  | .standard .setPrologueEnd => { r with prologueEnd := true }
  | .standard .setEpilogueBegin => { r with epilogueBegin := true }
  | .special code =>
    { r with line := r.line + li.line code, address := r.address + li.address code }
  | _ => r

def LineOp.appends : LineOp → Bool
  | .standard .copy | .special _ => true
  | _ => false

/-- The rows of a program. -/
def table (r : Registers) : List LineOp → List Line
  | [] => []
  | op :: ops =>
    let r := op.exec li r
    if op.appends then r.row :: table r.clear ops else table r ops

/-- The operands are in the range of the readers, and the header has the opcode. -/
def LineOp.Fits : LineOp → Prop
  | .extended _ (.setAddress address) => addrSize ∈ [1, 2, 4, 8] ∧ address.toNat < 256 ^ addrSize
  | .extended _ (.defineFile name ..) => 0 ∉ name
  | .extended size (.other code operands) =>
    code.toNat ∉ [1, 2, 3] ∧ size.unsigned = operands.length + 1 ∧ size.unsigned < 2 ^ 31
  | .extended _ .endSequence => True
  | .standard op => (op.bytes dbg).headD 0 < li.opbase ∧
    match op with
    | .advancePc n | .setFile n | .setColumn n => n.unsigned < 2 ^ 31
    | .advanceLine n => -2 ^ 31 ≤ n.signed ∧ n.signed < 2 ^ 31
    | .constAddPc => li.lrange ≠ 0
    | .fixedAdvancePc n => n.toNat < 256 ^ 2
    | _ => True
  | .special code => code ≠ 0 ∧ ¬ code < li.opbase ∧ li.lrange ≠ 0

end Programs

section Steps

variable {dbg : Endianness} {addrSize : Nat} {li : LineInfo}

theorem lineAddFile_bytes {name : List Byte} (text : 0 ∉ name) (dir time length : Leb128)
    (src : List Byte) :
    lineAddFile (name ++ 0 :: (dir.bytes ++ (time.bytes ++ (length.bytes ++ src)))) = some src := by
  have stops : ∀ after, (name ++ 0 :: after).dropWhile (· ≠ 0) = 0 :: after := by
    intro after
    rw [List.dropWhile_append_of_pos]
    · simp
    · intro b member
      simpa using fun zero : b = 0 => text (zero ▸ member)
  rw [lineAddFile, stops]
  simp [decodeUleb128_bytes]

/-- One pass on the bytes of an instruction does what the instruction means. -/
theorem lineStep_bytes {op : LineOp} (fits : op.Fits dbg addrSize li) (r : Registers)
    (src : List Byte) :
    lineStep dbg addrSize li r (op.bytes dbg addrSize ++ src) =
      some (op.exec li r, src, op.appends) := by
  cases op with
  | extended size op =>
    simp only [LineOp.bytes, List.cons_append, lineStep, if_true, List.append_assoc, extendedStep,
      decodeUleb128_bytes]
    cases op with
    | endSequence => rfl
    | setAddress address =>
      simp [Extended.bytes, decode_encode fits.1 fits.2, LineOp.exec, LineOp.appends]
    | defineFile name dir time length =>
      have added := lineAddFile_bytes fits dir time length src
      simp_all [Extended.bytes, LineOp.exec, LineOp.appends]
    | other code operands =>
      obtain ⟨unknown, counted, small⟩ := fits
      have size : ((BitVec.ofNat 32 size.unsigned).signExtend 64).toNat = operands.length + 1 := by
        have read := (decodeUleb128_iff size []).mpr small
        rw [decodeUleb128_bytes, Option.some.injEq, Prod.mk.injEq] at read
        rw [read.1, ← counted, BitVec.toNat_ofNat, Nat.mod_eq_of_lt (by omega)]
      simp only [List.mem_cons, List.not_mem_nil, or_false, not_or] at unknown
      simp [Extended.bytes, LineOp.exec, LineOp.appends, size]
      split <;> simp_all
  | standard op =>
    obtain ⟨known, fits⟩ := fits
    cases op <;>
      simp_all [LineOp.bytes, Standard.bytes, lineStep, standardStep, LineOp.exec, LineOp.appends,
        (decodeUleb128_iff _ _).mpr, (decodeSleb128_iff _ _).mpr, decode_encode, decodeUleb128_bytes]
  | special code =>
    obtain ⟨nonzero, special, range⟩ := fits
    rw [LineOp.bytes, List.singleton_append, lineStep, if_neg nonzero, if_neg special, if_neg range]
    rfl

end Steps

/-- The last of the rows before the first one behind `pc`. -/
def Found.upTo (found : Found) (pc : BitVec 64) (rows : List Line) : Found :=
  let before := rows.takeWhile (·.addr ≤ pc)
  ⟨before.getLastD found.line, found.lnlen + BitVec.ofNat 64 before.length⟩

theorem Found.upTo_stop (found : Found) {pc : BitVec 64} {row : Line} (behind : pc < row.addr)
    (rows : List Line) : found.upTo pc (row :: rows) = found := by
  have stop : ¬ row.addr ≤ pc := BitVec.not_le.mpr behind
  simp [Found.upTo, List.takeWhile, stop]

theorem Found.upTo_next (found : Found) {pc : BitVec 64} {row : Line} (before : ¬ pc < row.addr)
    (rows : List Line) :
    found.upTo pc (row :: rows) = Found.upTo ⟨row, found.lnlen + 1⟩ pc rows := by
  have goesOn : row.addr ≤ pc := BitVec.not_lt.mp before
  have count (n : Nat) : BitVec.ofNat 64 (n + 1) = 1 + BitVec.ofNat 64 n := by
    rw [Nat.add_comm, BitVec.ofNat_add]
    rfl
  simp only [Found.upTo, List.takeWhile, goesOn, decide_true, List.getLastD_cons, List.length_cons,
    count, BitVec.add_assoc]

variable {dbg : Endianness} {addrSize : Nat} {li : LineInfo}

theorem LineOp.bytes_pos (op : LineOp) : 0 < (op.bytes dbg addrSize).length := by
  cases op with
  | extended => simp [LineOp.bytes]
  | special => simp [LineOp.bytes]
  | standard op => cases op <;> simp [LineOp.bytes, Standard.bytes]

/-- By induction on the instructions that are left. -/
theorem lineLoop_bytes {ops : List LineOp} (fits : ∀ op ∈ ops, op.Fits dbg addrSize li)
    {pc : BitVec 64} {after : List Byte} {fuel : Nat} {r : Registers} {found : Found}
    (enough : (ops.flatMap (·.bytes dbg addrSize)).length ≤ fuel) :
    lineLoop dbg addrSize li pc after.length fuel r found
        (ops.flatMap (·.bytes dbg addrSize) ++ after) =
      some (found.upTo pc (table li r ops)) := by
  induction ops generalizing fuel r found with
  | nil => cases fuel <;> simp [lineLoop, Found.upTo, table]
  | cons op ops ih =>
    have positive := @LineOp.bytes_pos dbg addrSize op
    rw [List.flatMap_cons, List.length_append] at enough
    obtain ⟨fuel, rfl⟩ : ∃ n, fuel = n + 1 := ⟨fuel - 1, by omega⟩
    have inside : ¬ (((op :: ops).flatMap (·.bytes dbg addrSize)) ++ after).length ≤ after.length := by
      simp only [List.flatMap_cons, List.length_append]
      omega
    have rest : ∀ r found, lineLoop dbg addrSize li pc after.length fuel r found
        (ops.flatMap (·.bytes dbg addrSize) ++ after) = some (found.upTo pc (table li r ops)) :=
      fun r found => ih (fun op member => fits op (List.mem_cons_of_mem _ member)) (by omega)
    rw [lineLoop, if_neg inside, List.flatMap_cons, List.append_assoc]
    simp only [lineStep_bytes (fits op (List.mem_cons_self ..)), Option.bind_eq_bind,
      Option.bind_some, rest, table]
    by_cases appends : op.appends = true
    · by_cases behind : pc < (op.exec li r).address
      · simp [appends, behind, @Found.upTo_stop found pc (op.exec li r).row behind]
      · simp [appends, behind, @Found.upTo_next found pc (op.exec li r).row behind]
    · simp [appends]

/-- On the bytes of a program the run finds the row of `pc` in the table of the program. -/
theorem linenoRunProgram_table {ops : List LineOp} (fits : ∀ op ∈ ops, op.Fits dbg addrSize li)
    (pc : BitVec 64) (found : Found) (after : List Byte) :
    linenoRunProgram dbg addrSize li pc found (ops.flatMap (·.bytes dbg addrSize) ++ after)
      after.length = some (found.upTo pc (table li li.reset ops)) := by
  apply lineLoop_bytes fits
  simp

def byteLeb (g : Fin 128) : Leb128 := ⟨[g], by simp, by simp, by simp⟩

/-- Three rows, at 0x100, 0x104 and 0x10c. -/
def threeRows : List LineOp :=
  [.extended (byteLeb 9) (.setAddress 0x100), .standard (.advanceLine (byteLeb 9)),
    .standard .copy, .special 75, .standard (.advancePc (byteLeb 8)), .standard .copy]

theorem linenoRunProgram_three :
    linenoRunProgram .lsb 8 ⟨1, 1, 251, 14, 13⟩ 0x105 ⟨⟨0, 0, 0, 0, 0, false, 0, false⟩, 0⟩
      (threeRows.flatMap (·.bytes .lsb 8) ++ []) 0 =
    some ⟨⟨0x104, 0, 1, 11, 0, false, 1, false⟩, 2⟩ := by
  have fits : ∀ op ∈ threeRows, op.Fits .lsb 8 ⟨1, 1, 251, 14, 13⟩ := by
    simp [threeRows, LineOp.Fits, Standard.bytes, Leb128.unsigned, Leb128.signed, byteLeb]
  exact (linenoRunProgram_table fits ..).trans (by decide)

end Dwarf

end Jos
