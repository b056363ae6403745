import Mathlib.Data.Nat.Digits.Defs
import Mathlib.Tactic

/-! The readers of kern/libdwarf_rw.c, and the program of `_dwarf_lineno_run_program` in
kern/libdwarf_lineno.c that finds the line of an address. A pointer is the list of the bytes from
there to the end of the memory, and `none` is a fault. -/

set_option autoImplicit false

namespace Jos

namespace Dwarf

abbrev Byte := BitVec 8

/-- `(b & 0x7f) << shift` of an `int`. The processor takes a shift modulo 32. -/
def group (b : Byte) (shift : Nat) : BitVec 32 := (b &&& 0x7f).setWidth 32 <<< (shift % 32)

/-- The loop of the LEB128 readers, with `ret`, `shift` and the last `b`. -/
def leb128 : List Byte → BitVec 64 → Nat → Option (BitVec 64 × Nat × Byte × List Byte)
  | [], _, _ => none
  | b :: src, ret, shift =>
    let ret := ret ||| (group b shift).signExtend 64
    if b &&& 0x80 ≠ 0 then leb128 src ret (shift + 7) else some (ret, shift + 7, b, src)

def decodeUleb128 (src : List Byte) : Option (BitVec 64 × List Byte) :=
  (leb128 src 0 0).map fun (ret, _, _, src) => (ret, src)

def decodeSleb128 (src : List Byte) : Option (BitVec 64 × List Byte) :=
  (leb128 src 0 0).map fun (ret, shift, b, src) =>
    (if shift < 32 ∧ b &&& 0x40 ≠ 0 then ret ||| ((-1 : BitVec 32) <<< shift).signExtend 64 else ret,
      src)

/-- A number as its writer has it: groups of seven bits, the low group first. -/
structure Leb128 where
  groups : List Nat
  written : groups ≠ []
  small : ∀ g ∈ groups, g < 128
  /-- So far no shift is undefined. -/
  few : groups.length ≤ 5

namespace Leb128

/-- All bytes but the last have their high bit set. -/
def pack : List Nat → List Byte
  | [] => []
  | [g] => [BitVec.ofNat 8 g]
  | g :: gs => BitVec.ofNat 8 (128 + g) :: pack gs

def bytes (n : Leb128) : List Byte := pack n.groups

def unsigned (n : Leb128) : Nat := Nat.ofDigits 128 n.groups

/-- The second highest bit of the last byte is the sign. -/
def signed (n : Leb128) : Int :=
  if n.groups.getLast n.written < 64 then n.unsigned else n.unsigned - 128 ^ n.groups.length

end Leb128

theorem group_low {g : Nat} (small : g < 128) (shift : Nat) :
    group (BitVec.ofNat 8 g) shift = BitVec.ofNat 32 g <<< (shift % 32) := by
  have all : ∀ g : Fin 128, (BitVec.ofNat 8 g &&& 0x7f).setWidth 32 = BitVec.ofNat 32 g := by
    decide
  rw [group, all ⟨g, small⟩]

theorem group_high {g : Nat} (small : g < 128) (shift : Nat) :
    group (BitVec.ofNat 8 (128 + g)) shift = BitVec.ofNat 32 g <<< (shift % 32) := by
  have all : ∀ g : Fin 128, (BitVec.ofNat 8 (128 + g) &&& 0x7f).setWidth 32 = BitVec.ofNat 32 g := by
    decide
  rw [group, all ⟨g, small⟩]

/-- A group is put over the bits that there are. -/
theorem group_or {low g shift : Nat} (below : low < 2 ^ shift) (few : shift < 32) :
    (BitVec.ofNat 32 low).signExtend 64 ||| (BitVec.ofNat 32 g <<< (shift % 32)).signExtend 64 =
      (BitVec.ofNat 32 (low + 2 ^ shift * g)).signExtend 64 := by
  have shifted : BitVec.ofNat 32 g <<< shift = BitVec.ofNat 32 (2 ^ shift * g) := by
    apply BitVec.eq_of_toNat_eq
    simp [Nat.shiftLeft_eq, Nat.mul_comm]
  rw [Nat.mod_eq_of_lt few, ← BitVec.signExtend_or, shifted, ← BitVec.ofNat_or, Nat.or_comm,
    ← Nat.two_pow_add_eq_or_of_lt below, Nat.add_comm]

/-- The loop gives the low 32 bits of a number, with the sign of an `int`. -/
theorem leb128_pack {gs : List Nat} (written : gs ≠ []) (small : ∀ g ∈ gs, g < 128)
    {low shift : Nat} (below : low < 2 ^ shift) (few : shift + 7 * gs.length ≤ 35) (src : List Byte) :
    leb128 (Leb128.pack gs ++ src) ((BitVec.ofNat 32 low).signExtend 64) shift =
      some ((BitVec.ofNat 32 (low + 2 ^ shift * Nat.ofDigits 128 gs)).signExtend 64,
        shift + 7 * gs.length, BitVec.ofNat 8 (gs.getLast written), src) := by
  induction gs generalizing low shift with
  | nil => exact absurd rfl written
  | cons g gs ih =>
    have smallHead := small g (List.mem_cons_self ..)
    simp only [List.length_cons] at few
    cases gs with
    | nil =>
      have stops : ∀ g : Fin 128, (BitVec.ofNat 8 g &&& 0x80 : Byte) = 0 := by decide
      simp only [Leb128.pack, List.cons_append, List.nil_append, leb128, stops ⟨g, smallHead⟩]
      rw [group_low smallHead, group_or below (by omega)]
      simp [Nat.ofDigits]
    | cons next gs =>
      have goesOn : ∀ g : Fin 128, (BitVec.ofNat 8 (128 + g) &&& 0x80 : Byte) ≠ 0 := by decide
      have grows : low + 2 ^ shift * g < 2 ^ (shift + 7) := by
        rw [Nat.pow_add]
        nlinarith [Nat.two_pow_pos shift]
      simp only [Leb128.pack, List.cons_append, leb128, ne_eq, goesOn ⟨g, smallHead⟩,
        not_false_eq_true, if_true]
      rw [group_high smallHead, group_or below (by omega), ih (List.cons_ne_nil next gs)
        (fun g member => small g (List.mem_cons_of_mem _ member)) grows (by omega)]
      have sum : low + 2 ^ shift * g + 2 ^ (shift + 7) * Nat.ofDigits 128 (next :: gs) =
          low + 2 ^ shift * Nat.ofDigits 128 (g :: next :: gs) := by
        simp only [Nat.ofDigits_cons, Nat.pow_add]
        ring
      rw [sum]
      simp
      omega

theorem Leb128.unsigned_lt (n : Leb128) : n.unsigned < 128 ^ n.groups.length :=
  Nat.ofDigits_lt_base_pow_length' n.small

theorem Leb128.decode (n : Leb128) (src : List Byte) :
    leb128 (n.bytes ++ src) 0 0 = some ((BitVec.ofNat 32 n.unsigned).signExtend 64,
      7 * n.groups.length, BitVec.ofNat 8 (n.groups.getLast n.written), src) := by
  have few := n.few
  simpa [Leb128.bytes, Leb128.unsigned] using
    leb128_pack n.written n.small (show 0 < 2 ^ 0 by decide) (by omega) src

theorem decodeUleb128_bytes (n : Leb128) (src : List Byte) :
    decodeUleb128 (n.bytes ++ src) = some ((BitVec.ofNat 32 n.unsigned).signExtend 64, src) := by
  rw [decodeUleb128, n.decode, Option.map_some]

/-- The bits that the sign is put in. -/
theorem sign_or {v shift : Nat} (below : v < 2 ^ shift) (few : shift < 32) :
    (BitVec.ofNat 32 v).signExtend 64 ||| ((-1 : BitVec 32) <<< shift).signExtend 64 =
      (BitVec.ofInt 32 (v - 2 ^ shift)).signExtend 64 := by
  have ones := group_or below few (g := 2 ^ 32 - 1)
  rw [Nat.mod_eq_of_lt few] at ones
  refine ones.trans (congrArg _ (BitVec.eq_of_toInt_eq ?_))
  rw [BitVec.toInt_ofNat', BitVec.toInt_ofInt]
  have apart : ((v + 2 ^ shift * (2 ^ 32 - 1) : Nat) : Int) =
      v - 2 ^ shift + 2 ^ shift * (2 ^ 32 : Nat) := by
    push_cast
    ring
  rw [apart, Int.add_mul_bmod_self_right]

theorem decodeSleb128_bytes (n : Leb128) (src : List Byte) :
    decodeSleb128 (n.bytes ++ src) = some ((BitVec.ofInt 32 n.signed).signExtend 64, src) := by
  have sign : ∀ g : Fin 128, (BitVec.ofNat 8 g &&& 0x40 : Byte) ≠ 0 ↔ ¬ g.1 < 64 := by decide
  have last := sign ⟨n.groups.getLast n.written, n.small _ (List.getLast_mem _)⟩
  have few := n.few
  have below := n.unsigned_lt
  simp only [decodeSleb128, n.decode, Option.map_some, last, Leb128.signed]
  by_cases positive : n.groups.getLast n.written < 64
  · simp [positive]
  · rw [if_neg positive]
    have base : (128 : Nat) ^ n.groups.length = 2 ^ (7 * n.groups.length) := by
      rw [Nat.pow_mul]
    by_cases short : n.groups.length = 5
    · have same : BitVec.ofNat 32 n.unsigned = BitVec.ofInt 32 (n.unsigned - 128 ^ 5) := by
        apply BitVec.eq_of_toInt_eq
        rw [BitVec.toInt_ofNat', BitVec.toInt_ofInt]
        exact (Int.sub_mul_bmod_self_right n.unsigned 8 (2 ^ 32)).symm
      rw [if_neg (by omega), same, short]
    · rw [if_pos ⟨by omega, positive⟩]
      simp only [sign_or (base ▸ below) (show 7 * n.groups.length < 32 by omega)]
      rw [show (2 : Int) ^ (7 * n.groups.length) = 128 ^ n.groups.length from mod_cast base.symm]

theorem decodeUleb128_iff (n : Leb128) (src : List Byte) :
    decodeUleb128 (n.bytes ++ src) = some (BitVec.ofNat 64 n.unsigned, src) ↔
      n.unsigned < 2 ^ 31 := by
  have below : n.unsigned < 128 ^ 5 :=
    n.unsigned_lt.trans_le (Nat.pow_le_pow_right (by decide) n.few)
  rw [decodeUleb128_bytes, Option.some.injEq, Prod.mk.injEq, and_iff_left rfl, ← BitVec.toInt_inj,
    BitVec.toInt_signExtend_of_le (by decide), BitVec.toInt_ofNat', BitVec.toInt_ofNat']
  simp only [Int.bmod_def]
  omega

theorem decodeSleb128_iff (n : Leb128) (src : List Byte) :
    decodeSleb128 (n.bytes ++ src) = some (BitVec.ofInt 64 n.signed, src) ↔
      -2 ^ 31 ≤ n.signed ∧ n.signed < 2 ^ 31 := by
  have wide : 128 ^ n.groups.length ≤ 128 ^ 5 := Nat.pow_le_pow_right (by decide) n.few
  have below : n.unsigned < 128 ^ n.groups.length := n.unsigned_lt
  have sign : n.signed = n.unsigned ∨ n.signed = n.unsigned - (128 ^ n.groups.length : Nat) := by
    rw [Leb128.signed]
    split
    · exact .inl rfl
    · exact .inr (by norm_cast)
  rw [decodeSleb128_bytes, Option.some.injEq, Prod.mk.injEq, and_iff_left rfl, ← BitVec.toInt_inj,
    BitVec.toInt_signExtend_of_le (by decide), BitVec.toInt_ofInt, BitVec.toInt_ofInt]
  simp only [Int.bmod_def]
  omega

/-- The two readers on a number of up to 35 bits: only what an `int` holds comes back. -/
theorem leb128_reads (n : Leb128) (src : List Byte) :
    (decodeUleb128 (n.bytes ++ src) = some (BitVec.ofNat 64 n.unsigned, src) ↔
      n.unsigned < 2 ^ 31) ∧
    (decodeSleb128 (n.bytes ++ src) = some (BitVec.ofInt 64 n.signed, src) ↔
      -2 ^ 31 ≤ n.signed ∧ n.signed < 2 ^ 31) :=
  ⟨decodeUleb128_iff n src, decodeSleb128_iff n src⟩

/-- `_dwarf_elf_get_byte_order` -/
inductive Endianness where
  | msb
  | lsb

/-- The bytes of a number, the low byte first. -/
def number : List Byte → BitVec 64
  | [] => 0
  | b :: bytes => b.setWidth 64 ||| number bytes <<< 8

/-- `dbg->decode`: `_dwarf_decode_lsb` or `_dwarf_decode_msb`. -/
def decode (dbg : Endianness) (src : List Byte) (bytesToRead : Nat) :
    Option (BitVec 64 × List Byte) :=
  if bytesToRead ∈ [1, 2, 4, 8] then
    if src.length < bytesToRead then none
    else
      let bytes := src.take bytesToRead
      some (number (match dbg with | .lsb => bytes | .msb => bytes.reverse), src.drop bytesToRead)
  else some (0, src)

/-- What `decode` is to read. -/
def encode (dbg : Endianness) (value : BitVec 64) (bytesToRead : Nat) : List Byte :=
  let bytes := (List.range bytesToRead).map fun i => (value >>> (8 * i)).setWidth 8
  match dbg with
  | .lsb => bytes
  | .msb => bytes.reverse

theorem number_bytes {n : Nat} {value : BitVec 64} (fits : value.toNat < 256 ^ n) :
    number ((List.range n).map fun i => (value >>> (8 * i)).setWidth 8) = value := by
  induction n generalizing value with
  | zero =>
    apply BitVec.eq_of_toNat_eq
    simpa [number, eq_comm] using fits
  | succ n ih =>
    have shifted : (value >>> 8).toNat < 256 ^ n := by
      rw [BitVec.toNat_ushiftRight, Nat.shiftRight_eq_div_pow]
      exact Nat.div_lt_of_lt_mul (by rwa [Nat.pow_succ, Nat.mul_comm] at fits)
    have rest := ih shifted
    simp only [← BitVec.shiftRight_add] at rest
    rw [List.range_succ_eq_map, List.map_cons, List.map_map, number]
    have same : ((fun i => (value >>> (8 * i)).setWidth 8) ∘ Nat.succ : Nat → Byte) =
        fun i => (value >>> (8 + 8 * i)).setWidth 8 := by
      funext i
      simp [Nat.mul_succ, Nat.add_comm]
    rw [same, rest]
    apply BitVec.eq_of_getLsbD_eq
    intro i
    simp
    grind

theorem decode_encode {dbg : Endianness} {value : BitVec 64} {n : Nat} (width : n ∈ [1, 2, 4, 8])
    (fits : value.toNat < 256 ^ n) (src : List Byte) :
    decode dbg (encode dbg value n ++ src) n = some (value, src) := by
  cases dbg <;> simp [decode, encode, width, number_bytes fits]

end Dwarf

end Jos
