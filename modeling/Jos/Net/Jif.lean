import Mathlib.Tactic

/-! net/lwip/jos/jif/jif.c: a packet goes as a chain of pbufs to a page, and comes as a page to
another chain. A chain is the list of its payloads. -/

set_option autoImplicit false

namespace Jos

namespace Jif

abbrev Byte := BitVec 8

/-- `struct jif_pkt` -/
structure JifPkt where
  jpLen : BitVec 32
  jpData : Nat → Byte

def memcpy (dst : Nat → Byte) (start : Nat) (src : List Byte) : Nat → Byte := fun k =>
  if start ≤ k then (src[k - start]?).getD (dst k) else dst k

/-- The loop of `low_level_output`; `none` is a panic. -/
def lowLevelOutput (pkt : JifPkt) (txsize : Nat) : List (List Byte) → Option JifPkt
  | [] => some { pkt with jpLen := BitVec.ofNat 32 txsize }
  | q :: chain =>
    if txsize + q.length > 2000 then none
    else lowLevelOutput { pkt with jpData := memcpy pkt.jpData txsize q } (txsize + q.length) chain

/-- The lengths of a chain of `pbuf_alloc`, with so many free pbufs of `PBUF_POOL_BUFSIZE`. -/
def pbufAlloc : Nat → Nat → Option (List Nat)
  | 0, _ => none
  | free + 1, length =>
    if length ≤ 2000 then some [length] else (pbufAlloc free (length - 2000)).map (2000 :: ·)

/-- The loop of `low_level_input`. A negative size is too much for `memcpy`. -/
def copyIn (data : Nat → Byte) (len : Int) (copied : Nat) : List Nat → Option (List (List Byte))
  | [] => some []
  | q :: lens =>
    let bytes : Int := if q > len - copied then len - copied else q
    if bytes < 0 then none
    else (copyIn data len (copied + bytes.toNat) lens).map
      ((List.range' copied bytes.toNat).map data :: ·)

/-- `low_level_input`, where `len` is an `s16_t`; the inner `none` is a null pointer. -/
def lowLevelInput (free : Nat) (pkt : JifPkt) : Option (Option (List (List Byte))) :=
  let len := pkt.jpLen.setWidth 16
  match pbufAlloc free len.toNat with
  | none => some none
  | some lens => (copyIn pkt.jpData len.toInt 0 lens).map some

variable {pkt sent : JifPkt} {chain : List (List Byte)} {txsize : Nat}

theorem memcpy_range (dst : Nat → Byte) (q : List Byte) :
    (List.range (txsize + q.length)).map (memcpy dst txsize q) =
      (List.range txsize).map dst ++ q := by
  apply List.ext_getElem
  · simp
  · intro k inside _
    simp only [List.length_map, List.length_range] at inside
    by_cases early : k < txsize
    · simp [memcpy, early, Nat.not_le.mpr early]
    · have within : k - txsize < q.length := by omega
      simp [memcpy, Nat.not_lt.mp early, within]

theorem lowLevelOutput_none (room : txsize ≤ 2000) :
    lowLevelOutput pkt txsize chain = none ↔ 2000 < txsize + chain.flatten.length := by
  induction chain generalizing pkt txsize with
  | nil => simpa [lowLevelOutput] using room
  | cons q chain ih =>
    rw [lowLevelOutput, List.flatten_cons, List.length_append]
    split
    · exact iff_of_true rfl (by omega)
    · rw [ih (by omega), Nat.add_assoc]

theorem lowLevelOutput_some (out : lowLevelOutput pkt txsize chain = some sent) :
    sent.jpLen = BitVec.ofNat 32 (txsize + chain.flatten.length) ∧
    (List.range (txsize + chain.flatten.length)).map sent.jpData =
      (List.range txsize).map pkt.jpData ++ chain.flatten := by
  induction chain generalizing pkt txsize with
  | nil =>
    cases out
    simp
  | cons q chain ih =>
    rw [lowLevelOutput] at out
    split at out
    · cases out
    · obtain ⟨len, data⟩ := ih out
      rw [memcpy_range] at data
      rw [List.flatten_cons, List.length_append, ← Nat.add_assoc, ← List.append_assoc]
      exact ⟨len, data⟩

theorem copyIn_flatten {data : Nat → Byte} {len : Int} {lens : List Nat} {copied : Nat}
    (all : (copied + lens.sum : Nat) = len) : ∃ pbufs, copyIn data len copied lens = some pbufs ∧
      pbufs.flatten = (List.range' copied lens.sum).map data := by
  induction lens generalizing copied with
  | nil => exact ⟨[], rfl, rfl⟩
  | cons q lens ih =>
    rw [List.sum_cons] at all
    obtain ⟨pbufs, ran, same⟩ := @ih (copied + q) (by omega)
    refine ⟨(List.range' copied q).map data :: pbufs, ?_, ?_⟩
    · have fits : ¬ (q : Int) > len - copied := by omega
      simp [copyIn, fits, ran]
    · rw [List.flatten_cons, same, List.sum_cons, ← List.map_append, ← List.range'_append_1]

end Jif

end Jos
