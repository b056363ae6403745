import Mathlib.Algebra.GroupWithZero.Nat
import Mathlib.Data.List.Induction

/-! A list handed on in pieces of one length, to a taker that may take less than it is offered.
Nothing more is offered after that. -/

set_option autoImplicit false

namespace Foundation

universe u

/-- A piece that was offered, and the answer: how much of it was taken, or a negative number. -/
structure Call (α : Type u) where
  piece : List α
  result : Int
deriving DecidableEq

namespace Call

variable {α : Type u}

def Full (call : Call α) : Prop := call.result = call.piece.length

instance : DecidablePred (@Full α) := fun call => inferInstanceAs (Decidable (call.result = _))

def taken (call : Call α) : Nat := call.result.toNat

end Call

/-- What answers may depend on all that was offered before. No more is taken than is offered. -/
structure Taker (α : Type u) where
  take : List (Call α) → List α → Int
  most : ∀ calls piece, take calls piece ≤ piece.length

section
variable {α : Type u}

def sent (calls : List (Call α)) : List α := (calls.map Call.piece).flatten

def amount (calls : List (Call α)) : Nat := (calls.map Call.taken).sum

namespace Taker

def send (taker : Taker α) (calls : List (Call α)) (piece : List α) : List (Call α) :=
  if ∀ call ∈ calls, call.Full then calls ++ [⟨piece, taker.take calls piece⟩] else calls

def deliver (taker : Taker α) (pieces : List (List α)) : List (Call α) :=
  pieces.foldl taker.send []

end Taker

/-- The whole pieces of `n` elements, and the rest. -/
def cut (n : Nat) (out : List α) : List (List α) × List α :=
  out.foldl (fun (whole, rest) a =>
    if rest.length + 1 = n then (whole ++ [rest ++ [a]], []) else (whole, rest ++ [a])) ([], [])

def pieces (n : Nat) (out : List α) : List (List α) :=
  if (cut n out).2 = [] then (cut n out).1 else (cut n out).1 ++ [(cut n out).2]

end

section Pieces

variable {α : Type u} {n : Nat} {out : List α} {a : α}

theorem cut_snoc : cut n (out ++ [a]) =
    if (cut n out).2.length + 1 = n then ((cut n out).1 ++ [(cut n out).2 ++ [a]], [])
    else ((cut n out).1, (cut n out).2 ++ [a]) := by
  rw [cut, List.foldl_append]
  rfl

theorem cut_flatten : (cut n out).1.flatten ++ (cut n out).2 = out := by
  induction out using List.reverseRecOn with
  | nil => rfl
  | append_singleton out a ih =>
    rw [cut_snoc]
    split
    · case isTrue whole =>
        rw [List.flatten_append, List.flatten_singleton, List.append_nil, ← List.append_assoc, ih]
    · case isFalse more => rw [← List.append_assoc, ih]

theorem cut_whole : ∀ piece ∈ (cut n out).1, piece.length = n := by
  induction out using List.reverseRecOn with
  | nil => exact nofun
  | append_singleton out a ih =>
    intro piece member
    rw [cut_snoc] at member
    split at member
    · case isTrue whole =>
        rcases List.mem_append.mp member with old | new
        · exact ih piece old
        · rw [List.mem_singleton.mp new, List.length_append]
          exact whole
    · case isFalse more => exact ih piece member

theorem cut_rest (positive : 0 < n) : (cut n out).2.length < n := by
  induction out using List.reverseRecOn with
  | nil => exact positive
  | append_singleton out a ih =>
    rw [cut_snoc]
    split
    · case isTrue whole => exact positive
    · case isFalse more =>
        rw [List.length_append, List.length_singleton]
        omega

theorem pieces_flatten : (pieces n out).flatten = out := by
  rw [pieces]
  split
  · case isTrue none =>
      have parts := @cut_flatten _ n out
      rwa [none, List.append_nil] at parts
  · case isFalse some =>
      rw [List.flatten_append, List.flatten_singleton, cut_flatten]

/-- Some of the pieces from the start are the whole list, or end where a piece ends. -/
theorem pieces_cut {front : List (List α)} (part : front <+: pieces n out) :
    front.flatten = out ∨ n ∣ front.flatten.length := by
  have whole {front : List (List α)} (part : front <+: (cut n out).1) :
      n ∣ front.flatten.length := by
    have lengths : front.map List.length = List.replicate front.length n :=
      List.eq_replicate_iff.mpr ⟨List.length_map _, fun k member => by
        obtain ⟨piece, old, length⟩ := List.mem_map.mp member
        rw [← length, cut_whole piece (part.subset old)]⟩
    rw [List.length_flatten, lengths, List.sum_replicate_nat]
    exact Nat.dvd_mul_left n _
  by_cases none : (cut n out).2 = []
  · rw [pieces, if_pos none] at part
    exact .inr (whole part)
  · rw [pieces, if_neg none, List.prefix_concat_iff] at part
    cases part with
    | inl all =>
      rw [all, List.flatten_concat, cut_flatten]
      exact .inl rfl
    | inr part => exact .inr (whole part)

end Pieces

section Taker

variable {α : Type u} {taker : Taker α} {calls : List (Call α)} {piece : List α}
  {pieces : List (List α)}

theorem amount_snoc {call : Call α} : amount (calls ++ [call]) = amount calls + call.taken := by
  rw [amount, List.map_append, List.sum_append, List.map_singleton, List.sum_singleton]
  rfl

theorem Taker.send_full (full : ∀ call ∈ calls, call.Full) :
    taker.send calls piece = calls ++ [⟨piece, taker.take calls piece⟩] := if_pos full

theorem Taker.send_stopped (stopped : ¬∀ call ∈ calls, call.Full) :
    taker.send calls piece = calls := if_neg stopped

theorem Taker.deliver_snoc : taker.deliver (pieces ++ [piece]) =
    taker.send (taker.deliver pieces) piece := by
  rw [deliver, List.foldl_append]
  rfl

/-- As long as all is taken, all is offered. -/
theorem Taker.deliver_all (full : ∀ call ∈ taker.deliver pieces, call.Full) :
    (taker.deliver pieces).map Call.piece = pieces := by
  induction pieces using List.reverseRecOn with
  | nil => rfl
  | append_singleton pieces piece ih =>
    rw [deliver_snoc] at full ⊢
    by_cases going : ∀ call ∈ taker.deliver pieces, call.Full
    · rw [send_full going, List.map_append, ih going, List.map_singleton]
    · rw [send_stopped going] at full
      exact absurd full going

theorem Taker.deliver_prefix : (taker.deliver pieces).map Call.piece <+: pieces := by
  induction pieces using List.reverseRecOn with
  | nil => exact List.nil_prefix
  | append_singleton pieces piece ih =>
    rw [deliver_snoc]
    by_cases full : ∀ call ∈ taker.deliver pieces, call.Full
    · have all : (taker.send (taker.deliver pieces) piece).map Call.piece = pieces ++ [piece] := by
        rw [send_full full, List.map_append, deliver_all full, List.map_singleton]
      exact all ▸ List.prefix_rfl
    · rw [send_stopped full]
      exact ih.trans (List.prefix_append _ _)

/-- Nothing is offered after a piece that was not taken in full. -/
theorem Taker.deliver_stops : ∀ call ∈ (taker.deliver pieces).dropLast, call.Full := by
  induction pieces using List.reverseRecOn with
  | nil => exact nofun
  | append_singleton pieces piece ih =>
    rw [deliver_snoc]
    by_cases full : ∀ call ∈ taker.deliver pieces, call.Full
    · rw [send_full full, List.dropLast_concat]
      exact full
    · rw [send_stopped full]
      exact ih

end Taker

end Foundation
