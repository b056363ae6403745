import Mathlib.Data.List.TakeWhile
import Jos.Lib.Printfmt

/-! `vprintfmt` against the parts of a format: ordinary characters, directives, and `%` signs
that start none. -/

set_option autoImplicit false

namespace Jos

namespace Printfmt

/-- A part of a format. A directive is unknown when its modifiers are followed by no conversion:
it stands for the `%` alone, and its modifiers are ordinary characters. -/
inductive Token where
  | char (c : Byte)
  | unknown (mods : List Byte)
  | directive (mods : List Byte) (conv : Byte)

def Token.text : Token → List Byte
  | .char c => [c]
  | .unknown _ => [chr '%']
  | .directive mods conv => chr '%' :: mods ++ [conv]

def tokens : List Byte → List Token
  | [] => []
  | c :: text =>
    if c ≠ chr '%' then .char c :: tokens text
    else
      match _follow : text.dropWhile (· ∈ modifiers) with
      | [] => .unknown (text.takeWhile (· ∈ modifiers)) :: tokens text
      | conv :: rest =>
        if conv ∈ conversions then
          .directive (text.takeWhile (· ∈ modifiers)) conv :: tokens rest
        else .unknown (text.takeWhile (· ∈ modifiers)) :: tokens text
termination_by text => text.length
decreasing_by
  · exact Nat.lt_succ_self _
  · exact Nat.lt_succ_self _
  · have shorter := List.length_dropWhile_le (· ∈ modifiers) text
    rw [_follow, List.length_cons] at shorter
    rw [List.length_cons]
    omega
  · exact Nat.lt_succ_self _

def header (mods : List Byte) (args : List Arg) : Option Scanner := mods.foldlM modify { args }

def emitToken (high : BitVec 32) (args : List Arg) : Token → Option (List Arg × List Int)
  | .char c => some (args, [c.toNat])
  | .unknown mods => (header mods args).map fun t => (t.args, [37])
  | .directive mods conv => (header mods args).bind fun t => convertOut high conv t.done t.args

def emit (high : BitVec 32) : List Token → List Arg → Option (List (List Int))
  | [], _ => some []
  | token :: rest, args =>
    (emitToken high args token).bind fun (args, out) => (emit high rest args).map (out :: ·)

section Steps

variable {σ : Type} {putch : σ → Int → σ} {s : σ} {high : BitVec 32} {n : Nat}
  {back rest text mods : List Byte} {args : List Arg} {ch : Byte} {t : Scanner}

theorem tokens_text : (tokens text).flatMap Token.text = text := by
  fun_induction tokens text with
  | case1 => rfl
  | case2 c text plain ih => rw [List.flatMap_cons, ih]; rfl
  | case3 c text percent follow ih =>
    rw [List.flatMap_cons, ih, not_not.mp percent]
    rfl
  | case4 c text percent conv rest follow known ih =>
    rw [List.flatMap_cons, ih, not_not.mp percent, Token.text, List.cons_append, List.cons_append,
      List.append_assoc, List.singleton_append, ← follow, List.takeWhile_append_dropWhile]
  | case5 c text percent conv rest follow unknown ih =>
    rw [List.flatMap_cons, ih, not_not.mp percent]
    rfl

theorem scan_header (all : ∀ c ∈ mods, c ∈ modifiers) (ends : ch ∉ modifiers) :
    scan back (mods ++ ch :: rest) t = (mods.foldlM modify t).map fun t =>
      ⟨ch, ch :: (mods.reverse ++ back), rest, t.done, t.args⟩ := by
  induction mods generalizing back t with
  | nil =>
    rw [List.nil_append, scan, if_neg ends]
    rfl
  | cons c mods ih =>
    rw [List.cons_append, scan, if_pos (all c List.mem_cons_self), List.foldlM_cons]
    cases modify t c with
    | none => rfl
    | some t =>
      simp only [Option.bind_some, Option.bind_eq_bind]
      rw [ih fun c member => all c (List.mem_cons_of_mem _ member), List.reverse_cons,
        List.append_assoc, List.singleton_append]

/-- The way back to the `%` that a directive starts with. -/
theorem rewind_percent (none : chr '%' ∉ text) :
    rewind (text ++ chr '%' :: back) rest = some (chr '%' :: back, text.reverse ++ rest) := by
  induction text generalizing rest with
  | nil => rw [List.nil_append, rewind, if_pos rfl]; rfl
  | cons b text ih =>
    have other : b ≠ chr '%' := fun same => none (same ▸ List.mem_cons_self)
    rw [List.cons_append, rewind, if_neg other,
      ih fun member => none (List.mem_cons_of_mem _ member), List.reverse_cons, List.append_assoc,
      List.singleton_append]

theorem vprintfmt_char (plain : ch ≠ chr '%') (more : ch ≠ 0) :
    vprintfmt putch high (n + 1) back (ch :: rest) args s =
      vprintfmt putch high n (ch :: back) rest args (putch s ch.toNat) := by
  rw [vprintfmt, if_pos plain, if_neg more]

theorem vprintfmt_end : vprintfmt putch high (n + 1) back [0] args s = some s := by
  rw [vprintfmt, if_pos (by decide), if_pos rfl]

theorem vprintfmt_plain (plain : ∀ c ∈ text, c ≠ chr '%' ∧ c ≠ 0) :
    vprintfmt putch high (n + text.length) back (text ++ rest) args s =
      vprintfmt putch high n (text.reverse ++ back) rest args
        ((text.map fun c => (c.toNat : Int)).foldl putch s) := by
  induction text generalizing back s with
  | nil => rfl
  | cons c text ih =>
    obtain ⟨percent, nul⟩ := plain c List.mem_cons_self
    rw [List.length_cons, ← Nat.add_assoc, List.cons_append, vprintfmt_char percent nul,
      ih fun c member => plain c (List.mem_cons_of_mem _ member), List.reverse_cons,
      List.append_assoc, List.singleton_append]
    rfl

theorem chars_terminated (none : 0 ∉ text) :
    chars false (text ++ [0]) (-1) = some (text.map BitVec.toInt) := by
  induction text with
  | nil => rfl
  | cons c text ih =>
    have more : c.toInt ≠ 0 := fun zero =>
      none (BitVec.eq_of_toInt_eq (zero.trans rfl : c.toInt = (0 : Byte).toInt) ▸ List.mem_cons_self)
    rw [List.cons_append, chars, if_neg more, if_pos (.inl (by decide)), if_pos (by decide),
      ih fun member => none (List.mem_cons_of_mem _ member)]
    rfl

theorem conversions_end : ∀ c ∈ conversions, c ∉ modifiers := by decide

theorem vprintfmt_directive (all : ∀ c ∈ mods, c ∈ modifiers) (known : ch ∈ conversions) :
    vprintfmt putch high (n + 1) back (chr '%' :: (mods ++ ch :: rest)) args s =
      ((header mods args).bind fun t =>
        convert putch (vprintfmt putch high n []) high ch t.done t.args s).bind fun (args, s) =>
          vprintfmt putch high n (ch :: (mods.reverse ++ chr '%' :: back)) rest args s := by
  rw [vprintfmt, if_neg (by decide), scan_header all (conversions_end ch known), header]
  cases mods.foldlM modify { args } with
  | none => rfl
  | some t =>
    simp only [Option.map_some, Option.bind_some, Option.bind_eq_bind]
    rw [if_pos known]

theorem vprintfmt_unknown (all : ∀ c ∈ mods, c ∈ modifiers) (ends : ch ∉ modifiers)
    (unknown : ch ∉ conversions) :
    vprintfmt putch high (n + 1) back (chr '%' :: (mods ++ ch :: rest)) args s =
      (header mods args).bind fun t =>
        vprintfmt putch high n (chr '%' :: back) (mods ++ ch :: rest) t.args (putch s 37) := by
  have none : chr '%' ∉ mods.reverse := fun member =>
    absurd (all _ (List.mem_reverse.mp member)) (by decide)
  rw [vprintfmt, if_neg (by decide), scan_header all ends, header]
  cases mods.foldlM modify { args } with
  | none => rfl
  | some t =>
    simp only [Option.map_some, Option.bind_some, Option.bind_eq_bind]
    rw [if_neg unknown, List.tail_cons, rewind_percent none, List.reverse_reverse]
    rfl

/-- `printfmt` on the two formats of error messages. -/
theorem prints (fuel : 8 ≤ n) : Prints putch (vprintfmt putch high n []) where
  number := fun slot s => by
    obtain ⟨m, rfl⟩ := Nat.exists_eq_add_of_le' fuel
    have spelled : cstring "error %d" = bytes "error " ++ (chr '%' :: ([] ++ chr 'd' :: [0])) := by decide
    have plainly : (bytes "error ").map (fun c => (c.toNat : Int)) = plain "error " := by decide
    have wrote := @vprintfmt_plain σ putch s high (m + 2) [] (chr '%' :: ([] ++ chr 'd' :: [0]))
      (bytes "error ") [.word slot] (by decide)
    rw [spelled]
    refine wrote.trans ?_
    rw [plainly, vprintfmt_directive (List.forall_mem_nil _) (by decide), List.foldl_append, ← printSigned_eq]
    exact vprintfmt_end
  text := fun text s none => by
    obtain ⟨m, rfl⟩ := Nat.exists_eq_add_of_le' fuel
    have left : ((-1 : Int) - (plain text).length).toNat = 0 := Int.toNat_of_nonpos (by omega)
    have out : stringOut {} (cstring text) = some (plain text) := by
      rw [stringOut, cstring, chars_terminated none]
      refine congrArg some ?_
      change plain text ++ List.replicate ((-1 : Int) - (plain text).length).toNat 32 = plain text
      rw [left, List.replicate_zero, List.append_nil]
    have spelled : cstring "%s" = chr '%' :: ([] ++ chr 's' :: [0]) := by decide
    rw [spelled, vprintfmt_directive (List.forall_mem_nil _) (by decide)]
    have converted : convert putch (vprintfmt putch high (m + 7) []) high (chr 's') {}
        [.string (some (cstring text))] s = some ([], (plain text).foldl putch s) := by
      rw [convert, if_pos rfl]
      have wrote : putString putch {} (cstring text) s = some ((plain text).foldl putch s) := by
        rw [putString_eq, out]
        rfl
      change (putString putch {} (cstring text) s).bind _ = _
      rw [wrote]
      rfl
    change (convert putch (vprintfmt putch high (m + 7) []) high (chr 's') {}
        [.string (some (cstring text))] s).bind _ = _
    rw [converted]
    exact vprintfmt_end

theorem takeWhile_modifiers : ∀ c ∈ text.takeWhile (· ∈ modifiers), c ∈ modifiers :=
  fun _ member => of_decide_eq_true (List.mem_takeWhile_imp (p := (· ∈ modifiers)) member)

theorem modifiers_append (follow : text.dropWhile (· ∈ modifiers) = rest) :
    text.takeWhile (· ∈ modifiers) ++ rest = text :=
  follow ▸ List.takeWhile_append_dropWhile

theorem dropWhile_ends (follow : text.dropWhile (· ∈ modifiers) = ch :: rest) :
    ch ∉ modifiers := by
  have ends := List.head?_dropWhile_not (· ∈ modifiers) text
  rw [follow] at ends
  exact of_decide_eq_false ends

theorem tokens_directive (all : ∀ c ∈ mods, c ∈ modifiers) (known : ch ∈ conversions) :
    tokens (chr '%' :: (mods ++ ch :: rest)) = .directive mods ch :: tokens rest := by
  have taken : (mods ++ ch :: rest).takeWhile (· ∈ modifiers) = mods := by
    rw [List.takeWhile_append_of_pos fun c member => decide_eq_true (all c member),
      List.takeWhile_cons_of_neg (by simpa using conversions_end ch known), List.append_nil]
  have left : (mods ++ ch :: rest).dropWhile (· ∈ modifiers) = ch :: rest := by
    have parts := List.takeWhile_append_dropWhile (p := (· ∈ modifiers)) (l := mods ++ ch :: rest)
    rw [taken] at parts
    exact List.append_cancel_left parts
  rw [tokens, if_neg (by decide), taken]
  split
  · case h_1 none => rw [left] at none; cases none
  · case h_2 conv rest' follow =>
      rw [left] at follow
      obtain ⟨rfl, rfl⟩ := List.cons.inj follow
      rw [if_pos known]

/-- With enough fuel, `vprintfmt` puts what the parts of the format put, or fails as they do. -/
theorem vprintfmt_emit (nonul : 0 ∉ text) (fuel : text.length + 8 ≤ n) :
    vprintfmt putch high n back (text ++ [0]) args s =
      (emit high (tokens text) args).map fun outs => outs.flatten.foldl putch s := by
  fun_induction tokens text generalizing n back args s with
  | case1 =>
    obtain ⟨m, rfl⟩ := Nat.exists_eq_add_of_le' fuel
    exact vprintfmt_end
  | case2 c text plain ih =>
    rw [List.length_cons] at fuel
    obtain ⟨m, rfl⟩ : ∃ m, n = m + 1 := ⟨n - 1, by omega⟩
    have more : c ≠ 0 := fun zero => nonul (zero ▸ List.mem_cons_self)
    rw [List.cons_append, vprintfmt_char plain more,
      ih (fun member => nonul (List.mem_cons_of_mem _ member)) (by omega)]
    simp only [emit, emitToken, Option.bind_some, Option.map_map]
    rfl
  | case3 c text percent follow ih =>
    rw [List.length_cons] at fuel
    obtain ⟨m, rfl⟩ : ∃ m, n = m + 1 := ⟨n - 1, by omega⟩
    have whole : text.takeWhile (· ∈ modifiers) = text :=
      (List.append_nil _).symm.trans (modifiers_append follow)
    have all : ∀ c ∈ text, c ∈ modifiers := whole ▸ @takeWhile_modifiers text
    rw [List.cons_append, not_not.mp percent, vprintfmt_unknown all (by decide) (by decide), whole]
    simp only [emit, emitToken]
    cases header text args with
    | none => rfl
    | some t =>
      simp only [Option.bind_some, Option.map_some, Option.map_map]
      rw [ih (fun member => nonul (List.mem_cons_of_mem _ member)) (by omega)]
      rfl
  | case4 c text percent conv rest follow known ih =>
    have parts := modifiers_append follow
    have all := @takeWhile_modifiers text
    generalize text.takeWhile (· ∈ modifiers) = mods at parts all
    subst parts
    rw [List.length_cons, List.length_append, List.length_cons] at fuel
    obtain ⟨m, rfl⟩ : ∃ m, n = m + 1 := ⟨n - 1, by omega⟩
    rw [List.cons_append, not_not.mp percent, List.append_assoc, List.cons_append,
      vprintfmt_directive all known]
    simp only [emit, emitToken]
    cases header mods args with
    | none => rfl
    | some t =>
      simp only [Option.bind_some, convert_eq (@prints σ putch high m (by omega))]
      cases convertOut high conv t.done t.args with
      | none => rfl
      | some converted =>
        simp only [Option.bind_some, Option.map_some, Option.map_map]
        rw [ih (fun member => nonul (List.mem_cons_of_mem _ (List.mem_append_right _
          (List.mem_cons_of_mem _ member)))) (by omega)]
        simp only [Function.comp_def, List.flatten_cons, List.foldl_append]
  | case5 c text percent conv rest follow unknown ih =>
    rw [List.length_cons] at fuel
    obtain ⟨m, rfl⟩ : ∃ m, n = m + 1 := ⟨n - 1, by omega⟩
    have text_eq : text ++ [0] = text.takeWhile (· ∈ modifiers) ++ conv :: (rest ++ [0]) := by
      rw [← List.cons_append, ← List.append_assoc, modifiers_append follow]
    rw [List.cons_append, not_not.mp percent, text_eq, vprintfmt_unknown takeWhile_modifiers
      (dropWhile_ends follow) unknown, ← text_eq]
    simp only [emit, emitToken]
    cases header (text.takeWhile (· ∈ modifiers)) args with
    | none => rfl
    | some t =>
      simp only [Option.bind_some, Option.map_some, Option.map_map]
      rw [ih (fun member => nonul (List.mem_cons_of_mem _ member)) (by omega)]
      rfl

end Steps

end Printfmt

end Jos
