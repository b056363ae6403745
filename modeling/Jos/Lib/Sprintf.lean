import Mathlib.Data.List.GetD
import Mathlib.Data.List.Induction
import Jos.Lib.Numbers

/-! `vsnprintf` of lib/printfmt.c: the characters go to a buffer, as far as it reaches. -/

set_option autoImplicit false

namespace Jos

open Foundation Function

namespace Printfmt

def eInval : Int := 3

/-- `struct sprintbuf`, with the bytes from the start of the buffer on. Positions count from there. -/
structure Sprintbuf where
  mem : Nat → Byte
  buf : Nat
  ebuf : Nat
  cnt : Int

def sprintputch (b : Sprintbuf) (ch : Int) : Sprintbuf :=
  let b := { b with cnt := wrap (b.cnt + 1) }
  if b.buf < b.ebuf then
    { b with mem := update b.mem b.buf (BitVec.ofInt 8 ch), buf := b.buf + 1 }
  else b

/-- `vsnprintf` on a buffer, which may be a null pointer. -/
def vsnprintf (high : BitVec 32) (fuel : Nat) (buf : Option (Nat → Byte)) (n : Int)
    (fmt : List Byte) (args : List Arg) : Option (Int × Option (Nat → Byte)) :=
  match buf with
  | none => some (-eInval, none)
  | some mem =>
    if n < 1 then some (-eInval, some mem)
    else
      (vprintfmt sprintputch high fuel [] fmt args ⟨mem, 0, (n - 1).toNat, 0⟩).map fun b =>
        (b.cnt, some (update b.mem b.buf 0))

/-- All that `vprintfmt` puts for a text. -/
def emitted (high : BitVec 32) (text : List Byte) (args : List Arg) : Option (List Int) :=
  vprintfmt (fun out c => out ++ [c]) high (text.length + 8) [] (text ++ [0]) args []

/-- A call on `n` bytes of memory leaves the start of `out`, and nothing behind them. -/
structure Truncates (mem : Nat → Byte) (n : Nat) (out : List Int) (ret : Int) (mem' : Nat → Byte) :
    Prop where
  returns : ret = out.length
  outside : ∀ k, n ≤ k → mem' k = mem k
  inside : (List.range (min (n - 1) out.length + 1)).map mem' =
    (out.take (n - 1)).map (BitVec.ofInt 8) ++ [0]

/-- The buffer when `out` has been put into it. -/
structure Sprintbuf.Holds (b : Sprintbuf) (mem : Nat → Byte) (room : Nat) (out : List Int) : Prop where
  ebuf : b.ebuf = room
  buf : b.buf = min room out.length
  cnt : b.cnt = wrap out.length
  bytes : ∀ k < b.buf, b.mem k = BitVec.ofInt 8 (out.getD k 0)
  rest : ∀ k, b.buf ≤ k → b.mem k = mem k

section Buffer

variable {b : Sprintbuf} {mem : Nat → Byte} {room n fuel : Nat} {out : List Int} {c : Int}
  {high : BitVec 32} {text : List Byte} {args : List Arg}

theorem wrap_succ {k : Nat} : wrap (wrap k + 1) = wrap (k + 1 : Nat) := by
  unfold wrap
  rw [Int.bmod_add_bmod]
  rfl

theorem Sprintbuf.Holds.put (holds : b.Holds mem room out) :
    (sprintputch b c).Holds mem room (out ++ [c]) := by
  have length : (out ++ [c]).length = out.length + 1 := List.length_append
  have counted : wrap (b.cnt + 1) = wrap (out ++ [c]).length := by
    rw [holds.cnt, wrap_succ, length]
  have place := holds.buf
  have ends := holds.ebuf
  unfold sprintputch
  simp only
  split
  · case isTrue fits =>
      have first : b.buf = out.length := by omega
      refine ⟨ends, ?_, counted, fun k below => ?_, fun k above => ?_⟩
      · change b.buf + 1 = _
        omega
      · change update b.mem b.buf (BitVec.ofInt 8 c) k = _
        change k < b.buf + 1 at below
        by_cases last : k = b.buf
        · rw [last, update_self, first, List.getD_append_right _ _ _ _ (Nat.le_refl _), Nat.sub_self]
          rfl
        · rw [update_of_ne last, holds.bytes k (by omega), List.getD_append _ _ _ _ (by omega)]
      · change update b.mem b.buf (BitVec.ofInt 8 c) k = mem k
        change b.buf + 1 ≤ k at above
        rw [update_of_ne (by omega)]
        exact holds.rest k (by omega)
  · case isFalse full =>
      refine ⟨ends, ?_, counted, fun k below => ?_, holds.rest⟩
      · change b.buf = _
        omega
      · change k < b.buf at below
        change b.mem k = _
        rw [holds.bytes k below, List.getD_append _ _ _ _ (by omega)]

theorem foldl_holds : (out.foldl sprintputch ⟨mem, 0, room, 0⟩).Holds mem room out := by
  induction out using List.reverseRecOn with
  | nil => exact ⟨rfl, (Nat.min_zero room).symm, rfl, nofun, fun _ _ => rfl⟩
  | append_singleton out c ih =>
    rw [List.foldl_append, List.foldl_cons, List.foldl_nil]
    exact ih.put

theorem vprintfmt_emitted (nonul : 0 ∉ text) (fuels : text.length + 8 ≤ fuel)
    (puts : emitted high text args = some out) {σ : Type} {putch : σ → Int → σ} {s : σ} :
    vprintfmt putch high fuel [] (text ++ [0]) args s = some (out.foldl putch s) := by
  rw [emitted, vprintfmt_emit nonul (Nat.le_refl _)] at puts
  obtain ⟨outs, parts, same⟩ := Option.map_eq_some_iff.mp puts
  rw [foldl_snoc, List.nil_append] at same
  rw [vprintfmt_emit nonul fuels, parts, ← same]
  rfl

theorem Sprintbuf.Holds.truncates (holds : b.Holds mem (n - 1) out) (positive : 0 < n)
    (short : out.length < 2 ^ 31) : Truncates mem n out b.cnt (update b.mem b.buf 0) := by
  have place := holds.buf
  refine ⟨?_, fun k above => ?_, ?_⟩
  · rw [holds.cnt, wrap_of_int (by omega) (by omega)]
  · rw [update_of_ne (by omega), holds.rest k (by omega)]
  · refine List.ext_getElem ?_ fun k inside inside' => ?_
    · rw [List.length_map, List.length_range, List.length_append, List.length_map, List.length_take,
        List.length_singleton]
    · rw [List.length_map, List.length_range] at inside
      rw [List.getElem_map, List.getElem_range]
      by_cases last : k = b.buf
      · subst last
        rw [update_self, List.getElem_append_right, List.getElem_singleton]
        rw [List.length_map, List.length_take]
        omega
      · have early : k < b.buf := by omega
        rw [update_of_ne last, holds.bytes k early, List.getElem_append_left, List.getElem_map,
          List.getElem_take, List.getD_eq_getElem _ _ (by omega)]
        rw [List.length_map, List.length_take]
        omega

/-- `vsnprintf` returns the length of all that there is to put, and keeps as much of it as there is
room for, if the length is an `int`. -/
theorem vsnprintf_truncates (nonul : 0 ∉ text) (puts : emitted high text args = some out)
    (positive : 0 < n) (short : out.length < 2 ^ 31) (fuels : text.length + 8 ≤ fuel) :
    ∃ ret mem', vsnprintf high fuel (some mem) n (text ++ [0]) args = some (ret, some mem') ∧
      Truncates mem n out ret mem' := by
  have room : ((n : Int) - 1).toNat = n - 1 := by omega
  refine ⟨_, _, ?_, (@foldl_holds mem _ _).truncates positive short⟩
  rw [vsnprintf, if_neg (by omega), vprintfmt_emitted nonul fuels puts, room]
  rfl

/-- Of two characters, there is room for one. -/
theorem vsnprintf_two : ∃ ret mem', vsnprintf 0 10 (some fun _ => 7) 2 (bytes "ab" ++ [0]) [] =
    some (ret, some mem') ∧ Truncates (fun _ => 7) 2 [97, 98] ret mem' :=
  vsnprintf_truncates (by decide) rfl (by decide) (by decide) (by decide)

theorem emitted_letter (f : Directive) (slot : BitVec 64) :
    emitted high (chr '%' :: (f.mods ++ f.conv.char :: [chr 'x'])) [.word slot] =
      some (f.puts (f.taken slot) ++ [120]) := by
  have known : f.conv.char ∈ conversions := by cases f.conv <;> decide
  have letter : f.conv.char ≠ 0 := by cases f.conv <;> decide
  have nonul : 0 ∉ chr '%' :: (f.mods ++ f.conv.char :: [chr 'x']) := by
    rw [List.mem_cons, List.mem_append, List.mem_cons, List.mem_singleton]
    rintro (same | member | same | same)
    · exact absurd same (by decide)
    · exact absurd (mods_modifiers 0 member) (by decide)
    · exact letter same.symm
    · exact absurd same (by decide)
  obtain ⟨t, headed, locals, args⟩ := @header_mods f [.word slot]
  have parts : emit high (tokens (chr '%' :: (f.mods ++ f.conv.char :: [chr 'x']))) [.word slot] =
      some [f.puts (f.taken slot), [120]] := by
    rw [tokens_directive mods_modifiers known, tokens, if_pos (by decide), tokens, emit, emitToken,
      headed, Option.bind_some, locals, args, convertOut_int]
    rfl
  rw [emitted, vprintfmt_emit nonul (Nat.le_refl _), parts]
  exact congrArg some foldl_snoc

theorem emitted_wide : ∃ out, emitted 0 (bytes "%2147483647dx") [.word 0] = some out ∧
    out.length = 2147483648 := by
  let f : Directive := ⟨.none, 2147483647, .int, .d⟩
  have spelled : bytes "%2147483647dx" = chr '%' :: (f.mods ++ f.conv.char :: [chr 'x']) := by decide
  obtain ⟨left, puts, -, -, length⟩ := f.puts_parts (f.taken 0)
  have places : f.places (f.taken 0) = 1 := by decide
  have figured : (figures f.conv.base (f.taken 0)).length = 1 := by decide
  have width : f.locals.width = 2147483647 := by decide
  have unsigned : (sign (f.taken 0)).length = 0 := by decide
  refine ⟨_, spelled ▸ emitted_letter f 0, ?_⟩
  rw [List.length_append, puts, List.length_append, List.length_append, figured, length, places, width,
    unsigned]
  decide

/-- The length is no `int` any more, and what is returned is negative. -/
theorem vsnprintf_wraps : ∃ out, emitted 0 (bytes "%2147483647dx") [.word 0] = some out ∧
    ∃ mem', vsnprintf 0 30 (some fun _ => 7) 2 (bytes "%2147483647dx" ++ [0]) [.word 0] =
      some (-2147483648, some mem') ∧ ¬Truncates (fun _ => 7) 2 out (-2147483648) mem' := by
  obtain ⟨out, puts, length⟩ := emitted_wide
  have nonul : 0 ∉ bytes "%2147483647dx" := by decide
  have counted := (@foldl_holds (fun _ => 7) 1 out).cnt
  have negative : wrap (2147483648 : Nat) = -2147483648 := by decide
  rw [length, negative] at counted
  refine ⟨out, puts, update (out.foldl sprintputch ⟨fun _ => 7, 0, 1, 0⟩).mem
    (out.foldl sprintputch ⟨fun _ => 7, 0, 1, 0⟩).buf 0, ?_, fun truncates => ?_⟩
  · rw [vsnprintf, if_neg (by decide), vprintfmt_emitted nonul (by decide) puts, ← counted]
    rfl
  · have returns := truncates.returns
    rw [length] at returns
    exact absurd returns (by decide)

end Buffer

end Printfmt

end Jos
