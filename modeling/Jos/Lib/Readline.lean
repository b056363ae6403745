import Mathlib.Data.List.Induction
import Mathlib.Data.List.Infix
import Mathlib.Data.List.TakeWhile
import Mathlib.Logic.Function.Basic
import Mathlib.Tactic.Common

/-! Line editing: `readline` of lib/readline.c, on what `getchar` returns. -/

set_option autoImplicit false

namespace Jos

open Function

namespace Readline

def bufLen : Nat := 1024
def eEof : Int := 9
def backspace : Int := 8
def newline : Int := 10
def carriageReturn : Int := 13
def space : Int := 32
def delete : Int := 0x7f

/-- What is printed: the prompt, a character, or the message about an error of `getchar`. -/
inductive Output where
  | prompt (text : List (BitVec 8))
  | cputchar (c : Int)
  | readError (c : Int)
deriving DecidableEq, Repr

/-- The variables of `readline`, its static buffer, and what it has printed. -/
structure Reading where
  i : Nat
  buf : Nat → BitVec 8
  output : List Output

/-- How it ends: it still waits for a character, or returns NULL or the buffer. -/
inductive Ending where
  | waiting
  | null
  | line
deriving DecidableEq, Repr

/-- `buf[i] = c`, which is `none` outside the buffer. -/
def store (buf : Nat → BitVec 8) (i : Nat) (c : BitVec 8) : Option (Nat → BitVec 8) :=
  if i < bufLen then some (update buf i c) else none

def Reading.echo (s : Reading) (echoing : Bool) (c : Int) : List Output :=
  if echoing then s.output ++ [.cputchar c] else s.output

/-- The loop of `readline`, on the characters that `getchar` returns. -/
def readFrom (echoing : Bool) : List Int → Reading → Option (Reading × Ending)
  | [], s => some (s, .waiting)
  | c :: rest, s =>
    if c < 0 then
      some ({ s with output := if c ≠ -eEof then s.output ++ [.readError c] else s.output }, .null)
    else if (c = backspace ∨ c = delete) ∧ 0 < s.i then
      readFrom echoing rest { s with i := s.i - 1, output := s.echo echoing backspace }
    else if space ≤ c ∧ s.i < bufLen - 1 then
      (store s.buf s.i (BitVec.ofInt 8 c)).bind fun buf =>
        readFrom echoing rest { i := s.i + 1, buf := buf, output := s.echo echoing c }
    else if c = newline ∨ c = carriageReturn then
      (store s.buf s.i 0).map fun buf =>
        ({ s with buf := buf, output := s.echo echoing newline }, .line)
    else readFrom echoing rest s

def readline (prompt : Option (List (BitVec 8))) (echoing : Bool) (buf : Nat → BitVec 8)
    (input : List Int) : Option (Reading × Ending) :=
  readFrom echoing input ⟨0, buf, prompt.toList.map .prompt⟩

/-! The line as a list. -/

def edit (line : List Int) (c : Int) : List Int :=
  if c = backspace ∨ c = delete then line.dropLast
  else if space ≤ c ∧ line.length < bufLen - 1 then line ++ [c]
  else line

def echoOf (line : List Int) (c : Int) : List Output :=
  if c = backspace ∨ c = delete then if line = [] then [] else [.cputchar backspace]
  else if space ≤ c ∧ line.length < bufLen - 1 then [.cputchar c]
  else []

def echoes : List Int → List Int → List Output
  | _, [] => []
  | line, c :: rest => echoOf line c ++ echoes (edit line c) rest

def typed (c : Int) : Bool := decide (0 ≤ c ∧ c ≠ newline ∧ c ≠ carriageReturn)

def endingOf : Option Int → Ending
  | none => .waiting
  | some c => if c < 0 then .null else .line

def closing (echoing : Bool) : Option Int → List Output
  | none => []
  | some c =>
    if c < 0 then if c = -eEof then [] else [.readError c]
    else if echoing then [.cputchar newline] else []

structure Reading.Holds (s : Reading) (chars : List Int) : Prop where
  length : s.i = chars.length
  room : chars.length < bufLen
  bytes : ∀ k c, chars[k]? = some c → s.buf k = BitVec.ofInt 8 c

/-- A call of `readline` that edits the line: no store is outside the buffer, the edits are echoed,
and at the end of the line the buffer holds it, with a null character behind it. -/
def Edits (prompt : Option (List (BitVec 8))) (echoing : Bool) (buf : Nat → BitVec 8)
    (input : List Int) : Prop :=
  ∃ s ending, readline prompt echoing buf input = some (s, ending) ∧
    ending = endingOf (input.dropWhile typed).head? ∧
    s.output = prompt.toList.map .prompt ++
      (if echoing then echoes [] (input.takeWhile typed) else []) ++
      closing echoing (input.dropWhile typed).head? ∧
    (ending = .line → s.Holds ((input.takeWhile typed).foldl edit []) ∧ s.buf s.i = 0)

def NoStray : List Int → List Int → Prop
  | _, [] => True
  | line, c :: rest => (c = delete → line ≠ []) ∧ NoStray (edit line c) rest

/-- What the loop of `readline` does to the line, and what it prints for it. -/
def enter (line : List Int) (c : Int) : List Int :=
  if (c = backspace ∨ c = delete) ∧ line ≠ [] then line.dropLast
  else if space ≤ c ∧ line.length < bufLen - 1 then line ++ [c]
  else line

def printOf (line : List Int) (c : Int) : List Output :=
  if (c = backspace ∨ c = delete) ∧ line ≠ [] then [.cputchar backspace]
  else if space ≤ c ∧ line.length < bufLen - 1 then [.cputchar c]
  else []

def prints : List Int → List Int → List Output
  | _, [] => []
  | line, c :: rest => printOf line c ++ prints (enter line c) rest

/-- Up to some place all that was entered has been erased again, and no delete comes while the line
is empty from there on. -/
def Erased (chars : List Int) : Prop :=
  ∃ front back, chars = front ++ back ∧ front.foldl enter [] = [] ∧ NoStray [] back

section Reading

variable {echoing : Bool} {s : Reading} {line line' chars input rest : List Int} {c : Int}
  {buf : Nat → BitVec 8}

theorem typed_iff : typed c = true ↔ 0 ≤ c ∧ c ≠ newline ∧ c ≠ carriageReturn := decide_eq_true_iff

theorem readFrom_ignored (more : typed c = true) (kept : ¬((c = backspace ∨ c = delete) ∧ 0 < s.i))
    (full : ¬(space ≤ c ∧ s.i < bufLen - 1)) :
    readFrom echoing (c :: rest) s = readFrom echoing rest s := by
  obtain ⟨positive, first, second⟩ := typed_iff.mp more
  rw [readFrom, if_neg (Int.not_lt.mpr positive), if_neg kept, if_neg full,
    if_neg fun ends => ends.elim first second]

section

variable (holds : s.Holds line)

include holds

theorem Reading.Holds.erase {output : List Output} :
    Reading.Holds ⟨s.i - 1, s.buf, output⟩ line.dropLast where
  length := by rw [List.length_dropLast, holds.length]
  room := by
    rw [List.length_dropLast]
    exact Nat.lt_of_le_of_lt (Nat.sub_le _ _) holds.room
  bytes := fun k c found => holds.bytes k c <| by
    rw [List.getElem?_dropLast] at found
    by_cases inside : k < line.length - 1
    · rwa [if_pos inside] at found
    · rw [if_neg inside] at found
      cases found

theorem Reading.Holds.put (room : line.length < bufLen - 1) {output : List Output} :
    Reading.Holds ⟨s.i + 1, update s.buf s.i (BitVec.ofInt 8 c), output⟩ (line ++ [c]) where
  length := by
    rw [List.length_append, holds.length]
    rfl
  room := by
    rw [List.length_append]
    change line.length + 1 < bufLen
    omega
  bytes := fun k c' found => by
    have length := holds.length
    dsimp only
    by_cases last : k = line.length
    · rw [last, List.getElem?_concat_length] at found
      cases found
      rw [last, ← length, update_self]
    · have below : k < line.length := by
        have := (List.getElem?_eq_some_iff.mp found).1
        rw [List.length_append] at this
        change k < line.length + 1 at this
        omega
      rw [List.getElem?_append_left below] at found
      rw [update_of_ne (by omega)]
      exact holds.bytes k c' found

theorem Reading.Holds.round (more : typed c = true) : ∃ next : Reading, next.Holds (enter line c) ∧
      next.output = (if echoing then s.output ++ printOf line c else s.output) ∧
      readFrom echoing (c :: rest) s = readFrom echoing rest next := by
  have positive := Int.not_lt.mpr (typed_iff.mp more).1
  have length := holds.length
  have entered : 0 < s.i ↔ line ≠ [] := by
    rw [length]
    exact List.length_pos_iff
  unfold enter printOf
  by_cases erases : (c = backspace ∨ c = delete) ∧ line ≠ []
  · rw [if_pos erases, if_pos erases]
    refine ⟨_, holds.erase, rfl, ?_⟩
    rw [readFrom, if_neg positive, if_pos ⟨erases.1, entered.mpr erases.2⟩]
    rfl
  · rw [if_neg erases, if_neg erases]
    have kept : ¬((c = backspace ∨ c = delete) ∧ 0 < s.i) :=
      fun both => erases ⟨both.1, entered.mp both.2⟩
    by_cases room : space ≤ c ∧ line.length < bufLen - 1
    · have inside : s.i < bufLen := length ▸ holds.room
      rw [if_pos room, if_pos room]
      refine ⟨_, holds.put room.2, rfl, ?_⟩
      rw [readFrom, if_neg positive, if_neg kept, if_pos ⟨room.1, by omega⟩, store, if_pos inside]
      rfl
    · rw [if_neg room, if_neg room]
      refine ⟨s, holds, ?_, readFrom_ignored more kept fun both => ?_⟩
      · rw [List.append_nil, ite_self]
      · rw [length] at both
        exact room both

theorem Reading.Holds.last (ends : typed c = false) :
    ∃ final : Reading, readFrom echoing (c :: rest) s = some (final, endingOf (some c)) ∧
      final.output = s.output ++ closing echoing (some c) ∧
      (endingOf (some c) = .line → final.Holds line ∧ final.buf final.i = 0) := by
  unfold endingOf closing
  dsimp only
  by_cases negative : c < 0
  · rw [readFrom, if_pos negative, if_pos negative, if_pos negative]
    refine ⟨_, rfl, ?_, nofun⟩
    by_cases eof : c = -eEof
    · rw [if_neg (not_not.mpr eof), if_pos eof, List.append_nil]
    · rw [if_pos eof, if_neg eof]
  · have stops : c = newline ∨ c = carriageReturn := by
      by_contra other
      obtain ⟨first, second⟩ := not_or.mp other
      rw [typed_iff.mpr ⟨Int.not_lt.mp negative, first, second⟩] at ends
      cases ends
    have inside : s.i < bufLen := holds.length ▸ holds.room
    have kept : ¬((c = backspace ∨ c = delete) ∧ 0 < s.i) := by
      rintro ⟨erases, -⟩
      rcases stops with rfl | rfl <;> exact absurd erases (by decide)
    have low : ¬(space ≤ c ∧ s.i < bufLen - 1) := by
      rintro ⟨high, -⟩
      rcases stops with rfl | rfl <;> exact absurd high (by decide)
    rw [readFrom, if_neg negative, if_neg kept, if_neg low, if_pos stops, store, if_pos inside,
      if_neg negative, if_neg negative]
    refine ⟨_, rfl, ?_, fun _ => ⟨⟨holds.length, holds.room, fun k c' found => ?_⟩, update_self ..⟩⟩
    · unfold Reading.echo
      cases echoing with
      | false => exact (List.append_nil _).symm
      | true => rfl
    · have below := (List.getElem?_eq_some_iff.mp found).1
      have length := holds.length
      exact (update_of_ne (by omega) ..).trans (holds.bytes k c' found)

theorem Reading.Holds.run : ∃ final : Reading,
    readFrom echoing input s = some (final, endingOf (input.dropWhile typed).head?) ∧
      final.output = s.output ++ (if echoing then prints line (input.takeWhile typed) else []) ++
        closing echoing (input.dropWhile typed).head? ∧
      (endingOf (input.dropWhile typed).head? = .line →
        final.Holds ((input.takeWhile typed).foldl enter line) ∧ final.buf final.i = 0) := by
  induction input generalizing s line with
  | nil =>
    refine ⟨s, rfl, ?_, nofun⟩
    change s.output = s.output ++ (if echoing = true then [] else []) ++ []
    rw [ite_self, List.append_nil, List.append_nil]
  | cons c rest ih =>
    by_cases more : typed c = true
    · obtain ⟨next, holds', output, round⟩ := @Reading.Holds.round echoing s line rest c holds more
      obtain ⟨final, ran, printed, whole⟩ := ih holds'
      rw [List.takeWhile_cons_of_pos more, List.dropWhile_cons_of_pos more]
      refine ⟨final, round.trans ran, ?_, whole⟩
      rw [printed, output, prints]
      cases echoing with
      | false => rfl
      | true =>
        simp only [if_true]
        rw [List.append_assoc s.output]
    · rw [Bool.not_eq_true] at more
      have stop : ¬typed c = true := Bool.not_eq_true _ ▸ more
      rw [List.takeWhile_cons_of_neg stop, List.dropWhile_cons_of_neg stop]
      obtain ⟨final, ran, printed, whole⟩ := @Reading.Holds.last echoing s line rest c holds more
      refine ⟨final, ran, ?_, whole⟩
      rw [printed]
      change _ = s.output ++ (if echoing = true then [] else []) ++ _
      rw [ite_self, List.append_nil]
      rfl

/-! The line that is entered against the one that should be. -/

end

theorem enter_eq (there : c = delete → line ≠ []) : enter line c = edit line c := by
  unfold enter edit
  by_cases erases : c = backspace ∨ c = delete
  · rw [if_pos erases]
    by_cases empty : line = []
    · have low : ¬space ≤ c := by
        rcases erases with rfl | rfl
        · decide
        · exact absurd empty (there rfl)
      rw [if_neg fun both => both.2 empty, if_neg fun both => low both.1, empty]
      rfl
    · rw [if_pos ⟨erases, empty⟩]
  · rw [if_neg erases, if_neg fun both => erases both.1]

theorem printOf_eq (there : c = delete → line ≠ []) : printOf line c = echoOf line c := by
  unfold printOf echoOf
  by_cases erases : c = backspace ∨ c = delete
  · rw [if_pos erases]
    by_cases empty : line = []
    · have low : ¬space ≤ c := by
        rcases erases with rfl | rfl
        · decide
        · exact absurd empty (there rfl)
      rw [if_neg fun both => both.2 empty, if_neg fun both => low both.1, if_pos empty]
    · rw [if_pos ⟨erases, empty⟩, if_neg empty]
  · rw [if_neg erases, if_neg fun both => erases both.1]

theorem NoStray.enters (clean : NoStray line chars) : chars.foldl enter line = chars.foldl edit line := by
  induction chars generalizing line with
  | nil => rfl
  | cons c rest ih => rw [List.foldl_cons, List.foldl_cons, enter_eq clean.1, ih clean.2]

theorem NoStray.prints (clean : NoStray line chars) : prints line chars = echoes line chars := by
  induction chars generalizing line with
  | nil => rfl
  | cons c rest ih => rw [Readline.prints, echoes, printOf_eq clean.1, enter_eq clean.1, ih clean.2]

theorem NoStray.snoc (clean : NoStray line chars) (there : c = delete → chars.foldl edit line ≠ []) :
    NoStray line (chars ++ [c]) := by
  induction chars generalizing line with
  | nil => exact ⟨there, trivial⟩
  | cons c' rest ih => exact ⟨clean.1, ih clean.2 there⟩

theorem enter_stray : enter [] delete = [delete] ∧ printOf [] delete = [.cputchar delete] := by decide

theorem delete_printed (stray : ¬NoStray line chars) : .cputchar delete ∈ prints line chars := by
  induction chars generalizing line with
  | nil => exact absurd trivial stray
  | cons c rest ih =>
    by_cases there : c = delete → line ≠ []
    · refine List.mem_append_right _ (ih fun clean => stray ⟨there, ?_⟩)
      rwa [← enter_eq there]
    · obtain ⟨rfl, empty⟩ := Classical.not_imp.mp there
      obtain rfl := not_not.mp empty
      refine List.mem_append_left _ ?_
      rw [enter_stray.2]
      exact List.mem_singleton_self _

theorem delete_not_echoed : .cputchar delete ∉ echoes line chars := by
  induction chars generalizing line with
  | nil => exact List.not_mem_nil
  | cons c rest ih =>
    refine fun member => (List.mem_append.mp member).elim (fun here => ?_) ih
    unfold echoOf at here
    split at here
    · split at here
      · cases here
      · exact absurd (List.mem_singleton.mp here) (by decide)
    · rename_i kept
      split at here
      · have same : delete = c := (Output.cputchar.inj (List.mem_singleton.mp here))
        exact kept (.inr same.symm)
      · cases here

theorem enter_length (shorter : line'.length ≤ line.length) :
    (edit line' c).length ≤ (enter line c).length := by
  unfold edit enter
  by_cases erases : c = backspace ∨ c = delete
  · rw [if_pos erases, List.length_dropLast]
    by_cases empty : line = []
    · subst empty
      change line'.length ≤ 0 at shorter
      omega
    · rw [if_pos ⟨erases, empty⟩, List.length_dropLast]
      omega
  · have kept := not_and_of_not_left (line ≠ []) erases
    rw [if_neg erases, if_neg kept]
    split
    · rename_i short
      split
      · rw [List.length_append, List.length_append]
        exact Nat.add_le_add_right shorter 1
      · rename_i full
        have ended := not_and.mp full short.1
        rw [List.length_append]
        change line'.length + 1 ≤ line.length
        omega
    · split
      · rw [List.length_append]
        omega
      · exact shorter

theorem entered_length (shorter : line'.length ≤ line.length) :
    (chars.foldl edit line').length ≤ (chars.foldl enter line).length := by
  induction chars generalizing line line' with
  | nil => exact shorter
  | cons c rest ih => exact ih (enter_length shorter)

theorem Erased.enters (erased : Erased chars) : chars.foldl enter [] = chars.foldl edit [] := by
  obtain ⟨front, back, rfl, empty, clean⟩ := erased
  have shorter := @entered_length [] [] front (Nat.le_refl 0)
  rw [empty] at shorter
  rw [List.foldl_append, List.foldl_append, empty,
    List.eq_nil_of_length_eq_zero (Nat.le_zero.mp shorter), clean.enters]

theorem enter_front (front : line.head? = some delete) (some : enter line c ≠ []) :
    (enter line c).head? = Option.some delete := by
  obtain ⟨rest, rfl⟩ := List.head?_eq_some_iff.mp front
  unfold enter at some ⊢
  split
  · rename_i erases
    rw [if_pos erases] at some
    cases rest with
    | nil => exact absurd rfl some
    | cons c' rest => rfl
  · split <;> rfl

/-- Either the deletes that came while the line was empty have been erased, or one is in front. -/
theorem erased_or_front : Erased chars ∨ (chars.foldl enter []).head? = some delete := by
  induction chars using List.reverseRecOn with
  | nil => exact .inl ⟨[], [], rfl, rfl, trivial⟩
  | append_singleton chars c ih =>
    by_cases empty : (chars ++ [c]).foldl enter [] = []
    · exact .inl ⟨chars ++ [c], [], (List.append_nil _).symm, empty, trivial⟩
    rw [List.foldl_append, List.foldl_cons, List.foldl_nil] at empty ⊢
    rcases ih with ⟨front, back, rfl, nothing, clean⟩ | front
    · rw [List.foldl_append, nothing, clean.enters] at empty ⊢
      by_cases there : c = delete → back.foldl edit [] ≠ []
      · exact .inl ⟨front, back ++ [c], List.append_assoc .., nothing, clean.snoc there⟩
      · obtain ⟨rfl, gone⟩ := Classical.not_imp.mp there
        rw [not_not.mp gone, enter_stray.1]
        exact .inr rfl
    · exact .inr (enter_front front empty)

theorem edited (member : c ∈ chars.foldl edit []) : c ∈ chars ∧ space ≤ c ∧ c ≠ delete := by
  induction chars using List.reverseRecOn with
  | nil => cases member
  | append_singleton chars c' ih =>
    rw [List.foldl_append, List.foldl_cons, List.foldl_nil] at member
    have before (member : c ∈ chars.foldl edit []) :
        c ∈ chars ++ [c'] ∧ space ≤ c ∧ c ≠ delete :=
      ⟨List.mem_append_left _ (ih member).1, (ih member).2⟩
    unfold edit at member
    split at member
    · exact before (List.mem_of_mem_dropLast member)
    · rename_i kept
      split at member
      · rename_i room
        rcases List.mem_append.mp member with earlier | last
        · exact before earlier
        · obtain rfl := List.mem_singleton.mp last
          exact ⟨List.mem_append_right _ last, room.1, fun same => kept (.inr same)⟩
      · exact before member

/-- A buffer does not hold both the line that should be entered and one with a delete in front. -/
theorem Reading.Holds.no_front (small : ∀ c ∈ chars, c < 256) (holds : s.Holds (chars.foldl edit []))
    (entered : s.Holds line) : line.head? ≠ some delete := by
  intro front
  obtain ⟨rest, rfl⟩ := List.head?_eq_some_iff.mp front
  have first := entered.bytes 0 delete rfl
  have positive : 0 < (chars.foldl edit []).length := by
    rw [← holds.length, entered.length]
    exact Nat.succ_pos _
  have byte := holds.bytes 0 _ (List.getElem?_eq_getElem positive)
  obtain ⟨member, least, other⟩ := edited (List.getElem_mem positive)
  have most := small _ member
  have same := congrArg BitVec.toInt (first.symm.trans byte)
  rw [BitVec.toInt_ofInt, BitVec.toInt_ofInt] at same
  change Int.bmod 127 256 = Int.bmod _ 256 at same
  change (32 : Int) ≤ _ at least
  change _ ≠ (127 : Int) at other
  rw [Int.bmod_def, Int.bmod_def] at same
  split at same <;> split at same <;> omega

theorem start_holds {output : List Output} : Reading.Holds ⟨0, buf, output⟩ [] :=
  ⟨rfl, by decide, nofun⟩

/-- A line is edited as it should be exactly when no delete comes while it is empty. Without an echo
such a delete does no harm if no line is returned, or if it is erased again. `getchar` returns a byte
or an error. -/
theorem edits_line (prompt : Option (List (BitVec 8))) (echoing : Bool) (buf : Nat → BitVec 8)
    (input : List Int) (small : ∀ c ∈ input, c < 256) : Edits prompt echoing buf input ↔
      NoStray [] (input.takeWhile typed) ∨ echoing = false ∧
        (endingOf (input.dropWhile typed).head? ≠ .line ∨ Erased (input.takeWhile typed)) := by
  obtain ⟨final, ran, printed, whole⟩ := @Reading.Holds.run echoing _ _ input
    (@start_holds buf (prompt.toList.map .prompt))
  constructor
  · rintro ⟨s, ending, same, rfl, output, holds⟩
    cases same.symm.trans ran
    cases echoing with
    | true =>
      refine .inl (by_contra fun stray => ?_)
      rw [output, if_pos rfl, if_pos rfl] at printed
      have echoed := List.append_cancel_left (List.append_cancel_right printed)
      exact @delete_not_echoed [] _ (echoed ▸ delete_printed stray)
    | false =>
      refine .inr ⟨rfl, or_iff_not_imp_left.mpr fun line => ?_⟩
      have line := not_not.mp line
      have chars (c : Int) (member : c ∈ input.takeWhile typed) : c < 256 :=
        small c ((List.takeWhile_subset _) member)
      exact erased_or_front.resolve_right ((holds line).1.no_front chars (whole line).1)
  · rintro (clean | ⟨rfl, harmless⟩)
    · rw [clean.prints] at printed
      rw [clean.enters] at whole
      exact ⟨final, _, ran, rfl, printed, whole⟩
    · refine ⟨final, _, ran, rfl, printed, fun line => ?_⟩
      rw [← (harmless.resolve_left (not_not.mpr line)).enters]
      exact whole line

/-- The line "a", in which a second character has been deleted. -/
theorem edits_line_small : Edits none true (fun _ => 0) [97, 98, 0x7f, 8, 10] :=
  (edits_line none true (fun _ => 0) [97, 98, 0x7f, 8, 10] (by decide)).mpr
    (.inl ⟨nofun, nofun, fun _ => nofun, nofun, trivial⟩)

/-- A backspace at an empty line is ignored, a delete is not. -/
theorem stray_delete : ¬Edits none true (fun _ => 0) [0x7f, 10] ∧
    (readline none true (fun _ => 0) [0x7f, 10]).map (fun (s, _) => (s.buf 0, s.buf 1)) =
      some (0x7f, 0) := by
  refine ⟨fun edits => ?_, by decide⟩
  obtain ⟨final, ending, ran, -, printed, -⟩ := edits
  have runs : (readline none true (fun _ => 0) [0x7f, 10]).map (fun (s, _) => s.output) =
      some [.cputchar delete, .cputchar newline] := by decide
  rw [ran] at runs
  have output : final.output = [.cputchar delete, .cputchar newline] := Option.some.inj runs
  rw [output] at printed
  exact absurd printed (by decide)

end Reading

end Readline

end Jos
