import Jos.Shell.Token
import Mathlib.Data.List.Forall2

/-! The grammar of a command line: what the calls of `gettoken` report for any line, with the
reads and the stores of user/sh.c held to the bytes of the line. -/

set_option autoImplicit false

namespace Jos

namespace Sh

inductive Lexeme where
  | word (w : Text)
  | symbol (b : BitVec 8)
deriving DecidableEq, Repr

def flushed : Text → List Lexeme
  | [] => []
  | w => [.word w]

def lexemesAfter (run : Text) : Text → List Lexeme
  | [] => flushed run
  | b :: rest =>
    if b ∈ whitespace then flushed run ++ lexemesAfter [] rest
    else if b ∈ symbols then flushed run ++ .symbol b :: lexemesAfter [] rest
    else lexemesAfter (run ++ [b]) rest

/-- A line split into its maximal runs of other characters than white space and symbols, and
its symbols. -/
def lexemes (line : Text) : List Lexeme := lexemesAfter [] line

/-- "ls |a" -/
example : lexemes [0x6C, 0x73, 0x20, bar, 0x61] = [.word [0x6C, 0x73], .symbol bar, .word [0x61]] := by
  decide

/-- The bytes that the first loop of `_gettoken` passes; `none` says that it reads a byte
behind the memory. -/
def blanks : Text → Option Nat
  | [] => none
  | b :: rest => if b ∈ whitespace then (blanks rest).map (· + 1) else some 0

def wordLength : Text → Option Nat
  | [] => none
  | b :: rest =>
    if b = 0 ∨ b ∈ whitespace ++ symbols then some 0 else (wordLength rest).map (· + 1)

/-- `_gettoken` in a memory of just these bytes. -/
def gettokenWithin (buf : Text) (s : Nat) : Option Lexer := do
  let n ← blanks (buf.drop s)
  let buf := buf.take s ++ (List.replicate n 0 ++ buf.drop (s + n))
  let s := s + n
  let t ← buf[s]?
  if t = 0 then some ⟨buf, 0, none, none⟩
  else if t ∈ symbols then some ⟨buf.set s 0, t, some s, some (s + 1)⟩
  else
    let m ← wordLength (buf.drop s)
    some ⟨buf, wordToken, some s, some (s + m)⟩

/-- `gettoken(0, &t)` in such a memory. -/
def Lexer.gettokenWithin (lex : Lexer) : Option (BitVec 8 × Option Nat × Lexer) :=
  match lex.np2 with
  | none => some (lex.nc, lex.np1, { lex with nc := 0 })
  | some s => (Sh.gettokenWithin lex.buf s).map fun next => (lex.nc, lex.np1, next)

/-- What a number of calls return and store in `t`. -/
def Lexer.calls : Nat → Lexer → Option (List (BitVec 8 × Option Nat) × Lexer)
  | 0, lex => some ([], lex)
  | n + 1, lex => do
      let (c, t, lex) ← lex.gettokenWithin
      let (results, lex) ← lex.calls n
      some ((c, t) :: results, lex)

/-- `gettoken(s, 0)`, and then that many calls for a token. -/
def gettokens (line : Text) (n : Nat) : Option (List (BitVec 8 × Option Nat) × Lexer) := do
  let lex ← gettokenWithin (line ++ [0]) 0
  lex.calls n

def Reports (buf : Text) (result : BitVec 8 × Option Nat) : Option Lexeme → Prop
  | some (.word w) => result.1 = wordToken ∧ ∃ s, result.2 = some s ∧ Holds buf s w
  | some (.symbol b) => b ∈ symbols ∧ result.1 = b
  | none => result.1 = 0

def Wiped (b b' : BitVec 8) : Prop := b' = b ∨ b ∈ whitespace ++ symbols ∧ b' = 0

abbrev Overwrites : Text → Text → Prop := List.Forall₂ Wiped

/-- The lexemes of a line, up to the null byte, with blanks around them. -/
inductive Splits : Text → List Lexeme → Prop where
  | stop {gap rest : Text} : Blank gap → Splits (gap ++ 0 :: rest) []
  | symbol {gap line : Text} {b : BitVec 8} {more : List Lexeme} : Blank gap → b ∈ symbols →
      Splits line more → Splits (gap ++ b :: line) (.symbol b :: more)
  | word {gap w line : Text} {more : List Lexeme} : Blank gap → IsWord w → Ends line →
      Splits line more → Splits (gap ++ (w ++ line)) (.word w :: more)

section
variable {line rest run : Text} {b : BitVec 8} {more : List Lexeme}

theorem Splits.blank (white : b ∈ whitespace) (splits : Splits line more) :
    Splits (b :: line) more := by
  have wider {gap : Text} (blank : Blank gap) : Blank (b :: gap) := by
    intro c inside
    rcases List.mem_cons.mp inside with rfl | old
    · exact white
    · exact blank c old
  cases splits with
  | stop blank => exact .stop (wider blank)
  | symbol blank isSymbol splits => exact .symbol (wider blank) isSymbol splits
  | word blank isWord ends splits => exact .word (wider blank) isWord ends splits

theorem Splits.before (bytes : ∀ c ∈ run, WordByte c) (ends : Ends line)
    (splits : Splits line more) : Splits (run ++ line) (flushed run ++ more) := by
  cases run with
  | nil => exact splits
  | cons c run => exact @Splits.word [] (c :: run) line more nofun ⟨List.cons_ne_nil _ _, bytes⟩ ends splits

theorem splits_after (clean : (0 : BitVec 8) ∉ line) (bytes : ∀ c ∈ run, WordByte c) :
    Splits (run ++ (line ++ [0])) (lexemesAfter run line) := by
  induction line generalizing run with
  | nil =>
    have stops : Ends ([] ++ [0]) := ⟨0, [], rfl, by decide⟩
    have stop : Splits ([] ++ [0]) [] := @Splits.stop [] [] nofun
    have whole := stop.before bytes stops
    rw [List.append_nil] at whole
    exact whole
  | cons b rest ih =>
    rw [List.mem_cons, not_or] at clean
    have later := @ih [] clean.2 nofun
    have delimits (inside : b ∈ whitespace ++ symbols) : Ends (b :: rest ++ [0]) :=
      ⟨b, rest ++ [0], rfl, fun word => word.2 inside⟩
    unfold lexemesAfter
    split
    · rename_i white
      exact (later.blank white).before bytes (delimits (List.mem_append_left _ white))
    · rename_i black
      split
      · rename_i isSymbol
        have next : Splits (b :: (rest ++ [0])) (.symbol b :: lexemesAfter [] rest) :=
          @Splits.symbol [] _ b _ nofun isSymbol later
        exact next.before bytes (delimits (List.mem_append_right _ isSymbol))
      · rename_i noSymbol
        have byte : WordByte b := by
          refine ⟨fun zero => clean.1 zero.symm, fun inside => ?_⟩
          rcases List.mem_append.mp inside with white | isSymbol
          · exact black white
          · exact noSymbol isSymbol
        have longer := @ih (run ++ [b]) clean.2 fun c inside => by
          rcases List.mem_append.mp inside with old | new
          · exact bytes c old
          · rw [List.mem_singleton.mp new]
            exact byte
        rw [List.append_assoc] at longer
        exact longer

/-- `lexemes` finds what the line is made of. -/
theorem splits_lexemes (clean : (0 : BitVec 8) ∉ line) : Splits (line ++ [0]) (lexemes line) :=
  @splits_after line [] clean nofun

end

section
variable {buf line rest : Text}

theorem blanks_eq (terminated : (0 : BitVec 8) ∈ buf) :
    blanks buf = some (buf.takeWhile fun b => b ∈ whitespace).length := by
  induction buf with
  | nil => exact absurd terminated List.not_mem_nil
  | cons b buf ih =>
    unfold blanks
    by_cases white : b ∈ whitespace
    · have later : (0 : BitVec 8) ∈ buf := by
        rcases List.mem_cons.mp terminated with rfl | later
        · exact absurd white (by decide)
        · exact later
      rw [if_pos white, ih later]
      simp [white]
    · rw [if_neg white]
      simp [white]

theorem wordLength_eq (terminated : (0 : BitVec 8) ∈ buf) :
    wordLength buf =
      some (buf.takeWhile fun b => b ≠ 0 ∧ b ∉ whitespace ++ symbols).length := by
  induction buf with
  | nil => exact absurd terminated List.not_mem_nil
  | cons b buf ih =>
    unfold wordLength
    by_cases ends : b = 0 ∨ b ∈ whitespace ++ symbols
    · have stops : ¬ (b ≠ 0 ∧ b ∉ whitespace ++ symbols) := fun word =>
        ends.elim word.1 word.2
      rw [if_pos ends, List.takeWhile_cons_of_neg (by simpa using stops)]
      rfl
    · have word : b ≠ 0 ∧ b ∉ whitespace ++ symbols := not_or.mp ends
      have later : (0 : BitVec 8) ∈ buf := by
        rcases List.mem_cons.mp terminated with rfl | later
        · exact absurd rfl word.1
        · exact later
      rw [if_neg ends, ih later, List.takeWhile_cons_of_pos (by simpa using word)]
      rfl

theorem drop_takeWhile (p : BitVec 8 → Bool) (text : Text) :
    text.drop (text.takeWhile p).length = text.dropWhile p :=
  (congrArg (List.drop _) List.takeWhile_append_dropWhile.symm).trans (List.drop_left' rfl)

theorem terminated_after {s : Nat} (terminated : (0 : BitVec 8) ∈ buf.drop s) :
    (0 : BitVec 8) ∈ buf.drop (s + ((buf.drop s).takeWhile fun b => b ∈ whitespace).length) := by
  rw [← List.drop_drop]
  generalize buf.drop s = text at terminated
  rw [drop_takeWhile]
  rw [← List.takeWhile_append_dropWhile (p := fun b => decide (b ∈ whitespace)) (l := text)]
    at terminated
  rcases List.mem_append.mp terminated with inside | behind
  · exact absurd (List.mem_takeWhile_imp inside) (by decide)
  · exact behind

/-- `_gettoken` reads no byte behind the null byte of its string. -/
theorem gettokenWithin_eq {s : Nat} (terminated : (0 : BitVec 8) ∈ buf.drop s) :
    gettokenWithin buf s = some (gettokenAt buf s) := by
  have behind := terminated_after terminated
  have passed := blanks_eq terminated
  unfold gettokenWithin gettokenAt
  rw [passed]
  generalize ((buf.drop s).takeWhile fun b => b ∈ whitespace).length = n at behind
  have within : s ≤ buf.length := by
    by_contra outside
    rw [List.drop_eq_nil_of_le (by omega)] at terminated
    exact List.not_mem_nil terminated
  have prefixed : (buf.take s ++ List.replicate n (0 : BitVec 8)).length = s + n := by
    rw [List.length_append, List.length_replicate, List.length_take, min_eq_left within]
  have unread : (buf.take s ++ (List.replicate n 0 ++ buf.drop (s + n))).drop (s + n) =
      buf.drop (s + n) := by
    rw [← List.append_assoc, List.drop_left' prefixed]
  generalize written : buf.take s ++ (List.replicate n 0 ++ buf.drop (s + n)) = buf' at unread
  rw [← unread] at behind
  have first : buf'[s + n]? = some (buf'.getD (s + n) 0) := by
    have inside : s + n < buf'.length := by
      by_contra outside
      rw [List.drop_eq_nil_of_le (by omega)] at behind
      exact List.not_mem_nil behind
    rw [List.getD_eq_getElem?_getD, List.getElem?_eq_getElem inside, Option.getD_some]
  simp only [Option.bind_eq_bind, Option.bind_some, written, first]
  split
  · rfl
  · split
    · rfl
    · rw [wordLength_eq behind]
      rfl

end

section
variable {buf buf' buf'' : Text}

theorem Overwrites.refl (buf : Text) : Overwrites buf buf :=
  List.forall₂_same.mpr fun _ _ => .inl rfl

theorem Overwrites.trans (first : Overwrites buf buf') (second : Overwrites buf' buf'') :
    Overwrites buf buf'' := by
  induction first generalizing buf'' with
  | nil => exact second
  | cons wiped rest ih =>
    cases second with
    | cons wiped' rest' =>
      refine .cons ?_ (ih rest')
      rcases wiped with rfl | ⟨delimits, rfl⟩
      · exact wiped'
      · rcases wiped' with rfl | ⟨inside, rfl⟩
        · exact .inr ⟨delimits, rfl⟩
        · exact .inr ⟨delimits, rfl⟩

theorem Overwrites.blank {gap : Text} (blank : ∀ b ∈ gap, b ∈ whitespace) :
    Overwrites gap (List.replicate gap.length 0) := by
  induction gap with
  | nil => exact .nil
  | cons b gap ih =>
    exact .cons (.inr ⟨List.mem_append_left _ (blank b List.mem_cons_self), rfl⟩)
      (ih fun c inside => blank c (List.mem_cons_of_mem _ inside))

theorem Overwrites.set {b : BitVec 8} {s : Nat} (here : buf.getD s 0 = b)
    (delimits : b ∈ whitespace ++ symbols) : Overwrites buf (buf.set s 0) := by
  induction buf generalizing s with
  | nil => exact .nil
  | cons c buf ih =>
    cases s with
    | zero => exact .cons (.inr ⟨by rw [← here] at delimits; exact delimits, rfl⟩) (Overwrites.refl buf)
    | succ s => exact .cons (.inl rfl) (ih here)

/-- `_gettoken` overwrites delimiters, whatever the line. -/
theorem gettokenAt_overwrites (buf : Text) (s : Nat) : Overwrites buf (gettokenAt buf s).buf := by
  have zeroed : Overwrites buf (buf.take s ++
      (List.replicate ((buf.drop s).takeWhile fun b => b ∈ whitespace).length 0 ++
        buf.drop (s + ((buf.drop s).takeWhile fun b => b ∈ whitespace).length))) := by
    have whole := List.takeWhile_append_dropWhile (p := fun b => decide (b ∈ whitespace))
      (l := buf.drop s)
    have behind : buf.drop (s + ((buf.drop s).takeWhile fun b => b ∈ whitespace).length) =
        (buf.drop s).dropWhile fun b => b ∈ whitespace := by
      rw [← List.drop_drop]
      exact drop_takeWhile _ _
    rw [behind]
    conv_lhs => rw [← List.take_append_drop s buf, ← whole]
    refine List.rel_append (Overwrites.refl _)
      (List.rel_append (Overwrites.blank fun b inside => ?_) (Overwrites.refl _))
    exact of_decide_eq_true
      (List.mem_takeWhile_imp (p := fun b => decide (b ∈ whitespace)) inside)
  unfold gettokenAt
  simp only
  split
  · exact zeroed
  · split
    · rename_i isSymbol
      exact zeroed.trans (Overwrites.set rfl (List.mem_append_right _ isSymbol))
    · exact zeroed

theorem Lexer.gettoken_overwrites (lex : Lexer) : Overwrites lex.buf lex.gettoken.2.2.buf := by
  unfold gettoken
  split
  · exact Overwrites.refl _
  · exact gettokenAt_overwrites _ _

end

/-- The next lexeme is known, the line before it is final and holds the words read. -/
def Lexer.Reads (lex : Lexer) (read : List (Nat × Text)) : List Lexeme → Prop
  | [] => lex.nc = 0 ∧ lex.np2 = none ∧ ∀ x ∈ read, Holds lex.buf x.1 x.2
  | .symbol b :: more => b ∈ symbols ∧ lex.nc = b ∧ ∃ before line, lex.buf = before ++ line ∧
      lex.np2 = some before.length ∧ Splits line more ∧ ∀ x ∈ read, Holds before x.1 x.2
  | .word w :: more => lex.nc = wordToken ∧ ∃ before line, lex.buf = before ++ (w ++ line) ∧
      lex.np1 = some before.length ∧ lex.np2 = some (before ++ w).length ∧ IsWord w ∧ Ends line ∧
      Splits line more ∧ ∀ x ∈ read, Holds before x.1 x.2

section
variable {before line : Text} {more : List Lexeme} {read : List (Nat × Text)}

/-- What `_gettoken` makes of a line, beside the words read before it. -/
theorem Splits.reads (splits : Splits line more)
    (kept : ∀ zeros, (Ends line → ∃ more, zeros = 0 :: more) →
      ∀ x ∈ read, Holds (before ++ zeros) x.1 x.2) :
    (gettokenAt (before ++ line) before.length).Reads read more := by
  cases splits with
  | @stop gap rest blank =>
    rw [gettokenAt_stop blank]
    refine ⟨rfl, rfl, fun x inside => ?_⟩
    rw [List.append_assoc]
    exact kept _ (fun _ => zeros_end gap fun _ => ⟨rest, rfl⟩) x inside
  | @symbol gap line b more blank isSymbol splits =>
    rw [gettokenAt_symbol blank isSymbol]
    exact ⟨isSymbol, rfl, _, line, rfl, rfl, splits,
      kept _ fun _ => zeros_end gap fun _ => ⟨[], rfl⟩⟩
  | @word gap w line more blank isWord ends splits =>
    rw [gettokenAt_word blank isWord ends]
    refine ⟨rfl, before ++ List.replicate gap.length 0, line, rfl, rfl, rfl, isWord, ends, splits,
      fun x inside => kept _ (fun separated => ?_) x inside⟩
    cases gap with
    | nil => exact absurd separated (isWord.not_ends line)
    | cons c gap => exact ⟨_, rfl⟩

theorem Splits.terminated (splits : Splits line more) : (0 : BitVec 8) ∈ line := by
  induction splits with
  | stop => exact List.mem_append_right _ List.mem_cons_self
  | symbol _ _ _ ih => exact List.mem_append_right _ (List.mem_cons_of_mem _ ih)
  | word _ _ _ _ ih => exact List.mem_append_right _ (List.mem_append_right _ ih)

end

namespace Lexer

variable {lex : Lexer} {w : Text} {b : BitVec 8} {more : List Lexeme} {read : List (Nat × Text)}

theorem Reads.stop (reads : lex.Reads read []) :
    lex.gettoken.1 = 0 ∧ lex.gettoken.2.2.Reads read [] := by
  obtain ⟨code, noMore, held⟩ := reads
  simp only [gettoken, noMore]
  exact ⟨code, rfl, rfl, held⟩

theorem Reads.symbol (reads : lex.Reads read (.symbol b :: more)) :
    b ∈ symbols ∧ lex.gettoken.1 = b ∧ lex.gettoken.2.2.Reads read more := by
  obtain ⟨isSymbol, code, before, line, same, np2, splits, held⟩ := reads
  simp only [gettoken, np2, same]
  exact ⟨isSymbol, code, splits.reads fun zeros _ x inside => (held x inside).append⟩

theorem Reads.word (reads : lex.Reads read (.word w :: more)) :
    ∃ s, lex.gettoken.1 = wordToken ∧ lex.gettoken.2.1 = some s ∧
      lex.gettoken.2.2.Reads (read ++ [(s, w)]) more := by
  obtain ⟨code, before, line, same, np1, np2, isWord, ends, splits, held⟩ := reads
  simp only [gettoken, np2, same]
  refine ⟨before.length, code, np1, ?_⟩
  rw [← List.append_assoc]
  exact splits.reads fun zeros separated => Holds.appended held isWord (separated ends)

section

variable (reads : lex.Reads read more)

include reads

theorem Reads.holds {x : Nat × Text} (inside : x ∈ read) : Holds lex.buf x.1 x.2 := by
  match more, reads with
  | [], ⟨_, _, held⟩ => exact held x inside
  | .symbol _ :: more, ⟨_, _, before, line, same, _, _, held⟩ =>
    rw [same]
    exact (held x inside).append
  | .word w :: more, ⟨_, before, line, same, _, _, _, _, _, held⟩ =>
    rw [same]
    exact (held x inside).append

theorem Reads.within : lex.gettokenWithin = some lex.gettoken := by
  have step {s : Nat} (np2 : lex.np2 = some s) (terminated : (0 : BitVec 8) ∈ lex.buf.drop s) :
      lex.gettokenWithin = some lex.gettoken := by
    simp only [gettokenWithin, gettoken, np2, gettokenWithin_eq terminated, Option.map_some]
  rcases more with _ | ⟨_ | _, more⟩
  · simp only [gettokenWithin, gettoken, reads.2.1]
  · obtain ⟨_, before, line, same, _, np2, _, _, splits, _⟩ := reads
    refine step np2 ?_
    rw [same, ← List.append_assoc, List.drop_left]
    exact splits.terminated
  · obtain ⟨_, _, before, line, same, np2, splits, _⟩ := reads
    refine step np2 ?_
    rw [same, List.drop_left]
    exact splits.terminated

theorem Reads.step : ∃ new, lex.gettoken.2.2.Reads (read ++ new) more.tail ∧
      ∀ buf, (∀ x ∈ read ++ new, Holds buf x.1 x.2) →
        Reports buf (lex.gettoken.1, lex.gettoken.2.1) more.head? := by
  match more, reads with
  | [], reads =>
    refine ⟨[], ?_, fun buf held => reads.stop.1⟩
    rw [List.append_nil]
    exact reads.stop.2
  | .symbol b :: more, reads =>
    obtain ⟨isSymbol, code, next⟩ := reads.symbol
    refine ⟨[], ?_, fun buf held => ⟨isSymbol, code⟩⟩
    rw [List.append_nil]
    exact next
  | .word w :: more, reads =>
    obtain ⟨s, code, pointer, next⟩ := reads.word
    exact ⟨[(s, w)], next, fun buf held =>
      ⟨code, s, pointer, held (s, w) (List.mem_append_right _ (List.mem_singleton_self _))⟩⟩

theorem Reads.calls (n : Nat) :
    ∃ results lex', lex.calls n = some (results, lex') ∧ results.length = n ∧
      (∀ x ∈ read, Holds lex'.buf x.1 x.2) ∧
      (∀ (i : Nat) result, results[i]? = some result → Reports lex'.buf result more[i]?) ∧
      Overwrites lex.buf lex'.buf := by
  induction n generalizing lex read more with
  | zero => exact ⟨[], lex, rfl, rfl, fun x inside => reads.holds inside, nofun, .refl _⟩
  | succ n ih =>
    obtain ⟨new, next, reported⟩ := reads.step
    obtain ⟨results, lex', ran, count, held, later, overwrites⟩ := ih next
    refine ⟨(lex.gettoken.1, lex.gettoken.2.1) :: results, lex', ?_, congrArg (· + 1) count,
      fun x inside => held x (List.mem_append_left _ inside), fun i result here => ?_,
      lex.gettoken_overwrites.trans overwrites⟩
    · simp only [Lexer.calls, reads.within, ran, Option.bind_eq_bind, Option.bind_some]
    · cases i with
      | zero =>
        cases here
        rw [← List.head?_eq_getElem?]
        exact reported lex'.buf held
      | succ i =>
        have rest := later i result here
        rw [List.getElem?_tail] at rest
        exact rest

end

end Lexer

theorem reads_line {line : Text} (clean : (0 : BitVec 8) ∉ line) :
    (gettokenAt (line ++ [0]) 0).Reads [] (lexemes line) := by
  have reads := @Splits.reads [] (line ++ [0]) (lexemes line) [] (splits_lexemes clean)
    fun _ _ _ inside => nomatch inside
  rwa [List.nil_append, List.length_nil] at reads

/-- The calls of `gettoken` report the lexemes of any line and then its end. The words are
there from then on, and nothing outside the line is read. -/
theorem gettoken_splits (line : Text) (clean : (0 : BitVec 8) ∉ line) (n : Nat) :
    ∃ results lex, gettokens line n = some (results, lex) ∧ results.length = n ∧
      (∀ (i : Nat) result, results[i]? = some result →
        Reports lex.buf result (lexemes line)[i]?) ∧
      Overwrites (line ++ [0]) lex.buf := by
  obtain ⟨results, lex, ran, count, -, reports, overwrites⟩ := (reads_line clean).calls n
  refine ⟨results, lex, ?_, count, reports, (gettokenAt_overwrites _ _).trans overwrites⟩
  have start := gettokenWithin_eq (s := 0) (splits_lexemes clean).terminated
  simp only [gettokens, start, Option.bind_eq_bind, Option.bind_some, ran]

/-- "ls|a" -/
theorem gettoken_splits_bar : ∃ results lex, gettokens [0x6C, 0x73, bar, 0x61] 5 = some (results, lex) ∧
    results.length = 5 ∧ (∀ (i : Nat) result, results[i]? = some result →
      Reports lex.buf result (lexemes [0x6C, 0x73, bar, 0x61])[i]?) ∧
    Overwrites ([0x6C, 0x73, bar, 0x61] ++ [0]) lex.buf :=
  gettoken_splits [0x6C, 0x73, bar, 0x61] (by decide) 5

end Sh

end Jos
