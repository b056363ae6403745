import Mathlib.Data.List.TakeWhile

/-! The tokens of a command line: `gettoken` of user/sh.c ends the words in the line
itself, and reads one token ahead. -/

set_option autoImplicit false

namespace Jos

namespace Sh

abbrev Text := List (BitVec 8)

instance lawful_byte : LawfulBEq (BitVec 8) := inferInstance

def whitespace : Text := [0x20, 0x09, 0x0D, 0x0A]

def less : BitVec 8 := 0x3C
def greater : BitVec 8 := 0x3E
def bar : BitVec 8 := 0x7C

def symbols : Text := [less, bar, greater, 0x26, 0x3B, 0x28, 0x29]

def wordToken : BitVec 8 := 0x77

def cString (buf : Text) (s : Nat) : Text := (buf.drop s).takeWhile fun b => b ≠ 0

/-- The line and the static variables of `gettoken`. -/
structure Lexer where
  buf : Text
  nc : BitVec 8
  np1 : Option Nat
  np2 : Option Nat
deriving DecidableEq, Repr

/-- `_gettoken` of an address in the line -/
def gettokenAt (buf : Text) (s : Nat) : Lexer :=
  let n := ((buf.drop s).takeWhile fun b => b ∈ whitespace).length
  let buf := buf.take s ++ (List.replicate n 0 ++ buf.drop (s + n))
  let s := s + n
  let t := buf.getD s 0
  if t = 0 then ⟨buf, 0, none, none⟩
  else if t ∈ symbols then ⟨buf.set s 0, t, some s, some (s + 1)⟩
  else
    let m := ((buf.drop s).takeWhile fun b => b ≠ 0 ∧ b ∉ whitespace ++ symbols).length
    ⟨buf, wordToken, some s, some (s + m)⟩

/-- `gettoken(0, &t)`: the token, the address in `t`, and what it leaves. At the end of
the line `_gettoken` gets a null pointer. -/
def Lexer.gettoken (lex : Lexer) : BitVec 8 × Option Nat × Lexer :=
  match lex.np2 with
  | none => (lex.nc, lex.np1, { lex with nc := 0 })
  | some s => (lex.nc, lex.np1, gettokenAt lex.buf s)

inductive Token where
  | word (w : Text)
  | bar
deriving DecidableEq, Repr

def WordByte (b : BitVec 8) : Prop := b ≠ 0 ∧ b ∉ whitespace ++ symbols

instance (b : BitVec 8) : Decidable (WordByte b) := inferInstanceAs (Decidable (_ ∧ _))

def IsWord (w : Text) : Prop := w ≠ [] ∧ ∀ b ∈ w, WordByte b

def Ends (line : Text) : Prop := ∃ b rest, line = b :: rest ∧ ¬ WordByte b

def Blank (gap : Text) : Prop := ∀ b ∈ gap, b ∈ whitespace

/-- The line, up to a null byte, consists of these tokens with blanks around them. -/
inductive Spells : Text → List Token → Prop where
  | stop {gap rest : Text} : Blank gap → Spells (gap ++ 0 :: rest) []
  | bar {gap line : Text} {tokens : List Token} : Blank gap → Spells line tokens →
      Spells (gap ++ bar :: line) (.bar :: tokens)
  | word {gap w line : Text} {tokens : List Token} : Blank gap → IsWord w → Ends line →
      Spells line tokens → Spells (gap ++ (w ++ line)) (.word w :: tokens)

def Holds (buf : Text) (s : Nat) (w : Text) : Prop :=
  IsWord w ∧ ∃ before after, buf = before ++ (w ++ 0 :: after) ∧ before.length = s

theorem Holds.append {buf more w : Text} {s : Nat} (holds : Holds buf s w) :
    Holds (buf ++ more) s w := by
  obtain ⟨word, before, after, rfl, here⟩ := holds
  exact ⟨word, before, after ++ more, by simp, here⟩

theorem Holds.appended {before w zeros : Text} {read : List (Nat × Text)}
    (held : ∀ x ∈ read, Holds before x.1 x.2) (isWord : IsWord w)
    (separated : ∃ more, zeros = 0 :: more) :
    ∀ x ∈ read ++ [(before.length, w)], Holds ((before ++ w) ++ zeros) x.1 x.2 := by
  intro x inside
  rcases List.mem_append.mp inside with old | new
  · rw [List.append_assoc]
    exact (held x old).append
  · obtain rfl := List.mem_singleton.mp new
    obtain ⟨more, rfl⟩ := separated
    exact ⟨isWord, before, more, List.append_assoc _ _ _, rfl⟩

theorem takeWhile_eq {gap rest : Text} {p : BitVec 8 → Bool} (all : ∀ b ∈ gap, p b = true)
    (stops : ∀ b tail, rest = b :: tail → p b = false) : (gap ++ rest).takeWhile p = gap := by
  rw [List.takeWhile_append_of_pos all]
  cases rest with
  | nil => simp
  | cons b tail => simp [stops b tail rfl]

theorem Holds.cString {buf w : Text} {s : Nat} (holds : Holds buf s w) : cString buf s = w := by
  obtain ⟨word, before, after, rfl, rfl⟩ := holds
  rw [Sh.cString, List.drop_left']
  · refine takeWhile_eq (fun b inside => by simpa using (word.2 b inside).1) ?_
    rintro b tail same
    obtain ⟨rfl, -⟩ := List.cons.inj same
    simp
  · rfl

/-- The token ahead is known, the line before it is final and holds the words read. -/
def Lexer.Ahead (lex : Lexer) (read : List (Nat × Text)) : List Token → Prop
  | [] => lex.nc = 0 ∧ lex.np2 = none ∧ ∀ x ∈ read, Holds lex.buf x.1 x.2
  | .bar :: tokens => lex.nc = Sh.bar ∧ ∃ before line, lex.buf = before ++ line ∧
      lex.np2 = some before.length ∧ Spells line tokens ∧ ∀ x ∈ read, Holds before x.1 x.2
  | .word w :: tokens => lex.nc = wordToken ∧ ∃ before line, lex.buf = before ++ (w ++ line) ∧
      lex.np1 = some before.length ∧ lex.np2 = some (before ++ w).length ∧ IsWord w ∧ Ends line ∧
      Spells line tokens ∧ ∀ x ∈ read, Holds before x.1 x.2

theorem IsWord.not_ends {w : Text} (isWord : IsWord w) (line : Text) : ¬ Ends (w ++ line) := by
  intro ⟨c, rest, same, stops⟩
  obtain ⟨b, w, rfl⟩ := List.exists_cons_of_ne_nil isWord.1
  obtain ⟨rfl, -⟩ := List.cons.inj same
  exact stops (isWord.2 b List.mem_cons_self)

section
variable {before gap rest w line : Text} {tokens : List Token} {read : List (Nat × Text)}

theorem gettokenAt_blank (blank : Blank gap) {b : BitVec 8} (stops : b ∉ whitespace) :
    gettokenAt (before ++ (gap ++ b :: rest)) before.length =
      let zeros := before ++ List.replicate gap.length 0
      if b = 0 then ⟨zeros ++ b :: rest, 0, none, none⟩
      else if b ∈ symbols then
        ⟨zeros ++ 0 :: rest, b, some zeros.length, some (zeros.length + 1)⟩
      else
        ⟨zeros ++ b :: rest, wordToken, some zeros.length, some (zeros.length +
          ((b :: rest).takeWhile fun b => b ≠ 0 ∧ b ∉ whitespace ++ symbols).length)⟩ := by
  have skipped : ((before ++ (gap ++ b :: rest)).drop before.length).takeWhile
      (fun b => decide (b ∈ whitespace)) = gap := by
    rw [List.drop_left']
    · refine takeWhile_eq (fun c inside => by simpa using blank c inside) ?_
      rintro c tail same
      obtain ⟨rfl, -⟩ := List.cons.inj same
      simpa using stops
    · rfl
  have after : (before ++ (gap ++ b :: rest)).drop (before.length + gap.length) = b :: rest := by
    rw [← List.append_assoc, List.drop_left' List.length_append]
  have size : before.length + gap.length =
      (before ++ List.replicate gap.length (0 : BitVec 8)).length := by simp
  unfold gettokenAt
  simp only [skipped, after]
  rw [List.take_left' rfl, ← List.append_assoc, size]
  generalize before ++ List.replicate gap.length (0 : BitVec 8) = zeros
  have first : (zeros ++ b :: rest).getD zeros.length 0 = b := by simp
  simp only [first, Nat.sub_self, List.set_append_right _ _ le_rfl, List.set_cons_zero, List.drop_left']

theorem gettokenAt_stop (blank : Blank gap) :
    gettokenAt (before ++ (gap ++ 0 :: rest)) before.length =
      ⟨before ++ List.replicate gap.length 0 ++ 0 :: rest, 0, none, none⟩ := by
  rw [gettokenAt_blank blank (by decide), if_pos rfl]

theorem gettokenAt_symbol (blank : Blank gap) {b : BitVec 8} (isSymbol : b ∈ symbols) :
    gettokenAt (before ++ (gap ++ b :: rest)) before.length =
      ⟨before ++ (List.replicate gap.length 0 ++ [0]) ++ rest, b,
        some (before ++ List.replicate gap.length (0 : BitVec 8)).length,
        some (before ++ (List.replicate gap.length (0 : BitVec 8) ++ [0])).length⟩ := by
  have outside : ∀ b ∈ symbols, b ∉ whitespace ∧ b ≠ 0 := by decide
  obtain ⟨black, nonzero⟩ := outside b isSymbol
  rw [gettokenAt_blank blank black, if_neg nonzero, if_pos isSymbol]
  simp [Nat.add_assoc]

theorem gettokenAt_word (blank : Blank gap) (isWord : IsWord w) (ends : Ends line) :
    gettokenAt (before ++ (gap ++ (w ++ line))) before.length =
      ⟨before ++ List.replicate gap.length 0 ++ (w ++ line), wordToken,
        some (before ++ List.replicate gap.length (0 : BitVec 8)).length,
        some (before ++ List.replicate gap.length (0 : BitVec 8) ++ w).length⟩ := by
  obtain ⟨b, w, rfl⟩ := List.exists_cons_of_ne_nil isWord.1
  have first := isWord.2 b List.mem_cons_self
  have outside := first.2
  rw [List.mem_append, not_or] at outside
  have whole : ((b :: (w ++ line)).takeWhile fun b =>
      decide (b ≠ 0 ∧ b ∉ whitespace ++ symbols)) = b :: w := by
    rw [← List.cons_append]
    refine takeWhile_eq (fun c inside => decide_eq_true (isWord.2 c inside)) ?_
    obtain ⟨c, rest, rfl, stops⟩ := ends
    rintro c' tail same
    obtain ⟨rfl, -⟩ := List.cons.inj same
    exact decide_eq_false stops
  rw [List.cons_append, gettokenAt_blank blank outside.1]
  simp only [if_neg first.1, if_neg outside.2, whole]
  rw [@List.length_append _ (before ++ _)]

/-- Blanks that become null bytes end what stands in front of them; without blanks, the
next byte does. -/
theorem zeros_end {zeros : Text} (gap : Text) (more : gap = [] → ∃ rest, zeros = 0 :: rest) :
    ∃ rest, List.replicate gap.length (0 : BitVec 8) ++ zeros = 0 :: rest := by
  cases gap with
  | nil => exact more rfl
  | cons c gap => exact ⟨_, rfl⟩

/-- What `_gettoken` makes of a line. The words read before it stay, also one that ends
where the line begins, which is where its null byte comes. -/
theorem Spells.ahead (spells : Spells line tokens)
    (kept : ∀ zeros, (Ends line → ∃ more, zeros = 0 :: more) →
      ∀ x ∈ read, Holds (before ++ zeros) x.1 x.2) :
    (gettokenAt (before ++ line) before.length).Ahead read tokens := by
  cases spells with
  | @stop gap rest blank =>
    rw [gettokenAt_stop blank]
    refine ⟨rfl, rfl, fun x inside => ?_⟩
    rw [List.append_assoc]
    exact kept _ (fun _ => zeros_end gap fun _ => ⟨rest, rfl⟩) x inside
  | @bar gap line tokens blank spells =>
    rw [gettokenAt_symbol blank (by decide)]
    exact ⟨rfl, _, line, rfl, rfl, spells,
      kept _ fun _ => zeros_end gap fun _ => ⟨[], rfl⟩⟩
  | @word gap w line tokens blank isWord ends spells =>
    rw [gettokenAt_word blank isWord ends]
    refine ⟨rfl, before ++ List.replicate gap.length 0, line, rfl, rfl, rfl, isWord, ends, spells,
      fun x inside => kept _ (fun separated => ?_) x inside⟩
    cases gap with
    | nil => exact absurd separated (isWord.not_ends line)
    | cons c gap => exact ⟨_, rfl⟩

end

namespace Lexer

variable {lex : Lexer} {w : Text} {tokens : List Token} {read : List (Nat × Text)}

theorem Ahead.stop (ahead : lex.Ahead read []) :
    lex.gettoken.1 = 0 ∧ lex.gettoken.2.2.Ahead read [] := by
  obtain ⟨code, noMore, held⟩ := ahead
  simp only [gettoken, noMore]
  exact ⟨code, rfl, rfl, held⟩

theorem Ahead.bar (ahead : lex.Ahead read (.bar :: tokens)) :
    lex.gettoken.1 = Sh.bar ∧ lex.gettoken.2.2.Ahead read tokens := by
  obtain ⟨code, before, line, same, np2, spells, held⟩ := ahead
  simp only [gettoken, np2, same]
  exact ⟨code, spells.ahead fun zeros _ x inside => (held x inside).append⟩

theorem Ahead.word (ahead : lex.Ahead read (.word w :: tokens)) :
    ∃ s, lex.gettoken.1 = wordToken ∧ lex.gettoken.2.1 = some s ∧
      lex.gettoken.2.2.Ahead (read ++ [(s, w)]) tokens := by
  obtain ⟨code, before, line, same, np1, np2, isWord, ends, spells, held⟩ := ahead
  simp only [gettoken, np2, same]
  refine ⟨before.length, code, np1, ?_⟩
  rw [← List.append_assoc]
  exact spells.ahead fun zeros separated => Holds.appended held isWord (separated ends)

theorem Ahead.holds (ahead : lex.Ahead read tokens) {x : Nat × Text} (inside : x ∈ read) :
    Holds lex.buf x.1 x.2 := by
  match tokens, ahead with
  | [], ⟨_, _, held⟩ => exact held x inside
  | .bar :: tokens, ⟨_, before, line, same, _, _, held⟩ =>
    rw [same]
    exact (held x inside).append
  | .word w :: tokens, ⟨_, before, line, same, _, _, _, _, _, held⟩ =>
    rw [same]
    exact (held x inside).append

end Lexer

end Sh

end Jos
