import Jos.Lib.Format

/-! What `vprintfmt` reads. A string argument is here exactly the bytes that may be read, up to its
NUL or as many as the precision says, so that to read one more is to fail. -/

set_option autoImplicit false

namespace Jos

namespace Printfmt

/-- What the text of a directive says, as far as it has been read: the number that is being spelled,
whether there was a dot, and the precision. A dot with no number is precision 0, and a negative
argument none. -/
structure Reader where
  num : Option Nat := none
  dotted : Bool := false
  given : Option Nat := none
  args : List Arg

def Reader.precision (r : Reader) : Option Nat := if r.dotted then r.num <|> r.given else none

def spell (r : Reader) (ch : Byte) : Option Reader :=
  if r.num.isSome ∧ isDigit ch then
    some { r with num := r.num.map fun n => n * 10 + (ch.toNat - 48) }
  else if isDigit ch ∧ ch ≠ chr '0' then some ⟨some (ch.toNat - 48), r.dotted, r.precision, r.args⟩
  else if ch = chr '*' then do
    let (slot, args) ← word r.args
    let n := (int slot).toInt
    pure ⟨none, r.dotted, if n < 0 then none else some n.toNat, args⟩
  else if ch = chr '.' then some ⟨none, true, some 0, r.args⟩
  else some ⟨none, r.dotted, r.precision, r.args⟩

inductive Use where
  | none
  | text (given : Option Nat) (p : Option (List Byte))
  | error (err : BitVec 32)

def use (conv : Byte) (given : Option Nat) (args : List Arg) : Option (List Arg × Use) :=
  if conv = chr 's' then (string args).map fun (p, args) => (args, .text given p)
  else if conv = chr '%' then some (args, .none)
  else (word args).map fun (slot, args) => (args, if conv = chr 'e' then .error (int slot) else .none)

def useToken (args : List Arg) : Token → Option (List Arg × Use)
  | .char _ => some (args, .none)
  | .unknown mods => (mods.foldlM spell { args }).map fun r => (r.args, .none)
  | .directive mods conv => (mods.foldlM spell { args }).bind fun r => use conv r.precision r.args

/-- What a format takes, if the arguments are enough and of the right types. -/
def uses : List Token → List Arg → Option (List Use)
  | [], _ => some []
  | token :: rest, args =>
    (useToken args token).bind fun (args, use) => (uses rest args).map (use :: ·)

/-- A string as the bytes that may be read of it: up to its NUL, or as many as the precision. -/
def Readable (given : Option Nat) (p : List Byte) : Prop :=
  (∃ text, 0 ∉ text ∧ p = text ++ [0] ∧ ∀ n ∈ given, text.length < n) ∨
    0 ∉ p ∧ given = some p.length

def Use.Readable : Use → Prop
  | .text given (some p) => Printfmt.Readable given p
  | _ => True

/-- A string has its NUL before the end of its precision (a precision that is no `int` is taken for
another one), and no error is the one `int` without a positive counterpart. -/
def Use.Clean : Use → Prop
  | .text given (some p) => ∀ n ∈ given, 0 ∈ p ∨ 0 ≤ wrap n ∧ wrap n < n
  | .error err => err ≠ BitVec.intMin 32
  | _ => True

/-- Ordinary characters, and `%` signs of unknown directives, stand for themselves. -/
def Token.Literal : Token → List Int → Prop
  | .char c, out => out = [(c.toNat : Int)]
  | .unknown _, out => out = [37]
  | .directive _ _, _ => True

/-- `vprintfmt` ends, whatever it is given to put characters with, and puts something for every part
of the format, in order. -/
def Formats (high : BitVec 32) (text : List Byte) (args : List Arg) : Prop :=
  ∃ outs, List.Forall₂ Token.Literal (tokens text) outs ∧
    ∀ (σ : Type) (putch : σ → Int → σ) (s : σ) (n : Nat), text.length + 8 ≤ n →
      vprintfmt putch high n [] (text ++ [0]) args s = some (outs.flatten.foldl putch s)

section Wrap

variable {n : Nat} {ch : Byte}

theorem wrap_of_int {k : Int} (least : -2 ^ 31 ≤ k) (most : k < 2 ^ 31) : wrap k = k := by
  unfold wrap
  rw [Int.bmod_eq_of_le (by omega) (by omega)]

theorem digit_value (digit : isDigit ch) : 48 ≤ ch.toNat ∧ ch.toNat ≤ 57 := of_decide_eq_true digit

theorem append_wrap (digit : isDigit ch) :
    append (wrap n) ch = wrap (n * 10 + (ch.toNat - 48) : Nat) := by
  have least := (digit_value digit).1
  have value : ((n * 10 + (ch.toNat - 48) : Nat) : Int) = n * 10 + (ch.toNat - 48) := by omega
  unfold append wrap
  rw [value, Int.add_sub_assoc, Int.add_bmod, Int.bmod_mul_bmod, ← Int.add_bmod]

theorem append_zero (digit : isDigit ch) : append 0 ch = wrap (ch.toNat - 48 : Nat) := by
  have appended := append_wrap (n := 0) digit
  rwa [Nat.zero_mul, Nat.zero_add] at appended

end Wrap

/-- The scanner follows the text: behind a dot, a number goes to the precision. -/
structure InStep (t : Scanner) (r : Reader) : Prop where
  args : t.args = r.args
  num : t.num = r.num.map fun n : Nat => wrap n
  width : r.dotted → 0 ≤ t.locals.width
  given : r.dotted → ∀ n, 0 < n → r.given = some n → t.locals.precision = wrap n

section Follow

variable {t : Scanner} {r : Reader} {ch : Byte} {mods : List Byte} {args : List Arg} {n : Nat}

theorem InStep.done (inStep : InStep t r) (dotted : r.dotted) : 0 ≤ t.done.width ∧
    ∀ n, 0 < n → r.precision = some n → t.done.precision = wrap n := by
  have width := inStep.width dotted
  have given := inStep.given dotted
  unfold Scanner.done Reader.precision
  rw [inStep.num, if_pos dotted]
  cases r.num with
  | none => exact ⟨width, given⟩
  | some k =>
    change 0 ≤ (t.locals.number (wrap k)).width ∧ ∀ n, 0 < n → some k = some n →
      (t.locals.number (wrap k)).precision = wrap n
    rw [Locals.number, if_neg (Int.not_lt.mpr width)]
    exact ⟨width, fun n _ same => by rw [Option.some.inj same]⟩

/-- A character that leaves the number, and the locals that the precision is not among. -/
theorem InStep.leave (inStep : InStep t r) {d : Locals} (num : Option Nat)
    (width : d.width = t.done.width) (precision : d.precision = t.done.precision) :
    InStep ⟨num.map fun n : Nat => wrap n, d, t.args⟩ ⟨num, r.dotted, r.precision, r.args⟩ where
  args := inStep.args
  num := rfl
  width := fun dotted => width ▸ (inStep.done dotted).1
  given := fun dotted => precision ▸ (inStep.done dotted).2

theorem int_toInt (slot : BitVec 64) : -2 ^ 31 ≤ (int slot).toInt ∧ (int slot).toInt < 2 ^ 31 :=
  ⟨BitVec.le_toInt _, BitVec.toInt_lt⟩

theorem InStep.star (inStep : InStep t r) (slot : BitVec 64) :
    InStep ⟨none, t.done.number (int slot).toInt, args⟩
      ⟨none, r.dotted, if (int slot).toInt < 0 then none else some (int slot).toInt.toNat, args⟩ where
  args := rfl
  num := rfl
  width := fun dotted => by
    have width := (inStep.done dotted).1
    change 0 ≤ (t.done.number (int slot).toInt).width
    rw [Locals.number, if_neg (Int.not_lt.mpr width)]
    exact width
  given := fun dotted n positive given => by
    have width := (inStep.done dotted).1
    obtain ⟨least, most⟩ := int_toInt slot
    change (t.done.number (int slot).toInt).precision = wrap n
    rw [Locals.number, if_neg (Int.not_lt.mpr width)]
    change (if (int slot).toInt < 0 then none else some (int slot).toInt.toNat) = some n at given
    split at given
    · cases given
    · have same := Option.some.inj given
      rw [wrap_of_int (by omega) (by omega)]
      change (int slot).toInt = n
      omega

theorem InStep.dot (inStep : InStep t r) :
    InStep ⟨none, t.done.dot, t.args⟩ ⟨none, true, some 0, r.args⟩ where
  args := inStep.args
  num := rfl
  width := fun _ => by
    change 0 ≤ t.done.dot.width
    unfold Locals.dot
    split
    · exact Int.le_refl 0
    · exact Int.not_lt.mp ‹_›
  given := fun _ _ positive given => absurd (Option.some.inj given) (Nat.ne_of_lt positive)

theorem modify_spell (inStep : InStep t r) : Option.Rel InStep (modify t ch) (spell r ch) := by
  have reading : t.num.isSome = r.num.isSome := by rw [inStep.num, Option.isSome_map]
  unfold modify spell
  by_cases digit : r.num.isSome ∧ isDigit ch
  · rw [if_pos digit, if_pos (reading ▸ digit)]
    obtain ⟨n, num⟩ := Option.isSome_iff_exists.mp digit.1
    refine .some ⟨inStep.args, ?_, inStep.width, inStep.given⟩
    change t.num.map (append · ch) = (r.num.map fun n => n * 10 + (ch.toNat - 48)).map fun n : Nat => wrap n
    rw [inStep.num, num]
    exact congrArg some (append_wrap digit.2)
  rw [if_neg digit, if_neg (reading ▸ digit)]
  simp only
  by_cases minus : ch = chr '-'
  · subst minus
    exact .some (inStep.leave none rfl rfl)
  rw [if_neg minus]
  by_cases zero : ch = chr '0'
  · subst zero
    exact .some (inStep.leave none rfl rfl)
  rw [if_neg zero]
  by_cases start : isDigit ch
  · rw [if_pos start, if_pos ⟨start, zero⟩, append_zero start]
    exact .some (inStep.leave (some _) rfl rfl)
  have other : ¬(isDigit ch = true ∧ ch ≠ chr '0') := fun both => start both.1
  rw [if_neg start, if_neg other]
  by_cases star : ch = chr '*'
  · rw [if_pos star, if_pos star, inStep.args]
    cases word r.args with
    | none => exact .none
    | some taken =>
      obtain ⟨slot, args⟩ := taken
      exact .some (inStep.star slot)
  rw [if_neg star, if_neg star]
  by_cases dot : ch = chr '.'
  · rw [if_pos dot, if_pos dot]
    exact .some inStep.dot
  rw [if_neg dot, if_neg dot]
  split
  · exact .some (inStep.leave none rfl rfl)
  · exact .some (inStep.leave none rfl rfl)

theorem foldlM_inStep (inStep : InStep t r) :
    Option.Rel InStep (mods.foldlM modify t) (mods.foldlM spell r) := by
  induction mods generalizing t r with
  | nil => exact .some inStep
  | cons ch mods ih =>
    rw [List.foldlM_cons, List.foldlM_cons]
    have first := @modify_spell t r ch inStep
    generalize modify t ch = scanned, spell r ch = spelled at first
    cases first with
    | none => exact .none
    | some first => exact ih first

theorem header_inStep : Option.Rel InStep (header mods args) (mods.foldlM spell { args }) :=
  foldlM_inStep ⟨rfl, rfl, nofun, nofun⟩

end Follow

section Strings

variable {altflag : Bool} {p text : List Byte} {c : Byte} {precision : Int} {size : Nat} {d : Locals}
  {given : Option Nat}

theorem toInt_ne_zero (nonzero : c ≠ 0) : c.toInt ≠ 0 := fun zero =>
  nonzero (BitVec.eq_of_toInt_eq zero)

theorem chars_text : (chars altflag (text ++ [0]) precision).isSome := by
  induction text generalizing precision with
  | nil => rfl
  | cons c text ih =>
    rw [List.cons_append, chars]
    split
    · rfl
    · split
      · rw [Option.isSome_map]
        exact ih
      · rfl

theorem chars_open (nonul : 0 ∉ p) :
    (chars altflag p precision).isSome ↔ 0 ≤ precision ∧ precision < p.length := by
  induction p generalizing precision with
  | nil =>
    rw [chars, List.length_nil]
    exact ⟨by simp, fun between => absurd between.2 (Int.not_lt.mpr between.1)⟩
  | cons c p ih =>
    have tail := @ih
    have more := toInt_ne_zero (c := c) fun zero => nonul (zero ▸ List.mem_cons_self)
    rw [chars, if_neg more, List.length_cons]
    split
    · rw [Option.isSome_map, tail fun member => nonul (List.mem_cons_of_mem _ member)]
      split
      · omega
      · omega
    · exact ⟨fun _ => by omega, fun _ => rfl⟩

theorem strnlen_text : (strnlen (text ++ [0]) size).isSome := by
  induction text generalizing size with
  | nil => cases size <;> rfl
  | cons c text ih =>
    cases size with
    | zero => rfl
    | succ size =>
      rw [List.cons_append, strnlen]
      split
      · rfl
      · rw [Option.isSome_map]
        exact ih

theorem strnlen_short (short : size ≤ p.length) : (strnlen p size).isSome := by
  induction p generalizing size with
  | nil =>
    rw [Nat.le_zero.mp short]
    rfl
  | cons c p ih =>
    cases size with
    | zero => rfl
    | succ size =>
      rw [strnlen]
      split
      · rfl
      · rw [Option.isSome_map]
        exact ih (Nat.le_of_succ_le_succ short)

theorem stringOut_isSome (measured : (strnlen p (BitVec.ofInt 64 d.precision).toNat).isSome) :
    (stringOut d p).isSome = (chars d.altflag p d.precision).isSome := by
  have indented : (indent d p).isSome := by
    unfold indent
    split
    · rwa [Option.isSome_map]
    · rfl
  obtain ⟨left, found⟩ := Option.isSome_iff_exists.mp indented
  rw [stringOut, found]
  cases chars d.altflag p d.precision <;> rfl

theorem stringOut_clean (readable : Readable given p)
    (precise : ∀ n, 0 < n → given = some n → d.precision = wrap n) :
    (stringOut d p).isSome ↔ (Use.text given (some p)).Clean := by
  rcases readable with ⟨text, nonul, rfl, short⟩ | ⟨nonul, rfl⟩
  · rw [stringOut_isSome strnlen_text]
    exact ⟨fun _ n _ => .inl (List.mem_append_right _ List.mem_cons_self), fun _ => chars_text⟩
  · have clean : (Use.text (some p.length) (some p)).Clean ↔
        0 ≤ wrap p.length ∧ wrap p.length < p.length :=
      ⟨fun all => (all p.length rfl).resolve_left nonul, fun bound n same => by
        cases same
        exact .inr bound⟩
    rw [clean]
    rcases Nat.eq_zero_or_pos p.length with empty | positive
    · obtain rfl := List.eq_nil_of_length_eq_zero empty
      refine ⟨fun reads => ?_, fun bound => absurd bound.2 (by decide)⟩
      rw [stringOut] at reads
      cases found : indent d [] with
      | none => rw [found] at reads; cases reads
      | some left => rw [found] at reads; cases reads
    · have same := precise p.length positive rfl
      rw [← same, ← @chars_open d.altflag _ _ nonul]
      constructor
      · intro reads
        rw [stringOut] at reads
        cases found : chars d.altflag p d.precision with
        | none =>
          rw [found] at reads
          cases left : indent d p with
          | none => rw [left] at reads; cases reads
          | some _ => rw [left] at reads; cases reads
        | some out => rfl
      · intro reads
        have bound := (chars_open nonul).mp reads
        rw [stringOut_isSome (strnlen_short ?_)]
        · exact reads
        · rw [BitVec.toNat_ofInt]
          omega

end Strings


section Parts

variable {high err : BitVec 32} {conv : Byte} {d : Locals} {given : Option Nat}
  {args args' : List Arg} {token : Token} {u : Use} {us : List Use} {parts : List Token}
  {text : List Byte}

theorem errOut_clean : (errOut high err).isSome ↔ (Use.error err).Clean := by
  have clean : (Use.error err).Clean ↔ ¬(if err.toInt < 0 then -err else err).toInt < 0 := by
    unfold Use.Clean
    by_cases least : err = BitVec.intMin 32
    · subst least
      exact ⟨fun differ => absurd rfl differ, fun positive => absurd (by decide) positive⟩
    · refine ⟨fun _ => ?_, fun _ => least⟩
      split
      · rw [BitVec.toInt_neg_of_ne_intMin least]
        omega
      · assumption
  rw [clean]
  unfold errOut
  generalize (if err.toInt < 0 then -err else err) = err
  have most : maxError = 22 := rfl
  simp only
  split
  · exact ⟨fun _ => by omega, fun _ => rfl⟩
  · split
    · case isTrue negative => exact ⟨nofun, fun positive => absurd negative positive⟩
    · case isFalse positive => exact ⟨fun _ => positive, fun _ => rfl⟩

/-- What a conversion puts is there when it takes its argument cleanly, and only then. -/
theorem convertOut_clean (takes : use conv given args = some (args', u)) (readable : u.Readable)
    (precise : ∀ n, 0 < n → given = some n → d.precision = wrap n) :
    (u.Clean → ∃ out, convertOut high conv d args = some (args', out)) ∧
      (¬u.Clean → convertOut high conv d args = none) := by
  unfold use at takes
  unfold convertOut
  by_cases text : conv = chr 's'
  · rw [if_pos text] at takes ⊢
    obtain ⟨⟨p, rest⟩, found, same⟩ := Option.map_eq_some_iff.mp takes
    cases same
    rw [found]
    have out : (stringOut d (p.getD (cstring "(null)"))).isSome ↔ (Use.text given p).Clean := by
      cases p with
      | none =>
        have null : (stringOut d (cstring "(null)")).isSome := by
          rw [cstring, stringOut_isSome strnlen_text]
          exact chars_text
        exact ⟨fun _ => trivial, fun _ => null⟩
      | some p => exact stringOut_clean readable precise
    rw [← out]
    simp only [Option.bind_eq_bind, Option.bind_some, Option.pure_def]
    cases stringOut d (p.getD (cstring "(null)")) with
    | none => exact ⟨by simp, fun _ => rfl⟩
    | some out => exact ⟨fun _ => ⟨out, rfl⟩, fun none => absurd rfl none⟩
  rw [if_neg text] at takes ⊢
  by_cases percent : conv = chr '%'
  · rw [if_pos percent] at takes ⊢
    cases takes
    exact ⟨fun _ => ⟨_, rfl⟩, fun unclean => absurd trivial unclean⟩
  rw [if_neg percent] at takes ⊢
  obtain ⟨⟨slot, rest⟩, found, same⟩ := Option.map_eq_some_iff.mp takes
  cases same
  rw [found]
  simp only [Option.bind_eq_bind, Option.bind_some, Option.pure_def]
  by_cases error : conv = chr 'e'
  · have other : chr 'e' ≠ chr 'c' := by decide
    rw [if_pos error, error, if_neg other, if_pos rfl, ← @errOut_clean high]
    cases errOut high (int slot) with
    | none => exact ⟨by simp, fun _ => rfl⟩
    | some out => exact ⟨fun _ => ⟨out, rfl⟩, fun none => absurd rfl none⟩
  · rw [if_neg error, if_neg error]
    refine ⟨fun _ => ?_, fun unclean => absurd trivial unclean⟩
    repeat' split
    all_goals exact ⟨_, rfl⟩

theorem emitToken_clean (takes : useToken args token = some (args', u)) (readable : u.Readable) :
    (u.Clean → ∃ out, emitToken high args token = some (args', out) ∧ token.Literal out) ∧
      (¬u.Clean → emitToken high args token = none) := by
  cases token with
  | char c =>
    cases takes
    exact ⟨fun _ => ⟨_, rfl, rfl⟩, fun unclean => absurd trivial unclean⟩
  | unknown mods =>
    obtain ⟨r, spelled, same⟩ := Option.map_eq_some_iff.mp takes
    cases same
    have headed := @header_inStep mods args
    rw [spelled] at headed
    generalize found : header mods args = scanned at headed
    cases headed with
    | some inStep =>
      refine ⟨fun _ => ⟨[37], ?_, rfl⟩, fun unclean => absurd trivial unclean⟩
      rw [emitToken, found, ← inStep.args]
      rfl
  | directive mods conv =>
    obtain ⟨r, spelled, taken⟩ := Option.bind_eq_some_iff.mp takes
    have headed := @header_inStep mods args
    rw [spelled] at headed
    generalize found : header mods args = scanned at headed
    cases headed with
    | @some t _ inStep =>
      rw [← inStep.args] at taken
      have precise : ∀ n, 0 < n → r.precision = some n → t.done.precision = wrap n := by
        intro n positive given
        have dotted : r.dotted = true := by
          by_contra plain
          rw [Reader.precision, if_neg plain] at given
          cases given
        exact (inStep.done dotted).2 n positive given
      obtain ⟨clean, unclean⟩ := @convertOut_clean high _ _ _ _ _ _ taken readable precise
      refine ⟨fun fine => ?_, fun bad => ?_⟩
      · obtain ⟨out, converted⟩ := clean fine
        refine ⟨out, ?_, trivial⟩
        rw [emitToken, found]
        exact converted
      · rw [emitToken, found]
        exact unclean bad

theorem emit_clean (takes : uses parts args = some us) (readable : ∀ u ∈ us, u.Readable) :
    ((∀ u ∈ us, u.Clean) →
        ∃ outs, emit high parts args = some outs ∧ List.Forall₂ Token.Literal parts outs) ∧
      (¬(∀ u ∈ us, u.Clean) → emit high parts args = none) := by
  induction parts generalizing args us with
  | nil =>
    cases takes
    exact ⟨fun _ => ⟨[], rfl, .nil⟩, fun unclean => absurd (List.forall_mem_nil _) unclean⟩
  | cons token parts ih =>
    obtain ⟨⟨args', u⟩, taken, others⟩ := Option.bind_eq_some_iff.mp takes
    obtain ⟨us, rest, rfl⟩ := Option.map_eq_some_iff.mp others
    obtain ⟨first, lost⟩ := @emitToken_clean high _ _ _ _ taken (readable u List.mem_cons_self)
    obtain ⟨later, dropped⟩ := ih rest fun u member => readable u (List.mem_cons_of_mem _ member)
    rw [emit, List.forall_mem_cons]
    refine ⟨fun clean => ?_, fun unclean => ?_⟩
    · obtain ⟨here, there⟩ := clean
      obtain ⟨out, put, literal⟩ := first here
      obtain ⟨outs, puts, literals⟩ := later there
      refine ⟨out :: outs, ?_, .cons literal literals⟩
      rw [put, Option.bind_some]
      exact congrArg (Option.map (out :: ·)) puts
    · by_cases here : u.Clean
      · obtain ⟨out, put, -⟩ := first here
        rw [put, Option.bind_some]
        exact congrArg (Option.map (out :: ·)) (dropped fun there => unclean ⟨here, there⟩)
      · rw [lost here]
        rfl

/-- `vprintfmt` formats every text whose strings end before their precision, and no other. -/
theorem formats_iff (nonul : 0 ∉ text) (takes : uses (tokens text) args = some us)
    (readable : ∀ u ∈ us, u.Readable) : (tokens text).flatMap Token.text = text ∧
      (Formats high text args ↔ ∀ u ∈ us, u.Clean) := by
  refine ⟨tokens_text, ?_, fun clean => ?_⟩
  · rintro ⟨outs, -, puts⟩
    by_contra unclean
    have put := puts (List Int) (fun out c => out ++ [c]) [] (text.length + 8) (Nat.le_refl _)
    rw [vprintfmt_emit nonul (Nat.le_refl _), (emit_clean takes readable).2 unclean] at put
    cases put
  · obtain ⟨outs, put, literal⟩ := (@emit_clean high _ _ _ takes readable).1 clean
    refine ⟨outs, literal, fun σ putch s n fuel => ?_⟩
    rw [vprintfmt_emit nonul fuel, put]
    rfl

theorem tokens_precise : tokens (bytes "%.3s") = [.directive (bytes ".3") (chr 's')] := by
  have spelled : bytes "%.3s" = chr '%' :: (bytes ".3" ++ chr 's' :: []) := by decide
  rw [spelled, tokens_directive (by decide) (by decide), tokens]

theorem formats_two : (tokens (bytes "%.3s")).flatMap Token.text = bytes "%.3s" ∧
    (Formats 0 (bytes "%.3s") [.string (some (cstring "ab"))] ↔
      ∀ u ∈ [Use.text (some 3) (some (cstring "ab"))], u.Clean) :=
  formats_iff (by decide) (by rw [tokens_precise]; rfl) fun u member => by
    rw [List.mem_singleton.mp member]
    refine .inl ⟨bytes "ab", by decide, rfl, fun n given => ?_⟩
    cases given
    decide

/-- Three bytes are read beyond their end with precision 3, and one error number is not in the
table. -/
theorem formats_beyond : (Readable (some 3) (bytes "abc") ∧
      ¬Formats 0 (bytes "%.3s") [.string (some (bytes "abc"))]) ∧
    ¬Formats 0 (bytes "%e") [.word 0x80000000] := by
  refine ⟨⟨.inr ⟨by decide, rfl⟩, ?_⟩, ?_⟩
  · rintro ⟨outs, -, puts⟩
    have put := puts Unit (fun _ _ => ()) () 12 (by decide)
    have fails : vprintfmt (fun _ _ => ()) 0 12 [] (bytes "%.3s" ++ [0])
        [.string (some (bytes "abc"))] () = none := by decide
    rw [fails] at put
    cases put
  · rintro ⟨outs, -, puts⟩
    have put := puts Unit (fun _ _ => ()) () 10 (by decide)
    have fails : vprintfmt (fun _ _ => ()) 0 10 [] (bytes "%e" ++ [0]) [.word 0x80000000] () = none := by
      decide
    rw [fails] at put
    cases put

end Parts

end Printfmt

end Jos
