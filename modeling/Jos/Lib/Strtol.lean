import Jos.Lib.Printfmt

/-! `strtol` of lib/string.c, and that it reads what `printnum` prints. -/

set_option autoImplicit false

namespace Jos

open Foundation

namespace Printfmt

def skipBlanks : List Byte → Option (List Byte)
  | [] => none
  | c :: s => if c = chr ' ' ∨ c = chr '\t' then skipBlanks s else some (c :: s)

def basePrefix (base : Nat) (s : List Byte) : Option (Nat × List Byte) :=
  if base = 0 ∨ base = 16 then
    match s with
    | [] => none
    | c :: s =>
      if c = chr '0' then
        match s with
        | [] => none
        | x :: s =>
          if x = chr 'x' then some (16, s)
          else some (if base = 0 then (8, x :: s) else (base, c :: x :: s))
      else some (if base = 0 then 10 else base, c :: s)
  else some (base, s)

def digitOf (c : Byte) : Option Nat :=
  if chr '0' ≤ c ∧ c ≤ chr '9' then some (c.toNat - 48)
  else if chr 'a' ≤ c ∧ c ≤ chr 'z' then some (c.toNat - 97 + 10)
  else if chr 'A' ≤ c ∧ c ≤ chr 'Z' then some (c.toNat - 65 + 10)
  else none

def readDigits (base : Nat) : List Byte → BitVec 64 → Option (BitVec 64 × List Byte)
  | [], _ => none
  | c :: s, val =>
    match digitOf c with
    | none => some (val, c :: s)
    | some dig =>
      if base ≤ dig then some (val, c :: s)
      else readDigits base s (val * BitVec.ofNat 64 base + BitVec.ofNat 64 dig)

def plusMinus : List Byte → Option (Bool × List Byte)
  | [] => none
  | c :: s => some (if c = chr '+' then (false, s) else if c = chr '-' then (true, s) else (false, c :: s))

/-- `strtol`: the value, and the rest of the string, at which `*endptr` points. It fails when it reads
beyond the bytes of the string. -/
def strtol (s : List Byte) (base : Nat) : Option (Int × List Byte) := do
  let s ← skipBlanks s
  let (neg, s) ← plusMinus s
  let (base, s) ← basePrefix base s
  let (val, endptr) ← readDigits base s 0
  pure ((if neg then -val else val).toInt, endptr)

/-- The bytes that `printnum` prints. -/
def printed (base : Base) (padc : Int) (num : Nat) (width : Int) : List Byte :=
  (printnum (fun out c => out ++ [c]) base padc num width []).map (BitVec.ofInt 8)

def Apart (t : List Byte) : Prop := ∃ c rest, t = c :: rest ∧ digitOf c = none

section Read

variable {b v : Nat} {base : Base} {padc width : Int} {s t blanks text : List Byte} {ds : List Nat}
  {val : Nat}

def figure (d : Nat) : Byte := BitVec.ofInt 8 (hexDigit d)

theorem figure_digit {d : Nat} (small : d < 16) : digitOf (figure d) = some d ∧
    figure d ≠ chr ' ' ∧ figure d ≠ chr '\t' ∧ figure d ≠ chr '+' ∧ figure d ≠ chr '-' ∧
      figure d ≠ chr 'x' := by
  have all : ∀ d < 16, digitOf (figure d) = some d ∧ figure d ≠ chr ' ' ∧ figure d ≠ chr '\t' ∧
    figure d ≠ chr '+' ∧ figure d ≠ chr '-' ∧ figure d ≠ chr 'x' := by decide
  exact all d small

theorem printed_figures (narrow : width ≤ (digits base.val v).length) :
    printed base padc v width = (digits base.val v).map figure := by
  have none : (width - (digits base.val v).length).toNat = 0 := by omega
  rw [printed, printnum_eq, foldl_snoc, List.nil_append, numeral, none, List.replicate_zero,
    List.nil_append, List.map_map]
  rfl

theorem readDigits_figures (small : ∀ d ∈ ds, d < b) (most : b ≤ 16) (apart : Apart t) :
    readDigits b (ds.map figure ++ t) (BitVec.ofNat 64 val) =
      some (BitVec.ofNat 64 (ds.foldl (fun value d => value * b + d) val), t) := by
  induction ds generalizing val with
  | nil =>
    obtain ⟨c, rest, rfl, none⟩ := apart
    rw [List.map_nil, List.nil_append, readDigits, none]
    rfl
  | cons d ds ih =>
    have less := small d List.mem_cons_self
    rw [List.map_cons, List.cons_append, readDigits, (figure_digit (Nat.lt_of_lt_of_le less most)).1]
    simp only
    rw [if_neg (Nat.not_le.mpr less), ← BitVec.ofNat_mul, ← BitVec.ofNat_add,
      ih fun d member => small d (List.mem_cons_of_mem _ member)]
    rfl

theorem basePrefix_figures (known : b = 8 ∨ b = 10 ∨ b = 16) (small : ∀ d ∈ ds, d < b)
    (nonempty : ds ≠ []) (apart : Apart t) :
    basePrefix b (ds.map figure ++ t) = some (b, ds.map figure ++ t) := by
  unfold basePrefix
  by_cases sixteen : b = 16
  · subst sixteen
    rw [if_pos (.inr rfl)]
    obtain ⟨d, ds, rfl⟩ := List.exists_cons_of_ne_nil nonempty
    rw [List.map_cons, List.cons_append]
    simp only
    split
    · case isTrue zero =>
        -- what follows a zero is another figure or the end, and no "x"
        cases ds with
        | nil =>
          obtain ⟨c, rest, rfl, none⟩ := apart
          have other : c ≠ chr 'x' := fun same => by
            rw [same] at none
            exact absurd none (by decide)
          rw [List.map_nil, List.nil_append]
          simp only
          rw [if_neg other]
          rfl
        | cons d' ds =>
          have other := (figure_digit (small d' (List.mem_cons_of_mem _ List.mem_cons_self))).2.2.2.2.2
          rw [List.map_cons, List.cons_append]
          simp only
          rw [if_neg other]
          rfl
    · rfl
  · rw [if_neg (by omega)]

theorem plusMinus_figures (small : ∀ d ∈ ds, d < 16) (nonempty : ds ≠ []) :
    plusMinus (ds.map figure ++ t) = some (false, ds.map figure ++ t) ∧
      skipBlanks (ds.map figure ++ t) = some (ds.map figure ++ t) := by
  obtain ⟨d, ds, rfl⟩ := List.exists_cons_of_ne_nil nonempty
  obtain ⟨-, blank, tab, plus, minus, -⟩ := figure_digit (small d List.mem_cons_self)
  rw [List.map_cons, List.cons_append]
  constructor
  · rw [plusMinus, if_neg plus, if_neg minus]
  · rw [skipBlanks, if_neg (not_or.mpr ⟨blank, tab⟩)]

theorem skipBlanks_append (all : ∀ c ∈ blanks, c = chr ' ' ∨ c = chr '\t') :
    skipBlanks (blanks ++ s) = skipBlanks s := by
  induction blanks with
  | nil => rfl
  | cons c blanks ih =>
    rw [List.cons_append, skipBlanks, if_pos (all c List.mem_cons_self)]
    exact ih fun c member => all c (List.mem_cons_of_mem _ member)

theorem read_figures (known : b = 8 ∨ b = 10 ∨ b = 16) (apart : Apart t) :
    ((basePrefix b ((digits b v).map figure ++ t)).bind fun (base, s) => readDigits base s 0) =
      some (BitVec.ofNat 64 v, t) := by
  have base : 2 ≤ b := by omega
  have nonempty : digits b v ≠ [] := List.length_pos_iff.mp digits_length_pos
  rw [basePrefix_figures known (digits_lt base) nonempty apart, Option.bind_some]
  exact (@readDigits_figures b t _ 0 (digits_lt base) (by omega) apart).trans
    (congrArg (fun value => some (BitVec.ofNat 64 value, t)) (foldl_digits base))

theorem strtol_parts {s' s'' : List Byte} {neg : Bool} {value : BitVec 64}
    (unblank : skipBlanks s = some s') (sign : plusMinus s' = some (neg, s''))
    (reads : ((basePrefix b s'').bind fun (base, s) => readDigits base s 0) = some (value, t)) :
    strtol s b = some ((if neg then -value else value).toInt, t) := by
  obtain ⟨⟨base, rest⟩, found, reads⟩ := Option.bind_eq_some_iff.mp reads
  simp only [strtol, unblank, sign, found, reads, Option.bind_eq_bind, Option.bind_some,
    Option.pure_def]

/-- What `printnum` prints is read again, also behind blanks and a minus sign. -/
theorem strtol_figures (known : b = 8 ∨ b = 10 ∨ b = 16) (apart : Apart t) (small : v < 2 ^ 63)
    (all : ∀ c ∈ blanks, c = chr ' ' ∨ c = chr '\t') :
    strtol ((digits b v).map figure ++ t) b = some ((v : Int), t) ∧
      strtol (blanks ++ chr '-' :: ((digits b v).map figure ++ t)) b = some (-(v : Int), t) := by
  have base : 2 ≤ b := by omega
  have nonempty : digits b v ≠ [] := List.length_pos_iff.mp digits_length_pos
  have below : ∀ d ∈ digits b v, d < 16 := fun d member =>
    Nat.lt_of_lt_of_le (digits_lt base d member) (by omega)
  obtain ⟨signless, unblank⟩ := plusMinus_figures (t := t) below nonempty
  have reads := read_figures (v := v) known apart
  have value : (BitVec.ofNat 64 v).toInt = v := by
    rw [BitVec.toInt_eq_toNat_cond, BitVec.toNat_ofNat]
    omega
  constructor
  · rw [strtol_parts unblank signless reads]
    exact congrArg (fun value : Int => some (value, t)) value
  · have behind : skipBlanks (blanks ++ chr '-' :: ((digits b v).map figure ++ t)) =
        some (chr '-' :: ((digits b v).map figure ++ t)) := by
      rw [skipBlanks_append all, skipBlanks, if_neg (by decide)]
    have minus : plusMinus (chr '-' :: ((digits b v).map figure ++ t)) =
        some (true, (digits b v).map figure ++ t) := by
      rw [plusMinus, if_neg (by decide), if_pos rfl]
    rw [strtol_parts behind minus reads]
    refine congrArg (fun value : Int => some (value, t)) ?_
    have other : BitVec.ofNat 64 v ≠ BitVec.intMin 64 := fun same => by
      rw [same] at value
      have least : (BitVec.intMin 64).toInt = -2 ^ 63 := by decide
      omega
    rw [if_pos rfl, BitVec.toInt_neg_of_ne_intMin other, value]

theorem skipBlanks_text : ∃ rest, skipBlanks (text ++ [0]) = some (rest ++ [0]) := by
  induction text with
  | nil => exact ⟨[], rfl⟩
  | cons c text ih =>
    rw [List.cons_append, skipBlanks]
    split
    · exact ih
    · exact ⟨c :: text, rfl⟩

theorem plusMinus_text : ∃ neg rest, plusMinus (text ++ [0]) = some (neg, rest ++ [0]) := by
  cases text with
  | nil => exact ⟨false, [], rfl⟩
  | cons c text =>
    rw [List.cons_append, plusMinus]
    split
    · exact ⟨false, text, rfl⟩
    · split
      · exact ⟨true, text, rfl⟩
      · exact ⟨false, c :: text, rfl⟩

theorem basePrefix_text : ∃ b' rest, basePrefix b (text ++ [0]) = some (b', rest ++ [0]) := by
  unfold basePrefix
  split
  · cases text with
    | nil => exact ⟨_, [], rfl⟩
    | cons c text =>
      rw [List.cons_append]
      simp only
      split
      · cases text with
        | nil =>
          by_cases zero : b = 0
          · exact ⟨8, [], congrArg some (if_pos zero)⟩
          · exact ⟨b, [c], congrArg some (if_neg zero)⟩
        | cons x text =>
          rw [List.cons_append]
          simp only
          split
          · exact ⟨16, text, rfl⟩
          · by_cases zero : b = 0
            · exact ⟨8, x :: text, congrArg some (if_pos zero)⟩
            · exact ⟨b, c :: x :: text, congrArg some (if_neg zero)⟩
      · exact ⟨_, c :: text, rfl⟩
  · exact ⟨b, text, rfl⟩

theorem readDigits_text {value : BitVec 64} :
    ∃ value' rest, readDigits b (text ++ [0]) value = some (value', rest ++ [0]) := by
  induction text generalizing value with
  | nil => exact ⟨value, [], rfl⟩
  | cons c text ih =>
    rw [List.cons_append, readDigits]
    split
    · exact ⟨value, c :: text, rfl⟩
    · split
      · exact ⟨value, c :: text, rfl⟩
      · exact ih

/-- `strtol` stops at the NUL at the latest. -/
theorem strtol_text (text : List Byte) (b : Nat) :
    ∃ value rest, strtol (text ++ [0]) b = some (value, rest ++ [0]) := by
  obtain ⟨s, unblank⟩ := @skipBlanks_text text
  obtain ⟨neg, s', sign⟩ := @plusMinus_text s
  obtain ⟨b', s'', found⟩ := @basePrefix_text b s'
  obtain ⟨value, rest, reads⟩ := @readDigits_text b' s'' 0
  have parts : ((basePrefix b (s' ++ [0])).bind fun (base, s) => readDigits base s 0) =
      some (value, rest ++ [0]) := by
    rw [found]
    exact reads
  exact ⟨_, rest, strtol_parts unblank sign parts⟩

/-- Numbers that are printed can be read back, and reading never goes beyond a string. -/
theorem strtol_printed : (∀ (base : Base) (padc width : Int) (v : Nat) (t blanks : List Byte),
      (base = octal ∨ base = decimal ∨ base = hex) → v < 2 ^ 63 →
      width ≤ (digits base.val v).length → Apart t → (∀ c ∈ blanks, c = chr ' ' ∨ c = chr '\t') →
        strtol (printed base padc v width ++ t) base.val = some ((v : Int), t) ∧
          strtol (blanks ++ chr '-' :: (printed base padc v width ++ t)) base.val =
            some (-(v : Int), t)) ∧
    ∀ (text : List Byte) (b : Nat), 0 ∉ text → (b = 0 ∨ 2 ≤ b ∧ b ≤ 36) →
      ∃ value rest, strtol (text ++ [0]) b = some (value, rest ++ [0]) := by
  refine ⟨fun base padc width v t blanks which small narrow apart all => ?_,
    fun text b _ _ => strtol_text text b⟩
  have known : base.val = 8 ∨ base.val = 10 ∨ base.val = 16 := by
    rcases which with rfl | rfl | rfl
    · exact .inl rfl
    · exact .inr (.inl rfl)
    · exact .inr (.inr rfl)
  rw [printed_figures narrow]
  exact strtol_figures known apart small all

/-- "-ff" in base 16. -/
theorem strtol_printed_hex : strtol ([] ++ chr '-' :: (printed hex 32 255 0 ++ [0])) 16 =
    some (-255, [0]) :=
  (strtol_printed.1 hex 32 0 255 [0] [] (.inr (.inr rfl)) (by decide) (by decide)
    ⟨0, [], rfl, by decide⟩ (List.forall_mem_nil _)).2

end Read

end Printfmt

end Jos
