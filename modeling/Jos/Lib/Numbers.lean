import Jos.Lib.Bounded

/-! The directives for integers against the `printf` of C. -/

set_option autoImplicit false

namespace Jos

open Foundation

namespace Printfmt

inductive Flag where
  | none
  | minus
  | zero
deriving DecidableEq

inductive Size where
  | int
  | long
  | longLong
deriving DecidableEq

inductive Conv where
  | d
  | u
  | o
  | x
deriving DecidableEq

def Flag.text : Flag → List Byte
  | .none => []
  | .minus => [chr '-']
  | .zero => [chr '0']

def Size.text : Size → List Byte
  | .int => []
  | .long => [chr 'l']
  | .longLong => [chr 'l', chr 'l']

def Conv.char : Conv → Byte
  | .d => chr 'd'
  | .u => chr 'u'
  | .o => chr 'o'
  | .x => chr 'x'

def Conv.base : Conv → Base
  | .d => decimal
  | .u => decimal
  | .o => octal
  | .x => hex

/-- A directive of the form %[-|0][width][l|ll]{d,u,o,x}. Width 0 is none. -/
structure Directive where
  flag : Flag
  width : Nat
  size : Size
  conv : Conv

def digit (d : Nat) : Byte := BitVec.ofNat 8 (48 + d)

def widthText (width : Nat) : List Byte := if width = 0 then [] else (digits 10 width).map digit

def Directive.mods (f : Directive) : List Byte := f.flag.text ++ widthText f.width ++ f.size.text

def Directive.text (f : Directive) : List Byte := chr '%' :: (f.mods ++ f.conv.char :: [])

/-- The argument, of the type that the directive names. An `int` is the lower half of its slot. -/
def Directive.value (f : Directive) (slot : BitVec 64) : Int :=
  match f.conv, f.size with
  | .d, .int => (int slot).toInt
  | .d, _ => slot.toInt
  | _, .int => (int slot).toNat
  | _, _ => slot.toNat

/-- What `vprintfmt` takes the argument for. -/
def Directive.taken (f : Directive) (slot : BitVec 64) : Int :=
  match f.conv, f.size with
  | .d, _ => slot.toInt
  | .o, .int => ((int slot).signExtend 64).toNat
  | _, _ => slot.toNat

def Directive.places (f : Directive) (v : Int) : Nat := (digits f.conv.base.val v.natAbs).length

def sign (v : Int) : List Int := if v < 0 then [45] else []

def figures (base : Base) (v : Int) : List Int := (digits base.val v.natAbs).map hexDigit

/-- What the `printf` of C puts for a value. -/
def Directive.printf (f : Directive) (v : Int) : List Int :=
  let fill := f.width - ((sign v).length + f.places v)
  match f.flag with
  | .none => List.replicate fill 32 ++ (sign v ++ figures f.conv.base v)
  | .zero => sign v ++ (List.replicate fill 48 ++ figures f.conv.base v)
  | .minus => sign v ++ (figures f.conv.base v ++ List.replicate fill 32)

/-- `vprintfmt` puts what C's `printf` does, whatever it puts it with. -/
def Directive.Conforms (f : Directive) (high : BitVec 32) (slot : BitVec 64) : Prop :=
  ∀ (σ : Type) (putch : σ → Int → σ) (s : σ) (n : Nat), f.text.length + 8 ≤ n →
    vprintfmt putch high n [] (f.text ++ [0]) [.word slot] s =
      some ((f.printf (f.value slot)).foldl putch s)

/-- The argument is taken for what it is, and it needs no padding, or it is not negative and is padded
on the left. The other case is an `int` that is taken for its opposite, the sign of which is
made up for by a single `-` of padding. -/
def Directive.Plain (f : Directive) (slot : BitVec 64) : Prop :=
  let v := f.value slot
  f.taken slot = v ∧ (f.width ≤ f.places v ∨ f.flag ≠ .minus ∧ 0 ≤ v ∧ f.width < 2 ^ 31) ∨
    f.flag = .minus ∧ v < 0 ∧ f.taken slot = -v ∧ f.width = f.places v + 1

section Header

variable {f : Directive} {w : Nat} {d : Locals} {args : List Arg} {t : Scanner}

theorem digit_isDigit {k : Nat} (small : k < 10) : isDigit (digit k) = true ∧
    (digit k).toNat - 48 = k := by
  have all : ∀ k < 10, isDigit (digit k) = true ∧ (digit k).toNat - 48 = k := by decide
  exact all k small

theorem modify_digit {k : Nat} (small : k < 10) {num : Nat} :
    modify ⟨some (wrap num), d, args⟩ (digit k) = some ⟨some (wrap (num * 10 + k : Nat)), d, args⟩ := by
  obtain ⟨isDigit, value⟩ := digit_isDigit small
  rw [modify, if_pos ⟨rfl, isDigit⟩]
  change some (⟨some (append (wrap num) (digit k)), d, args⟩ : Scanner) = _
  rw [append_wrap isDigit, value]

theorem modify_first {k : Nat} (small : k < 10) (nonzero : k ≠ 0) :
    modify ⟨none, d, args⟩ (digit k) = some ⟨some (wrap k), d, args⟩ := by
  have all : ∀ k < 10, k ≠ 0 → digit k ≠ chr '-' ∧ digit k ≠ chr '0' := by decide
  obtain ⟨isDigit, value⟩ := digit_isDigit small
  obtain ⟨minus, zero⟩ := all k small nonzero
  rw [modify, if_neg (fun both => Bool.noConfusion both.1)]
  simp only
  rw [if_neg minus, if_neg zero, if_pos isDigit, append_zero isDigit, value]
  rfl

/-- The width is read digit by digit, and wraps when it is no `int`. -/
theorem foldlM_width (given : w ≠ 0) :
    ((digits 10 w).map digit).foldlM modify ⟨none, d, args⟩ = some ⟨some (wrap w), d, args⟩ := by
  induction w using digits_induction (by decide : 2 ≤ 10) with
  | small w less =>
    rw [digits_small less, List.map_singleton, List.foldlM_cons, modify_first less given]
    rfl
  | large w more ih =>
    rw [digits_large (by decide) more, List.map_append, List.foldlM_append,
      ih (Nat.pos_iff_ne_zero.mp (Nat.div_pos more (by decide)))]
    change (modify ⟨some (wrap (w / 10 : Nat)), d, args⟩ (digit (w % 10))).bind _ = _
    rw [modify_digit (Nat.mod_lt w (by decide)), Nat.div_add_mod']
    rfl

def Flag.padc : Flag → Int
  | .none => 32
  | .minus => 45
  | .zero => 48

def Size.lflag : Size → Nat
  | .int => 0
  | .long => 1
  | .longLong => 2

def Directive.locals (f : Directive) : Locals where
  padc := f.flag.padc
  width := if f.width = 0 then -1 else wrap f.width
  lflag := f.size.lflag

theorem header_mods : ∃ t, header f.mods args = some t ∧ t.done = f.locals ∧ t.args = args := by
  obtain ⟨flag, width, size, conv⟩ := f
  have flagged : flag.text.foldlM modify { args } = some ⟨none, { padc := flag.padc }, args⟩ := by
    cases flag <;> rfl
  have widened : ∃ num, (widthText width).foldlM modify ⟨none, { padc := flag.padc }, args⟩ =
      some ⟨num, { padc := flag.padc }, args⟩ ∧ num = if width = 0 then none else some (wrap width) := by
    unfold widthText
    by_cases absent : width = 0
    · rw [if_pos absent, if_pos absent]
      exact ⟨none, rfl, rfl⟩
    · rw [if_neg absent, if_neg absent]
      exact ⟨_, foldlM_width absent, rfl⟩
  obtain ⟨num, widened, spelled⟩ := widened
  rw [header, Directive.mods, List.foldlM_append, List.foldlM_append, flagged]
  change ∃ t, (((widthText width).foldlM modify ⟨none, { padc := flag.padc }, args⟩).bind
    fun t => size.text.foldlM modify t) = some t ∧ _
  rw [widened, Option.bind_some, spelled]
  by_cases absent : width = 0
  · rw [if_pos absent, Directive.locals, if_pos absent]
    cases size <;> exact ⟨_, rfl, rfl, rfl⟩
  · rw [if_neg absent, Directive.locals, if_neg absent]
    generalize wrap (width : Int) = k
    cases size <;> exact ⟨_, rfl, rfl, rfl⟩

theorem mods_modifiers : ∀ c ∈ f.mods, c ∈ modifiers := by
  obtain ⟨flag, width, size, conv⟩ := f
  have flagged : ∀ c ∈ flag.text, c ∈ modifiers := by cases flag <;> decide
  have sized : ∀ c ∈ size.text, c ∈ modifiers := by cases size <;> decide
  have widened : ∀ c ∈ widthText width, c ∈ modifiers := by
    unfold widthText
    split
    · exact List.forall_mem_nil _
    · intro c member
      obtain ⟨k, place, rfl⟩ := List.mem_map.mp member
      have all : ∀ k < 10, digit k ∈ modifiers := by decide
      exact all k (digits_lt (by decide) k place)
  exact List.forall_mem_append.mpr ⟨List.forall_mem_append.mpr ⟨flagged, widened⟩, sized⟩

/-- What `vprintfmt` puts for a directive: the sign comes before the padding, which is on the left
always. -/
def Directive.puts (f : Directive) (x : Int) : List Int :=
  sign x ++ numeral f.conv.base f.locals.padc x.natAbs f.locals.width

theorem signed_puts {num : BitVec 64} :
    signed d num = sign num.toInt ++ numeral decimal d.padc num.toInt.natAbs d.width := by
  unfold signed sign
  split
  · case isTrue negative =>
      have value : (-num).toNat = num.toInt.natAbs := by
        rw [BitVec.toInt_eq_toNat_cond] at negative ⊢
        rw [BitVec.toNat_neg]
        have := num.isLt
        split at negative
        · omega
        · rw [if_neg ‹_›]
          omega
      rw [value]
      rfl
  · case isFalse positive =>
      have value : num.toNat = num.toInt.natAbs := by
        rw [BitVec.toInt_eq_toNat_cond] at positive ⊢
        have := num.isLt
        split at positive
        · rw [if_pos ‹_›]
          omega
        · omega
      rw [value]
      rfl

theorem puts_nat {value : Nat} : f.puts value =
    numeral f.conv.base f.locals.padc value f.locals.width := by
  rw [Directive.puts, sign, if_neg (by omega)]
  rfl

theorem convertOut_int {high : BitVec 32} {slot : BitVec 64} :
    convertOut high f.conv.char f.locals [.word slot] = some ([], f.puts (f.taken slot)) := by
  obtain ⟨flag, width, size, conv⟩ := f
  cases conv with
  | d => exact congrArg (fun out => some ([], out)) signed_puts
  | u =>
    have same : (Directive.taken ⟨flag, width, size, .u⟩ slot) = slot.toNat := by cases size <;> rfl
    rw [same, puts_nat]
    rfl
  | o =>
    have same : (Directive.taken ⟨flag, width, size, .o⟩ slot) =
        (getint slot size.lflag).toNat := by cases size <;> rfl
    rw [same, puts_nat]
    rfl
  | x =>
    have same : (Directive.taken ⟨flag, width, size, .x⟩ slot) = slot.toNat := by cases size <;> rfl
    rw [same, puts_nat]
    rfl

/-- What `vprintfmt` does with a directive. -/
theorem emit_directive {high : BitVec 32} {slot : BitVec 64} :
    emit high (tokens f.text) [.word slot] = some [f.puts (f.taken slot)] := by
  have known : f.conv.char ∈ conversions := by cases f.conv <;> decide
  obtain ⟨t, headed, locals, args⟩ := @header_mods f [.word slot]
  rw [Directive.text, tokens_directive mods_modifiers known, tokens, emit, emitToken, headed,
    Option.bind_some, locals, args, convertOut_int]
  rfl

theorem text_nonul : 0 ∉ f.text := by
  intro member
  rcases List.mem_cons.mp member with same | member
  · exact absurd same (by decide)
  rcases List.mem_append.mp member with member | member
  · exact absurd (mods_modifiers 0 member) (by decide)
  · have conv : f.conv.char ≠ 0 := by cases f.conv <;> decide
    exact conv (List.mem_singleton.mp member).symm

theorem conforms_iff_puts {high : BitVec 32} {slot : BitVec 64} :
    f.Conforms high slot ↔ f.puts (f.taken slot) = f.printf (f.value slot) := by
  have ran : ∀ (σ : Type) (putch : σ → Int → σ) (s : σ) (n : Nat), f.text.length + 8 ≤ n →
      vprintfmt putch high n [] (f.text ++ [0]) [.word slot] s =
        some ((f.puts (f.taken slot)).foldl putch s) := by
    intro σ putch s n fuel
    rw [vprintfmt_emit text_nonul fuel, emit_directive]
    exact congrArg (fun out => some (out.foldl putch s)) (List.append_nil _)
  constructor
  · intro conforms
    have put := conforms (List Int) (fun out c => out ++ [c]) [] _ (Nat.le_refl _)
    rw [ran _ _ _ _ (Nat.le_refl _), foldl_snoc, foldl_snoc, List.nil_append, List.nil_append] at put
    exact Option.some.inj put
  · intro same σ putch s n fuel
    rw [ran σ putch s n fuel, same]

end Header

section Compare

variable {f : Directive} {base : Base} {v x : Int} {left right l : List Int} {w : Nat}

def readBack (base : Base) (l : List Int) : Nat :=
  l.foldl (fun value c =>
    if c = 32 ∨ c = 45 then value
    else value * base.val + (if c < 58 then c - 48 else c - 87).toNat) 0

theorem hexDigit_value (d : Nat) : ¬(hexDigit d = 32 ∨ hexDigit d = 45) ∧
    (if hexDigit d < 58 then hexDigit d - 48 else hexDigit d - 87).toNat = d := by
  unfold hexDigit
  split
  · rw [if_pos (by omega)]
    omega
  · rw [if_neg (by omega)]
    omega

theorem readBack_parts (before : ∀ c ∈ left, c = 32 ∨ c = 45 ∨ c = 48) (behind : ∀ c ∈ right, c = 32) :
    readBack base (left ++ (figures base v ++ right)) = v.natAbs := by
  have skipped : left.foldl (fun value c => if c = 32 ∨ c = 45 then value
      else value * base.val + (if c < 58 then c - 48 else c - 87).toNat) 0 = 0 := by
    induction left with
    | nil => rfl
    | cons c left ih =>
      rw [List.foldl_cons]
      rcases before c List.mem_cons_self with rfl | rfl | rfl
      · exact ih fun c member => before c (List.mem_cons_of_mem _ member)
      · exact ih fun c member => before c (List.mem_cons_of_mem _ member)
      · rw [if_neg (by decide), Nat.zero_mul]
        exact ih fun c member => before c (List.mem_cons_of_mem _ member)
  have ended : ∀ value, right.foldl (fun value c => if c = 32 ∨ c = 45 then value
      else value * base.val + (if c < 58 then c - 48 else c - 87).toNat) value = value := by
    intro value
    induction right with
    | nil => rfl
    | cons c right ih =>
      rw [List.foldl_cons, if_pos (.inl (behind c List.mem_cons_self))]
      exact ih fun c member => behind c (List.mem_cons_of_mem _ member)
  rw [readBack, List.foldl_append, List.foldl_append, skipped, ended, figures, List.foldl_map]
  refine Eq.trans (List.foldl_ext _ _ _ fun value d _ => ?_) (foldl_digits base.least)
  obtain ⟨figure, same⟩ := hexDigit_value d
  rw [if_neg figure, same]

theorem count_figures : (figures base v).count 45 = 0 := by
  refine List.count_eq_zero.mpr fun member => ?_
  obtain ⟨d, -, same⟩ := List.mem_map.mp member
  exact (hexDigit_value d).1 (.inr same)

theorem sign_count : (sign v).count 45 = (sign v).length := by
  unfold sign
  split <;> rfl

theorem sign_dash : ∀ c ∈ sign v, c = 32 ∨ c = 45 ∨ c = 48 := by
  unfold sign
  split <;> decide

theorem Directive.printf_parts (f : Directive) (v : Int) : ∃ left right,
    f.printf v = left ++ (figures f.conv.base v ++ right) ∧
      (∀ c ∈ left, c = 32 ∨ c = 45 ∨ c = 48) ∧ (∀ c ∈ right, c = 32) ∧
        left.count 45 = (sign v).length ∧ left.length + right.length =
          (sign v).length + (f.width - ((sign v).length + f.places v)) := by
  obtain ⟨flag, width, size, conv⟩ := f
  unfold Directive.printf
  generalize width - ((sign v).length + Directive.places ⟨flag, width, size, conv⟩ v) = fill
  cases flag with
  | none =>
    refine ⟨List.replicate fill 32 ++ sign v, [], ?_, ?_, nofun, ?_, ?_⟩
    · rw [List.append_nil, List.append_assoc]
    · exact List.forall_mem_append.mpr ⟨fun c member => .inl (List.eq_of_mem_replicate member), sign_dash⟩
    · rw [List.count_append, sign_count, List.count_replicate]
      simp
    · rw [List.length_append, List.length_replicate, List.length_nil]
      omega
  | zero =>
    refine ⟨sign v ++ List.replicate fill 48, [], ?_, ?_, nofun, ?_, ?_⟩
    · rw [List.append_nil, List.append_assoc]
    · exact List.forall_mem_append.mpr ⟨sign_dash, fun c member =>
        .inr (.inr (List.eq_of_mem_replicate member))⟩
    · rw [List.count_append, sign_count, List.count_replicate]
      simp
    · rw [List.length_append, List.length_replicate, List.length_nil]
      omega
  | minus =>
    refine ⟨sign v, List.replicate fill 32, rfl, sign_dash, fun c member =>
      List.eq_of_mem_replicate member, sign_count, ?_⟩
    rw [List.length_replicate]

theorem Directive.puts_parts (f : Directive) (x : Int) : ∃ left,
    f.puts x = left ++ (figures f.conv.base x ++ []) ∧ (∀ c ∈ left, c = 32 ∨ c = 45 ∨ c = 48) ∧
      left.count 45 = (sign x).length +
        (if f.flag = .minus then (f.locals.width - f.places x).toNat else 0) ∧
      left.length = (sign x).length + (f.locals.width - f.places x).toNat := by
  refine ⟨sign x ++ List.replicate (f.locals.width - f.places x).toNat f.flag.padc, ?_, ?_, ?_, ?_⟩
  · rw [List.append_nil, List.append_assoc]
    rfl
  · refine List.forall_mem_append.mpr ⟨sign_dash, fun c member => ?_⟩
    rw [List.eq_of_mem_replicate member]
    cases f.flag <;> decide
  · rw [List.count_append, sign_count, List.count_replicate]
    cases f.flag <;> rfl
  · rw [List.length_append, List.length_replicate]

theorem sign_length (v : Int) : (sign v).length = if v < 0 then 1 else 0 := by
  unfold sign
  split <;> rfl

theorem places_bound (small : v.natAbs < 2 ^ 64) : 0 < f.places v ∧ f.places v ≤ 64 :=
  ⟨digits_length_pos, digits_length_le f.conv.base.least (by decide)
    (Nat.lt_of_lt_of_le small (Nat.pow_le_pow_left f.conv.base.least 64))⟩

/-- A width that is no `int` turns into a smaller one. -/
theorem locals_width (f : Directive) : f.locals.width ≤ 0 ∧ f.width = 0 ∨
    f.locals.width = f.width ∧ f.width < 2147483648 ∨ 2147483648 ≤ f.width ∧
      f.locals.width < 2147483648 ∧ f.locals.width ≤ f.width - 4294967296 := by
  have wide : f.locals.width = if f.width = 0 then -1 else wrap f.width := rfl
  rw [wide]
  generalize f.width = w
  split
  · exact .inl ⟨by decide, by assumption⟩
  · refine .inr ?_
    unfold wrap
    rw [Int.bmod_def]
    split <;> omega

theorem dashed {pad : Nat} (value : x.natAbs = v.natAbs)
    (dashes : (sign x).length + pad = (sign v).length) :
    x = v ∧ pad = 0 ∨ v < 0 ∧ x = -v ∧ pad = 1 := by
  rw [sign_length, sign_length] at dashes
  split at dashes <;> split at dashes <;> omega

/-- The padding on the left is right for a value without a sign, when the width is an `int`. -/
theorem padded {w p : Nat} {wide : Int} (bound : 0 < p ∧ p ≤ 64)
    (widths : wide ≤ 0 ∧ w = 0 ∨ wide = w ∧ w < 2147483648 ∨
      2147483648 ≤ w ∧ wide < 2147483648 ∧ wide ≤ w - 4294967296)
    (length : (sign v).length + (wide - p).toNat = (sign v).length + (w - ((sign v).length + p))) :
    w ≤ p ∨ 0 ≤ v ∧ w < 2 ^ 31 := by
  rw [sign_length] at length
  rcases widths with ⟨-, zero⟩ | ⟨rfl, small⟩ | ⟨large, most, congruent⟩
  · omega
  · split at length <;> omega
  · exfalso
    split at length <;> omega

theorem undashed (value : x.natAbs = v.natAbs) (dashes : (sign x).length = (sign v).length) :
    x = v := by
  rw [sign_length, sign_length] at dashes
  split at dashes <;> split at dashes <;> omega

/-- The two lists have the same digits, as many dashes and the same length only in these cases. -/
theorem puts_eq_printf (small : v.natAbs < 2 ^ 64) (same : f.puts x = f.printf v) :
    x = v ∧ (f.width ≤ f.places v ∨ f.flag ≠ .minus ∧ 0 ≤ v ∧ f.width < 2 ^ 31) ∨
      f.flag = .minus ∧ v < 0 ∧ x = -v ∧ f.width = f.places v + 1 := by
  obtain ⟨left, puts, before, dashes, length⟩ := f.puts_parts x
  obtain ⟨left', right, printed, before', behind, dashes', length'⟩ := f.printf_parts v
  have value : x.natAbs = v.natAbs := by
    have reads := congrArg (readBack f.conv.base) same
    rwa [puts, printed, readBack_parts before (List.forall_mem_nil _), readBack_parts before' behind] at reads
  have places : f.places x = f.places v := by unfold Directive.places; rw [value]
  have figured : figures f.conv.base x = figures f.conv.base v := by unfold figures; rw [value]
  have counts := congrArg (List.count 45) same
  have lengths := congrArg List.length same
  have none : right.count 45 = 0 := List.count_eq_zero.mpr fun member => by
    cases behind 45 member
  rw [puts, printed, List.count_append, List.count_append, List.count_append, List.count_append,
    dashes, dashes', count_figures, count_figures, none, List.count_nil, places] at counts
  rw [puts, printed, List.length_append, List.length_append, List.length_append, List.length_append,
    figured, List.length_nil, length, places] at lengths
  have bound := @places_bound f v small
  clear small
  have wide := locals_width f
  generalize f.locals.width = wide' at *
  have long : (sign x).length + (wide' - f.places v).toNat =
      (sign v).length + (f.width - ((sign v).length + f.places v)) := by omega
  by_cases minus : f.flag = .minus
  · rw [if_pos minus] at counts
    rcases @dashed v x (wide' - f.places v).toNat value (by omega) with
      ⟨rfl, none⟩ | ⟨negative, opposite, one⟩
    · have signed : (sign x).length ≤ 1 := by
        rw [sign_length]
        split <;> decide
      exact .inl ⟨rfl, .inl (by omega)⟩
    · refine .inr ⟨minus, negative, opposite, ?_⟩
      have signed : (sign v).length = 1 := by rw [sign_length, if_pos negative]
      omega
  · rw [if_neg minus] at counts
    obtain rfl := undashed value (by omega)
    exact .inl ⟨rfl, (padded bound wide long).imp_right fun fits => ⟨minus, fits⟩⟩

theorem puts_printf (bound : f.places v ≤ 64)
    (plain : x = v ∧ (f.width ≤ f.places v ∨ f.flag ≠ .minus ∧ 0 ≤ v ∧ f.width < 2 ^ 31) ∨
      f.flag = .minus ∧ v < 0 ∧ x = -v ∧ f.width = f.places v + 1) : f.puts x = f.printf v := by
  have wide := locals_width f
  have put : f.puts x = sign x ++ (List.replicate (f.locals.width - f.places x).toNat f.flag.padc ++
    figures f.conv.base x) := rfl
  rw [put, Directive.printf]
  rcases plain with ⟨rfl, narrow | ⟨flag, positive, fits⟩⟩ | ⟨flag, negative, rfl, width⟩
  · have none : (f.locals.width - f.places x).toNat = 0 := by omega
    have fill : f.width - ((sign x).length + f.places x) = 0 := by omega
    rw [none, fill]
    cases f.flag with
    | none => rfl
    | zero => rfl
    | minus => exact congrArg (sign x ++ ·) (List.append_nil _).symm
  · have unsigned : sign x = [] := if_neg (Int.not_lt.mpr positive)
    have pad : (f.locals.width - f.places x).toNat = f.width - f.places x := by omega
    rw [unsigned, pad, List.length_nil, Nat.zero_add]
    cases same : f.flag with
    | none => rfl
    | zero => rfl
    | minus => exact absurd same flag
  · have same : f.places (-v) = f.places v := by
      unfold Directive.places
      rw [Int.natAbs_neg]
    have figured : figures f.conv.base (-v) = figures f.conv.base v := by
      unfold figures
      rw [Int.natAbs_neg]
    have unsigned : sign (-v) = [] := if_neg (by omega)
    have signed : sign v = [45] := if_pos negative
    have pad : (f.locals.width - f.places (-v)).toNat = 1 := by omega
    have fill : f.width - ([(45 : Int)].length + f.places v) = 0 := by
      rw [List.length_singleton]
      omega
    rw [unsigned, signed, pad, fill, figured, flag]
    exact congrArg (45 :: ·) (List.append_nil _).symm

theorem value_bound {slot : BitVec 64} : (f.value slot).natAbs < 2 ^ 64 := by
  have long := slot.isLt
  have short := (int slot).isLt
  have least := BitVec.le_toInt slot
  have most := BitVec.toInt_lt (x := slot)
  have least' := BitVec.le_toInt (int slot)
  have most' := BitVec.toInt_lt (x := int slot)
  unfold Directive.value
  split <;> omega

/-- A directive for an integer does what C specifies exactly when it is plain. -/
theorem conforms_iff (f : Directive) (high : BitVec 32) (slot : BitVec 64) :
    f.Conforms high slot ↔ f.Plain slot := by
  have small := @value_bound f slot
  rw [conforms_iff_puts]
  exact ⟨puts_eq_printf small, puts_printf (places_bound small).2⟩

/-- The sign before the padding, dashes for padding, an `int` whose slot is not sign-extended, and
an octal `int` that is. -/
theorem not_conforms : ¬Directive.Conforms ⟨.none, 5, .int, .d⟩ 0 (BitVec.ofInt 64 (-42)) ∧
    ¬Directive.Conforms ⟨.minus, 5, .int, .d⟩ 0 42 ∧
      ¬Directive.Conforms ⟨.none, 0, .int, .d⟩ 0 0xFFFFFFFF ∧
        ¬Directive.Conforms ⟨.none, 0, .int, .o⟩ 0 0xFFFFFFFF := by
  refine ⟨fun conforms => ?_, fun conforms => ?_, fun conforms => ?_, fun conforms => ?_⟩
  all_goals
    have same := conforms_iff_puts.mp conforms
    revert same
    decide

end Compare

end Printfmt

end Jos
