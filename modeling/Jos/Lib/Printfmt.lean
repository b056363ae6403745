import Jos.Foundation.Numeral

/-! The formatting routines of lib/printfmt.c. `putch` is any function of the caller's, and
`putdat` what it works on. A format is its bytes with the final NUL, and a string argument
the bytes that may be read there; to read any other is a failure, as is a missing argument. -/

set_option autoImplicit false

namespace Jos

open Foundation

namespace Printfmt

abbrev Byte := BitVec 8

def chr (c : Char) : Byte := BitVec.ofNat 8 c.toNat

def bytes (text : String) : List Byte := text.toList.map chr

def cstring (text : String) : List Byte := bytes text ++ [0]

/-- The value that an `int` takes when it has grown to `n`. -/
def wrap (n : Int) : Int := n.bmod (2 ^ 32)

structure Base where
  val : Nat
  least : 2 ≤ val

def octal : Base := ⟨8, by decide⟩
def decimal : Base := ⟨10, by decide⟩
def hex : Base := ⟨16, by decide⟩

/-- "0123456789abcdef"[d] -/
def hexDigit (d : Nat) : Int := if d < 10 then 48 + d else 87 + d

/-- An argument: a slot of 64 bits, of which an `int` has the lower half, or a `char *`. -/
inductive Arg where
  | word (slot : BitVec 64)
  | string (p : Option (List Byte))

def word : List Arg → Option (BitVec 64 × List Arg)
  | .word slot :: args => some (slot, args)
  | _ => none

def string : List Arg → Option (Option (List Byte) × List Arg)
  | .string p :: args => some (p, args)
  | _ => none

def int (slot : BitVec 64) : BitVec 32 := slot.setWidth 32

def getuint (slot : BitVec 64) (lflag : Nat) : BitVec 64 :=
  if 1 ≤ lflag then slot else (int slot).setWidth 64

def getint (slot : BitVec 64) (lflag : Nat) : BitVec 64 :=
  if 1 ≤ lflag then slot else (int slot).signExtend 64

structure Locals where
  padc : Int := 32
  width : Int := -1
  precision : Int := -1
  lflag : Nat := 0
  altflag : Bool := false

/-- `process_precision` -/
def Locals.number (d : Locals) (n : Int) : Locals :=
  if d.width < 0 then { d with width := n, precision := -1 } else { d with precision := n }

def Locals.dot (d : Locals) : Locals := if d.width < 0 then { d with width := 0 } else d

def isDigit (ch : Byte) : Bool := chr '0' ≤ ch ∧ ch ≤ chr '9'

/-- `precision * 10 + ch - '0'` -/
def append (n : Int) (ch : Byte) : Int := wrap (n * 10 + ch.toNat - 48)

/-- The scanner between two characters of a directive. `num` is the number whose digits are
being read. -/
structure Scanner where
  num : Option Int := none
  locals : Locals := {}
  args : List Arg

def Scanner.done (t : Scanner) : Locals := t.num.elim t.locals t.locals.number

/-- The characters that lead back to `reswitch`. -/
def modifiers : List Byte := bytes "-0123456789*.#l"

def modify (t : Scanner) (ch : Byte) : Option Scanner :=
  if t.num.isSome ∧ isDigit ch then some { t with num := t.num.map (append · ch) }
  else
    let d := t.done
    if ch = chr '-' then some ⟨none, { d with padc := 45 }, t.args⟩
    else if ch = chr '0' then some ⟨none, { d with padc := 48 }, t.args⟩
    else if isDigit ch then some ⟨some (append 0 ch), d, t.args⟩
    else if ch = chr '*' then do
      let (slot, args) ← word t.args
      pure ⟨none, d.number (int slot).toInt, args⟩
    else if ch = chr '.' then some ⟨none, d.dot, t.args⟩
    else if ch = chr '#' then some ⟨none, { d with altflag := true }, t.args⟩
    else some ⟨none, { d with lflag := d.lflag + 1 }, t.args⟩

/-- Where the scanner is when it has met a character that ends a directive. The bytes before the
position are in `back`, the last one first. -/
structure Scanned where
  ch : Byte
  back : List Byte
  rest : List Byte
  locals : Locals
  args : List Arg

/-- From `reswitch` to the end of a directive. -/
def scan : List Byte → List Byte → Scanner → Option Scanned
  | _, [], _ => none
  | back, ch :: rest, t =>
    if ch ∈ modifiers then (modify t ch).bind (scan (ch :: back) rest)
    else some ⟨ch, ch :: back, rest, t.done, t.args⟩

/-- `for (; fmt[-1] != '%'; fmt--)` -/
def rewind : List Byte → List Byte → Option (List Byte × List Byte)
  | [], _ => none
  | b :: back, rest => if b = chr '%' then some (b :: back, rest) else rewind back (b :: rest)

def strnlen : List Byte → Nat → Option Nat
  | _, 0 => some 0
  | [], _ + 1 => none
  | c :: s, size + 1 => if c = 0 then some 0 else (strnlen s size).map (· + 1)

section Putch

variable {σ : Type} (putch : σ → Int → σ)

/-- A loop that puts `padc` while `width` is positive. -/
def pad (padc : Int) : Nat → σ → σ
  | 0, s => s
  | n + 1, s => pad padc n (putch s padc)

/-- `width` starts as an `int`. It only goes down from there, and is not wrapped. -/
def printnum (base : Base) (padc : Int) (num : Nat) (width : Int) (s : σ) : σ :=
  if base.val ≤ num then
    putch (printnum base padc (num / base.val) (width - 1) s) (hexDigit (num % base.val))
  else putch (pad putch padc (width - 1).toNat s) (hexDigit (num % base.val))
termination_by num
decreasing_by
  have least := base.least
  exact Nat.div_lt_self (by omega) (by omega)

/-- The loop over the characters of a string, with the width that is left. -/
def putChars (altflag : Bool) : List Byte → Int → Int → σ → Option (Int × σ)
  | [], _, _, _ => none
  | c :: p, precision, width, s =>
    -- a plain `char` is signed
    let ch := c.toInt
    if ch = 0 then some (width, s)
    else if precision < 0 ∨ 0 ≤ precision - 1 then
      let s := if altflag ∧ (ch < 32 ∨ 126 < ch) then putch s 63 else putch s ch
      putChars altflag p (if precision < 0 then precision else precision - 1) (width - 1) s
    else some (width, s)

def putString (d : Locals) (p : List Byte) (s : σ) : Option σ := do
  let (width, s) ←
    if 0 < d.width ∧ d.padc ≠ 45 then do
      let n ← strnlen p (BitVec.ofInt 64 d.precision).toNat
      let width := d.width - wrap n
      pure (min width 0, pad putch d.padc width.toNat s)
    else pure (d.width, s)
  let (width, s) ← putChars putch d.altflag p d.precision width s
  pure (pad putch 32 width.toNat s)

def maxError : Int := 22

def errorString : Nat → Option String
  | 1 => some "unspecified error"
  | 2 => some "bad environment"
  | 3 => some "invalid parameter"
  | 4 => some "out of memory"
  | 5 => some "out of environments"
  | 6 => some "segmentation fault"
  | 8 => some "env is not recving"
  | 9 => some "unexpected end of file"
  | 10 => some "no free space on disk"
  | 11 => some "too many files are open"
  | 12 => some "file or block not found"
  | 13 => some "invalid path"
  | 14 => some "file already exists"
  | 15 => some "file is not a valid executable"
  | 16 => some "operation not supported"
  | _ => none

/-- `nested` is the call of `printfmt`, and `high` what is in the upper half of the slot in which it
is handed an `int`. The table is not looked at beyond its ends. -/
def printErr (nested : List Byte → List Arg → σ → Option σ) (high err : BitVec 32) (s : σ) :
    Option σ :=
  let err := if err.toInt < 0 then -err else err
  if maxError ≤ err.toInt then nested (cstring "error %d") [.word (high ++ err)] s
  else if err.toInt < 0 then none
  else
    match errorString err.toNat with
    | none => nested (cstring "error %d") [.word (high ++ err)] s
    | some p => nested (cstring "%s") [.string (some (cstring p))] s

def printSigned (d : Locals) (num : BitVec 64) (s : σ) : σ :=
  if num.toInt < 0 then printnum putch decimal d.padc (-num).toNat d.width (putch s 45)
  else printnum putch decimal d.padc num.toNat d.width s

def conversions : List Byte := bytes "cesduopx%"

def convert (nested : List Byte → List Arg → σ → Option σ) (high : BitVec 32) (ch : Byte)
    (d : Locals) (args : List Arg) (s : σ) : Option (List Arg × σ) :=
  if ch = chr 's' then do
    let (p, args) ← string args
    let s ← putString putch d (p.getD (cstring "(null)")) s
    pure (args, s)
  else if ch = chr '%' then some (args, putch s ch.toNat)
  else do
    let (slot, args) ← word args
    let s ←
      if ch = chr 'c' then some (putch s (int slot).toInt)
      else if ch = chr 'e' then printErr nested high (int slot) s
      else if ch = chr 'd' then some (printSigned putch d (getint slot 3) s)
      else if ch = chr 'u' then
        some (printnum putch decimal d.padc (getuint slot 3).toNat d.width s)
      else if ch = chr 'o' then
        some (printnum putch octal d.padc (getint slot d.lflag).toNat d.width s)
      else if ch = chr 'p' then
        some (printnum putch hex d.padc slot.toNat d.width (putch (putch s 48) 120))
      else some (printnum putch hex d.padc (getuint slot 3).toNat d.width s)
    pure (args, s)

/-- `vprintfmt`, at a position in the format. Each turn of its outer loop, and of those of the calls
that it makes, takes one unit of fuel. -/
def vprintfmt (high : BitVec 32) : Nat → List Byte → List Byte → List Arg → σ → Option σ
  | 0, _, _, _, _ => none
  | _ + 1, _, [], _, _ => none
  | fuel + 1, back, ch :: rest, args, s =>
    if ch ≠ chr '%' then
      if ch = 0 then some s else vprintfmt high fuel (ch :: back) rest args (putch s ch.toNat)
    else do
      let t ← scan (ch :: back) rest { args }
      if t.ch ∈ conversions then
        let (args, s) ← convert putch (vprintfmt high fuel []) high t.ch t.locals t.args s
        vprintfmt high fuel t.back t.rest args s
      else
        -- unrecognized escape sequence: just print it literally
        let (back, rest) ← rewind t.back.tail (t.ch :: t.rest)
        vprintfmt high fuel back rest t.args (putch s 37)

end Putch

/-! What is put, as lists. -/

section Output

def numeral (base : Base) (padc : Int) (num : Nat) (width : Int) : List Int :=
  List.replicate (width - (digits base.val num).length).toNat padc ++
    (digits base.val num).map hexDigit

def signed (d : Locals) (num : BitVec 64) : List Int :=
  if num.toInt < 0 then 45 :: numeral decimal d.padc (-num).toNat d.width
  else numeral decimal d.padc num.toNat d.width

def shown (altflag : Bool) (c : Byte) : Int :=
  if altflag ∧ (c.toInt < 32 ∨ 126 < c.toInt) then 63 else c.toInt

def chars (altflag : Bool) : List Byte → Int → Option (List Int)
  | [], _ => none
  | c :: p, precision =>
    if c.toInt = 0 then some []
    else if precision < 0 ∨ 0 ≤ precision - 1 then
      (chars altflag p (if precision < 0 then precision else precision - 1)).map
        (shown altflag c :: ·)
    else some []

/-- The width that is left when a string has been padded on the left, and the padding. -/
def indent (d : Locals) (p : List Byte) : Option (Int × List Int) :=
  if 0 < d.width ∧ d.padc ≠ 45 then
    (strnlen p (BitVec.ofInt 64 d.precision).toNat).map fun n : Nat =>
      (min (d.width - wrap n) 0, List.replicate (d.width - wrap n).toNat d.padc)
  else some (d.width, [])

def stringOut (d : Locals) (p : List Byte) : Option (List Int) := do
  let (width, left) ← indent d p
  let out ← chars d.altflag p d.precision
  pure (left ++ out ++ List.replicate (width - out.length).toNat 32)

def plain (text : String) : List Int := (bytes text).map BitVec.toInt

def unknownErr (high err : BitVec 32) : List Int := plain "error " ++ signed {} (high ++ err)

def errOut (high err : BitVec 32) : Option (List Int) :=
  let err := if err.toInt < 0 then -err else err
  if maxError ≤ err.toInt then some (unknownErr high err)
  else if err.toInt < 0 then none
  else some ((errorString err.toNat).elim (unknownErr high err) plain)

def convertOut (high : BitVec 32) (ch : Byte) (d : Locals) (args : List Arg) :
    Option (List Arg × List Int) :=
  if ch = chr 's' then do
    let (p, args) ← string args
    let out ← stringOut d (p.getD (cstring "(null)"))
    pure (args, out)
  else if ch = chr '%' then some (args, [ch.toNat])
  else do
    let (slot, args) ← word args
    let out ←
      if ch = chr 'c' then some [(int slot).toInt]
      else if ch = chr 'e' then errOut high (int slot)
      else if ch = chr 'd' then some (signed d (getint slot 3))
      else if ch = chr 'u' then some (numeral decimal d.padc (getuint slot 3).toNat d.width)
      else if ch = chr 'o' then some (numeral octal d.padc (getint slot d.lflag).toNat d.width)
      else if ch = chr 'p' then some (48 :: 120 :: numeral hex d.padc slot.toNat d.width)
      else some (numeral hex d.padc (getuint slot 3).toNat d.width)
    pure (args, out)

variable {σ : Type} {putch : σ → Int → σ} {s : σ} {base : Base} {padc width precision : Int}
  {num n : Nat} {altflag : Bool} {p : List Byte} {d : Locals} {high err : BitVec 32} {ch : Byte}
  {args : List Arg}

theorem foldl_snoc {l front : List Int} : l.foldl (fun out c => out ++ [c]) front = front ++ l := by
  induction l generalizing front with
  | nil => exact (List.append_nil front).symm
  | cons c l ih => rw [List.foldl_cons, ih, List.append_assoc, List.singleton_append]

theorem pad_eq : pad putch padc n s = (List.replicate n padc).foldl putch s := by
  induction n generalizing s with
  | zero => rfl
  | succ n ih => rw [pad, ih, List.replicate_succ, List.foldl_cons]

theorem numeral_small (small : num < base.val) : numeral base padc num width =
    List.replicate (width - 1).toNat padc ++ [hexDigit num] := by
  rw [numeral, digits_small small]
  rfl

theorem numeral_large (large : base.val ≤ num) : numeral base padc num width =
    numeral base padc (num / base.val) (width - 1) ++ [hexDigit (num % base.val)] := by
  have length : width - ((digits base.val (num / base.val) ++ [num % base.val]).length : Int) =
      width - 1 - (digits base.val (num / base.val)).length := by
    rw [List.length_append, List.length_singleton]
    omega
  rw [numeral, numeral, digits_large base.least large, length, List.map_append, List.map_singleton,
    List.append_assoc]

theorem printnum_eq : printnum putch base padc num width s =
    (numeral base padc num width).foldl putch s := by
  fun_induction printnum putch base padc num width s with
  | case1 num width large ih =>
    rw [ih, numeral_large large, List.foldl_append, List.foldl_cons, List.foldl_nil]
  | case2 num width small =>
    rw [pad_eq, numeral_small (Nat.not_le.mp small), Nat.mod_eq_of_lt (Nat.not_le.mp small),
      List.foldl_append, List.foldl_cons, List.foldl_nil]

theorem printSigned_eq {value : BitVec 64} :
    printSigned putch d value s = (signed d value).foldl putch s := by
  unfold printSigned signed
  split
  · rw [printnum_eq, List.foldl_cons]
  · rw [printnum_eq]

theorem putChars_eq : putChars putch altflag p precision width s =
    (chars altflag p precision).map fun out => (width - out.length, out.foldl putch s) := by
  induction p generalizing precision width s with
  | nil => rfl
  | cons c p ih =>
    unfold putChars chars
    simp only
    split
    · simp
    · split
      · have one : (if altflag = true ∧ (c.toInt < 32 ∨ 126 < c.toInt) then putch s 63
            else putch s c.toInt) = putch s (shown altflag c) := by
          unfold shown
          split <;> rfl
        rw [one, ih, Option.map_map]
        congr 1
        funext out
        simp only [Function.comp_apply, List.length_cons, List.foldl_cons, Prod.mk.injEq, and_true]
        omega
      · simp

theorem putString_eq : putString putch d p s = (stringOut d p).map (·.foldl putch s) := by
  unfold putString stringOut indent
  split
  · cases strnlen p (BitVec.ofInt 64 d.precision).toNat with
    | none => rfl
    | some n =>
      simp only [Option.map_some, Option.bind_eq_bind, Option.bind_some, Option.pure_def, putChars_eq]
      cases chars d.altflag p d.precision with
      | none => rfl
      | some out => simp [pad_eq]
  · simp only [Option.bind_eq_bind, Option.bind_some, Option.pure_def, putChars_eq]
    cases chars d.altflag p d.precision with
    | none => rfl
    | some out => simp [pad_eq]

/-- What `printErr` relies on in the calls of `printfmt` that it makes. -/
structure Prints (putch : σ → Int → σ) (nested : List Byte → List Arg → σ → Option σ) : Prop where
  number : ∀ slot s, nested (cstring "error %d") [.word slot] s =
    some ((plain "error " ++ signed {} slot).foldl putch s)
  text : ∀ text s, 0 ∉ bytes text →
    nested (cstring "%s") [.string (some (cstring text))] s = some ((plain text).foldl putch s)

theorem errorString_bytes {k : Nat} {text : String} (named : errorString k = some text) :
    0 ∉ bytes text := by
  unfold errorString at named
  split at named <;> first | (obtain rfl := Option.some.inj named; decide) | cases named

theorem printErr_eq {nested : List Byte → List Arg → σ → Option σ} (prints : Prints putch nested) :
    printErr nested high err s = (errOut high err).map (·.foldl putch s) := by
  unfold printErr errOut
  generalize (if err.toInt < 0 then -err else err) = err
  simp only
  split
  · exact prints.number _ s
  · split
    · rfl
    · cases named : errorString err.toNat with
      | none => exact prints.number _ s
      | some text => exact prints.text text s (errorString_bytes named)

theorem convert_eq {nested : List Byte → List Arg → σ → Option σ} (prints : Prints putch nested) :
    convert putch nested high ch d args s =
      (convertOut high ch d args).map fun (args, out) => (args, out.foldl putch s) := by
  unfold convert convertOut
  split
  · cases string args with
    | none => rfl
    | some taken =>
      simp only [Option.bind_eq_bind, Option.bind_some, Option.pure_def, putString_eq]
      cases stringOut d (taken.1.getD (cstring "(null)")) <;> rfl
  · split
    · rfl
    · cases word args with
      | none => rfl
      | some taken =>
        simp only [Option.bind_eq_bind, Option.bind_some, Option.pure_def, printErr_eq prints,
          printSigned_eq, printnum_eq]
        split
        · rfl
        · split
          · cases errOut high (int taken.1) <;> rfl
          · split
            · rfl
            · split
              · rfl
              · split
                · rfl
                · split <;> rfl

end Output

end Printfmt

end Jos
