import Mathlib.Data.List.TakeWhile

/-! The flags of a command: `argstart`, `argnext`, `argvalue` and `argnextvalue` of lib/args.c,
on the `argc` and `argv` of the caller. -/

set_option autoImplicit false

namespace Jos

namespace Args

/-- What a `char *` points to, up to the null byte. -/
abbrev Str := List (BitVec 8)

def dash : BitVec 8 := 0x2D

def byteAt (s : Str) (i : Nat) : Option (BitVec 8) := (s ++ [0])[i]?

/-- The pointers of a vector up to its null pointer, which is in the count. -/
def reach (argv : List (Option Str)) : Nat := (argv.takeWhile Option.isSome).length + 1

/-- `memmove` between pointers of a vector, none of them behind its null pointer. -/
def memmove (argv : List (Option Str)) (dst src n : Nat) : Option (List (Option Str)) :=
  if dst + n ≤ reach argv ∧ src + n ≤ reach argv then
    some (argv.take dst ++ ((argv.drop src).take n ++ argv.drop (dst + n)))
  else none

/-- `struct Argstate`, with what its pointers point to. -/
structure Argstate where
  argc : Nat
  argv : Option (List (Option Str))
  curarg : Option Str
  argvalue : Option Str
deriving DecidableEq, Repr

def argstart (argc : Nat) (argv : Option (List (Option Str))) : Argstate :=
  ⟨argc, argv, if 1 < argc ∧ argv.isSome then some [] else none, none⟩

namespace Argstate

/-- `args->argv[i]`, to be dereferenced -/
def word (args : Argstate) (i : Nat) : Option Str :=
  args.argv.bind fun argv => if i < reach argv then argv[i]?.join else none

def shift (args : Argstate) : Option Argstate := do
  let argv ← args.argv
  let argv ← memmove argv 1 2 (args.argc - 1)
  some { args with argv := some argv, argc := args.argc - 1 }

/-- The label `endofargs` -/
def endofargs (args : Argstate) : Option (Int × Argstate) :=
  some (-1, { args with curarg := none })

def flag (args : Argstate) (cur : Str) : Option (Int × Argstate) := do
  let arg ← byteAt cur 0
  some (arg.toNat, { args with curarg := some (cur.drop 1) })

end Argstate

def argnext (args : Argstate) : Option (Int × Argstate) :=
  let args := { args with argvalue := none }
  match args.curarg with
  | none => some (-1, args)
  | some cur => do
      if (← byteAt cur 0) ≠ 0 then args.flag cur
      else if args.argc = 1 then args.endofargs
      else
        let next ← args.word 1
        if (← byteAt next 0) ≠ dash then args.endofargs
        else if (← byteAt next 1) = 0 then args.endofargs
        else
          let cur := next.drop 1
          let args ← args.shift
          if (← byteAt cur 0) = dash then
            if (← byteAt cur 1) = 0 then args.endofargs else args.flag cur
          else args.flag cur

def argnextvalue (args : Argstate) : Option (Option Str × Argstate) :=
  match args.curarg with
  | none => some (none, args)
  | some cur => do
      if (← byteAt cur 0) ≠ 0 then
        some (some cur, { args with argvalue := some cur, curarg := some [] })
      else if 1 < args.argc then
        let value ← args.word 1
        let args ← args.shift
        some (some value, { args with argvalue := some value })
      else some (none, { args with argvalue := none, curarg := none })

def argvalue (args : Argstate) : Option (Option Str × Argstate) :=
  match args.argvalue with
  | some value => some (some value, args)
  | none => argnextvalue args

inductive Call where
  | argnext
  | argvalue
  | argnextvalue
deriving DecidableEq, Repr

inductive Answer where
  | flag (c : Int)
  | value (v : Option Str)
deriving DecidableEq, Repr

def perform (args : Argstate) : Call → Option (Answer × Argstate)
  | .argnext => (argnext args).map fun r => (.flag r.1, r.2)
  | .argvalue => (argvalue args).map fun r => (.value r.1, r.2)
  | .argnextvalue => (argnextvalue args).map fun r => (.value r.1, r.2)

def performAll (args : Argstate) : List Call → Option (List Answer × Argstate)
  | [] => some ([], args)
  | call :: calls => do
      let (answer, args) ← perform args call
      let (answers, args) ← performAll args calls
      some (answer :: answers, args)

def vector (prog : Str) (words : List Str) : List (Option Str) :=
  some prog :: words.map some ++ [none]

/-- The words of a command that are not consumed. Of a flag word that has begun, `rest` is
what is left; there is none when the flags have ended. -/
structure Options where
  rest : Option Str
  value : Option Str
  words : List Str
deriving DecidableEq, Repr

namespace Options

def start (words : List Str) : Options := ⟨if words = [] then none else some [], none, words⟩

/-- The flags in front of a list of words: it ends at another word, at "-" and at "--". -/
def leading : List Str → List (BitVec 8)
  | [] => []
  | w :: words =>
    match w with
    | c :: b :: more =>
      if c = dash ∧ b :: more ≠ [dash] then b :: more ++ leading words else []
    | _ => []

def flags (o : Options) : List (BitVec 8) := o.rest.elim [] fun rest => rest ++ leading o.words

/-- The words behind the first flag word, or a "--"; without any, the flags end. -/
def nextWord (o : Options) : Options :=
  match o.words with
  | (c :: b :: more) :: words =>
    if c = dash then
      if b :: more = [dash] then { o with rest := none, words := words }
      else { o with rest := some more, words := words }
    else { o with rest := none }
  | _ => { o with rest := none }

/-- The next of the flags, or -1; the value of the last one is forgotten. -/
def next (o : Options) : Int × Options :=
  ((o.flags.head?.map fun b => (b.toNat : Int)).getD (-1),
    match o.rest with
    | none => { o with value := none }
    | some (_ :: rest) => { o with rest := some rest, value := none }
    | some [] => { o.nextWord with value := none })

def nextValue (o : Options) : Option Str × Options :=
  match o.rest, o.words with
  | none, _ => (none, o)
  | some (b :: rest), _ => (some (b :: rest), { o with rest := some [], value := some (b :: rest) })
  | some [], w :: words => (some w, { o with value := some w, words := words })
  | some [], [] => (none, { o with rest := none, value := none })

def lastValue (o : Options) : Option Str × Options :=
  match o.value with
  | some value => (some value, o)
  | none => o.nextValue

def call (o : Options) : Call → Answer × Options
  | .argnext => (.flag o.next.1, o.next.2)
  | .argvalue => (.value o.lastValue.1, o.lastValue.2)
  | .argnextvalue => (.value o.nextValue.1, o.nextValue.2)

def calls (o : Options) : List Call → List Answer × Options
  | [] => ([], o)
  | call :: calls => ((o.call call).1 :: ((o.call call).2.calls calls).1,
      ((o.call call).2.calls calls).2)

end Options

theorem byteAt_zero (s : Str) : byteAt s 0 = some (s.headD 0) := by
  cases s <;> rfl

theorem byteAt_cons (b : BitVec 8) (s : Str) (i : Nat) : byteAt (b :: s) (i + 1) = byteAt s i := rfl

theorem headD_clean {s : Str} (clean : (0 : BitVec 8) ∉ s) : s.headD 0 = 0 ↔ s = [] := by
  cases s with
  | nil => exact iff_of_true rfl rfl
  | cons b s =>
    refine iff_of_false (fun zero => clean ?_) (List.cons_ne_nil _ _)
    rw [← zero]
    exact List.mem_cons_self

theorem reach_vector (prog : Str) (words : List Str) (stale : List (Option Str)) :
    reach (vector prog words ++ stale) = words.length + 2 := by
  have all : ∀ p ∈ (prog :: words).map some, p.isSome = true := by
    intro p inside
    obtain ⟨w, -, rfl⟩ := List.mem_map.mp inside
    rfl
  have split : vector prog words ++ stale = (prog :: words).map some ++ (none :: stale) := by
    simp [vector]
  rw [reach, split, List.takeWhile_append_of_pos all]
  simp

/-- The caller's vector holds the words that are not consumed, and `*argc` is their number. -/
structure Holds (args : Argstate) (prog : Str) (o : Options) : Prop where
  argc : args.argc = (prog :: o.words).length
  argv : ∃ stale, args.argv = some (vector prog o.words ++ stale)
  curarg : args.curarg = o.rest
  argvalue : args.argvalue = o.value

structure Options.Clean (o : Options) : Prop where
  rest : ∀ r, o.rest = some r → (0 : BitVec 8) ∉ r
  words : ∀ w ∈ o.words, (0 : BitVec 8) ∉ w

section
variable {args : Argstate} {prog w : Str} {words : List Str} {o : Options}

section

variable (holds : Holds args prog o)

include holds

theorem Holds.word (first : o.words = w :: words) : args.word 1 = some w := by
  obtain ⟨stale, argv⟩ := holds.argv
  rw [Argstate.word, argv, Option.bind_some, reach_vector, first, if_pos (by simp)]
  rfl

theorem Holds.shift (first : o.words = w :: words) :
    ∃ args', args.shift = some args' ∧ Holds args' prog { o with words := words } := by
  obtain ⟨stale, argv⟩ := holds.argv
  have argc := holds.argc
  rw [first] at argv argc
  have size : args.argc - 1 = words.length + 1 := by
    rw [argc]
    rfl
  have moved : memmove (vector prog (w :: words) ++ stale) 1 2 (words.length + 1) =
      some (vector prog words ++ (none :: stale)) := by
    have front : (words.map some ++ [none] ++ stale).take (words.length + 1) =
        words.map some ++ [(none : Option Str)] := List.take_left' (by simp)
    have back : ((some w :: words.map some) ++ ([none] ++ stale)).drop (words.length + 1) =
        (none : Option Str) :: stale := List.drop_left' (by simp)
    have second : ((some w :: words.map some) ++ ([(none : Option Str)] ++ stale)).drop 1 =
        words.map some ++ [none] ++ stale := by simp
    have whole : vector prog (w :: words) ++ stale =
        some prog :: ((some w :: words.map some) ++ ([none] ++ stale)) := by simp [vector]
    rw [memmove, if_pos (by rw [reach_vector, List.length_cons]; omega), whole,
      Nat.add_comm 1, List.drop_succ_cons, List.drop_succ_cons, List.take_succ_cons, back, second,
      front]
    simp [vector]
  refine ⟨{ args with argv := some (vector prog words ++ (none :: stale)), argc := args.argc - 1 },
    ?_, ⟨size, ⟨_, rfl⟩, holds.curarg, holds.argvalue⟩⟩
  rw [Argstate.shift, argv]
  simp only [Option.bind_eq_bind, Option.bind_some, size, moved]

theorem Holds.single : args.argc = 1 ↔ o.words = [] := by
  rw [holds.argc, List.length_cons, Nat.add_eq_right, List.length_eq_zero_iff]

theorem Holds.endofargs :
    ∃ args', args.endofargs = some (-1, args') ∧ Holds args' prog { o with rest := none } :=
  ⟨_, rfl, holds.argc, holds.argv, rfl, holds.argvalue⟩

theorem Holds.flag (b : BitVec 8) (rest : Str) :
    ∃ args', args.flag (b :: rest) = some ((b.toNat : Int), args') ∧
      Holds args' prog { o with rest := some rest } :=
  ⟨_, rfl, holds.argc, holds.argv, rfl, holds.argvalue⟩

end

theorem Options.next_other (value : Option Str) (words : List Str) {c : BitVec 8} (more : Str)
    (noDash : c ≠ dash) : (⟨some [], value, (c :: more) :: words⟩ : Options).next =
      (-1, ⟨none, none, (c :: more) :: words⟩) := by
  cases more with
  | nil => rfl
  | cons b more => simp [next, flags, leading, nextWord, noDash]

theorem Options.next_stop (value : Option Str) (words : List Str) {text : Str}
    (stops : text = [dash]) : (⟨some [], value, (dash :: text) :: words⟩ : Options).next =
      (-1, ⟨none, none, words⟩) := by
  subst stops
  rfl

theorem Options.next_word (value : Option Str) (words : List Str) {b : BitVec 8} {more : Str}
    (goes : b :: more ≠ [dash]) :
    (⟨some [], value, (dash :: b :: more) :: words⟩ : Options).next =
      ((b.toNat : Int), ⟨some more, none, words⟩) := by
  have flag : leading ((dash :: b :: more) :: words) = b :: more ++ leading words :=
    if_pos ⟨rfl, goes⟩
  simp only [next, flags, nextWord, Option.elim_some, flag, if_true, if_neg goes]
  rfl

section

variable (holds : Holds args prog o)

include holds

theorem argnext_spec (clean : o.Clean) :
    ∃ args', argnext args = some (o.next.1, args') ∧ Holds args' prog o.next.2 := by
  obtain ⟨rest, value, words⟩ := o
  have forgot : Holds ⟨args.argc, args.argv, rest, none⟩ prog ⟨rest, none, words⟩ :=
    ⟨holds.argc, holds.argv, rfl, rfl⟩
  have cur : args.curarg = rest := holds.curarg
  have single : args.argc = 1 ↔ words = [] := holds.single
  unfold argnext
  simp only [cur]
  match rest, words, clean with
  | none, _, _ => exact ⟨_, rfl, forgot⟩
  | some (b :: rest), words, clean =>
    have nonzero : b ≠ 0 := fun zero => clean.rest _ rfl (zero ▸ List.mem_cons_self)
    simp only [byteAt_zero, List.headD_cons, Option.bind_eq_bind, Option.bind_some, if_pos nonzero]
    exact forgot.flag b rest
  | some [], words, clean =>
    simp only [byteAt_zero, List.headD_nil, Option.bind_eq_bind, Option.bind_some]
    rw [if_neg (fun differs => differs rfl)]
    match words, clean with
    | [], _ =>
      rw [if_pos (single.mpr rfl)]
      exact forgot.endofargs
    | w :: words, clean =>
      rw [if_neg (fun one => List.cons_ne_nil _ _ (single.mp one)), forgot.word rfl]
      have wordClean := clean.words w List.mem_cons_self
      simp only [Option.bind_some]
      match w, wordClean with
      | [], _ =>
        rw [if_pos (by decide)]
        exact forgot.endofargs
      | [c], _ =>
        have ended : (⟨some [], value, [c] :: words⟩ : Options).next =
            (-1, ⟨none, none, [c] :: words⟩) := rfl
        rw [ended]
        simp only [List.headD_cons, byteAt_cons, byteAt_zero, List.headD_nil, Option.bind_some,
          if_true, ite_self]
        exact forgot.endofargs
      | c :: b :: more, wordClean =>
        have nonzero : b ≠ 0 := fun zero =>
          wordClean (zero ▸ List.mem_cons_of_mem _ List.mem_cons_self)
        by_cases isDash : c = dash
        · subst isDash
          obtain ⟨args', ran, shifted⟩ := forgot.shift rfl
          have found : ¬ (dash :: b :: more).headD 0 ≠ dash := fun differs => differs rfl
          rw [if_neg found]
          simp only [byteAt_cons, byteAt_zero, List.headD_cons, Option.bind_some,
            if_neg nonzero, ran, List.drop_succ_cons, List.drop_zero]
          by_cases stops : b :: more = [dash]
          · rw [Options.next_stop value words stops]
            obtain ⟨rfl, rfl⟩ := List.cons.inj stops
            rw [if_pos rfl, if_pos (show ([] : Str).headD 0 = 0 from rfl)]
            exact shifted.endofargs
          · rw [Options.next_word value words stops]
            have flags : (if b = dash then
                if more.headD 0 = 0 then args'.endofargs else args'.flag (b :: more)
                else args'.flag (b :: more)) = args'.flag (b :: more) := by
              by_cases again : b = dash
              · have longer : more.headD 0 ≠ 0 := by
                  rw [Ne, headD_clean fun inside => wordClean (List.mem_cons_of_mem _
                    (List.mem_cons_of_mem _ inside))]
                  rintro rfl
                  exact stops (congrArg (fun b => [b]) again)
                rw [if_pos again, if_neg longer]
              · rw [if_neg again]
            rw [flags]
            exact shifted.flag b more
        · have differs : (c :: b :: more).headD 0 ≠ dash := isDash
          rw [Options.next_other value words (b :: more) isDash, if_pos differs]
          exact forgot.endofargs

theorem argnextvalue_spec (clean : o.Clean) :
    ∃ args', argnextvalue args = some (o.nextValue.1, args') ∧ Holds args' prog o.nextValue.2 := by
  obtain ⟨rest, value, words⟩ := o
  have cur : args.curarg = rest := holds.curarg
  unfold argnextvalue
  rw [cur]
  match rest, words, clean with
  | none, _, _ => exact ⟨args, rfl, holds⟩
  | some (b :: rest), words, clean =>
    have nonzero : b ≠ 0 := fun zero => clean.rest _ rfl (zero ▸ List.mem_cons_self)
    simp only [byteAt_zero, List.headD_cons, Option.bind_eq_bind, Option.bind_some, if_pos nonzero]
    exact ⟨_, rfl, holds.argc, holds.argv, rfl, rfl⟩
  | some [], [], _ =>
    have none : ¬ 1 < args.argc := by
      rw [holds.argc]
      exact lt_irrefl 1
    simp only [byteAt_zero, List.headD_nil, Option.bind_eq_bind, Option.bind_some]
    rw [if_neg (fun differs => differs rfl), if_neg none]
    exact ⟨_, rfl, holds.argc, holds.argv, rfl, rfl⟩
  | some [], w :: words, _ =>
    have more : 1 < args.argc := by
      rw [holds.argc]
      simp
    obtain ⟨args', ran, shifted⟩ := holds.shift rfl
    simp only [byteAt_zero, List.headD_nil, Option.bind_eq_bind, Option.bind_some]
    rw [if_neg (fun differs => differs rfl), if_pos more, holds.word rfl]
    simp only [ran, Option.bind_some]
    exact ⟨_, rfl, shifted.argc, shifted.argv, shifted.curarg, rfl⟩

theorem argvalue_spec (clean : o.Clean) :
    ∃ args', argvalue args = some (o.lastValue.1, args') ∧ Holds args' prog o.lastValue.2 := by
  unfold argvalue Options.lastValue
  rw [holds.argvalue]
  cases o.value with
  | none => exact argnextvalue_spec holds clean
  | some value => exact ⟨args, rfl, holds⟩

theorem perform_spec (clean : o.Clean) (call : Call) :
    ∃ args', perform args call = some ((o.call call).1, args') ∧ Holds args' prog (o.call call).2 := by
  cases call with
  | argnext =>
    obtain ⟨args', ran, holds'⟩ := argnext_spec holds clean
    exact ⟨args', by rw [perform, ran]; rfl, holds'⟩
  | argvalue =>
    obtain ⟨args', ran, holds'⟩ := argvalue_spec holds clean
    exact ⟨args', by rw [perform, ran]; rfl, holds'⟩
  | argnextvalue =>
    obtain ⟨args', ran, holds'⟩ := argnextvalue_spec holds clean
    exact ⟨args', by rw [perform, ran]; rfl, holds'⟩

end

namespace Options

theorem Clean.nextWord (clean : o.Clean) : o.nextWord.Clean := by
  obtain ⟨rest, value, words⟩ := o
  match words, clean with
  | [], clean => exact ⟨nofun, nofun⟩
  | [] :: words, clean => exact ⟨nofun, clean.words⟩
  | [c] :: words, clean => exact ⟨nofun, clean.words⟩
  | (c :: b :: more) :: words, clean =>
    have later : ∀ w ∈ words, (0 : BitVec 8) ∉ w := fun w inside =>
      clean.words w (List.mem_cons_of_mem _ inside)
    simp only [Options.nextWord]
    split
    · split
      · exact ⟨nofun, later⟩
      · refine ⟨fun r same inside => ?_, later⟩
        cases same
        exact clean.words _ List.mem_cons_self
          (List.mem_cons_of_mem _ (List.mem_cons_of_mem _ inside))
    · exact ⟨nofun, clean.words⟩

theorem Clean.next (clean : o.Clean) : o.next.2.Clean := by
  obtain ⟨rest, value, words⟩ := o
  match rest, clean with
  | none, clean => exact ⟨nofun, clean.words⟩
  | some [], clean => exact ⟨clean.nextWord.rest, clean.nextWord.words⟩
  | some (b :: rest), clean =>
    refine ⟨fun r same inside => ?_, clean.words⟩
    cases same
    exact clean.rest _ rfl (List.mem_cons_of_mem _ inside)

theorem Clean.nextValue (clean : o.Clean) : o.nextValue.2.Clean := by
  obtain ⟨rest, value, words⟩ := o
  have nothing : ∀ r, some ([] : Str) = some r → (0 : BitVec 8) ∉ r := by
    intro r same
    cases same
    exact List.not_mem_nil
  match rest, words, clean with
  | none, _, clean => exact clean
  | some (b :: rest), _, clean => exact ⟨nothing, clean.words⟩
  | some [], [], clean => exact ⟨nofun, clean.words⟩
  | some [], w :: words, clean =>
    exact ⟨nothing, fun w inside => clean.words w (List.mem_cons_of_mem _ inside)⟩

theorem Clean.call (clean : o.Clean) (call : Call) : (o.call call).2.Clean := by
  cases call with
  | argnext => exact clean.next
  | argnextvalue => exact clean.nextValue
  | argvalue =>
    unfold Options.call lastValue
    cases o.value with
    | none => exact clean.nextValue
    | some value => exact clean

theorem next_flags (o : Options) : o.next.2.flags = o.flags.tail := by
  obtain ⟨rest, value, words⟩ := o
  match rest, words with
  | none, _ => rfl
  | some (b :: rest), _ => rfl
  | some [], [] => rfl
  | some [], [] :: _ => rfl
  | some [], (c :: more) :: words =>
    by_cases isDash : c = dash
    · subst isDash
      cases more with
      | nil => rfl
      | cons b more =>
        by_cases stops : b :: more = [dash]
        · rw [next_stop value words stops, stops]
          rfl
        · rw [next_word value words stops]
          have flag : leading ((dash :: b :: more) :: words) = b :: more ++ leading words :=
            if_pos ⟨rfl, stops⟩
          simp only [flags, Option.elim_some, flag, List.nil_append]
          rfl
    · rw [next_other value words more isDash]
      cases more with
      | nil => rfl
      | cons b more =>
        have none : leading ((c :: b :: more) :: words) = [] := if_neg fun both => isDash both.1
        simp only [flags, Option.elim_some, none]
        rfl

/-- Without other calls `argvalue` yields the same again. -/
theorem lastValue_again (o : Options) : o.lastValue.2.lastValue.1 = o.lastValue.1 := by
  obtain ⟨rest, value, words⟩ := o
  match value, rest, words with
  | some value, _, _ => rfl
  | none, none, _ => rfl
  | none, some (b :: rest), _ => rfl
  | none, some [], [] => rfl
  | none, some [], w :: words => rfl

end Options

theorem performAll_spec (holds : Holds args prog o) (clean : o.Clean) (calls : List Call) :
    ∃ args', performAll args calls = some ((o.calls calls).1, args') ∧
      Holds args' prog (o.calls calls).2 := by
  induction calls generalizing args o with
  | nil => exact ⟨args, rfl, holds⟩
  | cons call calls ih =>
    obtain ⟨args', ran, holds'⟩ := perform_spec holds clean call
    obtain ⟨args'', later, holds''⟩ := ih holds' (clean.call call)
    refine ⟨args'', ?_, holds''⟩
    simp only [performAll, ran, later, Option.bind_eq_bind, Option.bind_some]
    rfl

end

/-- Whatever the calls after `argstart`, they stay in front of the null pointer, yield the flags
and the values in their order, and leave the words that are not consumed. -/
theorem flags_parsed (prog : Str) (words : List Str) (clean : ∀ w ∈ words, (0 : BitVec 8) ∉ w)
    (calls : List Call) :
    let o := ((Options.start words).calls calls).2
    ∃ args, performAll (argstart (words.length + 1) (some (vector prog words))) calls =
        some (((Options.start words).calls calls).1, args) ∧ Holds args prog o ∧
      o.next.2.flags = o.flags.tail ∧ o.lastValue.2.lastValue.1 = o.lastValue.1 := by
  have started : Holds (argstart (words.length + 1) (some (vector prog words))) prog
      (Options.start words) := by
    refine ⟨rfl, ⟨[], by rw [List.append_nil]; rfl⟩, ?_, rfl⟩
    cases words <;> rfl
  have wellFormed : (Options.start words).Clean := by
    refine ⟨fun r same => ?_, clean⟩
    have empty : r = [] := by
      cases words with
      | nil => cases same
      | cons w words => exact (Option.some.inj same).symm
    rw [empty]
    exact List.not_mem_nil
  obtain ⟨args, ran, holds⟩ := performAll_spec started wellFormed calls
  exact ⟨args, ran, holds, Options.next_flags _, Options.lastValue_again _⟩

/-- The example of inc/args.h: "-rx", "-f", "foo", "--", "-r", "duh" -/
theorem flags_parsed_doc :
    let words : List Str := [[dash, 0x72, 0x78], [dash, 0x66], [0x66, 0x6F, 0x6F], [dash, dash],
      [dash, 0x72], [0x64, 0x75, 0x68]]
    let calls : List Call := [.argnext, .argnext, .argnext, .argvalue, .argnext]
    let o := ((Options.start words).calls calls).2
    ∃ args, performAll (argstart (words.length + 1) (some (vector [0x73] words))) calls =
        some (((Options.start words).calls calls).1, args) ∧ Holds args [0x73] o ∧
      o.next.2.flags = o.flags.tail ∧ o.lastValue.2.lastValue.1 = o.lastValue.1 :=
  flags_parsed [0x73] _ (by decide) _

/-- Of "-fa", "b" `argvalue` yields "a", and "b" when `argnextvalue` has been called. In front of
"a" the flags end, and `argnextvalue` does not yield it. -/
theorem argvalue_not_repeated :
    (¬ ∀ (prog : Str) (words : List Str), (∀ w ∈ words, (0 : BitVec 8) ∉ w) →
      ∀ before between : List Call, .argnext ∉ between → ∀ answers args,
        performAll (argstart (words.length + 1) (some (vector prog words)))
          (before ++ .argvalue :: (between ++ [.argvalue])) = some (answers, args) →
        answers[before.length]? = answers.getLast?) ∧
    ¬ ∀ (prog : Str) (words : List Str), (∀ w ∈ words, (0 : BitVec 8) ∉ w) →
      ∀ (before : List Call) answers args,
        performAll (argstart (words.length + 1) (some (vector prog words))) before =
          some (answers, args) →
        ∀ value args', argnextvalue args = some (value, args') → 1 < args.argc → value ≠ none := by
  refine ⟨fun claim => ?_, fun claim => ?_⟩
  · have same := claim [] [[dash, 0x66, 0x61], [0x62]] (by decide) [.argnext] [.argnextvalue]
      (by decide) _ _ rfl
    exact absurd same (by decide)
  · exact claim [] [[0x61]] (by decide) [.argnext] _ _ rfl _ _ rfl (by decide) rfl

end Args

end Jos
