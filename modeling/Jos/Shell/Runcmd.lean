import Jos.Lib.Descriptors
import Jos.Shell.Token

/-! `runcmd` of user/sh.c, up to the `spawn` of each environment that works on the line. -/

set_option autoImplicit false

namespace Jos

open Fds

namespace Sh

def maxArgs : Nat := 16
def bufsiz : Nat := 1024

def slash : BitVec 8 := 0x2F

def path : List Text := [[slash, 0x62, 0x69, 0x6E, slash], [slash]]

/-- What the kernel, the file server and the devices answer to the shell of a stage:
whether `open` of the file named at an address succeeds, and what `close` returns there;
for every directory of PATH, what `fstat` returns, none when `open` fails. -/
structure Answers where
  opens : Nat → Option Nat → Bool
  closes : Nat → Int
  room : Nat → Files.Room
  forks : Nat → Bool
  stats : Nat → Text → Option Int

/-- A shell with its command: the line, the descriptors and `argv`. -/
structure Shell where
  lex : Lexer
  files : Files
  argv : List (Option Nat)

/-- What comes of a call of `runcmd`. -/
inductive Outcome where
  /-- The command was empty. -/
  | returned
  | exited
  | panicked
  /-- `argv0buf` does not have the room. -/
  | overflowed
  /-- The call of `spawn`: the path, `argv` after its first word, and the environment. -/
  | spawns (prog : Text) (argv : List (Option Nat)) (line : Text) (files : Files)

/-- How the `while (1)` ends. -/
inductive Stop where
  | exited
  | panicked
  | piped (sh : Shell)
  | complete (sh : Shell)

def move (f : Files) (fd fdnum : BitVec 32) (answer : Int) : Files :=
  if fd ≠ fdnum then ((f.dup fd fdnum answer true true).2.close fd answer).2 else f

/-- The cases of the two redirections, from `open` on. -/
def redirect (f : Files) (opens : Bool) (fdnum : BitVec 32) (answer : Int) : Option Files :=
  if opens then
    let (fd, f) := f.opened .file
    if fd < 0 then none else some (move f (BitVec.ofInt 32 fd) fdnum answer)
  else none

/-- The `while (1)` of a stage; `none` says that the number of rounds is too small. -/
def Shell.parse (answers : Answers) (stage : Nat) : Nat → Shell → Option Stop
  | 0, _ => none
  | rounds + 1, sh =>
    let (c, t, lex) := sh.lex.gettoken
    let sh := { sh with lex := lex }
    if c = wordToken then
      if sh.argv.length = maxArgs then some .exited
      else Shell.parse answers stage rounds { sh with argv := sh.argv ++ [t] }
    else if c = less ∨ c = greater then
      let (c', t, lex) := sh.lex.gettoken
      if c' ≠ wordToken then some .exited
      else
        match redirect sh.files (answers.opens stage t) (if c = less then 0 else 1)
            (answers.closes stage) with
        | none => some .exited
        | some files => Shell.parse answers stage rounds { sh with lex := lex, files := files }
    else if c = bar then some (.piped sh)
    else if c = 0 then some (.complete sh)
    else some .panicked

/-- `stat`; an `open` that fails leaves nothing behind. -/
def stat (f : Files) (found : Option Int) (answer : Int) : Int × Files :=
  match found with
  | none => (-eInval, f)
  | some r =>
    let (fd, f) := f.opened .file
    if fd < 0 then (fd, f) else (r, (f.close (BitVec.ofInt 32 fd) answer).2)

def search (answers : Answers) (stage : Nat) (name : Text) :
    List Text → Files → Option (Option Text × Files)
  | [], f => some (none, f)
  | dir :: dirs, f =>
    if bufsiz ≤ (dir ++ name).length then none
    else
      let (r, f) := stat f (answers.stats stage dir) (answers.closes stage)
      if r = 0 then some (some (dir ++ name), f) else search answers stage name dirs f

/-- From `runit` to `spawn` -/
def Shell.runit (answers : Answers) (stage : Nat) (sh : Shell) : Outcome :=
  match sh.argv with
  | [] => .returned
  | first :: rest =>
    let name := first.elim [] (cString sh.lex.buf)
    match search answers stage name path sh.files with
    | none => .overflowed
    | some (some prog, f) => .spawns prog (rest ++ [none]) sh.lex.buf f
    | some (none, f) =>
      if name.head? = some slash then .spawns name (rest ++ [none]) sh.lex.buf f
      else if bufsiz ≤ (slash :: name).length then .overflowed
      else .spawns (slash :: name) (rest ++ [none]) sh.lex.buf f

/-- The descriptors of the child after the `fork` -/
def rightEnd (f : Files) (p0 p1 : BitVec 32) (answer : Int) : Files :=
  ((move f p0 0 answer).close p1 answer).2

def leftEnd (f : Files) (p0 p1 : BitVec 32) (answer : Int) : Files :=
  ((move f p1 1 answer).close p0 answer).2

/-- The label `again`: what comes of this shell and of the shells that it forks. The child
has the memory and the descriptors of its parent. -/
def Shell.again (answers : Answers) : Nat → Nat → Shell → Option (List Outcome)
  | 0, _, _ => none
  | rounds + 1, stage, sh =>
    match Shell.parse answers stage (rounds + 1) { sh with argv := [] } with
    | none => none
    | some .exited => some [.exited]
    | some .panicked => some [.panicked]
    | some (.complete sh) => some [sh.runit answers stage]
    | some (.piped sh) =>
      match sh.files.pipe (answers.room stage) with
      | (_, none, _) => some [.exited]
      | (_, some (p0, p1), f) =>
        if answers.forks stage then
          let p0 := BitVec.ofNat 32 p0
          let p1 := BitVec.ofNat 32 p1
          let answer := answers.closes stage
          let child := { sh with files := rightEnd f p0 p1 answer }
          let parent := { sh with files := leftEnd f p0 p1 answer }
          (Shell.again answers rounds (stage + 1) child).map fun later =>
            parent.runit answers stage :: later
        else some [.exited]

/-- `runcmd` of a line -/
def runcmd (answers : Answers) (rounds : Nat) (line : Text) (f : Files) : Option (List Outcome) :=
  Shell.again answers rounds 0 ⟨gettokenAt line 0, f, []⟩

end Sh

end Jos
