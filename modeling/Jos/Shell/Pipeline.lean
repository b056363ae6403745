import Jos.Shell.Runcmd
import Mathlib.Data.List.Nodup

/-! The descriptors of the stages of a pipeline. -/

set_option autoImplicit false

namespace Jos

open Function Fds

namespace Fds

namespace Files

variable {f : Files} {va dst : Va} {n : BitVec 32} {answer : Int}

/-- Only `sys_page_alloc` takes a page. -/
theorem sysPageUnmap_next : (f.sysPageUnmap va).2.next = f.next := by
  unfold sysPageUnmap
  split <;> rfl

theorem sysPageMap_next {room : Bool} {perm : BitVec 12} :
    (f.sysPageMap room va dst perm).2.next = f.next := by
  unfold sysPageMap
  split
  · rfl
  · split
    · rfl
    · split
      · rfl
      · split
        · rfl
        · split <;> rfl

theorem devClose_next : (f.devClose va answer).2.next = f.next := by
  unfold devClose devpipeClose
  simp only
  split
  · rw [sysPageUnmap_next, sysPageUnmap_next]
  · split <;> rfl

theorem close_next : (f.close n answer).2.next = f.next := by
  unfold close
  split
  · rfl
  · unfold fdClose
    split
    · rfl
    · split
      · rfl
      · simp only [sysPageUnmap_next, devClose_next]

theorem dupErr_next {r : Int} : (f.dupErr va dst r).2.next = f.next := by
  simp only [dupErr, sysPageUnmap_next]

theorem dupFd_next {nva : Va} {room : Bool} : (f.dupFd va dst nva n room).2.next = f.next := by
  unfold dupFd
  simp only
  split
  · rw [dupErr_next, sysPageMap_next]
  · exact sysPageMap_next

theorem dup_next {m : BitVec 32} {roomData roomFd : Bool} :
    (f.dup m n answer roomData roomFd).2.next = f.next := by
  unfold dup
  split
  · rfl
  · simp only
    split
    · split
      · rw [dupErr_next, sysPageMap_next, close_next]
      · rw [dupFd_next, sysPageMap_next, close_next]
    · rw [dupFd_next, close_next]

end Files

end Fds

namespace Sh

variable {f : Files} {t : Table} {i j : Fin maxFd} {o input output reader writer : Object}
  {answer : Int}

theorem move_next {fd fdnum : BitVec 32} : (move f fd fdnum answer).next = f.next := by
  unfold move
  split
  · rw [Files.close_next, Files.dup_next]
  · rfl

theorem close_represents (rep : f.Represents t) (i : Fin maxFd) (answer : Int) :
    (f.close (number i) answer).2.Represents (update t i none) := by
  obtain ⟨t', -, rep', entries⟩ := Files.close_spec rep (number i) answer
  have same : t' = update t i none := by
    funext x
    rw [entries]
    by_cases here : x = i
    · subst here
      simp
    · rw [update_of_ne here, if_neg fun equal => here (number_injective equal).symm]
  exact same ▸ rep'

theorem move_represents (rep : f.Represents t) (found : t i = some o) (differs : j ≠ i)
    (answer : Int) :
    (move f (number i) (number j) answer).Represents (update (update t j (some o)) i none) := by
  obtain ⟨f', ran, rep'⟩ := Files.dup_open rep found differs answer true true
  unfold move
  rw [if_pos fun same => differs (number_injective same).symm, ran]
  exact close_represents rep' i answer

/-- Exactly the numbers 0 and 1 are open. -/
def ends (input output : Object) : Table := fun i =>
  if i = 0 then some input else if i = 1 then some output else none

theorem ends_smallest : (ends input output).Smallest 2 := by
  refine ⟨rfl, fun j less => ?_⟩
  have small : j.val < 2 := less
  unfold ends
  by_cases zero : j = 0
  · simp [zero]
  · have one : j = 1 := Fin.ext (by
      have : j.val ≠ 0 := fun same => zero (Fin.ext same)
      change j.val = 1
      omega)
    rw [if_neg zero, if_pos one]
    exact Option.some_ne_none _

theorem ends_smallest_next (reader : Object) :
    Table.Smallest (update (ends input output) 2 (some reader)) 3 := by
  refine ⟨rfl, fun j less => ?_⟩
  have small : j.val < 3 := less
  by_cases two : j = 2
  · simp [two]
  · rw [update_of_ne two]
    refine ends_smallest.2 j ?_
    have : j.val ≠ 2 := fun same => two (Fin.ext same)
    change j.val < 2
    omega

def pipedEnds (input output reader writer : Object) : Table :=
  update (update (ends input output) 2 (some reader)) 3 (some writer)

theorem rightEnd_represents (rep : f.Represents (pipedEnds input output reader writer))
    (answer : Int) :
    (rightEnd f 2 3 answer).Represents (ends reader output) := by
  have found : pipedEnds input output reader writer 2 = some reader := rfl
  have moved := move_represents (j := 0) rep found (by decide) answer
  have closed := close_represents moved 3 answer
  have same : update (update (update (pipedEnds input output reader writer) 0 (some reader)) 2 none)
      3 none = ends reader output := by
    funext x
    simp only [pipedEnds, ends, update_apply]
    grind
  exact same ▸ closed

theorem leftEnd_represents (rep : f.Represents (pipedEnds input output reader writer))
    (answer : Int) :
    (leftEnd f 2 3 answer).Represents (ends input writer) := by
  have found : pipedEnds input output reader writer 3 = some writer := rfl
  have moved := move_represents (j := 1) rep found (by decide) answer
  have closed := close_represents moved 2 answer
  have same : update (update (update (pipedEnds input output reader writer) 1 (some writer)) 3 none)
      2 none = ends input writer := by
    funext x
    simp only [pipedEnds, ends, update_apply]
    grind
  exact same ▸ closed

theorem stat_represents (rep : f.Represents t) (found : Option Int) (answer : Int) :
    (stat f found answer).2.Represents t := by
  cases found with
  | none => exact rep
  | some r =>
    obtain ⟨a, f', t', ran, meets, rep'⟩ := Files.opened_spec rep .file
    have opened : f.opened .file = (a.result, f') := by
      have := congrArg (fun ran : Answer × Files => (ran.1.result, ran.2)) ran
      exact this
    unfold stat
    rw [opened]
    cases meets with
    | @opened _ i page smallest _ =>
      have nonneg : ¬ ((i.val : Int) < 0) := by omega
      have restored : update (update t i (some ⟨page, none⟩)) i none = t := by
        rw [update_idem, ← smallest.1, update_eq_self]
      simp only [if_neg nonneg]
      have closed := close_represents rep' i answer
      rw [restored] at closed
      exact closed
    | openFull full less =>
      simp only [if_pos less]
      exact rep'

theorem search_spec {name : Text} {dirs : List Text} (rep : f.Represents t) (answers : Answers)
    (stage : Nat) (room : ∀ dir ∈ dirs, (dir ++ name).length < bufsiz) :
    ∃ found f', search answers stage name dirs f = some (found, f') ∧ f'.Represents t := by
  induction dirs generalizing f with
  | nil => exact ⟨none, f, rfl, rep⟩
  | cons dir dirs ih =>
    unfold search
    rw [if_neg (room dir List.mem_cons_self).not_ge]
    have rep' := stat_represents rep (answers.stats stage dir) (answers.closes stage)
    simp only
    split
    · exact ⟨_, _, rfl, rep'⟩
    · exact ih rep' fun other inside => room other (List.mem_cons_of_mem _ inside)

/-- "/bin/", the word and a null byte have room in `argv0buf`. -/
def Fits (name : Text) : Prop := name.length + 6 ≤ bufsiz

instance (name : Text) : Decidable (Fits name) := inferInstanceAs (Decidable (_ ≤ _))

theorem Fits.room {name : Text} (fits : Fits name) : ∀ dir ∈ path, (dir ++ name).length < bufsiz := by
  intro dir inside
  have short : dir.length ≤ 5 := by
    revert dir
    decide
  unfold Fits at fits
  rw [List.length_append]
  omega

theorem search_overflows {answers : Answers} {stage : Nat} {name : Text} (long : ¬ Fits name) :
    search answers stage name path f = none := by
  have full : bufsiz ≤ ([slash, 0x62, 0x69, 0x6E, slash] ++ name).length := by
    unfold Fits at long
    rw [List.length_append]
    change bufsiz ≤ 5 + name.length
    omega
  simp only [path, search, if_pos full]

/-- What a stage has to do: it calls `spawn` with the two descriptors, nothing else open,
and the words of its command. -/
def Plumbed (outcome : Outcome) (input output : Object) (command : List Text) : Prop :=
  ∃ (prog : Text) (pointers : List Nat) (line : Text) (f : Files),
    outcome = .spawns prog (pointers.map some ++ [none]) line f ∧
    pointers.map (cString line) = command.tail ∧ f.Represents (ends input output) ∧
    ∀ answers, (f.closeAll answers).Represents fun _ => none

section
variable {answers : Answers} {stage : Nat} {sh : Shell} {command : List Text}
  {read old cur : List (Nat × Text)} {tokens : List Token}

/-- The addresses in `argv` -/
def args (words : List (Nat × Text)) : List (Option Nat) := words.map fun x => some x.1

theorem runit_spec (rep : sh.files.Represents (ends input output))
    (same : sh.argv = args cur) (words : cur.map Prod.snd = command) (some : command ≠ [])
    (held : ∀ x ∈ cur, Holds sh.lex.buf x.1 x.2) :
    Fits (command.headD []) ∧ Plumbed (sh.runit answers stage) input output command ∨
      ¬ Fits (command.headD []) ∧ sh.runit answers stage = .overflowed := by
  subst words
  cases cur with
  | nil => exact absurd rfl some
  | cons first cur =>
    have name := (held first List.mem_cons_self).cString
    have rest : (cur.map Prod.fst).map (cString sh.lex.buf) = cur.map Prod.snd := by
      rw [List.map_map]
      exact List.map_congr_left fun x inside => (held x (List.mem_cons_of_mem _ inside)).cString
    have plumbed {prog : Text} {f : Files} (rep' : f.Represents (ends input output)) :
        Plumbed (.spawns prog (args cur ++ [none]) sh.lex.buf f) input output
          ((first :: cur).map Prod.snd) := by
      refine ⟨prog, cur.map Prod.fst, sh.lex.buf, f, ?_, rest, rep',
        fun answers => Files.closeAll_spec rep' answers⟩
      rw [args, List.map_map]
      rfl
    unfold Shell.runit
    simp only [same, args, List.map_cons, Option.elim_some, name, List.headD_cons]
    by_cases fits : Fits first.2
    · refine .inl ⟨fits, ?_⟩
      obtain ⟨found, f', ran, rep'⟩ := search_spec rep answers stage fits.room
      rw [ran]
      cases found with
      | some prog => exact plumbed rep'
      | none =>
        simp only
        split
        · exact plumbed rep'
        · have enough : ¬ bufsiz ≤ (slash :: first.2).length := by
            unfold Fits at fits
            rw [List.length_cons]
            omega
          rw [if_neg enough]
          exact plumbed rep'
    · refine .inr ⟨fits, ?_⟩
      rw [search_overflows fits]

/-- The rounds of `parse` for the words of a command. -/
theorem parse_words (ahead : sh.lex.Ahead (old ++ cur) (command.map Token.word ++ tokens))
    (same : sh.argv = args cur) (few : cur.length + command.length < maxArgs) (rounds : Nat) :
    ∃ sh' new, Shell.parse answers stage (command.length + rounds) sh =
        Shell.parse answers stage rounds sh' ∧
      sh'.lex.Ahead (old ++ (cur ++ new)) tokens ∧ sh'.argv = args (cur ++ new) ∧
      new.map Prod.snd = command ∧ sh'.files = sh.files := by
  induction command generalizing sh cur with
  | nil =>
    refine ⟨sh, [], by simp, ?_, ?_, rfl, rfl⟩
    · rw [List.append_nil]
      exact ahead
    · rw [List.append_nil]
      exact same
  | cons w command ih =>
    obtain ⟨s, code, pointer, next⟩ := Lexer.Ahead.word ahead
    have count : sh.argv.length = cur.length := by
      rw [same, args, List.length_map]
    have space : sh.argv.length ≠ maxArgs := by
      rw [count]
      omega
    rw [List.append_assoc] at next
    obtain ⟨sh', new, ran, ahead', argv', words, files⟩ := @ih
      ⟨sh.lex.gettoken.2.2, sh.files, sh.argv ++ [some s]⟩ (cur ++ [(s, w)]) next
      (by simp [same, args]) (by
        rw [List.length_append, List.length_singleton]
        rw [List.length_cons] at few
        omega)
    refine ⟨sh', (s, w) :: new, ?_, ?_, ?_, ?_, files⟩
    · rw [← ran, List.length_cons, Nat.add_right_comm, Shell.parse]
      simp only [code, pointer, if_true, if_neg space]
    · simpa using ahead'
    · simpa using argv'
    · rw [List.map_cons, words]

/-- The `while (1)` comes to a '|'. -/
theorem parse_bar (ahead : sh.lex.Ahead old (command.map Token.word ++ .bar :: tokens))
    (same : sh.argv = []) (few : command.length < maxArgs) {rounds : Nat}
    (enough : command.length < rounds) :
    ∃ sh' new, Shell.parse answers stage rounds sh = some (.piped sh') ∧
      sh'.lex.Ahead (old ++ new) tokens ∧ sh'.argv = args new ∧ new.map Prod.snd = command ∧
      sh'.files = sh.files := by
  obtain ⟨more, rfl⟩ := Nat.exists_eq_add_of_lt enough
  obtain ⟨sh', new, ran, ahead', argv', words, files⟩ := @parse_words answers stage sh command old []
    (.bar :: tokens) (by simpa using ahead) same (by simpa using few) (more + 1)
  obtain ⟨code, next⟩ := Lexer.Ahead.bar ahead'
  refine ⟨{ sh' with lex := sh'.lex.gettoken.2.2 }, new, ?_, next, argv', words, files⟩
  rw [Nat.add_assoc, ran, Shell.parse]
  simp only [code]
  rfl

/-- The `while (1)` comes to the end of the line. -/
theorem parse_end (ahead : sh.lex.Ahead old (command.map Token.word))
    (same : sh.argv = []) (few : command.length < maxArgs) {rounds : Nat}
    (enough : command.length < rounds) :
    ∃ sh' new, Shell.parse answers stage rounds sh = some (.complete sh') ∧
      sh'.lex.Ahead (old ++ new) [] ∧ sh'.argv = args new ∧ new.map Prod.snd = command ∧
      sh'.files = sh.files := by
  obtain ⟨more, rfl⟩ := Nat.exists_eq_add_of_lt enough
  obtain ⟨sh', new, ran, ahead', argv', words, files⟩ := @parse_words answers stage sh command old []
    [] (by simpa using ahead) same (by simpa using few) (more + 1)
  obtain ⟨code, next⟩ := Lexer.Ahead.stop ahead'
  refine ⟨{ sh' with lex := sh'.lex.gettoken.2.2 }, new, ?_, next, argv', words, files⟩
  rw [Nat.add_assoc, ran, Shell.parse]
  simp only [code]
  rfl

end

def pipeline : List (List Text) → List Token
  | [] => []
  | [command] => command.map Token.word
  | command :: next :: commands => command.map Token.word ++ .bar :: pipeline (next :: commands)

/-- The ends of the pipe whose pages are the first three from a number on. -/
def readEnd (page : Nat) : Object := ⟨page, some (page + 2)⟩
def writeEnd (page : Nat) : Object := ⟨page + 1, some (page + 2)⟩

/-- What descriptor 0 of a stage has to be, counted from 0. -/
def stageInput (input : Object) (page : Nat) : Nat → Object
  | 0 => input
  | i + 1 => readEnd (page + 3 * i)

/-- What descriptor 1 of a stage has to be. -/
def stageOutput (output : Object) (page count i : Nat) : Object :=
  if i + 1 = count then output else writeEnd (page + 3 * i)

/-- `pipe` and `fork` succeed. -/
structure Answers.Enough (answers : Answers) : Prop where
  fd0 : ∀ stage, (answers.room stage).fd0 = true
  fd1 : ∀ stage, (answers.room stage).fd1 = true
  page : ∀ stage, (answers.room stage).page = true
  forks : ∀ stage, answers.forks stage = true

def IsCommand (command : List Text) : Prop := command ≠ [] ∧ command.length < maxArgs

instance (command : List Text) : Decidable (IsCommand command) :=
  inferInstanceAs (Decidable (_ ∧ _))

theorem again_spec {answers : Answers} (succeed : answers.Enough) {commands : List (List Text)}
    (commandLine : commands ≠ []) (isCommand : ∀ command ∈ commands, IsCommand command)
    {sh : Shell} {stage rounds : Nat} {read : List (Nat × Text)}
    (ahead : sh.lex.Ahead read (pipeline commands))
    (rep : sh.files.Represents (ends input output))
    (enough : (pipeline commands).length < rounds) :
    ∃ outcomes, Shell.again answers rounds stage sh = some outcomes ∧
      outcomes.length = commands.length ∧
      ∀ i outcome command, outcomes[i]? = some outcome → commands[i]? = some command →
        (Fits (command.headD []) ∧ Plumbed outcome (stageInput input sh.files.next i)
          (stageOutput output sh.files.next commands.length i) command ∨
        ¬ Fits (command.headD []) ∧ outcome = .overflowed) := by
  induction commands generalizing sh input stage rounds read with
  | nil => exact absurd rfl commandLine
  | cons command commands ih =>
    obtain ⟨some, few⟩ := isCommand command List.mem_cons_self
    obtain ⟨rounds, rfl⟩ := Nat.exists_eq_add_one_of_ne_zero (Nat.ne_of_gt (Nat.zero_lt_of_lt enough))
    cases commands with
    | nil =>
      rw [pipeline] at ahead enough
      rw [List.length_map] at enough
      obtain ⟨sh', new, ran, ahead', argv', words, files⟩ :=
        @parse_end answers stage { sh with argv := [] } command read ahead rfl few _ enough
      have rep' : sh'.files.Represents (ends input output) := by
        rw [files]
        exact rep
      refine ⟨[sh'.runit answers stage], ?_, rfl, ?_⟩
      · simp only [Shell.again, ran]
      · intro i outcome command' here there
        obtain ⟨rfl, rfl⟩ : i = 0 ∧ outcome = sh'.runit answers stage := by
          cases i with
          | zero => exact ⟨rfl, (Option.some.inj here).symm⟩
          | succ i => cases here
        cases there
        exact runit_spec rep' argv' words some fun x inside =>
          Lexer.Ahead.holds ahead' (List.mem_append_right _ inside)
    | cons next commands =>
      rw [pipeline] at ahead enough
      rw [List.length_append, List.length_map, List.length_cons] at enough
      obtain ⟨sh', new, ran, ahead', argv', words, files⟩ :=
        @parse_bar answers stage { sh with argv := [] } command read _ ahead rfl few
          (rounds + 1) (by omega)
      have piped := Files.pipe_done rep ends_smallest
        (ends_smallest_next (readEnd sh.files.next)) (succeed.fd0 stage)
        (succeed.fd1 stage) (succeed.page stage)
      have both : (sh.files.piped 2 3).Represents (pipedEnds input output
          (readEnd sh.files.next) (writeEnd sh.files.next)) :=
        Files.piped_represents rep (by decide)
      have right := rightEnd_represents both (answers.closes stage)
      have left := leftEnd_represents both (answers.closes stage)
      have fresh : (rightEnd (sh.files.piped 2 3) 2 3 (answers.closes stage)).next =
          sh.files.next + 3 := by
        rw [rightEnd, Files.close_next, move_next]
        rfl
      obtain ⟨outcomes, later, count, stages⟩ := @ih (readEnd sh.files.next) nofun
        (fun other inside => isCommand other (List.mem_cons_of_mem _ inside))
        { sh' with files := rightEnd (sh.files.piped 2 3) 2 3 (answers.closes stage) }
        (stage + 1) rounds (read ++ new) ahead' right (by omega)
      simp only [fresh] at stages
      refine ⟨Shell.runit answers stage { sh' with
        files := leftEnd (sh.files.piped 2 3) 2 3 (answers.closes stage) } :: outcomes, ?_,
        congrArg (· + 1) count, ?_⟩
      · rw [Shell.again]
        simp only [ran, files, piped, succeed.forks stage, if_true]
        exact congrArg _ later
      · intro i outcome command' here there
        cases i with
        | zero =>
          cases here
          cases there
          refine runit_spec ?_ argv' words some fun x inside =>
            Lexer.Ahead.holds ahead' (List.mem_append_right _ inside)
          have notLast : 0 + 1 ≠ (command :: next :: commands).length := by simp
          rw [stageOutput, if_neg notLast]
          exact left
        | succ i =>
          have result := stages i outcome command' here there
          have inputs : stageInput (readEnd sh.files.next) (sh.files.next + 3) i =
              stageInput input sh.files.next (i + 1) := by
            cases i with
            | zero => rfl
            | succ i =>
              simp only [stageInput]
              congr 1
              omega
          have outputs : stageOutput output (sh.files.next + 3) (next :: commands).length i =
              stageOutput output sh.files.next (command :: next :: commands).length (i + 1) := by
            simp only [stageOutput, List.length_cons, Nat.add_right_cancel_iff]
            congr 2
            omega
          rw [inputs, outputs] at result
          exact result

def pageref (envs : List Table) (page : Nat) : Nat :=
  (envs.map fun t => (List.finRange maxFd).countP fun i =>
    (t i).any fun o => decide (o.fd = page ∨ o.data = some page)).sum

/-- The comparison of `_pipeisclosed` -/
def pipeisclosed (envs : List Table) (o : Object) : Bool :=
  o.data.any fun page => pageref envs o.fd == pageref envs page

def stageEnds (input output : Object) (page count i : Nat) : Table :=
  ends (stageInput input page i) (stageOutput output page count i)

/-- When the program of stage `i` has ended and the shells have closed everything, then of
the programs that are left only the next one has the pipe, at descriptor 0, and it sees the
end of the file. -/
def Ended (input output : Object) (page count : Nat) : Prop :=
  ∀ i, i + 1 < count → ∀ left : List Nat, left.Nodup → (∀ j ∈ left, j < count) → i ∉ left →
    i + 1 ∈ left → ∀ shells : Nat,
      let envs := left.map (stageEnds input output page count) ++
        List.replicate shells fun _ => none
      stageEnds input output page count (i + 1) 0 = some (readEnd (page + 3 * i)) ∧
        pageref envs (readEnd (page + 3 * i)).fd = 1 ∧
        pageref envs (writeEnd (page + 3 * i)).fd = 0 ∧ pageref envs (page + 3 * i + 2) = 1 ∧
        pipeisclosed envs (readEnd (page + 3 * i)) = true

theorem countP_ends (p : Object → Bool) :
    ((List.finRange maxFd).countP fun i => (ends input output i).any p) =
      (if p input then 1 else 0) + if p output then 1 else 0 := by
  have split : List.finRange maxFd = 0 :: 1 :: (List.finRange maxFd).drop 2 := by decide
  have others : ∀ i ∈ (List.finRange maxFd).drop 2, i ≠ 0 ∧ i ≠ 1 := by decide
  have closed : ((List.finRange maxFd).drop 2).countP (fun i => (ends input output i).any p) = 0 := by
    refine List.countP_eq_zero.mpr fun i inside => ?_
    obtain ⟨zero, one⟩ := others i inside
    simp [ends, zero, one]
  have first : ends input output 0 = some input := rfl
  have second : ends input output 1 = some output := rfl
  rw [split, List.countP_cons, List.countP_cons, closed, first, second]
  simp only [Option.any_some]
  omega

theorem pageref_stages {tables : Nat → Table} {page k shells : Nat} {left : List Nat}
    (counts : ∀ j ∈ left, ((List.finRange maxFd).countP fun i =>
      (tables j i).any fun o => decide (o.fd = page ∨ o.data = some page)) =
        if j = k then 1 else 0) :
    pageref (left.map tables ++ List.replicate shells fun _ => none) page = left.count k := by
  have closed : ((List.finRange maxFd).countP fun i =>
      ((fun _ => none : Table) i).any fun o => decide (o.fd = page ∨ o.data = some page)) = 0 :=
    List.countP_eq_zero.mpr fun i _ => by simp
  have zeros : (List.replicate shells 0).sum = 0 := by simp
  rw [pageref, List.map_append, List.sum_append, List.map_replicate, closed, zeros, Nat.add_zero]
  induction left with
  | nil => rfl
  | cons j left ih =>
    rw [List.map_cons, List.map_cons, List.sum_cons,
      ih fun x inside => counts x (List.mem_cons_of_mem _ inside), counts j List.mem_cons_self,
      List.count_cons]
    simp only [beq_iff_eq]
    omega

def Object.Old (o : Object) (page : Nat) : Prop := o.fd < page ∧ ∀ d, o.data = some d → d < page

theorem ended {page count : Nat} (inputOld : Object.Old input page)
    (outputOld : Object.Old output page) : Ended input output page count := by
  intro i inside left nodup bounded gone next shells
  have counts {q k : Nat} (only : ∀ j, j < count → j ≠ i →
      ((if (decide ((stageInput input page j).fd = q ∨ (stageInput input page j).data = some q)) then
        1 else 0) + if (decide ((stageOutput output page count j).fd = q ∨
          (stageOutput output page count j).data = some q)) then 1 else 0) = if j = k then 1 else 0) :
      pageref (left.map (stageEnds input output page count) ++
        List.replicate shells fun _ => none) q = left.count k := by
    refine pageref_stages fun j here => ?_
    rw [stageEnds, countP_ends]
    exact only j (bounded j here) fun same => gone (same ▸ here)
  have absent {o : Object} (old : Object.Old o page) (q : Nat) (new : page ≤ q) :
      ¬ (o.fd = q ∨ o.data = some q) := by
    rintro (same | same)
    · exact absurd old.1 (by omega)
    · exact absurd (old.2 q same) (by omega)
  have outputs (q : Nat) (new : q = page + 3 * i ∨ q = page + 3 * i + 1 ∨ q = page + 3 * i + 2)
      (j : Nat) (differs : j ≠ i) : ¬ ((stageOutput output page count j).fd = q ∨
        (stageOutput output page count j).data = some q) := by
    unfold stageOutput
    split
    · exact absent outputOld q (by omega)
    · simp only [writeEnd, Option.some.injEq]
      omega
  have reads (q : Nat) (new : q = page + 3 * i ∨ q = page + 3 * i + 2) (j : Nat) :
      ((stageInput input page j).fd = q ∨ (stageInput input page j).data = some q) ↔ j = i + 1 := by
    cases j with
    | zero => exact iff_of_false (absent inputOld q (by omega)) (by omega)
    | succ j =>
      simp only [stageInput, readEnd, Option.some.injEq]
      omega
  have once := List.count_eq_one_of_mem nodup next
  have reader : pageref (left.map (stageEnds input output page count) ++
      List.replicate shells fun _ => none) (page + 3 * i) = 1 := by
    rw [← once]
    refine counts fun j _ differs => ?_
    simp only [decide_eq_true_eq, if_neg (outputs _ (.inl rfl) j differs), reads _ (.inl rfl) j,
      Nat.add_zero]
  have data : pageref (left.map (stageEnds input output page count) ++
      List.replicate shells fun _ => none) (page + 3 * i + 2) = 1 := by
    rw [← once]
    refine counts fun j _ differs => ?_
    simp only [decide_eq_true_eq, if_neg (outputs _ (.inr (.inr rfl)) j differs),
      reads _ (.inr rfl) j, Nat.add_zero]
  have writer : pageref (left.map (stageEnds input output page count) ++
      List.replicate shells fun _ => none) (page + 3 * i + 1) = 0 := by
    have none : left.count count = 0 :=
      List.count_eq_zero.mpr fun member => absurd (bounded count member) (lt_irrefl count)
    rw [← none]
    refine counts fun j less differs => ?_
    have input : ¬ ((stageInput input page j).fd = page + 3 * i + 1 ∨
        (stageInput input page j).data = some (page + 3 * i + 1)) := by
      cases j with
      | zero => exact absent inputOld _ (by omega)
      | succ j =>
        simp only [stageInput, readEnd, Option.some.injEq]
        omega
    simp only [decide_eq_true_eq, if_neg (outputs _ (.inr (.inl rfl)) j differs),
      if_neg input, if_neg (Nat.ne_of_lt less)]
  refine ⟨rfl, reader, writer, data, ?_⟩
  change (pageref _ (page + 3 * i) == pageref _ (page + 3 * i + 2)) = true
  rw [reader, data]
  rfl

/-- Every stage calls `spawn` with its descriptors and its words, and afterwards the pipes
end. -/
def Works (answers : Answers) (rounds : Nat) (line : Text) (f : Files) (input output : Object)
    (commands : List (List Text)) : Prop :=
  (∃ outcomes, runcmd answers rounds line f = some outcomes ∧ outcomes.length = commands.length ∧
    ∀ i outcome command, outcomes[i]? = some outcome → commands[i]? = some command →
      Plumbed outcome (stageInput input f.next i) (stageOutput output f.next commands.length i)
        command) ∧
  Ended input output f.next commands.length

theorem Represents.old {f : Files} {t : Table} (rep : f.Represents t)
    (mapped : ∀ pn entry, f.space.uvpt pn = some entry → entry.ppn < f.next) {i : Fin maxFd}
    {o : Object} (found : t i = some o) : Object.Old o f.next := by
  have binds := rep i
  refine ⟨binds.fresh o found, fun d there => ?_⟩
  have shown := binds.data
  rw [found, Option.bind_some, there] at shown
  obtain ⟨perm, here, -⟩ := shown
  exact mapped _ _ here

/-- `runcmd` of a line of commands. -/
theorem runcmd_spec {answers : Answers} (succeed : answers.Enough) {commands : List (List Text)}
    (commandLine : commands ≠ []) (isCommand : ∀ command ∈ commands, IsCommand command)
    {line : Text} (spells : Spells line (pipeline commands))
    (rep : f.Represents (ends input output)) {rounds : Nat}
    (enough : (pipeline commands).length < rounds) :
    ∃ outcomes, runcmd answers rounds line f = some outcomes ∧ outcomes.length = commands.length ∧
      ∀ i outcome command, outcomes[i]? = some outcome → commands[i]? = some command →
        (Fits (command.headD []) ∧ Plumbed outcome (stageInput input f.next i)
          (stageOutput output f.next commands.length i) command ∨
        ¬ Fits (command.headD []) ∧ outcome = .overflowed) := by
  have ahead : (gettokenAt line 0).Ahead [] (pipeline commands) :=
    @Spells.ahead [] line (pipeline commands) [] spells fun _ _ _ inside => nomatch inside
  exact @again_spec input output answers succeed commands commandLine isCommand
    ⟨gettokenAt line 0, f, []⟩ 0 rounds [] ahead rep enough

theorem Works.fits {answers : Answers} (succeed : answers.Enough) {commands : List (List Text)}
    (commandLine : commands ≠ []) (isCommand : ∀ command ∈ commands, IsCommand command)
    {line : Text} (spells : Spells line (pipeline commands))
    (rep : f.Represents (ends input output)) {rounds : Nat}
    (enough : (pipeline commands).length < rounds)
    (works : Works answers rounds line f input output commands) :
    ∀ command ∈ commands, Fits (command.headD []) := by
  obtain ⟨outcomes, ran, count, stages⟩ := runcmd_spec succeed commandLine isCommand spells rep enough
  obtain ⟨⟨outcomes', ran', -, plumbed⟩, -⟩ := works
  intro command inside
  cases ran.symm.trans ran'
  obtain ⟨i, bound, rfl⟩ := List.getElem_of_mem inside
  have there := List.getElem?_eq_getElem bound
  have here := List.getElem?_eq_getElem (count ▸ bound : i < outcomes.length)
  rcases stages i _ _ here there with ⟨fits, -⟩ | ⟨-, overflowed⟩
  · exact fits
  · obtain ⟨prog, pointers, line, f', spawned, -⟩ := plumbed i _ _ here there
    cases overflowed.symm.trans spawned

/-- A command line of any length works exactly when the first word of each command has room
in `argv0buf`. -/
theorem pipeline_plumbed {answers : Answers} (succeed : answers.Enough) {commands : List (List Text)}
    (commandLine : commands ≠ []) (isCommand : ∀ command ∈ commands, IsCommand command)
    {line : Text} (spells : Spells line (pipeline commands))
    (rep : f.Represents (ends input output))
    (mapped : ∀ pn entry, f.space.uvpt pn = some entry → entry.ppn < f.next) {rounds : Nat}
    (enough : (pipeline commands).length < rounds) :
    Works answers rounds line f input output commands ↔
      ∀ command ∈ commands, Fits (command.headD []) := by
  constructor
  · exact Works.fits succeed commandLine isCommand spells rep enough
  · intro fits
    obtain ⟨outcomes, ran, count, stages⟩ :=
      runcmd_spec succeed commandLine isCommand spells rep enough
    refine ⟨⟨outcomes, ran, count, fun i outcome command here there => ?_⟩,
      ended (Represents.old (i := 0) rep mapped rfl) (Represents.old (i := 1) rep mapped rfl)⟩
    rcases stages i outcome command here there with ⟨-, plumbed⟩ | ⟨long, -⟩
    · exact plumbed
    · exact absurd (fits command (List.mem_of_getElem? there)) long

def console : Files := ((blank.opened .cons).2.opened .cons).2

/-- The number that `fd_alloc` finds is the one that is used. -/
theorem opened_represents (rep : f.Represents t) (smallest : t.Smallest i) (device : Fds.Device) :
    ∃ page, (f.opened device).2.Represents (update t i (some ⟨page, none⟩)) := by
  obtain ⟨a, f', t', ran, meets, rep'⟩ := Files.opened_spec rep device
  have opened : (f.opened device).2 = f' := congrArg Prod.snd ran
  rw [opened]
  cases meets with
  | opened smallest' _ =>
    rw [Files.smallest_unique smallest smallest']
    exact ⟨_, rep'⟩
  | openFull full _ => exact absurd smallest.1 (full i)

theorem console_represents : ∃ input output, console.Represents (ends input output) := by
  have first : Table.Smallest (fun _ => none) 0 := ⟨rfl, fun j less => absurd less (Nat.not_lt_zero _)⟩
  obtain ⟨p, rep⟩ := opened_represents blank_represents first .cons
  have second : Table.Smallest (update (fun _ => none) 0 (some ⟨p, none⟩)) 1 := by
    refine ⟨rfl, fun j less => ?_⟩
    have zero : j = 0 := Fin.ext (Nat.lt_one_iff.mp less)
    simp [zero]
  obtain ⟨q, rep'⟩ := opened_represents rep second .cons
  refine ⟨⟨p, none⟩, ⟨q, none⟩, ?_⟩
  have same : update (update (fun _ => none) 0 (some ⟨p, none⟩)) 1 (some ⟨q, none⟩) =
      ends ⟨p, none⟩ ⟨q, none⟩ := by
    funext x
    simp only [ends, update_apply]
    grind
  exact same ▸ rep'

theorem opened_mapped (mapped : ∀ pn entry, f.space.uvpt pn = some entry → entry.ppn < f.next)
    (device : Fds.Device) : ∀ pn entry, (f.opened device).2.space.uvpt pn = some entry →
      entry.ppn < (f.opened device).2.next := by
  have stored {f : Files} {va : Va} {id : BitVec 32} :
      (f.setDevId va id).space = f.space ∧ (f.setDevId va id).next = f.next := by
    unfold Files.setDevId
    split <;> exact ⟨rfl, rfl⟩
  have taken (va : Va) : ∀ pn entry,
      (f.sysPageAlloc true va permShare).2.space.uvpt pn = some entry →
      entry.ppn < (f.sysPageAlloc true va permShare).2.next := by
    intro pn entry
    unfold Files.sysPageAlloc
    split
    · exact mapped pn entry
    · split
      · exact mapped pn entry
      · rw [if_neg (by simp)]
        simp only [insert_uvpt]
        split
        · intro same
          rw [← Option.some.inj same]
          exact Nat.lt_succ_self _
        · exact fun there => Nat.lt_succ_of_lt (mapped pn entry there)
  intro pn entry
  unfold Files.opened
  split
  · exact mapped pn entry
  · simp only
    split
    · exact taken _ pn entry
    · rw [stored.1, stored.2]
      exact taken _ pn entry

theorem console_mapped :
    ∀ pn entry, console.space.uvpt pn = some entry → entry.ppn < console.next := by
  have nothing : ∀ pn entry, blank.space.uvpt pn = some entry → entry.ppn < blank.next := by
    intro pn entry there
    cases there
  exact opened_mapped (opened_mapped nothing .cons) .cons

def willing : Answers := ⟨fun _ _ => true, fun _ => 0, fun _ => ⟨true, true, true, true⟩,
  fun _ => true, fun _ _ => some 0⟩

theorem willing_enough : willing.Enough := ⟨fun _ => rfl, fun _ => rfl, fun _ => rfl, fun _ => rfl⟩

/-- "a|b" -/
theorem pipeline_plumbed_pair : ∃ input output,
    Works willing 4 [0x61, bar, 0x62, 0] console input output [[[0x61]], [[0x62]]] := by
  obtain ⟨input, output, rep⟩ := console_represents
  have spells : Spells [0x61, bar, 0x62, 0] (pipeline [[[0x61]], [[0x62]]]) := by
    have last : Spells [0x62, 0] [.word [0x62]] :=
      @Spells.word [] [0x62] [0] [] nofun ⟨nofun, by decide⟩ ⟨0, [], rfl, by decide⟩
        (@Spells.stop [] [] nofun)
    have middle : Spells [bar, 0x62, 0] [.bar, .word [0x62]] := @Spells.bar [] _ _ nofun last
    exact @Spells.word [] [0x61] _ _ nofun ⟨nofun, by decide⟩ ⟨bar, _, rfl, by decide⟩ middle
  have isCommand : ∀ command ∈ ([[[0x61]], [[0x62]]] : List (List Text)), IsCommand command := by
    decide
  exact ⟨input, output, (pipeline_plumbed willing_enough (List.cons_ne_nil _ _) isCommand spells rep
    console_mapped (by decide)).mpr (by decide)⟩

/-- A word of 1019 bytes and "/bin/" do not fit in `argv0buf`. -/
theorem long_word_overflows : ∃ (line : Text) (commands : List (List Text)) (input output : Object),
    commands ≠ [] ∧ (∀ command ∈ commands, IsCommand command) ∧ Spells line (pipeline commands) ∧
      console.Represents (ends input output) ∧ ∀ rounds, (pipeline commands).length < rounds →
        ¬ Works willing rounds line console input output commands := by
  obtain ⟨input, output, rep⟩ := console_represents
  generalize long : List.replicate 1019 (0x61 : BitVec 8) = w
  have size : w.length = 1019 := by
    rw [← long, List.length_replicate]
  have isWord : IsWord w := by
    refine ⟨fun empty => ?_, fun b inside => ?_⟩
    · rw [empty] at size
      cases size
    · rw [← long] at inside
      rw [List.eq_of_mem_replicate inside]
      decide
  have spells : Spells (w ++ [0]) (pipeline [[w]]) :=
    @Spells.word [] w [0] [] nofun isWord ⟨0, [], rfl, by decide⟩ (@Spells.stop [] [] nofun)
  have isCommand : ∀ command ∈ [[w]], IsCommand command := by
    intro command inside
    rw [List.mem_singleton.mp inside]
    exact ⟨List.cons_ne_nil _ _, Nat.lt_of_sub_ne_zero nofun⟩
  refine ⟨w ++ [0], [[w]], input, output, List.cons_ne_nil _ _, isCommand, spells, rep,
    fun rounds enough works => ?_⟩
  have fits := Works.fits willing_enough (List.cons_ne_nil _ _) isCommand spells rep enough works [w]
    (List.mem_singleton_self _)
  unfold Fits at fits
  rw [List.headD_cons, size] at fits
  exact absurd fits (by decide)

end Sh

end Jos
