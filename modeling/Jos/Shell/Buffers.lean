import Jos.Shell.Pipeline
import Jos.Shell.Grammar

/-! The fixed buffers of `runcmd`: `argv` and `argv0buf` against any command line. -/

set_option autoImplicit false

namespace Jos

open Function Fds

namespace Sh

/-- The word lists that `runcmd` gets to run, behind these words of the first one. A line that
is rejected somewhere has those in front of the stage that is. -/
def commandsAfter (words : List Text) : List Lexeme → List (List Text)
  | [] => [words]
  | .word w :: more =>
    if words.length = maxArgs then [] else commandsAfter (words ++ [w]) more
  | .symbol b :: .word w :: more =>
    if b = less ∨ b = greater then commandsAfter words more
    else if b = bar then words :: commandsAfter [] (.word w :: more)
    else []
  | .symbol b :: more => if b = bar then words :: commandsAfter [] more else []

def commands (line : Text) : List (List Text) := commandsAfter [] (lexemes line)

/-- "ls x > y | cat" -/
example : commands [0x6C, 0x73, 0x20, 0x78, 0x3E, 0x79, bar, 0x63] =
    [[[0x6C, 0x73], [0x78]], [[0x63]]] := by
  decide

/-- What `runcmd` may do with a command: its stores stay in the buffers and `spawn` gets its
words, the first one maybe with a directory, or there is a message. -/
def Outcome.Meets (command : Option (List Text)) : Outcome → Prop
  | .exited | .panicked => True
  | .returned => command = some []
  | .overflowed => False
  | .spawns prog argv line _ => argv.length + 1 ≤ maxArgs ∧
      ∃ name words pointers, command = some (name :: words) ∧
        (prog = name ∨ ∃ dir ∈ path, prog = dir ++ name) ∧
        argv = List.map some pointers ++ [none] ∧ List.Forall₂ (Holds line) pointers words

def Contained (line : Text) : Prop :=
  ∀ answers f rounds, (lexemes line).length < rounds →
    ∃ outcomes, runcmd answers rounds (line ++ [0]) f = some outcomes ∧
      ∀ (i : Nat) outcome, outcomes[i]? = some outcome → outcome.Meets (commands line)[i]?

/-- There is room for the words and the null pointer, and for the path of the first word. -/
def Fitting (words : List Text) : Prop := words.length < maxArgs ∧ Fits (words.headD [])

instance (words : List Text) : Decidable (Fitting words) := inferInstanceAs (Decidable (_ ∧ _))

section
variable {answers : Answers} {stage : Nat} {sh : Shell} {f : Files} {name : Text}
  {cur read : List (Nat × Text)} {more : List Lexeme} {lists : List (List Text)}

theorem search_found {dirs : List Text} (room : ∀ dir ∈ dirs, (dir ++ name).length < bufsiz) :
    ∃ found f', search answers stage name dirs f = some (found, f') ∧
      ∀ prog, found = some prog → ∃ dir ∈ dirs, prog = dir ++ name := by
  induction dirs generalizing f with
  | nil => exact ⟨none, f, rfl, nofun⟩
  | cons dir dirs ih =>
    unfold search
    rw [if_neg (room dir List.mem_cons_self).not_ge]
    simp only
    split
    · refine ⟨_, _, rfl, fun prog same => ⟨dir, List.mem_cons_self, ?_⟩⟩
      exact (Option.some.inj same).symm
    · obtain ⟨found, f', ran, there⟩ := @ih
        (stat f (answers.stats stage dir) (answers.closes stage)).2
        fun other inside => room other (List.mem_cons_of_mem _ inside)
      refine ⟨found, f', ran, fun prog same => ?_⟩
      obtain ⟨other, inside, eq⟩ := there prog same
      exact ⟨other, List.mem_cons_of_mem _ inside, eq⟩

/-- The pointers of `argv` hold the words. -/
theorem holds_pointers (held : ∀ x ∈ cur, Holds sh.lex.buf x.1 x.2) :
    List.Forall₂ (Holds sh.lex.buf) (cur.map Prod.fst) (cur.map Prod.snd) := by
  induction cur with
  | nil => exact .nil
  | cons x cur ih =>
    exact .cons (held x List.mem_cons_self) (ih fun y inside => held y (List.mem_cons_of_mem _ inside))

theorem runit_meets (same : sh.argv = args cur) (held : ∀ x ∈ cur, Holds sh.lex.buf x.1 x.2) :
    (sh.runit answers stage).Meets (some (cur.map Prod.snd)) ↔ Fitting (cur.map Prod.snd) := by
  cases cur with
  | nil =>
    unfold Shell.runit
    simp only [same, args, List.map_nil]
    exact iff_of_true rfl (by decide)
  | cons first cur =>
    have word := (held first List.mem_cons_self).cString
    have spawns {prog : Text} {f : Files}
        (found : prog = first.2 ∨ ∃ dir ∈ path, prog = dir ++ first.2) :
        (Outcome.spawns prog (args cur ++ [none]) sh.lex.buf f).Meets
          (some ((first :: cur).map Prod.snd)) ↔ cur.length + 1 < maxArgs := by
      have count : (args cur ++ [none]).length = cur.length + 1 := by
        rw [List.length_append, args, List.length_map, List.length_singleton]
      refine ⟨fun meets => count ▸ meets.1, fun few => ⟨count ▸ few, first.2, cur.map Prod.snd,
        cur.map Prod.fst, rfl, found, ?_, holds_pointers fun x inside =>
          held x (List.mem_cons_of_mem _ inside)⟩⟩
      rw [args, List.map_map]
      rfl
    have fitting : Fitting ((first :: cur).map Prod.snd) ↔
        cur.length + 1 < maxArgs ∧ Fits first.2 := by
      unfold Fitting
      rw [List.length_map, List.length_cons]
      rfl
    rw [fitting]
    unfold Shell.runit
    simp only [same, args, List.map_cons, Option.elim_some, word]
    by_cases fits : Fits first.2
    · obtain ⟨found, f', ran, there⟩ := @search_found answers stage sh.files first.2 path fits.room
      rw [ran]
      refine Iff.trans ?_ (and_iff_left fits).symm
      cases found with
      | some prog => exact spawns (.inr (there prog rfl))
      | none =>
        simp only
        split
        · exact spawns (.inl rfl)
        · have enough : ¬ bufsiz ≤ (slash :: first.2).length := by
            unfold Fits at fits
            rw [List.length_cons]
            omega
          rw [if_neg enough]
          exact spawns (.inr ⟨[slash], by decide, rfl⟩)
    · rw [search_overflows fits]
      exact iff_of_false id fun both => fits both.2

/-- The `while (1)` is left: with the words of its command, and what is behind its '|'. -/
def Stop.Comes (lists : List (List Text)) (size : Nat) : Stop → Prop
  | .exited | .panicked => True
  | .complete sh => ∃ cur, sh.argv = args cur ∧ (∀ x ∈ cur, Holds sh.lex.buf x.1 x.2) ∧
      lists = [cur.map Prod.snd]
  | .piped sh => ∃ cur read more, sh.argv = args cur ∧ (∀ x ∈ cur, Holds sh.lex.buf x.1 x.2) ∧
      sh.lex.Reads read more ∧ more.length < size ∧
      lists = cur.map Prod.snd :: commandsAfter [] more

def Plain (f : Files) : Prop := ∃ input output, f.Represents (ends input output)

def Stop.Proceeds (lists : List (List Text)) : Stop → Prop
  | .exited | .panicked => lists = []
  | .complete sh | .piped sh => Plain sh.files

structure Answers.Willing (answers : Answers) : Prop extends answers.Enough where
  opens : ∀ stage t, answers.opens stage t = true

theorem opened_plain (plain : Plain f) :
    ∃ input output page, (f.opened .file).1 = 2 ∧
      (f.opened .file).2.Represents (update (ends input output) 2 (some ⟨page, none⟩)) := by
  obtain ⟨input, output, rep⟩ := plain
  obtain ⟨a, f', t', ran, meets, rep'⟩ := Files.opened_spec rep .file
  have opened : f.opened .file = (a.result, f') :=
    congrArg (fun ran : Answer × Files => (ran.1.result, ran.2)) ran
  rw [opened]
  cases meets with
  | @opened _ i page smallest _ =>
    obtain rfl : i = 2 := Files.smallest_unique smallest ends_smallest
    exact ⟨input, output, page, rfl, rep'⟩
  | openFull full _ => exact absurd ends_smallest.1 (full 2)

theorem redirect_plain (plain : Plain f) {fdnum : BitVec 32} (std : fdnum = 0 ∨ fdnum = 1)
    (answer : Int) : ∃ f', redirect f true fdnum answer = some f' ∧ Plain f' := by
  obtain ⟨input, output, page, fd, rep⟩ := opened_plain plain
  have there : (update (ends input output) 2 (some ⟨page, none⟩) : Table) 2 = some ⟨page, none⟩ :=
    update_self ..
  unfold redirect
  simp only [if_true, fd]
  rw [if_neg (by decide)]
  refine ⟨_, rfl, ?_⟩
  rcases std with rfl | rfl
  · have moved := move_represents (j := 0) rep there (by decide) answer
    have same : update (update (update (ends input output) 2 (some ⟨page, none⟩)) 0
        (some ⟨page, none⟩)) 2 none = ends ⟨page, none⟩ output := by
      funext x
      simp only [ends, update_apply]
      grind
    exact ⟨_, _, same ▸ moved⟩
  · have moved := move_represents (j := 1) rep there (by decide) answer
    have same : update (update (update (ends input output) 2 (some ⟨page, none⟩)) 1
        (some ⟨page, none⟩)) 2 none = ends input ⟨page, none⟩ := by
      funext x
      simp only [ends, update_apply]
      grind
    exact ⟨_, _, same ▸ moved⟩

theorem Stop.Comes.mono {stop : Stop} {size size' : Nat}
    (comes : stop.Comes lists size) (less : size ≤ size') : stop.Comes lists size' := by
  cases stop with
  | exited => exact comes
  | panicked => exact comes
  | complete sh => exact comes
  | piped sh =>
    obtain ⟨cur, read, more, argv, held, reads, small, lists⟩ := comes
    exact ⟨cur, read, more, argv, held, reads, small.trans_le less, lists⟩

theorem commandsAfter_bar (words : List Text) (more : List Lexeme) :
    commandsAfter words (.symbol bar :: more) = words :: commandsAfter [] more := by
  match more with
  | [] => rfl
  | .symbol _ :: _ => rfl
  | .word _ :: _ => rfl

theorem commandsAfter_redirect {words : List Text} {b : BitVec 8} {w : Text}
    (redirects : b = less ∨ b = greater) :
    commandsAfter words (.symbol b :: .word w :: more) = commandsAfter words more := by
  rw [commandsAfter, if_pos redirects]

/-- A '<' or '>' without a word, and a symbol that `runcmd` does not know, end it. -/
theorem commandsAfter_other {words : List Text} {b : BitVec 8} (noBar : b ≠ bar)
    (noRedirect : (b = less ∨ b = greater) → ∀ w rest, more ≠ .word w :: rest) :
    commandsAfter words (.symbol b :: more) = [] := by
  match more with
  | [] => exact if_neg noBar
  | .symbol _ :: _ => exact if_neg noBar
  | .word w :: rest =>
    rw [commandsAfter, if_neg fun redirects => noRedirect redirects w rest rfl, if_neg noBar]

/-- The `while (1)` over any lexemes: their words come to `argv` as `commandsAfter` has it. -/
theorem parse_spec {rounds : Nat} (enough : more.length < rounds) (reads : sh.lex.Reads read more)
    (same : sh.argv = args cur) (old : ∀ x ∈ cur, x ∈ read) :
    ∃ stop, Shell.parse answers stage rounds sh = some stop ∧
      stop.Comes (commandsAfter (cur.map Prod.snd) more) more.length ∧
      (answers.Willing → Plain sh.files →
        stop.Proceeds (commandsAfter (cur.map Prod.snd) more)) := by
  induction rounds generalizing sh cur read more with
  | zero => exact absurd enough (Nat.not_lt_zero _)
  | succ rounds ih =>
    have count : sh.argv.length = (cur.map Prod.snd).length := by
      rw [same, args, List.length_map, List.length_map]
    rcases more with _ | ⟨w | b, more⟩
    · obtain ⟨code, next⟩ := reads.stop
      refine ⟨.complete { sh with lex := sh.lex.gettoken.2.2 }, ?_,
        ⟨cur, same, fun x inside => next.holds (old x inside), rfl⟩, fun _ plain => plain⟩
      unfold Shell.parse
      simp only [code]
      rfl
    · obtain ⟨s, code, pointer, next⟩ := reads.word
      unfold Shell.parse commandsAfter
      simp only [code, pointer, if_true, count]
      by_cases full : (cur.map Prod.snd).length = maxArgs
      · rw [if_pos full, if_pos full]
        exact ⟨.exited, rfl, trivial, fun _ _ => rfl⟩
      · rw [if_neg full, if_neg full]
        obtain ⟨stop, ran, comes, proceeds⟩ := @ih
          ⟨sh.lex.gettoken.2.2, sh.files, sh.argv ++ [some s]⟩ (cur ++ [(s, w)])
          (read ++ [(s, w)]) more (Nat.lt_of_succ_lt_succ enough) next
          (by simp [same, args]) fun x inside => by
            rcases List.mem_append.mp inside with here | new
            · exact List.mem_append_left _ (old x here)
            · exact List.mem_append_right _ new
        rw [List.map_append] at comes proceeds
        exact ⟨stop, ran, comes.mono (Nat.le_succ _), proceeds⟩
    · obtain ⟨isSymbol, code, next⟩ := reads.symbol
      have known : ∀ b ∈ symbols, b ≠ wordToken ∧ b ≠ 0 := by decide
      obtain ⟨noWord, notEnd⟩ := known b isSymbol
      unfold Shell.parse
      simp only [code]
      rw [if_neg noWord]
      by_cases redirects : b = less ∨ b = greater
      · rw [if_pos redirects]
        have noBar : b ≠ bar := by
          intro isBar
          rw [isBar] at redirects
          exact absurd redirects (by decide)
        rcases more with _ | ⟨w | b', more⟩
        · simp only [next.stop.1]
          rw [if_pos (by decide), commandsAfter_other noBar fun _ w rest same => by cases same]
          exact ⟨.exited, rfl, trivial, fun _ _ => rfl⟩
        rotate_left
        · obtain ⟨isSymbol', code', -⟩ := next.symbol
          simp only [code']
          rw [if_pos (known b' isSymbol').1, commandsAfter_other noBar fun _ w rest same => by cases same]
          exact ⟨.exited, rfl, trivial, fun _ _ => rfl⟩
        · obtain ⟨s, code', -, next'⟩ := next.word
          rw [commandsAfter_redirect redirects]
          simp only [code']
          rw [if_neg (fun differs => differs rfl)]
          have std : (if b = less then 0 else 1 : BitVec 32) = 0 ∨
              (if b = less then 0 else 1 : BitVec 32) = 1 := by
            split
            · exact .inl rfl
            · exact .inr rfl
          have kept (willing : answers.Willing) (plain : Plain sh.files) :=
            willing.opens stage sh.lex.gettoken.2.2.gettoken.2.1 ▸
              redirect_plain plain std (answers.closes stage)
          cases moved : redirect sh.files (answers.opens stage sh.lex.gettoken.2.2.gettoken.2.1)
              (if b = less then 0 else 1) (answers.closes stage) with
          | none =>
            refine ⟨.exited, rfl, trivial, fun willing plain => ?_⟩
            obtain ⟨f', ran, -⟩ := kept willing plain
            cases moved.symm.trans ran
          | some files =>
            obtain ⟨stop, ran, comes, proceeds⟩ := @ih
              ⟨sh.lex.gettoken.2.2.gettoken.2.2, files, sh.argv⟩ cur (read ++ [(s, w)]) more
              (Nat.lt_of_succ_lt (Nat.lt_of_succ_lt_succ enough)) next' same fun x inside =>
                List.mem_append_left _ (old x inside)
            refine ⟨stop, ran, comes.mono (by simp only [List.length_cons]; omega),
              fun willing plain => proceeds willing ?_⟩
            obtain ⟨f', ran', plain'⟩ := kept willing plain
            cases moved.symm.trans ran'
            exact plain'
      · rw [if_neg redirects]
        by_cases isBar : b = bar
        · subst isBar
          rw [if_pos rfl, commandsAfter_bar]
          exact ⟨.piped { sh with lex := sh.lex.gettoken.2.2 }, rfl, ⟨cur, read, more, same,
            fun x inside => next.holds (old x inside), next, Nat.lt_succ_self _, rfl⟩,
            fun _ plain => plain⟩
        · rw [if_neg isBar, if_neg notEnd, commandsAfter_other isBar fun noRedirect =>
            absurd noRedirect redirects]
          exact ⟨.panicked, rfl, trivial, fun _ _ => rfl⟩

theorem pipe_plain (willing : answers.Willing) (plain : Plain f) :
    ∃ f', f.pipe (answers.room stage) = (0, some (2, 3), f') ∧
      Plain (rightEnd f' 2 3 (answers.closes stage)) := by
  obtain ⟨input, output, rep⟩ := plain
  refine ⟨f.piped 2 3, Files.pipe_done rep ends_smallest (ends_smallest_next (readEnd f.next))
    (willing.fd0 stage) (willing.fd1 stage) (willing.page stage), readEnd f.next, output, ?_⟩
  have both : (f.piped 2 3).Represents
      (pipedEnds input output (readEnd f.next) (writeEnd f.next)) :=
    Files.piped_represents rep (by decide)
  exact rightEnd_represents both (answers.closes stage)

def Outcome.Depends (outcome : Outcome) (words : List Text) : Prop :=
  outcome.Meets (some words) ↔ Fitting words

/-- What comes of each stage: a message, or what depends on the words of the command; where
nothing fails, every command comes to its stage. -/
structure Stages (willing : Prop) (lists : List (List Text)) (outcomes : List Outcome) : Prop where
  each : ∀ (i : Nat) outcome, outcomes[i]? = some outcome →
    (outcome = .exited ∨ outcome = .panicked) ∨
      ∃ words, lists[i]? = some words ∧ outcome.Depends words
  reached : willing → ∀ (i : Nat) words, lists[i]? = some words →
    ∃ outcome, outcomes[i]? = some outcome ∧ outcome.Depends words

theorem Stages.rejected {willing : Prop} {outcome : Outcome}
    (message : outcome = .exited ∨ outcome = .panicked) (nothing : willing → lists = []) :
    Stages willing lists [outcome] where
  each i result here := by
    obtain rfl := List.mem_singleton.mp (List.mem_of_getElem? here)
    exact .inl message
  reached w i words there := by
    rw [nothing w] at there
    cases there

theorem Stages.cons {willing : Prop} {outcomes : List Outcome}
    {outcome : Outcome} {words : List Text} (first : outcome.Depends words)
    (later : Stages willing lists outcomes) :
    Stages willing (words :: lists) (outcome :: outcomes) where
  each i result here := by
    cases i with
    | zero =>
      cases here
      exact .inr ⟨words, rfl, first⟩
    | succ i => exact later.each i result here
  reached w i list there := by
    cases i with
    | zero =>
      cases there
      exact ⟨outcome, rfl, first⟩
    | succ i => exact later.reached w i list there

theorem again_stages {rounds : Nat} (enough : more.length < rounds)
    (reads : sh.lex.Reads read more) :
    ∃ outcomes, Shell.again answers rounds stage sh = some outcomes ∧
      Stages (answers.Willing ∧ Plain sh.files) (commandsAfter [] more) outcomes := by
  induction rounds generalizing sh stage read more with
  | zero => exact absurd enough (Nat.not_lt_zero _)
  | succ rounds ih =>
    obtain ⟨stop, ran, comes, proceeds⟩ := @parse_spec answers stage { sh with argv := [] } []
      read more (rounds + 1) enough reads rfl (by simp)
    cases stop with
    | exited =>
      refine ⟨[.exited], ?_, .rejected (.inl rfl) fun w => proceeds w.1 w.2⟩
      simp only [Shell.again, ran]
    | panicked =>
      refine ⟨[.panicked], ?_, .rejected (.inr rfl) fun w => proceeds w.1 w.2⟩
      simp only [Shell.again, ran]
    | complete sh' =>
      obtain ⟨cur, argv, held, lists⟩ := comes
      refine ⟨[sh'.runit answers stage], ?_, ?_⟩
      · simp only [Shell.again, ran]
      · rw [List.map_nil] at lists
        rw [lists]
        exact .cons (runit_meets argv held) ⟨by simp, by simp⟩
    | piped sh' =>
      obtain ⟨cur, read', rest, argv, held, reads', smaller, lists⟩ := comes
      rw [List.map_nil] at lists
      rw [lists]
      rw [Shell.again]
      simp only [ran]
      have piped (w : answers.Willing ∧ Plain sh.files) :=
        @pipe_plain answers stage sh'.files w.1 (proceeds w.1 w.2)
      generalize sh'.files.pipe (answers.room stage) = made at piped
      obtain ⟨r, fds, f⟩ := made
      cases fds with
      | none =>
        refine ⟨[.exited], rfl, .rejected (.inl rfl) fun w => ?_⟩
        obtain ⟨f', same, -⟩ := piped w
        cases same
      | some fds =>
        obtain ⟨p0, p1⟩ := fds
        cases forks : answers.forks stage with
        | false =>
          refine ⟨[.exited], rfl, .rejected (.inl rfl) fun w => ?_⟩
          rw [w.1.forks stage] at forks
          cases forks
        | true =>
          obtain ⟨outcomes, later, stages⟩ := @ih (stage + 1) { sh' with
              files := rightEnd f (BitVec.ofNat 32 p0) (BitVec.ofNat 32 p1)
                (answers.closes stage) } read' rest (by omega) reads'
          refine ⟨Shell.runit answers stage { sh' with
              files := leftEnd f (BitVec.ofNat 32 p0) (BitVec.ofNat 32 p1)
                (answers.closes stage) } :: outcomes, by simp only [if_true, later, Option.map_some],
            .cons (runit_meets argv held) ⟨stages.each, fun w => ?_⟩⟩
          obtain ⟨f', same, plain⟩ := piped w
          obtain ⟨-, fds, rfl⟩ : r = 0 ∧ some (p0, p1) = some (2, 3) ∧ f = f' := by
            simpa using same
          obtain ⟨rfl, rfl⟩ : p0 = 2 ∧ p1 = 3 := by simpa using fds
          exact stages.reached ⟨w.1, plain⟩

end

theorem willing_willing : willing.Willing := ⟨willing_enough, fun _ _ => rfl⟩

theorem runcmd_stages {line : Text} (clean : (0 : BitVec 8) ∉ line) (answers : Answers) (f : Files)
    {rounds : Nat} (enough : (lexemes line).length < rounds) :
    ∃ outcomes, runcmd answers rounds (line ++ [0]) f = some outcomes ∧
      Stages (answers.Willing ∧ Plain f) (commands line) outcomes :=
  @again_stages answers 0 ⟨gettokenAt (line ++ [0]) 0, f, []⟩ [] (lexemes line) rounds enough
    (reads_line clean)

theorem Contained.fitting {line : Text} (clean : (0 : BitVec 8) ∉ line)
    (contained : Contained line) : ∀ words ∈ commands line, Fitting words := by
  intro words inside
  obtain ⟨i, there⟩ := List.getElem?_of_mem inside
  obtain ⟨outcomes, ran, stages⟩ := runcmd_stages clean willing console (Nat.lt_succ_self _)
  obtain ⟨outcomes', ran', meets⟩ := contained willing console _ (Nat.lt_succ_self _)
  cases ran.symm.trans ran'
  obtain ⟨outcome, here, depends⟩ :=
    stages.reached ⟨willing_willing, console_represents⟩ i words there
  have met := meets i outcome here
  rw [there] at met
  exact depends.mp met

/-- A command line stays in the buffers exactly when each of its commands has fewer than
`MAXARGS` words and a first word that leaves room for "/bin/". -/
theorem line_contained_iff (line : Text) (clean : (0 : BitVec 8) ∉ line) :
    Contained line ↔ ∀ words ∈ commands line, Fitting words := by
  refine ⟨Contained.fitting clean, fun fitting answers f rounds enough => ?_⟩
  obtain ⟨outcomes, ran, stages⟩ := runcmd_stages clean answers f enough
  refine ⟨outcomes, ran, fun i outcome here => ?_⟩
  rcases stages.each i outcome here with message | ⟨words, there, depends⟩
  · rcases message with rfl | rfl
    · trivial
    · trivial
  · rw [there]
    exact depends.mpr (fitting words (List.mem_of_getElem? there))

/-- "a" -/
theorem contained_word : Contained [0x61] ↔ ∀ words ∈ commands [0x61], Fitting words :=
  line_contained_iff [0x61] (by decide)

/-- "a a a a a a a a a a a a a a a a": the null pointer goes behind the last of `argv`. -/
theorem sixteen_words_overflow :
    let line := (List.replicate 16 [0x61, 0x20]).flatten
    (0 : BitVec 8) ∉ line ∧ line.length ≤ 1023 ∧ ¬ Contained line := by
  have clean : (0 : BitVec 8) ∉ (List.replicate 16 [0x61, 0x20]).flatten := by decide
  refine ⟨clean, by decide, fun contained => ?_⟩
  have few := (contained.fitting clean (List.replicate 16 [0x61]) (by decide)).1
  exact absurd few (by decide)

end Sh

end Jos
