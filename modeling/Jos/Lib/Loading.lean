import Jos.Lib.Outcome

/-! The image that `spawn` gives to the child. -/

set_option autoImplicit false

namespace Jos.Spawn

structure Placed (file : Elf) (h : Proghdr) : Prop where
  aligned : h.offset % pgSize = h.va % pgSize
  filled : h.filesz ≤ h.memsz
  data : 0 < h.filesz → h.offset + h.filesz ≤ file.bytes.length
  user : h.va + h.memsz ≤ utop

structure Linked (file : Elf) : Prop where
  inside : Inside file
  small : file.bytes.length < 2 ^ 31
  placed : ∀ k h, file.segment k = some h → Placed file h
  apart : ∀ k k' h h' pn, k ≠ k' → file.segment k = some h → file.segment k' = some h' →
    h.Covers pn → ¬h'.Covers pn

def Shared (s : State) (e pn : Nat) (entry : Pte) : Prop :=
  vpn utext ≤ pn ∧ pn < vpn utop ∧ (s.world.space e).uvpt pn = some entry ∧
    entry.perm &&& pteShare ≠ 0

/-- The child has its image, the shared pages, its stack, and nothing else. -/
structure Exact (file : Elf) (e child : Nat) (s s' : State) : Prop where
  bytes : ∀ k h i, file.segment k = some h → i < h.memsz → s'.world.readByte child (h.va + i) =
    if i < h.filesz then file.byte (h.offset + i : Nat) else some 0
  readonly : ∀ k h pn, file.segment k = some h → h.flags / elfProgFlagWrite % 2 = 0 → h.Covers pn →
    ∃ entry, (s'.world.space child).uvpt pn = some entry ∧ entry.writable = false
  shared : ∀ pn entry, Shared s e pn entry →
    (s'.world.space child).uvpt pn = some ⟨entry.ppn, entry.perm &&& pteUser ||| pteP⟩
  only : ∀ pn entry, (s'.world.space child).uvpt pn = some entry → pn = ustackPage ∨
    (∃ k h, file.segment k = some h ∧ h.Covers pn) ∨ ∃ parent, Shared s e pn parent

def frames (file : Elf) : Nat → Nat
  | 0 => 0
  | k + 1 => frames file k + ((file.segment k).map Proghdr.pages).getD 0

/-- The pages that are handed out hold zeros where the file has no bytes, and no
mapping of a shared page is refused. Two pages go to the descriptor and the stack. -/
structure Lucky (a : Answers) (file : Elf) (e : Nat) (s : State) : Prop where
  zero : ∀ k h i, file.segment k = some h → h.filesz ≤ i → i < h.memsz →
    s.world.mem (s.world.next + 2 + frames file k + (h.va % pgSize + i) / pgSize)
      (pgOff (h.va + i)) = 0
  mapped : ∀ pn entry, Shared s e pn entry → 0 ≤ a.share pn

/-- What page `j` of a segment holds when `map_segment` is through with it. -/
def paged (file : Elf) (fileoffset : Int) (filesz j : Nat) (page : Page) : Page :=
  if filesz ≤ j * pgSize then page
  else fill file (fileoffset + (j * pgSize : Nat)) (min pgSize (filesz - j * pgSize)) page

/-- `m` new pages are mapped from the page `first` on. -/
structure Maps (child first m : Nat) (perm : BitVec 12) (content : Nat → Page → Page)
    (w w' : World) : Prop where
  next : w'.next = w.next + m
  uvpt : ∀ q, (w'.space child).uvpt q =
    if first ≤ q ∧ q < first + m then some ⟨w.next + (q - first), perm ||| pteP⟩
    else (w.space child).uvpt q
  mem : ∀ f, w'.mem f =
    if w.next ≤ f ∧ f < w.next + m then content (f - w.next) (w.mem f) else w.mem f

section Segment

variable {a : Answers} {e child first m k : Nat} {file : Elf} {perm : BitVec 12}
  {content : Nat → Page → Page} {w w' w'' : World}

theorem Maps.nil : Maps child first 0 perm content w w where
  next := rfl
  uvpt _ := (if_neg fun range => absurd range.2 (Nat.not_lt.mpr range.1)).symm
  mem _ := (if_neg fun range => absurd range.2 (Nat.not_lt.mpr range.1)).symm

theorem Maps.cons (head : Maps child first 1 perm (fun _ => content 0) w w')
    (rest : Maps child (first + 1) m perm (fun i => content (i + 1)) w' w'') :
    Maps child first (m + 1) perm content w w'' where
  next := by rw [rest.next, head.next, Nat.add_assoc, Nat.add_comm 1 m]
  uvpt q := by
    rw [rest.uvpt, head.uvpt, head.next]
    rcases lt_trichotomy q first with low | rfl | high
    · rw [if_neg (by omega), if_neg (by omega), if_neg (by omega)]
    · rw [if_neg (by omega), if_pos (by omega), if_pos (by omega)]
    · have same : w.next + 1 + (q - (first + 1)) = w.next + (q - first) := by omega
      rw [same, if_neg (c := first ≤ q ∧ q < first + 1) (by omega)]
      exact if_congr (by omega) rfl rfl
  mem f := by
    rw [rest.mem, head.mem, head.next]
    rcases lt_trichotomy f w.next with low | rfl | high
    · rw [if_neg (by omega), if_neg (by omega), if_neg (by omega)]
    · rw [if_neg (by omega), if_pos (by omega), if_pos (by omega), Nat.sub_self]
    · have same : f - (w.next + 1) + 1 = f - w.next := by omega
      rw [same, if_neg (c := w.next ≤ f ∧ f < w.next + 1) (by omega)]
      exact if_congr (by omega) rfl rfl

theorem Maps.blank : Maps child first 1 perm (fun _ page => page) w (w.pageAlloc child first perm) where
  next := rfl
  uvpt q := by
    rw [World.pageAlloc_uvpt]
    by_cases same : q = first
    · subst same
      rw [if_pos ⟨rfl, rfl⟩, if_pos (by omega), Nat.sub_self, Nat.add_zero]
    · rw [if_neg fun both => same both.2, if_neg (by omega)]
  mem f := (ite_self _).symm

theorem Maps.read {offset : Int} {n : Nat} (differ : child ≠ e) :
    Maps child first 1 perm (fun _ => fill file offset n) w
      (((readn e file offset n (w.pageAlloc e (vpn utemp) permPrivate)).pageMap e (vpn utemp) child
        first perm).remove e (vpn utemp)) := by
  have found : ((w.pageAlloc e (vpn utemp) permPrivate).space e).uvpt (vpn utemp) =
      some ⟨w.next, permPrivate ||| pteP⟩ := by
    rw [World.pageAlloc_uvpt, if_pos ⟨rfl, rfl⟩]
  have read : readn e file offset n (w.pageAlloc e (vpn utemp) permPrivate) =
      (w.pageAlloc e (vpn utemp) permPrivate).store w.next (fill file offset n (w.mem w.next)) := by
    unfold readn
    rw [found]
    rfl
  have still : (((w.pageAlloc e (vpn utemp) permPrivate).store w.next
      (fill file offset n (w.mem w.next))).space e).uvpt (vpn utemp) =
        some ⟨w.next, permPrivate ||| pteP⟩ := found
  rw [read, World.pageMap_some still]
  refine ⟨rfl, fun q => ?_, fun f => ?_⟩
  · rw [World.remove_uvpt, if_neg fun both => differ both.1, World.insert_uvpt]
    by_cases same : q = first
    · subst same
      rw [if_pos ⟨rfl, rfl⟩, if_pos (by omega), Nat.sub_self, Nat.add_zero]
    · rw [if_neg fun both => same both.2, if_neg (by omega)]
      change ((w.pageAlloc e (vpn utemp) permPrivate).space child).uvpt q = _
      rw [World.pageAlloc_uvpt, if_neg fun both => differ both.1]
  · change Function.update w.mem w.next (fill file offset n (w.mem w.next)) f = _
    by_cases same : f = w.next
    · subst same
      rw [Function.update_self, if_pos (by omega)]
    · rw [Function.update_of_ne same, if_neg (by omega)]

theorem mapPages_maps {va memsz filesz left j : Nat} {fileoffset : Int} (differ : child ≠ e)
    (aligned : va % pgSize = 0) (high : va + memsz ≤ 2 ^ 64)
    (ran : mapPages a e child file k va memsz filesz fileoffset perm left j w = some (.ok (), w')) :
    Maps child (vpn va + j) ((memsz + (pgSize - 1)) / pgSize - j) perm
      (fun i => paged file fileoffset filesz (j + i)) w w' := by
  induction left generalizing j w with
  | zero => cases ran
  | succ left ih =>
    unfold mapPages at ran
    dsimp only at ran
    split at ran
    · rename_i past
      cases ran
      have none : (memsz + (pgSize - 1)) / pgSize - j = 0 := by
        simp only [pgSize] at past ⊢
        omega
      rw [none]
      exact .nil
    rename_i more
    have page : vpn ((va + j * pgSize) % 2 ^ 64) = vpn va + j := by
      simp only [vpn, pgSize] at aligned more ⊢
      omega
    have one : (memsz + (pgSize - 1)) / pgSize - j = (memsz + (pgSize - 1)) / pgSize - (j + 1) + 1 := by
      simp only [pgSize] at more ⊢
      omega
    have later : (fun i => paged file fileoffset filesz (j + 1 + i)) =
        fun i => paged file fileoffset filesz (j + (i + 1)) :=
      funext fun i => by rw [Nat.add_assoc, Nat.add_comm 1 i]
    rw [page] at ran
    rw [one]
    split at ran
    · rename_i blank
      split at ran
      · cases ran
      have same : (fun (_ : Nat) => paged file fileoffset filesz (j + 0)) = fun _ page => page := by
        funext _ page
        unfold paged
        rw [Nat.add_zero, if_pos blank]
      refine .cons (by rw [same]; exact .blank) ?_
      have rest := ih ran
      rwa [later] at rest
    rename_i data
    split at ran
    · cases ran
    split at ran
    · cases ran
    split at ran
    · cases ran
    split at ran
    · cases ran
    have same : (fun (_ : Nat) => paged file fileoffset filesz (j + 0)) = fun _ =>
        fill file (fileoffset + (j * pgSize : Nat)) (min pgSize (filesz - j * pgSize)) := by
      funext _ page
      unfold paged
      rw [Nat.add_zero, if_neg data]
    refine .cons (by rw [same]; exact .read differ) ?_
    have rest := ih ran
    rwa [later] at rest

end Segment

def segmentPerm (h : Proghdr) : BitVec 12 :=
  pteP ||| pteU ||| if h.flags / elfProgFlagWrite % 2 = 1 then pteW else 0

def segmentContent (file : Elf) (h : Proghdr) : Nat → Page → Page :=
  paged file ((h.offset : Int).bmod (2 ^ 32) - (h.va % pgSize : Nat)) (h.filesz + h.va % pgSize)

/-- What the first `n` program headers do to the child. -/
structure Loaded (file : Elf) (child n : Nat) (w w' : World) : Prop where
  next : w'.next = w.next + frames file n
  page : ∀ k h i, k < n → file.segment k = some h → i < h.pages →
    (w'.space child).uvpt (vpn h.va + i) = some ⟨w.next + frames file k + i, segmentPerm h ||| pteP⟩ ∧
      w'.mem (w.next + frames file k + i) = segmentContent file h i (w.mem (w.next + frames file k + i))
  uvpt : ∀ q, (∀ k h, k < n → file.segment k = some h → ¬h.Covers q) →
    (w'.space child).uvpt q = (w.space child).uvpt q
  mem : ∀ f, f < w.next ∨ w.next + frames file n ≤ f → w'.mem f = w.mem f

section Headers

variable {a : Answers} {e child k n : Nat} {file : Elf} {h : Proghdr} {w w' w'' : World}
  {stack : Nat → Nat → Option (BitVec 8)}

theorem littleEndian_elfBuf {place : Nat} (below : place + n ≤ elfBufSize) :
    littleEndian (elfBuf file stack k) n place = littleEndian (fun p => file.byte p) n place := by
  unfold elfBufSize at below
  refine littleEndian_congr (fun p _ high => ?_) (by omega)
  unfold elfBuf elfBufSize
  exact if_pos (by omega)

theorem proghdr_elfBuf {place : Nat} (below : place + proghdrSize ≤ elfBufSize) :
    proghdr (elfBuf file stack k) place = proghdr (fun p => file.byte p) place := by
  unfold proghdrSize elfBufSize at below
  unfold proghdr
  rw [littleEndian_elfBuf (by unfold elfBufSize; omega), littleEndian_elfBuf (by unfold elfBufSize; omega),
    littleEndian_elfBuf (by unfold elfBufSize; omega), littleEndian_elfBuf (by unfold elfBufSize; omega),
    littleEndian_elfBuf (by unfold elfBufSize; omega)]

/-- One round of the loop maps the segment of the program header, if it has one. -/
theorem loadHeader_maps (linked : Linked file) (differ : child ≠ e) (range : k < file.phnum)
    (ran : loadHeader a e child file stack k w = some (.ok (), w')) :
    (file.segment k = none ∧ w' = w) ∨ ∃ h, file.segment k = some h ∧
      Maps child (vpn h.va) h.pages (segmentPerm h) (segmentContent file h) w w' := by
  have below := linked.inside.header range
  obtain ⟨type, found, ran⟩ := Option.bind_eq_some_iff.mp ran
  rw [littleEndian_elfBuf (by unfold proghdrSize at below; omega)] at found
  have here : file.segment k = if type ≠ elfProgLoad then none
      else proghdr (fun place => file.byte place) (file.header k) := by
    unfold Elf.segment
    rw [if_pos range, found, Option.bind_some]
  split at ran
  · rename_i other
    cases ran
    exact .inl ⟨here.trans (if_pos other), rfl⟩
  rename_i load
  rw [if_neg load] at here
  obtain ⟨h, header, ran⟩ := Option.bind_eq_some_iff.mp ran
  rw [proghdr_elfBuf below, ← here] at header
  refine .inr ⟨h, header, ?_⟩
  obtain ⟨-, filled, -, user⟩ := linked.placed k h header
  have top : utop < 2 ^ 63 := by decide
  have lead : h.va % pgSize < 4096 := Nat.mod_lt _ (by decide)
  have size : (h.memsz + h.va % pgSize) % 2 ^ 64 = h.memsz + h.va % pgSize :=
    Nat.mod_eq_of_lt (by omega)
  have data : (h.filesz + h.va % pgSize) % 2 ^ 64 = h.filesz + h.va % pgSize :=
    Nat.mod_eq_of_lt (by omega)
  unfold mapSegment at ran
  dsimp only at ran
  rw [size, data] at ran
  have maps := mapPages_maps differ (by unfold pgSize; omega) (by omega) ran
  have first : vpn (h.va - h.va % pgSize) + 0 = vpn h.va := by
    simp only [vpn, pgSize]
    omega
  simp only [Nat.zero_add] at maps
  rwa [first] at maps

theorem content_byte {page : Page} {i : Nat} (small : file.bytes.length < 2 ^ 31)
    (placed : Placed file h) :
    segmentContent file h ((h.va % pgSize + i) / pgSize) page (pgOff (h.va + i)) =
      if i < h.filesz then (file.byte (h.offset + i : Nat)).getD (page (pgOff (h.va + i)))
      else page (pgOff (h.va + i)) := by
  obtain ⟨aligned, -, data, -⟩ := placed
  have off : (pgOff (h.va + i)).val = (h.va % pgSize + i) % pgSize := by
    simp only [pgOff, Fin.ofNat, pgSize]
    omega
  unfold segmentContent paged
  by_cases more : i < h.filesz
  · have bound := data (by omega)
    have offset : (h.offset : Int).bmod (2 ^ 32) = h.offset :=
      Int.bmod_eq_of_le (by omega) (by omega)
    have place : (h.offset : Int) - (h.va % pgSize : Nat) +
        ((h.va % pgSize + i) / pgSize * pgSize : Nat) + ((h.va % pgSize + i) % pgSize : Nat) =
          (h.offset + i : Nat) := by
      have whole := Nat.div_add_mod (h.va % pgSize + i) pgSize
      rw [Nat.mul_comm] at whole
      omega
    rw [if_pos more, if_neg, fill, offset, off, place, if_pos]
    all_goals
      simp only [pgSize]
      omega
  · rw [if_neg more]
    split
    · rfl
    · rw [fill, off, if_neg]
      simp only [pgSize]
      omega

theorem Loaded.zero : Loaded file child 0 w w where
  next := rfl
  page _ _ _ range := absurd range (Nat.not_lt_zero _)
  uvpt _ _ := rfl
  mem _ _ := rfl

theorem frames_succ (found : file.segment n = some h) :
    frames file (n + 1) = frames file n + h.pages := by
  rw [frames, found]
  rfl

theorem frames_mono (le : k ≤ n) : frames file k ≤ frames file n := by
  induction le with
  | refl => exact le_rfl
  | step _ ih => exact ih.trans (Nat.le_add_right ..)

theorem frames_page {i : Nat} (range : k < n) (found : file.segment k = some h)
    (inside : i < h.pages) : frames file k + i < frames file n := by
  have step := frames_succ found
  have later := @frames_mono (k + 1) n file range
  omega

theorem Loaded.skip (loaded : Loaded file child n w w') (none : file.segment n = none) :
    Loaded file child (n + 1) w w' where
  next := by rw [loaded.next, frames, none]; rfl
  page k h i range found inside := by
    refine loaded.page k h i ((Nat.lt_succ_iff_lt_or_eq.mp range).resolve_right fun same => ?_) found
      inside
    rw [same, none] at found
    cases found
  uvpt q apart := loaded.uvpt q fun k h range => apart k h (range.trans (Nat.lt_succ_self n))
  mem f out := by
    rw [frames, none] at out
    exact loaded.mem f out

theorem Loaded.step (linked : Linked file) (loaded : Loaded file child n w w')
    (found : file.segment n = some h)
    (maps : Maps child (vpn h.va) h.pages (segmentPerm h) (segmentContent file h) w' w'') :
    Loaded file child (n + 1) w w'' where
  next := by rw [maps.next, loaded.next, frames_succ found, Nat.add_assoc]
  page k h' i range found' inside := by
    rw [maps.uvpt, maps.mem, loaded.next]
    rcases Nat.lt_succ_iff_lt_or_eq.mp range with before | rfl
    · have frame := frames_page before found' inside
      have apart : ¬h.Covers (vpn h'.va + i) :=
        linked.apart k n h' h _ before.ne found' found (Proghdr.covers_iff.mpr (by omega))
      rw [if_neg fun both => apart (Proghdr.covers_iff.mpr both), if_neg (by omega)]
      exact loaded.page k h' i before found' inside
    · obtain rfl := Option.some.inj (found.symm.trans found')
      rw [if_pos (by omega), if_pos (by omega), Nat.add_sub_cancel_left, Nat.add_sub_cancel_left,
        loaded.mem _ (.inr (Nat.le_add_right ..))]
      exact ⟨rfl, rfl⟩
  uvpt q apart := by
    rw [maps.uvpt,
      if_neg fun both => apart n h (Nat.lt_succ_self n) found (Proghdr.covers_iff.mpr both)]
    exact loaded.uvpt q fun k h range => apart k h (range.trans (Nat.lt_succ_self n))
  mem f out := by
    rw [frames_succ found] at out
    rw [maps.mem, loaded.next, if_neg (by omega)]
    exact loaded.mem f (by omega)

theorem loadHeaders_loaded (linked : Linked file) (differ : child ≠ e) (range : n ≤ file.phnum)
    (ran : loadHeaders a e child file stack w n = some (.ok (), w')) :
    Loaded file child n w w' := by
  induction n generalizing w' with
  | zero =>
    cases ran
    exact .zero
  | succ n ih =>
    obtain ⟨⟨before, w''⟩, first, ran⟩ := Option.bind_eq_some_iff.mp ran
    cases before with
    | error failure => cases ran
    | ok _ =>
      have loaded := ih (Nat.le_of_succ_le range) first
      rcases loadHeader_maps linked differ range ran with ⟨none, rfl⟩ | ⟨h, found, maps⟩
      · exact loaded.skip none
      · exact loaded.step linked found maps

end Headers

/-- The child as `init_stack` leaves it: only its stack is mapped. -/
structure Stacked (child : Nat) (w w' : World) : Prop where
  next : w'.next = w.next + 1
  uvpt : ∀ pn, (w'.space child).uvpt pn =
    if pn = ustackPage then some ⟨w.next, permPrivate ||| pteP⟩ else none
  mem : ∀ f, w'.next ≤ f → w'.mem f = w.mem f

section Around

variable {a : Answers} {e child pn left : Nat} {argv : List Str} {w w' : World}

theorem storeAll_mem {stores : List (Nat × BitVec 8)} (ran : storeAll e stores w = some w') {f : Nat}
    (free : w.next ≤ f) : w'.mem f = w.mem f := by
  induction stores generalizing w with
  | nil => exact Option.some.inj ran ▸ rfl
  | cons s rest ih =>
    obtain ⟨w'', wrote, ran⟩ := Option.bind_eq_some_iff.mp ran
    obtain ⟨entry, found, wrote⟩ := Option.bind_eq_some_iff.mp wrote
    split at wrote
    · obtain rfl := Option.some.inj wrote
      have used := w.mapped e _ entry found
      exact (@ih (w.poke entry.ppn s.1 s.2) ran free).trans (Function.update_of_ne (by omega) ..)
    · cases wrote

theorem initStack_stacked {rsp : Nat} (differ : child ≠ e)
    (ran : initStack a e child argv (w.create child) = some (.ok rsp, w')) : Stacked child w w' := by
  unfold initStack at ran
  split at ran
  · cases ran
  split at ran
  · cases ran
  obtain ⟨stored, wrote, ran⟩ := Option.bind_eq_some_iff.mp ran
  dsimp only at ran
  split at ran
  · cases ran
  split at ran
  · cases ran
  obtain ⟨-, rfl⟩ := Prod.mk.inj (Option.some.inj ran)
  obtain ⟨spaces, next⟩ := storeAll_space wrote
  have found : (stored.space e).uvpt (vpn utemp) = some ⟨w.next, permPrivate ||| pteP⟩ := by
    rw [spaces, World.pageAlloc_uvpt, if_pos ⟨rfl, rfl⟩]
    rfl
  rw [World.pageMap_some found]
  refine ⟨next, fun pn => ?_, fun f free => storeAll_mem wrote (next.symm.le.trans free)⟩
  rw [World.remove_uvpt, if_neg fun both => differ both.1, World.insert_uvpt, spaces]
  by_cases same : pn = ustackPage
  · rw [if_pos ⟨rfl, same⟩, if_pos same]
  · rw [if_neg fun both => same both.2, World.pageAlloc_uvpt, if_neg fun both => differ both.1,
      World.create_uvpt, if_pos rfl, if_neg same]

/-- What `copy_shared_pages` maps at a page. -/
def shareEntry (a : Answers) (e : Nat) (w : World) (pn : Nat) : Option Pte :=
  ((w.space e).uvpt pn).bind fun entry =>
    if entry.perm &&& pteShare = 0 ∨ a.share pn < 0 then none
    else some ⟨entry.ppn, entry.perm &&& pteUser ||| pteP⟩

structure Copied (a : Answers) (e child pn : Nat) (w w' : World) : Prop where
  mem : w'.mem = w.mem
  caller : ∀ q, (w'.space e).uvpt q = (w.space e).uvpt q
  uvpt : ∀ q, (w'.space child).uvpt q =
    if q = pn then (shareEntry a e w q).or ((w.space child).uvpt q) else (w.space child).uvpt q

theorem Copied.none (unshared : shareEntry a e w pn = none) : Copied a e child pn w w where
  mem := rfl
  caller _ := rfl
  uvpt q := by
    split
    · rename_i same
      rw [same, unshared, Option.none_or]
    · rfl

theorem copySharedPages_step (differ : child ≠ e) :
    ∃ w', copySharedPages a e child (left + 1) pn w = copySharedPages a e child left (pn + 1) w' ∧
      Copied a e child pn w w' := by
  refine ⟨_, rfl, ?_⟩
  split
  · split
    · rename_i entry found
      split
      · rename_i refused
        refine .none ?_
        unfold shareEntry
        rw [found, Option.bind_some, if_pos refused]
      · rename_i granted
        rw [World.pageMap_some found]
        refine ⟨rfl, fun q => ?_, fun q => ?_⟩
        · rw [World.insert_uvpt, if_neg fun both => differ both.1.symm]
        · rw [World.insert_uvpt]
          split
          · rename_i same
            unfold shareEntry
            rw [if_pos same.2, same.2, found, Option.bind_some, if_neg granted, Option.some_or]
          · rename_i other
            rw [if_neg fun same => other ⟨rfl, same⟩]
    · rename_i empty
      refine .none ?_
      unfold shareEntry
      rw [empty, Option.bind_none]
  · rename_i unreached
    have empty : (w.space e).uvpt pn = none :=
      Option.eq_none_iff_forall_ne_some.mpr fun entry found =>
        unreached ((w.space e).tabled pn entry found)
    refine .none ?_
    unfold shareEntry
    rw [empty, Option.bind_none]

theorem copySharedPages_spec (differ : child ≠ e) :
    (copySharedPages a e child left pn w).mem = w.mem ∧
      ∀ q, ((copySharedPages a e child left pn w).space child).uvpt q =
        if pn ≤ q ∧ q < pn + left then (shareEntry a e w q).or ((w.space child).uvpt q)
        else (w.space child).uvpt q := by
  induction left generalizing pn w with
  | zero => exact ⟨rfl, fun q => (if_neg fun range => absurd range.2 (Nat.not_lt.mpr range.1)).symm⟩
  | succ left ih =>
    obtain ⟨w', step, copied⟩ := @copySharedPages_step a e child pn left w differ
    obtain ⟨mem, uvpt⟩ := @ih (pn + 1) w'
    have same : ∀ q, shareEntry a e w' q = shareEntry a e w q := by
      intro q
      unfold shareEntry
      rw [copied.caller]
    rw [step]
    refine ⟨mem.trans copied.mem, fun q => ?_⟩
    rw [uvpt, copied.uvpt, same]
    rcases lt_trichotomy q pn with low | rfl | high
    · rw [if_neg (by omega), if_neg (by omega), if_neg (by omega)]
    · rw [if_neg (by omega), if_pos rfl, if_pos (by omega)]
    · rw [if_neg (c := q = pn) (by omega)]
      exact if_congr (by omega) rfl rfl

end Around

def sharedEntry (a : Answers) (e : Nat) (s : State) (pn : Nat) : Option Pte :=
  if vpn utext ≤ pn ∧ pn < vpn utop then shareEntry a e s.world pn else none

/-- The child when `spawn` returns. -/
structure Built (a : Answers) (file : Elf) (e child : Nat) (s s' : State) : Prop where
  page : ∀ k h i, file.segment k = some h → i < h.pages →
    (s'.world.space child).uvpt (vpn h.va + i) = (sharedEntry a e s (vpn h.va + i)).or
      (some ⟨s.world.next + 2 + frames file k + i, segmentPerm h ||| pteP⟩)
  mem : ∀ k h i, file.segment k = some h → i < h.pages →
    s'.world.mem (s.world.next + 2 + frames file k + i) =
      segmentContent file h i (s.world.mem (s.world.next + 2 + frames file k + i))
  rest : ∀ q, (∀ k h, file.segment k = some h → ¬h.Covers q) →
    (s'.world.space child).uvpt q = (sharedEntry a e s q).or
      (if q = ustackPage then some ⟨s.world.next + 1, permPrivate ||| pteP⟩ else none)

section Child

variable {a : Answers} {e child child' k i : Nat} {file : Elf} {h : Proghdr} {argv : List Str}
  {s s' : State} {stack : Nat → Nat → Option (BitVec 8)} {pn : Nat} {entry : Pte}

theorem finish_ok {ready : Prepared} (ran : finish a e child file ready s = some (.ok child', s')) :
    ∃ left, vpn utext + left = vpn utop ∧
      s'.world = copySharedPages a e child left (vpn utext) (close e ready.fdnum s.world) := by
  unfold finish at ran
  have top : vpn utext + (vpn utop - vpn utext) = vpn utop := by decide
  generalize vpn utop - vpn utext = left at ran top
  dsimp only at ran
  split at ran
  · cases ran
  · obtain ⟨-, rfl⟩ := Prod.mk.inj (Option.some.inj ran)
    exact ⟨left, top, rfl⟩

theorem Ready.copied {ready : Prepared} {w : World} {left : Nat} (differ : child ≠ e)
    (begun : Ready a e child file argv s ready s') (mapped : Mapped e s'.world (.ok (), w))
    (top : vpn utext + left = vpn utop) (q : Nat) :
    ((copySharedPages a e child left (vpn utext) (close e ready.fdnum w)).space child).uvpt q =
      (sharedEntry a e s q).or ((w.space child).uvpt q) := by
  have same : ((close e ready.fdnum w).space child).uvpt q = (w.space child).uvpt q := by
    unfold close
    rw [World.remove_uvpt, if_neg fun both => differ both.1]
  unfold sharedEntry
  rw [(copySharedPages_spec differ).2, same, top]
  split
  · rename_i range
    have temp : q ≠ vpn utemp := by
      have low : vpn utemp < vpn utext := by decide
      omega
    cases mapped with
    | ok kept' =>
      have parent : ((close e ready.fdnum w).space e).uvpt q = (s.world.space e).uvpt q := by
        rw [close_uvpt]
        split
        · rename_i slot
          rw [slot, (fdSlot_closed begun.slot).2]
        · rename_i other
          rw [kept'.other q temp, (begun.kept differ).other q temp, openPage_uvpt, if_neg other]
      unfold shareEntry
      rw [parent]
  · exact Option.none_or.symm

theorem sharedEntry_some (shared : Shared s e pn entry) (granted : 0 ≤ a.share pn) :
    sharedEntry a e s pn = some ⟨entry.ppn, entry.perm &&& pteUser ||| pteP⟩ := by
  obtain ⟨low, high, found, share⟩ := shared
  unfold sharedEntry shareEntry
  rw [if_pos ⟨low, high⟩, found, Option.bind_some,
    if_neg (not_or.mpr ⟨share, Int.not_lt.mpr granted⟩)]

theorem shared_of_entry (some : sharedEntry a e s pn = some entry) :
    ∃ parent, Shared s e pn parent ∧ 0 ≤ a.share pn := by
  unfold sharedEntry at some
  split at some
  · rename_i range
    obtain ⟨parent, found, some⟩ := Option.bind_eq_some_iff.mp some
    split at some
    · cases some
    · rename_i granted
      obtain ⟨share, granted⟩ := not_or.mp granted
      exact ⟨parent, ⟨range.1, range.2, found, share⟩, Int.not_lt.mp granted⟩
  · cases some

theorem sharedEntry_none (unshared : ∀ entry, ¬Shared s e pn entry) : sharedEntry a e s pn = none := by
  refine Option.eq_none_iff_forall_ne_some.mpr fun entry some => ?_
  obtain ⟨parent, shared, -⟩ := shared_of_entry some
  exact unshared parent shared

theorem spawn_built (linked : Linked file) (differ : child ≠ e)
    (ran : spawn a e child file stack argv s = some (.ok child', s')) :
    Built a file e child s s' := by
  obtain ⟨⟨before, s₁⟩, start, ran⟩ := Option.bind_eq_some_iff.mp ran
  cases before with
  | error failure => cases ran
  | ok ready =>
    obtain ⟨⟨done, w⟩, load, ran⟩ := Option.bind_eq_some_iff.mp ran
    cases done with
    | error failure => cases ran
    | ok _ =>
      have begun := prepare_ok start
      have stacked := initStack_stacked differ begun.stack
      have loaded := loadHeaders_loaded linked differ le_rfl load
      have next : s₁.world.next = s.world.next + 2 := stacked.next
      obtain ⟨left, top, final⟩ := finish_ok ran
      have mem := (@copySharedPages_spec a e child (vpn utext) left (close e ready.fdnum w) differ).1
      have copied := begun.copied differ (loadHeaders_mapped differ load) top
      rw [← final] at mem copied
      refine ⟨fun k h i found inside => ?_, fun k h i found inside => ?_, fun q apart => ?_⟩
      · rw [copied, (loaded.page k h i (Elf.segment_range found) found inside).1, next]
      · have frame := (loaded.page k h i (Elf.segment_range found) found inside).2
        rw [stacked.mem _ (by omega), next] at frame
        rw [mem]
        exact frame
      · rw [copied, loaded.uvpt q fun k h _ found => apart k h found, stacked.uvpt]
        rfl

theorem Built.byte (linked : Linked file) (built : Built a file e child s s')
    (found : file.segment k = some h) (unshared : ∀ entry, ¬Shared s e (vpn (h.va + i)) entry)
    (inside : i < h.memsz) : s'.world.readByte child (h.va + i) =
      some (if i < h.filesz then (file.byte (h.offset + i : Nat)).getD 0 else
        s.world.mem (s.world.next + 2 + frames file k + (h.va % pgSize + i) / pgSize)
          (pgOff (h.va + i))) := by
  have page : vpn (h.va + i) = vpn h.va + (h.va % pgSize + i) / pgSize := by
    simp only [vpn, pgSize]
    omega
  have within : (h.va % pgSize + i) / pgSize < h.pages := by
    unfold Proghdr.pages
    simp only [pgSize]
    omega
  have mapped := built.page k h _ found within
  rw [← page, sharedEntry_none unshared, Option.none_or] at mapped
  unfold World.readByte
  rw [mapped, Option.map_some, built.mem k h _ found within,
    content_byte linked.small (linked.placed k h found)]
  refine congrArg some (if_ctx_congr Iff.rfl (fun more => ?_) fun _ => rfl)
  have data := (linked.placed k h found).data (by omega)
  obtain ⟨byte, there⟩ := @Elf.byte_of_lt file (h.offset + i) (by omega)
  rw [there]
  rfl

def Disjoint (file : Elf) (e : Nat) (s : State) : Prop :=
  ∀ k h pn entry, file.segment k = some h → h.Covers pn → ¬Shared s e pn entry

theorem Disjoint.apart (disjoint : Disjoint file e s) (shared : Shared s e pn entry) :
    ∀ k h, file.segment k = some h → ¬h.Covers pn :=
  fun k h found covers => disjoint k h pn entry found covers shared

theorem Disjoint.byte (disjoint : Disjoint file e s) (found : file.segment k = some h)
    (inside : i < h.memsz) : ∀ entry, ¬Shared s e (vpn (h.va + i)) entry :=
  fun entry => disjoint k h _ entry found (Proghdr.covers_byte inside)

theorem Built.lucky (linked : Linked file) (built : Built a file e child s s')
    (disjoint : Disjoint file e s) (exact : Exact file e child s s') : Lucky a file e s where
  zero k h i found past inside := by
    have read := exact.bytes k h i found inside
    rw [built.byte linked found (disjoint.byte found inside) inside, if_neg (Nat.not_lt.mpr past),
      if_neg (Nat.not_lt.mpr past)] at read
    exact Option.some.inj read
  mapped pn entry shared := by
    by_contra refused
    have absent : sharedEntry a e s pn = none := by
      refine Option.eq_none_iff_forall_ne_some.mpr fun entry' some => ?_
      obtain ⟨-, -, granted⟩ := shared_of_entry some
      exact refused granted
    have mapped := exact.shared pn entry shared
    rw [built.rest pn (disjoint.apart shared), absent, Option.none_or] at mapped
    -- The page of the stack is a new one.
    split at mapped
    · have old := s.world.mapped e pn entry shared.2.2.1
      have same := congrArg Pte.ppn (Option.some.inj mapped)
      dsimp only at same
      omega
    · cases mapped

theorem Built.exact (linked : Linked file) (built : Built a file e child s s')
    (disjoint : Disjoint file e s) (lucky : Lucky a file e s) : Exact file e child s s' where
  bytes k h i found inside := by
    rw [built.byte linked found (disjoint.byte found inside) inside]
    split
    · have data := (linked.placed k h found).data (by omega)
      obtain ⟨byte, there⟩ := @Elf.byte_of_lt file (h.offset + i) (by omega)
      rw [there]
      rfl
    · rename_i past
      rw [lucky.zero k h i found (Nat.not_lt.mp past) inside]
  readonly k h pn found flags covers := by
    obtain ⟨low, high⟩ := Proghdr.covers_iff.mp covers
    have mapped := built.page k h (pn - vpn h.va) found (by omega)
    rw [Nat.add_sub_cancel' low, sharedEntry_none fun entry => disjoint k h pn entry found covers,
      Option.none_or] at mapped
    refine ⟨_, mapped, ?_⟩
    unfold segmentPerm
    rw [flags, if_neg (by decide)]
    change (pteP ||| pteU ||| 0 ||| pteP).getLsbD 1 = false
    decide
  shared pn entry shared := by
    rw [built.rest pn (disjoint.apart shared), sharedEntry_some shared (lucky.mapped pn entry shared),
      Option.some_or]
  only pn entry there := by
    by_cases covers : ∃ k h, file.segment k = some h ∧ h.Covers pn
    · exact .inr (.inl covers)
    rw [built.rest pn fun k h found within => covers ⟨k, h, found, within⟩] at there
    rcases Option.or_eq_some_iff.mp there with some | ⟨-, stack⟩
    · obtain ⟨parent, shared, -⟩ := shared_of_entry some
      exact .inr (.inr ⟨parent, shared⟩)
    · split at stack
      · rename_i same
        exact .inl same
      · cases stack

/-- The image of the child is exact if and only if the recycled pages are zero where
the file has no bytes and every shared page is mapped. -/
theorem spawn_exact_iff (linked : Linked file) (caller : s.exists' e = true)
    (fresh : s.exists' child = false)
    (disjoint : Disjoint file e s)
    (ran : spawn a e child file stack argv s = some (.ok child', s')) :
    Exact file e child s s' ↔ Lucky a file e s := by
  have differ : child ≠ e := by
    rintro rfl
    rw [caller] at fresh
    cases fresh
  have built := spawn_built linked differ ran
  exact ⟨built.lucky linked disjoint, built.exact linked disjoint⟩

end Child

section Granted

variable {e child k fdnum : Nat} {file : Elf} {perm : BitVec 12} {s : State} {w : World}
  {stack : Nat → Nat → Option (BitVec 8)}

theorem mapPages_granted {va memsz filesz left j : Nat} {fileoffset : Int} (some' : 0 < left)
    (few : memsz + pgSize ≤ (j + left) * pgSize) : ∃ w',
      mapPages granted e child file k va memsz filesz fileoffset perm left j w = some (.ok (), w') := by
  have size : 0 < pgSize := by decide
  induction left generalizing j w with
  | zero => exact absurd some' (lt_irrefl 0)
  | succ left ih =>
    have blank : ¬granted.blank k j < 0 := lt_irrefl 0
    have temp : ¬granted.temp k j < 0 := lt_irrefl 0
    have seek : ¬granted.seek k j < 0 := lt_irrefl 0
    have read : ¬granted.read k j < 0 := lt_irrefl 0
    have map : ¬granted.map k j < 0 := lt_irrefl 0
    unfold mapPages
    dsimp only
    rw [if_neg blank, if_neg temp, if_neg seek, if_neg read, if_neg map]
    split
    · exact ⟨w, rfl⟩
    rename_i more
    have later : 0 < left := by
      by_contra none
      obtain rfl := Nat.eq_zero_of_not_pos none
      rw [Nat.add_mul, Nat.zero_add, Nat.one_mul] at few
      omega
    have few' : memsz + pgSize ≤ (j + 1 + left) * pgSize := by
      rwa [Nat.add_assoc, Nat.add_comm 1 left]
    split
    · exact ih later few'
    · exact ih later few'

def image : Elf :=
  ⟨[0x7F, 0x45, 0x4C, 0x46] ++ List.replicate 28 0 ++ [64] ++ List.replicate 23 0 ++ [1] ++
    List.replicate 7 0 ++ [1] ++ List.replicate 17 0 ++ [0x80] ++ List.replicate 13 0 ++ [4] ++
    List.replicate 7 0 ++ [8] ++ List.replicate 407 0⟩

def imageSegment : Proghdr := ⟨0, 0, utext, 4, 8⟩

theorem image_length : image.bytes.length = elfBufSize := by
  simp only [image, List.length_append, List.length_replicate, List.length_cons, List.length_nil]
  rfl

theorem image_phnum : image.phnum = 1 := by decide +kernel

theorem image_segment : image.segment 0 = some imageSegment := by decide +kernel

theorem image_only {h : Proghdr} (found : image.segment k = some h) : k = 0 ∧ h = imageSegment := by
  have range := Elf.segment_range found
  rw [image_phnum] at range
  obtain rfl := Nat.lt_one_iff.mp range
  exact ⟨rfl, Option.some.inj (found.symm.trans image_segment)⟩

theorem image_linked : Linked image where
  inside := .inr (by decide +kernel)
  small := by rw [image_length]; decide
  placed k h found := by
    obtain ⟨rfl, rfl⟩ := image_only found
    exact ⟨by decide, by decide, fun _ => by rw [image_length]; decide, by decide⟩
  apart k k' h h' pn differ found found' := by
    obtain ⟨rfl, -⟩ := image_only found
    obtain ⟨rfl, -⟩ := image_only found'
    exact absurd rfl differ

theorem image_loaded : ∃ w', loadHeaders granted e child image (fun _ _ => none) w image.phnum =
    some (.ok (), w') := by
  have type : littleEndian (elfBuf image (fun _ _ => none) 0) 4 (image.header 0) = some elfProgLoad := by
    decide +kernel
  have header : proghdr (elfBuf image (fun _ _ => none) 0) (image.header 0) = some imageSegment := by
    decide +kernel
  rw [image_phnum, loadHeaders, loadHeaders, Option.bind_some]
  dsimp only
  unfold loadHeader
  rw [type, Option.bind_some, if_neg (not_not.mpr rfl), header, Option.bind_some]
  exact mapPages_granted (by decide) (by decide)

theorem image_spawned (slot : fdSlot 0 s.world = some 0) :
    ∃ s', spawn granted 0 1 image (fun _ _ => none) [] s = some (.ok 1, s') := by
  have magic : image.magic = elfMagic := by decide +kernel
  have fits : Fits [] := by decide
  obtain ⟨w, init, -⟩ := @Arranged.handed [] granted 0 1 ((openPage 0 0 s.world).create 1)
    fits.arranged (by decide) (by decide) (by decide) (by decide)
  have start := @prepare_ready granted 0 1 image w [] s 0 _ slot (by decide)
    (granted_header image_length.ge magic) (by decide) init
  obtain ⟨w', loaded⟩ := @image_loaded 0 1 w
  unfold spawn
  rw [start, Option.bind_some]
  dsimp only
  rw [loaded, Option.bind_some]
  dsimp only
  unfold finish
  dsimp only
  rw [if_neg (by decide)]
  exact ⟨_, rfl⟩

theorem spawn_exact_image : ∃ s', spawn granted 0 1 image (fun _ _ => none) [] alone = some (.ok 1, s') ∧
    (Exact image 0 1 alone s' ↔ Lucky granted image 0 alone) := by
  obtain ⟨s', ran⟩ := @image_spawned alone rfl
  refine ⟨s', ran, spawn_exact_iff image_linked (by decide) (by decide) ?_ ran⟩
  rintro k h pn entry - - ⟨-, -, there, -⟩
  cases there

def dirty : State := { alone with world := { alone.world with mem := fun _ _ => 1 } }

/-- The bytes behind the data of the file are those of a recycled page. -/
theorem spawn_recycles : ¬∀ a e child file stack argv s child' s', Linked file →
    s.exists' e = true → s.exists' child = false → Disjoint file e s →
      spawn a e child file stack argv s = some (.ok child', s') → Exact file e child s s' := by
  intro exact
  obtain ⟨s', ran⟩ := @image_spawned dirty rfl
  have disjoint : Disjoint image 0 dirty := by
    rintro k h pn entry - - ⟨-, -, there, -⟩
    cases there
  have built := spawn_built image_linked (by decide) ran
  have done := exact granted 0 1 image (fun _ _ => none) [] dirty 1 s' image_linked (by decide)
    (by decide) disjoint ran
  have zero := (built.lucky image_linked disjoint done).zero 0 imageSegment 4 image_segment
    (by decide) (by decide)
  cases zero

end Granted

end Jos.Spawn
