import Mathlib.Data.Set.Card
import Jos.Runs.Sound

/-! Reference counts over runs: what `pp_ref` counts, read off the page tables
themselves. -/

set_option autoImplicit false

namespace Jos

open Foundation

variable {npages : Nat} {platform : Platform npages} {managed : Set (Fin npages)}
  {k k' : Kernel npages} {g g' : Ledger npages} {c e : EnvIdx} {page : Fin npages}
  {event : KernelEvent}

/-- The virtual pages below UTOP, of all environments, that map the page. -/
def Kernel.leafRefs (k : Kernel npages) (page : Fin npages) : Set (EnvIdx × Nat) :=
  {x | x.2 * pgSize < utop ∧ ∃ found, k.view x.1 (x.2 * pgSize) = some found ∧
    found.ppn = page.val}

/-- An entry of a PML4, at one of the plain indices, or of a PDPT or a page
directory below it. -/
def Pmap.TableSlot (m : Pmap npages) (root : Fin npages) (plain : Index → Prop)
    (slot : Slot npages) : Prop :=
  slot.1 = root ∧ plain slot.2 ∨ ∃ i pdpt, plain i ∧ m.next root i = some pdpt ∧
    (slot.1 = pdpt ∨ ∃ j, m.next pdpt j = some slot.1)

/-- The entries of the upper levels, of all environments and of `boot_pml4e`. The
kernel half belongs to `boot_pml4e`; the entry of a PML4 that leads to it and the
one that leads back to the PML4 are no references. -/
def Kernel.TableSlot (k : Kernel npages) (slot : Slot npages) : Prop :=
  (∃ e root, (k.envs e).envPml4e = some root ∧
    k.pmap.TableSlot root (fun i => i ≠ 1 ∧ i ≠ pml4 uvpt) slot) ∨
  k.pmap.TableSlot k.pmap.bootPml4e (fun _ => True) slot

def Kernel.tableRefs (k : Kernel npages) (page : Fin npages) : Set (Slot npages) :=
  {slot | k.TableSlot slot ∧ (k.pmap.mem slot.1 slot.2).Refers page}

/-- The environments whose PML4 is the page. -/
def Kernel.cr3Refs (k : Kernel npages) (page : Fin npages) : Set EnvIdx :=
  {e | k.Live e ∧ (k.envs e).envCr3 = page.val}

/-- The number of live references to a page. -/
noncomputable def Kernel.references (k : Kernel npages) (page : Fin npages) : Nat :=
  (k.leafRefs page).ncard + (k.tableRefs page).ncard + (k.cr3Refs page).ncard

theorem leafTranslation_ppn {entry : Pte} :
    (∃ found, leafTranslation entry = some found ∧ found.ppn = page.val) ↔ entry.Refers page := by
  unfold leafTranslation
  constructor
  · rintro ⟨found, there, same⟩
    split at there
    · rename_i present
      cases there
      exact ⟨present, same⟩
    · cases there
  · rintro ⟨present, same⟩
    exact ⟨_, if_pos present, same⟩

theorem Sound.mem_leafRefs (sound : Sound managed k g) {n : Nat} :
    (e, n) ∈ k.leafRefs page ↔
      n * pgSize < utop ∧ k.Live e ∧ (leafOf k g e (n * pgSize)).Refers page := by
  by_cases live : k.Live e
  · change n * pgSize < utop ∧ _ ↔ _
    refine and_congr_right fun low => ?_
    rw [Kernel.view, sound.translateIn live (Place.user_of_low low), leafTranslation_ppn]
    exact (and_iff_right live).symm
  · refine iff_of_false ?_ fun there => live there.2.1
    rintro ⟨-, found, there, -⟩
    unfold Kernel.view at there
    rw [not_not.mp live] at there
    cases there

/-- No page of the allocator is mapped in the part of the kernel half below UTOP,
which all environments share. -/
def Unshared (managed : Set (Fin npages)) (k : Kernel npages) (g : Ledger npages) : Prop :=
  ∀ {a t}, a.owner = none → a.Mappable t → ∀ page ∈ managed,
    ¬ (leafEntry k.pmap.mem g.table a t).Refers page

theorem Sound.leafRefs_ncard (sound : Sound managed k g) (unshared : Unshared managed k g)
    (inside : page ∈ managed) :
    (k.leafRefs page).ncard = (leafSlots k.pmap.mem g.table page).ncard := by
  have own {e : EnvIdx} {n : Nat} (there : (e, n) ∈ k.leafRefs page) :
      n * pgSize < 2 ^ 39 ∧ ∃ holder,
        g.table ((Place.root (some e)).table (n * pgSize)) = some holder ∧
        (k.pmap.mem holder (ptx (n * pgSize))).Refers page := by
    obtain ⟨low, live, refers⟩ := sound.mem_leafRefs.mp there
    have mappable := Place.mappable_of_le (e := e) low.le
    refine ⟨?_, ?_⟩
    · rcases indices_low low with zero | ⟨one, -⟩
      · have index := congrArg Fin.val zero
        have none : (0 : Index).val = 0 := rfl
        rw [pml4_eq, none] at index
        have bound := utop_eq
        omega
      · refine absurd refers (unshared ?_ mappable page inside)
        rw [Place.table_shared one]
    · cases here : g.table ((Place.root (some e)).table (n * pgSize)) with
      | none =>
        rw [leafOf, leafEntry_none here] at refers
        exact absurd refers not_refers_zero
      | some holder =>
        rw [leafOf, leafEntry_some here] at refers
        exact ⟨holder, rfl, refers⟩
  refine Set.ncard_congr (fun x _ => ((g.table ((Place.root (some x.1)).table
    (x.2 * pgSize))).getD page, ptx (x.2 * pgSize))) ?_ ?_ ?_
  · rintro ⟨e, n⟩ there
    obtain ⟨low, holder, here, refers⟩ := own there
    have bound : n * pgSize < utop := there.1
    refine ⟨(Place.root (some e)).table (n * pgSize), ?_, Place.mappable_of_le bound.le, ?_⟩
    · simp only [here, Option.getD_some]
    · simp only [here, Option.getD_some]
      exact refers
  · rintro ⟨e, n⟩ ⟨e', n'⟩ there there' same
    obtain ⟨low, holder, here, -⟩ := own there
    obtain ⟨low', holder', here', -⟩ := own there'
    simp only [here, here', Option.getD_some, Prod.mk.injEq] at same
    obtain ⟨rfl, entries⟩ := same
    have places := sound.valid.tree.injective here here'
    have zero {n : Nat} (low : n * pgSize < 2 ^ 39) : pml4 (n * pgSize) = 0 :=
      Fin.ext (by rw [pml4_eq, Nat.div_eq_of_lt low]; rfl)
    have owners : e = e' := by
      rw [Place.table_own (by rw [zero low]; decide) (by rw [zero low]; decide),
        Place.table_own (by rw [zero low']; decide) (by rw [zero low']; decide)] at places
      exact Option.some.inj (congrArg Place.owner places)
    subst owners
    have pages := Place.page_of_slot low low' places entries
    have size : 0 < pgSize := by decide
    rw [Nat.mul_div_cancel _ size, Nat.mul_div_cancel _ size] at pages
    rw [pages]
  · rintro ⟨holder, t⟩ ⟨a, here, mappable, refers⟩
    obtain ⟨owner, path⟩ := a
    obtain ⟨l, j, i, rfl, first⟩ := mappable
    cases owner with
    | none =>
      refine absurd ?_ (unshared (a := ⟨none, [l, j, i]⟩) (t := t) rfl ⟨l, j, i, rfl, first⟩ page inside)
      rw [leafEntry_some here]
      exact refers
    | some e =>
      have zero : i = 0 := by
        refine first.resolve_right fun shared => ?_
        have absent : g.table ⟨some e, [i]⟩ = none := by
          cases there : g.table ⟨some e, [i]⟩ with
          | none => rfl
          | some p => exact absurd shared.1 (sound.valid.tree.plain there).1
        have below : Place.Below ⟨some e, [i]⟩ ⟨some e, [l, j, i]⟩ := ⟨rfl, ⟨[l, j], rfl⟩⟩
        rw [sound.valid.absent_below below absent] at here
        cases here
      subst zero
      -- The address that leads to this entry.
      obtain ⟨n, address⟩ : ∃ n, n = (j.val * 512 + l.val) * 512 + t.val := ⟨_, rfl⟩
      have product : n * pgSize = n * 4096 := rfl
      have bounds := And.intro j.isLt (And.intro l.isLt t.isLt)
      have low : n * pgSize < 2 ^ 39 := by omega
      have first : pml4 (n * pgSize) = 0 :=
        Fin.ext (by rw [pml4_eq, Nat.div_eq_of_lt low]; rfl)
      have second : pdpe (n * pgSize) = j := Fin.ext (by rw [pdpe_eq]; omega)
      have third : pdx (n * pgSize) = l := Fin.ext (by rw [pdx_eq]; omega)
      have last : ptx (n * pgSize) = t := Fin.ext (by rw [ptx_eq]; omega)
      have place : (Place.root (some e)).table (n * pgSize) = ⟨some e, [l, j, 0]⟩ := by
        rw [Place.table_own (by rw [first]; decide) (by rw [first]; decide), first, second, third]
      have live : k.Live e := fun absent => by
        rw [sound.valid.tree.absent_of_root absent] at here
        cases here
      refine ⟨(e, n), sound.mem_leafRefs.mpr ⟨?_, live, ?_⟩, ?_⟩
      · have bound := utop_eq
        omega
      · rw [leafOf, place, last, leafEntry_some here]
        exact refers
      · simp only [place, last, here, Option.getD_some]

theorem Valid.tableSlot_iff {roots : EnvIdx → Option (Fin npages)} {m : Pmap npages}
    (valid : Valid managed roots m g) {owner : Option EnvIdx} {root : Fin npages}
    (here : g.table (.root owner) = some root) {plain : Index → Prop}
    (plains : ∀ i, plain i ↔ ¬ (Place.root owner).Special i) {slot : Slot npages} :
    m.TableSlot root plain slot ↔ ∃ path, path.length ≤ 2 ∧ g.table ⟨owner, path⟩ = some slot.1 ∧
      ¬ Place.Special ⟨owner, path⟩ slot.2 := by
  have down {i : Index} (plain' : plain i) {next : Fin npages} :
      m.next root i = some next ↔ g.table ⟨owner, [i]⟩ = some next := by
    rw [(valid.next_eq (i := i) here (by simp)).1, Place.child_plain ((plains i).mp plain')]
    rfl
  have below {i j : Index} {pdpt next : Fin npages} (there : g.table ⟨owner, [i]⟩ = some pdpt) :
      m.next pdpt j = some next ↔ g.table ⟨owner, [j, i]⟩ = some next := by
    rw [(valid.next_eq (i := j) there (by simp)).1, Place.child_cons]
  have deeper {i j : Index} {path : List Index} : ¬ Place.Special ⟨owner, i :: path⟩ j :=
    fun special => by cases special.2.1
  constructor
  · rintro (⟨same, plain'⟩ | ⟨i, pdpt, plain', next, same | ⟨j, next'⟩⟩)
    · exact ⟨[], by simp, same ▸ here, (plains _).mp plain'⟩
    · exact ⟨[i], by simp, same ▸ (down plain').mp next, deeper⟩
    · exact ⟨[j, i], by simp, (below ((down plain').mp next)).mp next', deeper⟩
  · rintro ⟨path, short, there, plain'⟩
    -- The root has a place, so the first index on the way is a plain one.
    have first {i : Index} {table : Fin npages} (there : g.table ⟨owner, [i]⟩ = some table) :
        plain i := by
      rw [plains]
      rintro ⟨owned, -, special⟩
      obtain ⟨e, rfl⟩ := Option.ne_none_iff_exists'.mp owned
      have other := valid.tree.plain there
      exact special.elim other.1 other.2
    match path, short, there, plain' with
    | [], _, there, plain' =>
      exact .inl ⟨Option.some.inj (there.symm.trans here), (plains _).mpr plain'⟩
    | [i], _, there, _ => exact .inr ⟨i, _, first there, (down (first there)).mpr there, .inl rfl⟩
    | [j, i], _, there, _ =>
      obtain ⟨pdpt, above⟩ := valid.tree.parent there
      exact .inr ⟨i, pdpt, first above, (down (first above)).mpr above,
        .inr ⟨j, (below above).mpr there⟩⟩
    | _ :: _ :: _ :: _, short, _, _ => simp at short

theorem Sound.mem_tableRefs (sound : Sound managed k g) {slot : Slot npages} :
    slot ∈ k.tableRefs page ↔ ∃ owner path, path.length ≤ 2 ∧
      g.table ⟨owner, path⟩ = some slot.1 ∧ g.table ⟨owner, slot.2 :: path⟩ = some page := by
  have valid := sound.valid
  have refers {owner : Option EnvIdx} {path : List Index} (short : path.length ≤ 2)
      (there : g.table ⟨owner, path⟩ = some slot.1)
      (plain : ¬ Place.Special ⟨owner, path⟩ slot.2) :
      (k.pmap.mem slot.1 slot.2).Refers page ↔
        g.table ⟨owner, slot.2 :: path⟩ = some page := by
    rw [valid.tree.link there (Nat.lt_succ_of_le short), Place.child_plain plain]
    cases g.table ⟨owner, slot.2 :: path⟩ with
    | none => exact iff_of_false not_refers_zero nofun
    | some table =>
      constructor
      · rintro ⟨-, same⟩
        rw [Fin.ext same]
      · intro same
        cases same
        exact ⟨(by decide : tablePerm.getLsbD 0 = true), rfl⟩
  have user {e : EnvIdx} (i : Index) :
      i ≠ 1 ∧ i ≠ pml4 uvpt ↔ ¬ (Place.root (some e)).Special i := by
    simp [Place.Special, Place.root]
  have boot (i : Index) : True ↔ ¬ (Place.root none).Special i := by
    simp [Place.Special, Place.root]
  constructor
  · rintro ⟨⟨e, root, rooted, slots⟩ | slots, there⟩
    · obtain ⟨path, short, above, plain⟩ :=
        (valid.tableSlot_iff (valid.top rooted) user).mp slots
      exact ⟨some e, path, short, above, (refers short above plain).mp there⟩
    · obtain ⟨path, short, above, plain⟩ :=
        (valid.tableSlot_iff valid.tree.bootRoot boot).mp slots
      exact ⟨none, path, short, above, (refers short above plain).mp there⟩
  · rintro ⟨owner, path, short, above, there⟩
    have plain : ¬ Place.Special ⟨owner, path⟩ slot.2 := by
      rintro ⟨owned, empty, special⟩
      obtain ⟨e, rfl⟩ := Option.ne_none_iff_exists'.mp owned
      obtain rfl : path = [] := empty
      have other := valid.tree.plain there
      exact special.elim other.1 other.2
    refine ⟨?_, (refers short above plain).mpr there⟩
    cases owner with
    | none => exact .inr ((valid.tableSlot_iff valid.tree.bootRoot boot).mpr ⟨path, short, above, plain⟩)
    | some e =>
      obtain ⟨root, rooted⟩ := valid.tree.ancestor above
      have rooted : g.table (.root (some e)) = some root := rooted
      exact .inl ⟨e, root, (valid.tree.root e).symm.trans rooted,
        (valid.tableSlot_iff rooted user).mpr ⟨path, short, above, plain⟩⟩

open Classical in
theorem Sound.tableRefs_ncard (sound : Sound managed k g) (inside : page ∈ managed) :
    (k.tableRefs page).ncard + (k.cr3Refs page).ncard = if Placed g.table page then 1 else 0 := by
  have tree := sound.valid.tree
  have cr3 {e : EnvIdx} : e ∈ k.cr3Refs page ↔ g.table (.root (some e)) = some page := by
    rw [tree.root]
    constructor
    · rintro ⟨live, same⟩
      obtain ⟨root, rooted⟩ := live.root
      rw [sound.cr3 rooted] at same
      exact rooted.trans (congrArg some (Fin.ext same))
    · intro rooted
      have rooted : (k.envs e).envPml4e = some page := rooted
      refine ⟨?_, sound.cr3 rooted⟩
      rw [Kernel.Live, rooted]
      exact Option.some_ne_none page
  by_cases placed : Placed g.table page
  · obtain ⟨⟨owner, path⟩, here⟩ := placed
    rw [if_pos ⟨_, here⟩]
    cases path with
    | nil =>
      have none_slot : (k.tableRefs page).ncard = 0 := by
        refine ncard_zero_iff.mpr fun slot there => ?_
        obtain ⟨owner', path', -, -, there⟩ := sound.mem_tableRefs.mp there
        have same := tree.injective here there
        simp at same
      cases owner with
      | none =>
        cases here.symm.trans tree.bootRoot
        exact absurd inside tree.bootUnmanaged
      | some e =>
        have only : k.cr3Refs page = {e} := by
          ext x
          rw [cr3, Set.mem_singleton_iff]
          constructor
          · intro there
            have same := tree.injective here there
            simpa [Place.root, eq_comm] using same
          · rintro rfl
            exact here
        rw [none_slot, only, Set.ncard_singleton]
    | cons i path =>
      obtain ⟨above, there⟩ := tree.parent here
      have only : k.tableRefs page = {(above, i)} := by
        ext slot
        rw [sound.mem_tableRefs, Set.mem_singleton_iff]
        constructor
        · rintro ⟨owner', path', -, first, second⟩
          have same := tree.injective here second
          simp only [Place.mk.injEq, List.cons.injEq] at same
          obtain ⟨rfl, index, rfl⟩ := same
          exact Prod.ext (Option.some.inj (first.symm.trans there)) index.symm
        · rintro rfl
          have depth := tree.depth here
          simp only [List.length_cons] at depth
          exact ⟨owner, path, by omega, there, here⟩
      have none_root : (k.cr3Refs page).ncard = 0 := by
        refine ncard_zero_iff.mpr fun e there => ?_
        have same := tree.injective here (cr3.mp there)
        simp [Place.root] at same
      rw [only, none_root, Set.ncard_singleton]
  · rw [if_neg placed, ncard_zero_iff.mpr, ncard_zero_iff.mpr]
    · exact fun e there => placed ⟨_, cr3.mp there⟩
    · intro slot there
      obtain ⟨owner, path, -, -, there⟩ := sound.mem_tableRefs.mp there
      exact placed ⟨_, there⟩

/-- The count of a page is the number of its references, and a free page has none. -/
def Kernel.CountsExact (managed : Set (Fin npages)) (k : Kernel npages) : Prop :=
  ∀ page ∈ managed, (k.pmap.pages page).ppRef.toNat = k.references page ∧
    ∀ free, k.pmap.FreeList free → page ∈ free → k.references page = 0

theorem Sound.counts (sound : Sound managed k g) (unshared : Unshared managed k g)
    (spare : ∀ page, g.spare page = 0) : k.CountsExact managed := by
  classical
  intro page inside
  have counted : (k.pmap.pages page).ppRef.toNat = k.references page := by
    rw [Kernel.references, sound.leafRefs_ncard unshared inside, Nat.add_assoc,
      sound.tableRefs_ncard inside, sound.valid.counted page inside, spare, uses, Nat.add_zero]
  refine ⟨counted, fun free listed there => ?_⟩
  obtain rfl := listed.functional sound.valid.pool.chain
  rw [← counted, (sound.valid.pool.member page there).2]
  rfl

/-- The calls that map and unmap pages below 2^39 only, in the tables that an
environment has for itself. -/
def LowCall (k : Kernel npages) (c : EnvIdx) : Syscall → Prop
  | .pageAlloc envid va perm => ∀ e, pageAllocChecks k c envid va perm e → va < 2 ^ 39
  | .pageMap srcenvid srcva dstenvid dstva perm => ∀ src dst,
      PageMapChecks k c srcenvid srcva dstenvid dstva perm src dst → dstva < 2 ^ 39
  | .pageUnmap envid va => ∀ e, envid2env k c envid true = some e → va < utop → va < 2 ^ 39
  | .ipcTrySend envid _ srcva _ => ∀ dst, envid2env k c envid false = some dst →
      (k.envs dst).envIpcRecving = true → SendsPage k dst srcva →
        (k.envs dst).envIpcDstva < 2 ^ 39
  | _ => True

def Low (k : Kernel npages) : KernelEvent → Prop
  | .call c _ call => LowCall k c call
  | _ => True

theorem slot_owner {va : Nat} (low : va < 2 ^ 39) {a : Place} {t : Index}
    (stores : (Footprint.slot (.root (some e)) va).stores a t) : a.owner ≠ none := by
  have zero : pml4 va = 0 := Fin.ext (by rw [pml4_eq, Nat.div_eq_of_lt low]; rfl)
  rw [stores.1, Place.table_own (by rw [zero]; decide) (by rw [zero]; decide)]
  exact Option.some_ne_none e

theorem Low.owner (low : Low k event) {a : Place} {t : Index}
    (stores : (eventFootprint k k' event).stores a t) : a.owner ≠ none := by
  have owned {e : EnvIdx} (own : a.owner = some e) : a.owner ≠ none := by
    rw [own]
    exact Option.some_ne_none e
  cases event with
  | create | alloc =>
    obtain ⟨e, -, own⟩ := stores
    exact owned own
  | free e => exact owned stores
  | fault c => exact owned stores.1
  | frame | run => exact stores.elim
  | call c ambient call =>
    cases call with
    | cputs | netTx | netRx => exact owned stores.1
    | envDestroy | exofork =>
      obtain ⟨e, -, own⟩ := stores
      exact owned own
    | pageAlloc envid va perm =>
      obtain ⟨e, checks, slot⟩ := stores
      exact slot_owner (low e checks) slot
    | pageMap srcenvid srcva dstenvid dstva perm =>
      rcases stores with ⟨src, -, none⟩ | ⟨dst, ⟨src, checks⟩, slot⟩
      · exact none.elim
      · exact slot_owner (low src dst checks) slot
    | pageUnmap envid va =>
      obtain ⟨e, ⟨found, below⟩, slot⟩ := stores
      exact slot_owner (low e found below) slot
    | ipcTrySend envid value srcva perm =>
      rcases stores with none | ⟨dst, ⟨found, waiting, page⟩, slot⟩
      · exact none.elim
      · exact slot_owner (low dst found waiting page) slot
    | _ => exact stores.elim

def CountKeeping (k : Kernel npages) (event : KernelEvent) : Prop :=
  Orderly k event ∧ Settled k event ∧ Low k event

theorem countsExact (reached : Reached platform CountKeeping k) :
    k.CountsExact platform.managed := by
  have invariant : ∃ g, Sound platform.managed k g ∧ Unshared platform.managed k g ∧
      ∀ page, g.spare page = 0 := by
    refine Reachable.invariant reached (fun k => ∃ g, Sound platform.managed k g ∧
      Unshared platform.managed k g ∧ ∀ page, g.spare page = 0) (fun start booted => ?_)
      fun before event after invariant keeping ran => ?_
    · obtain ⟨g, booted⟩ := boot_booted booted
      exact ⟨g, booted.sound, fun _ mappable => booted.unmapped mappable, booted.spare⟩
    · obtain ⟨g, sound, unshared, spare⟩ := invariant
      obtain ⟨orderly, settled, low⟩ := keeping
      obtain ⟨g', change, kept⟩ := sound.step orderly ran
      refine ⟨g', change.sound, fun {a t} shared mappable page inside => ?_, fun page => ?_⟩
      · rw [change.keeps.leaves mappable.length t fun stores => low.owner stores shared]
        exact unshared shared mappable page inside
      · rw [kept settled]
        exact spare page
  obtain ⟨g, sound, unshared, spare⟩ := invariant
  exact sound.counts unshared spare

theorem sample_countsExact : ∃ k : Kernel 4096, Reached sample CountKeeping k ∧
    k.CountsExact sample.managed := by
  obtain ⟨k, g, e, reached, -⟩ := sample_env CountKeeping fun _ => ⟨trivial, trivial, trivial⟩
  exact ⟨k, reached, countsExact reached⟩

/-- A page that one environment maps at 2^39 is mapped by all of them, and counted
once. -/
theorem sharedMap_not_countsExact : ∃ k : Kernel 4096, Reached sample Orderly k ∧
    ¬ k.CountsExact sample.managed := by
  obtain ⟨k, g, c, e, ⟨start, events, booted, along⟩, fresh, live, live', differs, -⟩ :=
    sample_envs Orderly fun _ => trivial
  have checks : pageAllocChecks k c 0 (2 ^ 39) permUser c :=
    ⟨rfl, by decide, by decide, by decide⟩
  have droppable : ∀ page, (leafOf k g c (2 ^ 39)).Refers page →
      page ∈ sample.managed ∨ (k.pmap.pages page).ppRef ≠ 1 := by
    intro page _
    by_cases managed : page ∈ sample.managed
    · exact .inl managed
    · rw [fresh.refs page managed]
      exact .inr (by decide)
  obtain ⟨k', page, g', ran, listed, after, there, spare, -⟩ :=
    fresh.sound.sysPageAlloc_done live checks droppable (le_trans (by decide) fresh.room)
  have orderly : Orderly k (.call c ⟨none, 0, none⟩ (.pageAlloc 0 (2 ^ 39) permUser)) := trivial
  have stepped : kernelStep k (.call c ⟨none, 0, none⟩ (.pageAlloc 0 (2 ^ 39) permUser)) =
      some k' := by
    simp only [kernelStep, if_pos live, syscall, ran, returning, Option.map_some]
  refine ⟨k', ⟨start, _, booted, along.snoc orderly stepped⟩, fun exact => ?_⟩
  have inside := (fresh.sound.valid.pool.member page listed).1
  have shared : pml4 (2 ^ 39) = 1 := by decide
  have refers (x : EnvIdx) : (leafOf k' g' x (2 ^ 39)).Refers page := by
    have same : leafOf k' g' x (2 ^ 39) = leafOf k' g' c (2 ^ 39) := by
      rw [leafOf, leafOf, Place.table_shared shared, Place.table_shared shared]
    rw [same, there]
    exact ⟨present_or, rfl⟩
  have once : (k'.pmap.pages page).ppRef.toNat ≤ 1 := by
    classical
    have free := (fresh.sound.valid.free_counts listed).2
    rw [after.sound.valid.counted page inside, spare, free, Nat.add_zero]
    cases here : g'.table ((Place.root (some c)).table (2 ^ 39)) with
    | none =>
      have none := refers c
      rw [leafOf, leafEntry_none here] at none
      exact absurd none not_refers_zero
    | some holder =>
      have slots : leafSlots k'.pmap.mem g'.table page ⊆ {(holder, ptx (2 ^ 39))} := by
        rintro slot ⟨a, above, mappable, refers'⟩
        by_cases same : a = (Place.root (some c)).table (2 ^ 39) ∧ slot.2 = ptx (2 ^ 39)
        · rw [same.1, here] at above
          exact Prod.ext (Option.some.inj above).symm same.2
        · refine absurd ?_ (fresh.unmapped mappable page inside)
          rw [← after.keeps.leaves mappable.length slot.2 same, leafEntry_some above]
          exact refers'
      have entry : (k'.pmap.mem holder (ptx (2 ^ 39))).Refers page := by
        have own := refers c
        rw [leafOf, leafEntry_some here] at own
        exact own
      have unplaced : ¬ Placed g'.table page := fun placed =>
        after.sound.valid.tree.not_leaf_of_placed placed (holder, ptx (2 ^ 39))
          ⟨_, here, Place.mappable_of_le (by decide), entry⟩
      rw [uses, if_neg unplaced, Nat.add_zero]
      exact (ncard_shrink slots).trans_eq (Set.ncard_singleton _)
  have twice : 2 ≤ (k'.leafRefs page).ncard := by
    have pair : ({(c, 2 ^ 27), (e, 2 ^ 27)} : Set (EnvIdx × Nat)) ⊆ k'.leafRefs page := by
      have mapped {x : EnvIdx} (live : k.Live x) : (x, 2 ^ 27) ∈ k'.leafRefs page := by
        refine after.sound.mem_leafRefs.mpr ⟨by decide, ?_, refers x⟩
        rw [Kernel.Live, after.envs]
        exact live
      rintro x (rfl | rfl)
      · exact mapped live
      · exact mapped live'
    have finite : (k'.leafRefs page).Finite := by
      refine (Set.finite_univ.prod (Set.finite_lt_nat utop)).subset fun x here => ?_
      have bound : x.2 * pgSize < utop := here.1
      have product : x.2 * pgSize = x.2 * 4096 := rfl
      have small : x.2 < utop := by omega
      exact ⟨trivial, small⟩
    have two : ({(c, 2 ^ 27), (e, 2 ^ 27)} : Set (EnvIdx × Nat)).ncard = 2 :=
      Set.ncard_pair fun same => differs (Prod.mk.inj same).1
    rw [← two]
    exact Set.ncard_le_ncard pair finite
  have equal := (exact page inside).1
  unfold Kernel.references at equal
  omega

end Jos
