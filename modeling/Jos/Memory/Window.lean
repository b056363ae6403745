import Jos.Kern.Env
import Jos.Memory.Check

/-! The window at UVPT. The PML4 stands in its own entry there, so one of the three
levels below it, or all of them, can be walked with the PML4 in the place of a lower
table; what a program reads there is compared with what the walkers read. -/

set_option autoImplicit false

namespace Jos

variable {npages : Nat} {m m' : Pmap npages} {root pdpt pgdir pt : Fin npages} {va : Nat}

/-! The symbols of lib/entry.S and the indices of inc/mmu.h. -/

namespace Window

def uvpd : Nat := uvpt + 0x80000000
def uvpde : Nat := uvpd + 0x400000
def uvpml4e : Nat := uvpde + 0x2000

/-- The PGNUM macro. -/
def pgNum (la : Nat) : Nat := la >>> ptxShift
/-- The VPD macro. -/
def vpd (la : Nat) : Nat := la >>> pdxShift
/-- The VPDPE macro. -/
def vpdpe (la : Nat) : Nat := la >>> pdpeShift
/-- The VPML4E macro. -/
def vpml4e (la : Nat) : Nat := la >>> pml4Shift

end Window

namespace Pmap

/-- The entry of 64 bits that a program reads at an address, a multiple of eight. A
read of a page that is not mapped faults. -/
def load (m : Pmap npages) (cr3 : Fin npages) (address : Nat) : Option Pte := do
  let found ← m.translate cr3 address
  let page ← kaddr npages found.ppn
  some (m.mem page (Fin.ofNat 512 (address / 8)))

/-- `a[i]` for an array of entries. -/
def loadAt (m : Pmap npages) (cr3 : Fin npages) (array i : Nat) : Option Pte :=
  m.load cr3 (array + i * 8)

/-- What `check_va2pa` returns for an address that is not mapped. -/
def noAddress : BitVec 64 := BitVec.allOnes 64

/-- The PTE_ADDR macro. -/
def pteAddr (entry : Pte) : BitVec 64 := BitVec.ofNat 52 entry.ppn ++ (0 : BitVec 12)

/-- `none` stands for a panic in KADDR. -/
def checkVa2pa (m : Pmap npages) (pml4e : Fin npages) (va : Nat) : Option (BitVec 64) :=
  if ¬ (m.mem pml4e (pml4 va)).present then some noAddress
  else do
    let pdpe' ← kaddr npages (m.mem pml4e (pml4 va)).ppn
    if ¬ (m.mem pdpe' (pdpe va)).present then some noAddress
    else do
      let pde ← kaddr npages (m.mem pdpe' (pdpe va)).ppn
      if ¬ (m.mem pde (pdx va)).present then some noAddress
      else do
        let pte ← kaddr npages (m.mem pde (pdx va)).ppn
        if ¬ (m.mem pte (ptx va)).present then some noAddress
        else some (pteAddr (m.mem pte (ptx va)))

/-- The entries that the walkers look at with `create` clear, and at the end the one
that they return. -/
def traversed (m : Pmap npages) : Fin npages → List Index → List (Slot npages)
  | _, [] => []
  | holder, i :: indices =>
    (holder, i) ::
      if m.mem holder i = 0 ∨ indices = [] then []
      else match kaddr npages (m.mem holder i).ppn with
        | none => []
        | some below => traversed m below indices

def whole (va : Nat) : List Index := [pml4 va, pdpe va, pdx va, ptx va]

/-- What a program reads in the window about the four levels of an address. -/
def window (m : Pmap npages) (cr3 : Fin npages) (va : Nat) : Nat → Option Pte
  | 0 => m.loadAt cr3 Window.uvpml4e (Window.vpml4e va)
  | 1 => m.loadAt cr3 Window.uvpde (Window.vpdpe va)
  | 2 => m.loadAt cr3 Window.uvpd (Window.vpd va)
  | 3 => m.loadAt cr3 uvpt (Window.pgNum va)
  | _ => none

theorem translate_of_indices {address : Nat} {a b c d : Index}
    (indices : pml4 address = a ∧ pdpe address = b ∧ pdx address = c ∧ ptx address = d)
    (first : m.next root a = some pdpt) (second : m.next pdpt b = some pgdir)
    (third : m.next pgdir c = some pt) : (m.translate root address).bind
      (fun found => kaddr npages found.ppn) = m.next pt d := by
  obtain ⟨rfl, rfl, rfl, rfl⟩ := indices
  simp only [translate, first, second, third, Option.bind_eq_bind, Option.bind_some]
  unfold next
  split <;> rfl

theorem load_of_indices {address : Nat} {a b c d o : Index}
    (indices : pml4 address = a ∧ pdpe address = b ∧ pdx address = c ∧ ptx address = d)
    (last : Fin.ofNat 512 (address / 8) = o)
    (first : m.next root a = some pdpt) (second : m.next pdpt b = some pgdir)
    (third : m.next pgdir c = some pt) :
    m.load root address = (m.next pt d).map fun page => m.mem page o := by
  rw [← translate_of_indices indices first second third, load, last]
  cases m.translate root address with
  | none => rfl
  | some found => cases there : kaddr npages found.ppn <;> simp [there]

theorem load_none {address : Nat} {a b c : Index}
    (indices : pml4 address = a ∧ pdpe address = b ∧ pdx address = c)
    (stops : ((m.next root a).bind fun pdpt => (m.next pdpt b).bind fun pgdir =>
      m.next pgdir c) = none) : m.load root address = none := by
  obtain ⟨rfl, rfl, rfl⟩ := indices
  have none : m.translate root address = none := by
    refine Option.eq_none_iff_forall_ne_some.mpr fun found there => ?_
    obtain ⟨pdpt, pgdir, pt, first, second, third, -⟩ := translate_some.mp there
    simp [first, second, third] at stops
  simp [load, none]

section indices

theorem pml4_uvpt : (pml4 uvpt).val = 2 := by decide

variable (user : va < 2 ^ 47)
include user

theorem indices_uvpt :
    (pml4 (uvpt + Window.pgNum va * 8) = pml4 uvpt ∧
      pdpe (uvpt + Window.pgNum va * 8) = pml4 va ∧ pdx (uvpt + Window.pgNum va * 8) = pdpe va ∧
      ptx (uvpt + Window.pgNum va * 8) = pdx va) ∧
      Fin.ofNat 512 ((uvpt + Window.pgNum va * 8) / 8) = ptx va := by
  have base : uvpt = 2 * 2 ^ 39 := by decide
  have number : Window.pgNum va = va / 2 ^ 12 := Nat.shiftRight_eq_div_pow va 12
  refine ⟨⟨Fin.ext ?_, Fin.ext ?_, Fin.ext ?_, Fin.ext ?_⟩, Fin.ext ?_⟩
  · rw [pml4_uvpt, pml4_eq, base, number]
    omega
  · rw [pdpe_eq, pml4_eq, base, number]
    omega
  · rw [pdx_eq, pdpe_eq, base, number]
    omega
  · rw [ptx_eq, pdx_eq, base, number]
    omega
  · rw [ptx_eq, base, number, Fin.val_ofNat]
    omega

theorem indices_uvpd :
    (pml4 (Window.uvpd + Window.vpd va * 8) = pml4 uvpt ∧
      pdpe (Window.uvpd + Window.vpd va * 8) = pml4 uvpt ∧
      pdx (Window.uvpd + Window.vpd va * 8) = pml4 va ∧
      ptx (Window.uvpd + Window.vpd va * 8) = pdpe va) ∧
      Fin.ofNat 512 ((Window.uvpd + Window.vpd va * 8) / 8) = pdx va := by
  have base : Window.uvpd = 2 * 2 ^ 39 + 2 * 2 ^ 30 := by decide
  have number : Window.vpd va = va / 2 ^ 21 := Nat.shiftRight_eq_div_pow va 21
  refine ⟨⟨Fin.ext ?_, Fin.ext ?_, Fin.ext ?_, Fin.ext ?_⟩, Fin.ext ?_⟩
  · rw [pml4_uvpt, pml4_eq, base, number]
    omega
  · rw [pml4_uvpt, pdpe_eq, base, number]
    omega
  · rw [pdx_eq, pml4_eq, base, number]
    omega
  · rw [ptx_eq, pdpe_eq, base, number]
    omega
  · rw [pdx_eq, base, number, Fin.val_ofNat]
    omega

theorem indices_uvpde :
    (pml4 (Window.uvpde + Window.vpdpe va * 8) = pml4 uvpt ∧
      pdpe (Window.uvpde + Window.vpdpe va * 8) = pml4 uvpt ∧
      pdx (Window.uvpde + Window.vpdpe va * 8) = pml4 uvpt ∧
      ptx (Window.uvpde + Window.vpdpe va * 8) = pml4 va) ∧
      Fin.ofNat 512 ((Window.uvpde + Window.vpdpe va * 8) / 8) = pdpe va := by
  have base : Window.uvpde = 2 * 2 ^ 39 + 2 * 2 ^ 30 + 2 * 2 ^ 21 := by decide
  have number : Window.vpdpe va = va / 2 ^ 30 := Nat.shiftRight_eq_div_pow va 30
  refine ⟨⟨Fin.ext ?_, Fin.ext ?_, Fin.ext ?_, Fin.ext ?_⟩, Fin.ext ?_⟩
  · rw [pml4_uvpt, pml4_eq, base, number]
    omega
  · rw [pml4_uvpt, pdpe_eq, base, number]
    omega
  · rw [pml4_uvpt, pdx_eq, base, number]
    omega
  · rw [ptx_eq, pml4_eq, base, number]
    omega
  · rw [pdpe_eq, base, number, Fin.val_ofNat]
    omega

theorem indices_uvpml4e :
    (pml4 (Window.uvpml4e + Window.vpml4e va * 8) = pml4 uvpt ∧
      pdpe (Window.uvpml4e + Window.vpml4e va * 8) = pml4 uvpt ∧
      pdx (Window.uvpml4e + Window.vpml4e va * 8) = pml4 uvpt ∧
      ptx (Window.uvpml4e + Window.vpml4e va * 8) = pml4 uvpt) ∧
      Fin.ofNat 512 ((Window.uvpml4e + Window.vpml4e va * 8) / 8) = pml4 va := by
  have base : Window.uvpml4e = 2 * 2 ^ 39 + 2 * 2 ^ 30 + 2 * 2 ^ 21 + 2 * 2 ^ 12 := by decide
  have number : Window.vpml4e va = va / 2 ^ 39 := Nat.shiftRight_eq_div_pow va 39
  refine ⟨⟨Fin.ext ?_, Fin.ext ?_, Fin.ext ?_, Fin.ext ?_⟩, Fin.ext ?_⟩
  · rw [pml4_uvpt, pml4_eq, base, number]
    omega
  · rw [pml4_uvpt, pdpe_eq, base, number]
    omega
  · rw [pml4_uvpt, pdx_eq, base, number]
    omega
  · rw [pml4_uvpt, ptx_eq, base, number]
    omega
  · rw [pml4_eq, base, number, Fin.val_ofNat]
    omega

end indices

theorem window_eq (self : m.next root (pml4 uvpt) = some root) (user : va < 2 ^ 47) :
    m.window root va 0 = some (m.mem root (pml4 va)) ∧
    m.window root va 1 = (m.next root (pml4 va)).map (fun pdpt => m.mem pdpt (pdpe va)) ∧
    m.window root va 2 = ((m.next root (pml4 va)).bind fun pdpt => m.next pdpt (pdpe va)).map
      (fun pgdir => m.mem pgdir (pdx va)) ∧
    m.window root va 3 = (m.pageTable root va).map fun pt => m.mem pt (ptx va) := by
  obtain ⟨at₀, last₀⟩ := indices_uvpml4e user
  obtain ⟨at₁, last₁⟩ := indices_uvpde user
  obtain ⟨at₂, last₂⟩ := indices_uvpd user
  obtain ⟨at₃, last₃⟩ := indices_uvpt user
  refine ⟨?_, ?_, ?_, ?_⟩
  · rw [window, loadAt, load_of_indices at₀ last₀ self self self, self]
    rfl
  · rw [window, loadAt, load_of_indices at₁ last₁ self self self]
  · rw [window, loadAt]
    cases first : m.next root (pml4 va) with
    | none =>
      rw [load_none ⟨at₂.1, at₂.2.1, at₂.2.2.1⟩ (by simp [self, first])]
      rfl
    | some pdpt =>
      rw [load_of_indices at₂ last₂ self self first]
      rfl
  · rw [window, loadAt, pageTable]
    cases first : m.next root (pml4 va) with
    | none =>
      rw [load_none ⟨at₃.1, at₃.2.1, at₃.2.2.1⟩ (by simp [self, first])]
      rfl
    | some pdpt =>
      cases second : m.next pdpt (pdpe va) with
      | none =>
        rw [load_none ⟨at₃.1, at₃.2.1, at₃.2.2.1⟩ (by simp [self, first, second])]
        simp [second]
      | some pgdir =>
        rw [load_of_indices at₃ last₃ self first second]
        simp [second]

theorem traversed_nil {i : Index} (indices : List Index) (empty : m.mem root i = 0) :
    m.traversed root (i :: indices) = [(root, i)] := by
  simp [traversed, empty]

theorem traversed_cons {i j : Index} {indices : List Index} (used : m.mem root i ≠ 0)
    (linked : kaddr npages (m.mem root i).ppn = some pdpt) :
    m.traversed root (i :: j :: indices) = (root, i) :: m.traversed pdpt (j :: indices) := by
  rw [traversed, if_neg (by simp [used])]
  simp only [linked]

theorem traversed_none {i j : Index} {indices : List Index}
    (outside : kaddr npages (m.mem root i).ppn = none) :
    m.traversed root (i :: j :: indices) = [(root, i)] := by
  rw [traversed]
  split
  · rfl
  · simp only [outside]

theorem traversed_last {i : Index} : m.traversed root [i] = [(root, i)] := by
  simp [traversed]

theorem next_eq_kaddr {i : Index} (present : (m.mem root i).present = true) :
    m.next root i = kaddr npages (m.mem root i).ppn := if_pos present

theorem ne_zero_of_present {entry : Pte} (present : entry.present = true) : entry ≠ 0 := by
  rintro rfl
  cases present

/-- The walk with `create` clear changes nothing. It returns the fourth entry it comes
to, or NULL at an empty entry above. -/
theorem pml4eWalk_traversed {result : Option (Slot npages)}
    (ran : pml4eWalk m (some root) va false = some (result, m')) :
    m' = m ∧ (∀ slot, result = some slot → (m.traversed root (whole va))[3]? = some slot) ∧
      (result = none → ∃ slot, (m.traversed root (whole va)).getLast? = some slot ∧
        m.entry slot = 0 ∧ (m.traversed root (whole va)).length < 4) := by
  have demand {table : Fin npages} {i : Index} : demandTable m (table, i) false =
      if m.mem table i = 0 then none else some (none, m) := by
    simp [demandTable, entry]
  rw [pml4eWalk, demand] at ran
  by_cases empty : m.mem root (pml4 va) = 0
  · rw [if_pos empty] at ran
    cases ran
    rw [whole, traversed_nil _ empty]
    exact ⟨rfl, by simp, fun _ => ⟨_, rfl, empty, by simp⟩⟩
  rw [if_neg empty] at ran
  obtain ⟨pdpt, first, ran⟩ := Option.bind_eq_some_iff.mp ran
  obtain ⟨⟨found, m₁⟩, walked, ran⟩ := Option.bind_eq_some_iff.mp ran
  have same : found = result ∧ m₁ = m' := by
    cases found <;> exact Prod.mk.inj (Option.some.inj ran)
  obtain ⟨rfl, rfl⟩ := same
  rw [whole, traversed_cons empty first]
  rw [pdpeWalk, demand] at walked
  by_cases empty : m.mem pdpt (pdpe va) = 0
  · rw [if_pos empty] at walked
    cases walked
    rw [traversed_nil _ empty]
    exact ⟨rfl, by simp, fun _ => ⟨_, rfl, empty, by simp⟩⟩
  rw [if_neg empty] at walked
  obtain ⟨pgdir, second, walked⟩ := Option.bind_eq_some_iff.mp walked
  rw [traversed_cons empty second]
  rw [pgdirWalk, demand] at walked
  by_cases empty : m.mem pgdir (pdx va) = 0
  · rw [if_pos empty] at walked
    cases walked
    rw [traversed_nil _ empty]
    exact ⟨rfl, by simp, fun _ => ⟨_, rfl, empty, by simp⟩⟩
  rw [if_neg empty] at walked
  obtain ⟨pt, third, walked⟩ := Option.bind_eq_some_iff.mp walked
  cases walked
  rw [traversed_cons empty third, traversed_last]
  exact ⟨rfl, fun slot same => same, by simp⟩

/-- The window shows every entry that the walk comes to, if those above are present. -/
theorem window_traversed (self : m.next root (pml4 uvpt) = some root) (user : va < 2 ^ 47)
    {k : Nat} {slot : Slot npages} (here : (m.traversed root (whole va))[k]? = some slot)
    (above : ∀ j < k, ∀ upper, (m.traversed root (whole va))[j]? = some upper →
      (m.entry upper).present = true) : m.window root va k = some (m.entry slot) := by
  obtain ⟨window₀, window₁, window₂, window₃⟩ := window_eq self user
  have top : (m.traversed root (whole va))[0]? = some (root, pml4 va) := rfl
  cases k with
  | zero =>
    cases top.symm.trans here
    exact window₀
  | succ k =>
    have present := above 0 (Nat.succ_pos k) _ top
    have linked := next_eq_kaddr present
    cases first : kaddr npages (m.mem root (pml4 va)).ppn with
    | none =>
      rw [whole, traversed_none first] at here
      simp at here
    | some pdpt =>
      rw [first] at linked
      rw [whole, traversed_cons (ne_zero_of_present present) first] at here above
      cases k with
      | zero =>
        obtain rfl : (pdpt, pdpe va) = slot := Option.some.inj here
        rw [window₁, linked]
        rfl
      | succ k =>
        have present := above 1 (by omega) (pdpt, pdpe va) rfl
        have linked' := next_eq_kaddr present
        cases second : kaddr npages (m.mem pdpt (pdpe va)).ppn with
        | none =>
          rw [traversed_none second] at here
          simp at here
        | some pgdir =>
          rw [second] at linked'
          rw [traversed_cons (ne_zero_of_present present) second] at here above
          cases k with
          | zero =>
            obtain rfl : (pgdir, pdx va) = slot := Option.some.inj here
            rw [window₂, linked, Option.bind_some, linked']
            rfl
          | succ k =>
            have present := above 2 (by omega) (pgdir, pdx va) rfl
            have linked'' := next_eq_kaddr present
            cases third : kaddr npages (m.mem pgdir (pdx va)).ppn with
            | none =>
              rw [traversed_none third] at here
              simp at here
            | some pt =>
              rw [third] at linked''
              rw [traversed_cons (ne_zero_of_present present) third,
                traversed_last] at here
              cases k with
              | zero =>
                obtain rfl : (pt, ptx va) = slot := Option.some.inj here
                rw [window₃, pageTable]
                simp [linked, linked', linked'', entry]
              | succ k => simp at here

/-- `check_va2pa` agrees with the MMU. -/
theorem checkVa2pa_eq (tables : ∀ {depth page}, depth < 3 → m.TableAt root depth page →
      ∀ i, (m.mem page i).present = true → (m.mem page i).ppn < npages) :
    (∀ found, m.translate root va = some found →
      checkVa2pa m root va = some (pteAddr ⟨found.ppn, found.ptePerm⟩)) ∧
    (m.translate root va = none → checkVa2pa m root va = some noAddress) := by
  have linked {depth : Nat} {page : Fin npages} {i : Index} (short : depth < 3)
      (reached : m.TableAt root depth page) (present : (m.mem page i).present = true) :
      ∃ below, m.next page i = some below ∧ kaddr npages (m.mem page i).ppn = some below ∧
        m.TableAt root (depth + 1) below := by
    have bound := tables short reached i present
    have frame : kaddr npages (m.mem page i).ppn = some ⟨_, bound⟩ := dif_pos bound
    have next := (next_eq_kaddr present).trans frame
    exact ⟨_, next, frame, page, i, reached, next⟩
  have absent {page : Fin npages} {i : Index} (missing : ¬ (m.mem page i).present = true) :
      m.next page i = none := if_neg missing
  have top : m.TableAt root 0 root := rfl
  unfold checkVa2pa translate
  by_cases first : (m.mem root (pml4 va)).present = true
  · obtain ⟨pdpt, next₁, frame₁, reached₁⟩ := linked (by decide) top first
    rw [if_neg (not_not_intro first), next₁, frame₁]
    simp only [Option.bind_eq_bind, Option.bind_some]
    by_cases second : (m.mem pdpt (pdpe va)).present = true
    · obtain ⟨pgdir, next₂, frame₂, reached₂⟩ := linked (by decide) reached₁ second
      rw [if_neg (not_not_intro second), next₂, frame₂]
      simp only [Option.bind_some]
      by_cases third : (m.mem pgdir (pdx va)).present = true
      · obtain ⟨pt, next₃, frame₃, -⟩ := linked (by decide) reached₂ third
        rw [if_neg (not_not_intro third), next₃, frame₃]
        simp only [Option.bind_some]
        by_cases fourth : (m.mem pt (ptx va)).present = true
        · simp [fourth]
        · simp [fourth]
      · simp [third, absent third]
    · simp [second, absent second]
  · simp [first, absent first]

/-- The self-map shows the entries that the walk comes to, and `check_va2pa` the
translation. -/
theorem window_shows (self : m.mem root (pml4 uvpt) = ⟨root.val, tablePerm⟩) (user : va < 2 ^ 47)
    (tables : ∀ {depth page}, depth < 3 → m.TableAt root depth page →
      ∀ i, (m.mem page i).present = true → (m.mem page i).ppn < npages) :
    (∀ k slot, (m.traversed root (whole va))[k]? = some slot →
      (∀ j < k, ∀ upper, (m.traversed root (whole va))[j]? = some upper →
        (m.entry upper).present = true) → m.window root va k = some (m.entry slot)) ∧
    (∀ result m', pml4eWalk m (some root) va false = some (result, m') →
      m' = m ∧ (∀ slot, result = some slot → (m.traversed root (whole va))[3]? = some slot) ∧
        (result = none → ∃ slot, (m.traversed root (whole va)).getLast? = some slot ∧
          m.entry slot = 0 ∧ (m.traversed root (whole va)).length < 4)) ∧
    (∀ found, m.translate root va = some found →
      checkVa2pa m root va = some (pteAddr ⟨found.ppn, found.ptePerm⟩)) ∧
    (m.translate root va = none → checkVa2pa m root va = some noAddress) :=
  ⟨fun _ _ here above => window_traversed (next_table self) user here above,
    fun _ _ ran => pml4eWalk_traversed ran, checkVa2pa_eq tables⟩

end Pmap

namespace Pmap

/-- A PML4 with its own entry and one table below it. -/
def mirrored : Pmap 2 where
  pages _ := ⟨none, 1⟩
  pageFreeList := none
  bootPml4e := 0
  mem page i := if page = 0 ∧ i = pml4 uvpt then ⟨0, tablePerm⟩
    else if page = 0 ∧ i = 0 then ⟨1, tablePerm⟩ else 0

theorem mirrored_shows : mirrored.window 0 0 1 = some (mirrored.mem 1 0) ∧
    checkVa2pa mirrored 0 0 = some noAddress := by
  have frames (page : Fin 2) (i : Index) : (mirrored.mem page i).ppn < 2 := by
    unfold mirrored
    dsimp only
    split
    · decide
    · split <;> decide
  have shows := @window_shows _ mirrored 0 0 rfl (by decide) (fun _ _ i _ => frames _ i)
  refine ⟨shows.1 1 (1, 0) (by decide) fun j less upper there => ?_, shows.2.2.2 (by decide)⟩
  obtain rfl : j = 0 := by omega
  obtain rfl : (0, 0) = upper := Option.some.inj there
  decide

end Pmap

end Jos
