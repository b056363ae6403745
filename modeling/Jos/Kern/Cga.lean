import Mathlib.Logic.Function.Basic
import Mathlib.Tactic.Common

/-! The screen: `cga_putc` of kern/console.c, and the sheet of paper that it shows a part of. -/

set_option autoImplicit false

namespace Jos

open Function

namespace Cga

def crtRows : Nat := 25
def crtCols : Nat := 80
def crtSize : Nat := crtRows * crtCols

abbrev Cell := BitVec 16

/-- `0x0700 | ' '` -/
def blank : Cell := 0x0720

structure Crt where
  crtBuf : Nat → Cell
  crtPos : Nat

/-- `crt_buf[i] = c`, with the cursor at `pos` afterwards. It is `none` outside the buffer. -/
def Crt.store (s : Crt) (i : Nat) (c : BitVec 32) (pos : Nat) : Option Crt :=
  if i < crtSize then some ⟨update s.crtBuf i (c.setWidth 16), pos⟩ else none

/-- Black on white, if no attribute is given. -/
def attributed (c : BitVec 32) : BitVec 32 := if c &&& ~~~0xff = 0 then c ||| 0x0700 else c

/-- `(c & ~0xff) | ' '` -/
def erased (c : BitVec 32) : BitVec 32 := c &&& ~~~0xff ||| 0x20

/-- The `switch` of `cga_putc`, but for the case of `'\t'` -/
def Crt.switch (s : Crt) (c : BitVec 32) : Option Crt :=
  if c &&& 0xff = 0x08 then
    if 0 < s.crtPos then s.store (s.crtPos - 1) (erased c) (s.crtPos - 1) else some s
  else if c &&& 0xff = 0x0a then
    some { s with crtPos := s.crtPos + crtCols - (s.crtPos + crtCols) % crtCols }
  else if c &&& 0xff = 0x0d then some { s with crtPos := s.crtPos - s.crtPos % crtCols }
  else s.store s.crtPos c (s.crtPos + 1)

/-- The `memmove`, and the blank row behind it, when the cursor has left the screen. -/
def Crt.scroll (s : Crt) : Crt :=
  if crtSize ≤ s.crtPos then
    { crtBuf := fun i =>
        if i < crtSize - crtCols then s.crtBuf (i + crtCols)
        else if i < crtSize then blank else s.crtBuf i
      crtPos := s.crtPos - crtCols }
  else s

/-- `cga_putc`, for another character than `'\t'` -/
def Crt.put (s : Crt) (c : BitVec 32) : Option Crt := (s.switch (attributed c)).map Crt.scroll

/-- `cga_putc`. For `'\t'` it calls `cons_putc(' ')`, and so itself, five times. -/
def Crt.cgaPutc (s : Crt) (c : BitVec 32) : Option Crt :=
  if attributed c &&& 0xff = 0x09 then
    ((List.replicate 5 0x20).foldlM Crt.put s).map Crt.scroll
  else s.put c

/-! A sheet of paper without an end, in a typewriter that shows 25 rows of it. -/

structure Sheet where
  cell : Nat → Cell
  pos : Nat
  /-- The first row that is shown -/
  top : Nat

def Sheet.key (t : Sheet) (c : BitVec 32) : Sheet :=
  if c &&& 0xff = 0x08 then
    if t.top * crtCols < t.pos then
      { t with cell := update t.cell (t.pos - 1) ((erased c).setWidth 16), pos := t.pos - 1 }
    else t
  else if c &&& 0xff = 0x0a then { t with pos := (t.pos / crtCols + 1) * crtCols }
  else if c &&& 0xff = 0x0d then { t with pos := t.pos / crtCols * crtCols }
  else { t with cell := update t.cell t.pos (c.setWidth 16), pos := t.pos + 1 }

/-- The paper moves up when the next place is below the rows that are shown. -/
def Sheet.feed (t : Sheet) : Sheet :=
  if (t.top + crtRows) * crtCols ≤ t.pos then { t with top := t.top + 1 } else t

def Sheet.type (t : Sheet) (c : BitVec 32) : Sheet :=
  if attributed c &&& 0xff = 0x09 then
    (List.replicate 5 0x20).foldl (fun t c => (t.key (attributed c)).feed) t
  else (t.key (attributed c)).feed

/-- The screen shows the rows of the sheet from `top` on, below which it is blank. -/
structure Shows (s : Crt) (t : Sheet) : Prop where
  pos : t.pos = t.top * crtCols + s.crtPos
  cells : ∀ i < crtSize, s.crtBuf i = t.cell (t.top * crtCols + i)
  blank : ∀ i, (t.top + crtRows) * crtCols ≤ i → t.cell i = blank

section

variable {s : Crt} {t : Sheet} {c : BitVec 32}

/-- A character is stored in a cell of the screen. -/
theorem Shows.store (shows : Shows s t) (c : BitVec 32) (pos : Nat) {i : Nat} (inside : i < crtSize) :
    ∃ s', s.store i c pos = some s' ∧ s'.crtPos = pos ∧
      Shows s' ⟨update t.cell (t.top * crtCols + i) (c.setWidth 16), t.top * crtCols + pos, t.top⟩ := by
  refine ⟨_, if_pos inside, rfl, rfl, fun k small => ?_, fun k below => ?_⟩
  · by_cases same : k = i
    · simp [same]
    · simpa [same] using shows.cells k small
  · have size : crtSize = crtRows * crtCols := rfl
    dsimp only at below ⊢
    rw [update_of_ne (by rw [Nat.add_mul] at below; omega)]
    exact shows.blank k below

/-- The cursor moves. -/
theorem Shows.move (shows : Shows s t) {pos pos' : Nat} (same : pos' = t.top * crtCols + pos) :
    Shows { s with crtPos := pos } { t with pos := pos' } :=
  ⟨same, shows.cells, shows.blank⟩

theorem Shows.switch (shows : Shows s t) (inside : s.crtPos < crtSize) :
    ∃ s', s.switch c = some s' ∧ s'.crtPos < crtSize + crtCols ∧ Shows s' (t.key c) := by
  have pos := shows.pos
  unfold Crt.switch Sheet.key
  by_cases back : c &&& 0xff = 0x08
  · rw [if_pos back, if_pos back]
    by_cases more : 0 < s.crtPos
    · rw [if_pos more, if_pos (by omega), pos, Nat.add_sub_assoc more]
      obtain ⟨s', ran, place, shows'⟩ := shows.store (erased c) (s.crtPos - 1)
        (Nat.lt_of_le_of_lt (Nat.sub_le _ 1) inside)
      exact ⟨s', ran, by omega, shows'⟩
    · rw [if_neg more, if_neg (by omega)]
      exact ⟨s, rfl, by omega, shows⟩
  rw [if_neg back, if_neg back]
  by_cases down : c &&& 0xff = 0x0a
  · rw [if_pos down, if_pos down]
    simp only [crtCols] at *
    exact ⟨_, rfl, by dsimp only; omega, shows.move (by simp only [crtCols]; omega)⟩
  rw [if_neg down, if_neg down]
  by_cases start : c &&& 0xff = 0x0d
  · rw [if_pos start, if_pos start]
    simp only [crtCols] at *
    exact ⟨_, rfl, by dsimp only; omega, shows.move (by simp only [crtCols]; omega)⟩
  rw [if_neg start, if_neg start, pos]
  obtain ⟨s', ran, place, shows'⟩ := shows.store c (s.crtPos + 1) inside
  exact ⟨s', ran, by simp only [crtCols]; omega, shows'⟩

theorem Shows.scroll (shows : Shows s t) (near : s.crtPos < crtSize + crtCols) :
    Shows s.scroll t.feed ∧ s.scroll.crtPos < crtSize := by
  have left : (t.top + crtRows) * crtCols ≤ t.pos ↔ crtSize ≤ s.crtPos := by
    rw [shows.pos, Nat.add_mul, Nat.add_le_add_iff_left]
    rfl
  unfold Crt.scroll Sheet.feed
  by_cases below : crtSize ≤ s.crtPos
  · rw [if_pos below, if_pos (left.mpr below)]
    have size : crtSize = 2000 := rfl
    have cols : crtCols = 80 := rfl
    have whole : crtRows * crtCols = crtSize := rfl
    have down : (t.top + 1) * crtCols = t.top * crtCols + crtCols := Nat.succ_mul ..
    obtain ⟨pos, cells, blank⟩ := shows
    simp only [Nat.add_mul t.top] at blank
    refine ⟨⟨by dsimp only; omega, fun i small => ?_, fun i low => blank i ?_⟩, by dsimp only; omega⟩
    · have next : (t.top + 1) * crtCols + i = t.top * crtCols + (i + crtCols) := by omega
      dsimp only
      rw [next]
      by_cases above : i < crtSize - crtCols
      · rw [if_pos above]
        exact cells _ (by omega)
      · rw [if_neg above, if_pos small]
        exact (blank _ (by omega)).symm
    · dsimp only at low
      rw [Nat.add_mul] at low
      omega
  · rw [if_neg below, if_neg (mt left.mp below)]
    exact ⟨shows, Nat.not_le.mp below⟩

theorem Shows.put (shows : Shows s t) (inside : s.crtPos < crtSize) :
    ∃ s', s.put c = some s' ∧ s'.crtPos < crtSize ∧ Shows s' (t.key (attributed c)).feed := by
  obtain ⟨s', ran, near, shows'⟩ := @Shows.switch s t (attributed c) shows inside
  obtain ⟨scrolled, inside'⟩ := shows'.scroll near
  exact ⟨s'.scroll, by rw [Crt.put, ran]; rfl, inside', scrolled⟩

theorem Shows.puts (shows : Shows s t) (inside : s.crtPos < crtSize) (chars : List (BitVec 32)) :
    ∃ s', chars.foldlM Crt.put s = some s' ∧ s'.crtPos < crtSize ∧
      Shows s' (chars.foldl (fun t c => (t.key (attributed c)).feed) t) := by
  induction chars generalizing s t with
  | nil => exact ⟨s, rfl, inside, shows⟩
  | cons c chars ih =>
    obtain ⟨middle, ran, inside', shows'⟩ := @Shows.put s t c shows inside
    obtain ⟨s', rest, last⟩ := ih shows' inside'
    exact ⟨s', by rw [List.foldlM_cons, ran]; exact rest, last⟩

theorem Shows.cgaPutc (shows : Shows s t) (inside : s.crtPos < crtSize) :
    ∃ s', s.cgaPutc c = some s' ∧ s'.crtPos < crtSize ∧ Shows s' (t.type c) := by
  unfold Crt.cgaPutc Sheet.type
  by_cases tab : attributed c &&& 0xff = 0x09
  · rw [if_pos tab, if_pos tab]
    obtain ⟨s', ran, inside', shows'⟩ := shows.puts inside (List.replicate 5 0x20)
    have still : s'.scroll = s' := if_neg (Nat.not_le.mpr inside')
    exact ⟨s', by rw [ran, Option.map_some, still], inside', shows'⟩
  · rw [if_neg tab, if_neg tab]
    exact shows.put inside

/-- Whatever is printed, no store of `cga_putc` is outside the screen, and the cursor stays on it.
The screen shows the last rows of an endless sheet on which all of it has been typed. -/
theorem cgaPutc_shows (inside : s.crtPos < crtSize) (chars : List (BitVec 32)) :
    ∃ s', chars.foldlM Crt.cgaPutc s = some s' ∧ s'.crtPos < crtSize ∧
      Shows s' (chars.foldl Sheet.type
        ⟨fun i => if i < crtSize then s.crtBuf i else Cga.blank, s.crtPos, 0⟩) := by
  have start : Shows s ⟨fun i => if i < crtSize then s.crtBuf i else Cga.blank, s.crtPos, 0⟩ := by
    refine ⟨by simp, fun i small => by simp [small], fun i below => if_neg ?_⟩
    simp only [crtSize, crtRows, crtCols] at *
    omega
  generalize (⟨_, _, _⟩ : Sheet) = t at start ⊢
  induction chars generalizing s t with
  | nil => exact ⟨s, rfl, inside, start⟩
  | cons c chars ih =>
    obtain ⟨middle, ran, inside', shows'⟩ := @Shows.cgaPutc s t c start inside
    obtain ⟨s', rest, last⟩ := ih inside' _ shows'
    exact ⟨s', by rw [List.foldlM_cons, ran]; exact rest, last⟩

end

/-- A character in the last cell moves all rows up. -/
theorem cgaPutc_last : ∃ s', [0x41].foldlM Crt.cgaPutc ⟨fun _ => blank, 1999⟩ = some s' ∧
    s'.crtPos = 1920 ∧ s'.crtBuf 1919 = 0x0741 := by
  obtain ⟨s', ran, -, pos, cells, -⟩ := @cgaPutc_shows ⟨fun _ => blank, 1999⟩ (by decide) [0x41]
  exact ⟨s', ran, Nat.add_left_cancel (n := 80) pos.symm, (cells 1919 (by decide)).trans (by decide)⟩

end Cga

end Jos
