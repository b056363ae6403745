import Jos.Kern.Console
import Jos.Lib.Readline

/-! The keyboard: `kbd_proc_data` of kern/console.c, and the way of a typed line from the scan codes
to `readline`. -/

set_option autoImplicit false

namespace Jos

open Foundation Function

namespace Console

def shiftMod : BitVec 32 := 1 <<< 0
def ctl : BitVec 32 := 1 <<< 1
def alt : BitVec 32 := 1 <<< 2
def capsLock : BitVec 32 := 1 <<< 3
def numLock : BitVec 32 := 1 <<< 4
def scrollLock : BitVec 32 := 1 <<< 5
def e0Esc : BitVec 32 := 1 <<< 6
def keyDel : BitVec 8 := 0xe9

def shiftcode (data : BitVec 8) : BitVec 32 :=
  if data = 0x1d ∨ data = 0x9d then ctl
  else if data = 0x2a ∨ data = 0x36 then shiftMod
  else if data = 0x38 ∨ data = 0xb8 then alt
  else 0

def togglecode (data : BitVec 8) : BitVec 32 :=
  if data = 0x3a then capsLock
  else if data = 0x45 then numLock
  else if data = 0x46 then scrollLock
  else 0

def normalKeys : List (BitVec 8) := [
  0, 27, 49, 50, 51, 52, 53, 54, 55, 56, 57, 48, 45, 61, 8, 9,
  113, 119, 101, 114, 116, 121, 117, 105, 111, 112, 91, 93, 10, 0, 97, 115,
  100, 102, 103, 104, 106, 107, 108, 59, 39, 96, 0, 92, 122, 120, 99, 118,
  98, 110, 109, 44, 46, 47, 0, 42, 0, 32, 0, 0, 0, 0, 0, 0,
  0, 0, 0, 0, 0, 0, 0, 55, 56, 57, 45, 52, 53, 54, 43, 49, 50, 51, 48, 46]

def shiftKeys : List (BitVec 8) := [
  0, 27, 33, 64, 35, 36, 37, 94, 38, 42, 40, 41, 95, 43, 8, 9,
  81, 87, 69, 82, 84, 89, 85, 73, 79, 80, 123, 125, 10, 0, 65, 83,
  68, 70, 71, 72, 74, 75, 76, 58, 34, 126, 0, 124, 90, 88, 67, 86,
  66, 78, 77, 60, 62, 63, 0, 42, 0, 32, 0, 0, 0, 0, 0, 0,
  0, 0, 0, 0, 0, 0, 0, 55, 56, 57, 45, 52, 53, 54, 43, 49, 50, 51, 48, 46]

def ctlKeys : List (BitVec 8) := [
  0, 0, 0, 0, 0, 0, 0, 0, 0, 0, 0, 0, 0, 0, 0, 0, 17, 23, 5, 18, 20, 25, 21, 9, 15, 16, 0, 0, 13, 0, 1, 19,
  4, 6, 7, 8, 10, 11, 12, 0, 0, 0, 0, 28, 26, 24, 3, 22, 2, 14, 13, 0, 0, 239]

/-- The entries from 0xC8 on, which the three tables have in common -/
def arrowKeys : List (Nat × BitVec 8) := [(0xc8, 0xe2), (0xc9, 0xe6), (0xcb, 0xe4), (0xcd, 0xe5),
  (0xcf, 0xe1), (0xd0, 0xe3), (0xd1, 0xe7), (0xd2, 0xe8), (0xd3, keyDel)]

def tableAt (low : List (BitVec 8)) (high : List (Nat × BitVec 8)) (data : BitVec 8) : BitVec 8 :=
  low[data.toNat]?.getD (((high ++ arrowKeys).lookup data.toNat).getD 0)

def normalmap : BitVec 8 → BitVec 8 := tableAt normalKeys [(0xc7, 0xe0), (0x9c, 10), (0xb5, 47)]
def shiftmap : BitVec 8 → BitVec 8 := tableAt shiftKeys [(0xc7, 0xe0), (0x9c, 10), (0xb5, 47)]
def ctlmap : BitVec 8 → BitVec 8 := tableAt ctlKeys [(0x97, 0xe0), (0xb5, 239)]

/-- `charcode[shift & (CTL | SHIFT)]` -/
def charcode (shift : BitVec 32) : BitVec 8 → BitVec 8 :=
  if shift &&& ctl ≠ 0 then ctlmap else if shift &&& shiftMod ≠ 0 then shiftmap else normalmap

/-- What `CAPSLOCK` makes of a character. -/
def swapCase (c : BitVec 8) : BitVec 8 :=
  if 97 ≤ c ∧ c ≤ 122 then c - 32 else if 65 ≤ c ∧ c ≤ 90 then c + 32 else c

/-- `kbd_proc_data` on a scan code: the new `shift`, the character that is reported, if any, and
whether the machine reboots. -/
def kbdProcData (shift : BitVec 32) (data : BitVec 8) : BitVec 32 × Char × Bool :=
  if data = 0xe0 then (shift ||| e0Esc, 0, false)
  else if data &&& 0x80 ≠ 0 then
    let data := if shift &&& e0Esc ≠ 0 then data else data &&& 0x7f
    (shift &&& ~~~(shiftcode data ||| e0Esc), 0, false)
  else
    let data := if shift &&& e0Esc ≠ 0 then data ||| 0x80 else data
    let shift := ((shift &&& ~~~e0Esc) ||| shiftcode data) ^^^ togglecode data
    let c := charcode shift data
    let c := if shift &&& capsLock ≠ 0 then swapCase c else c
    (shift, c, ~~~shift &&& (ctl ||| alt) = 0 ∧ c = keyDel)

/-- The characters that scan codes come to, with a zero for a code that reports none. -/
def kbdProcEach : BitVec 32 → List (BitVec 8) → BitVec 32 × List Char
  | shift, [] => (shift, [])
  | shift, data :: rest =>
    let out := kbdProcData shift data
    let more := kbdProcEach out.1 rest
    (more.1, out.2.1 :: more.2)

/-- Whether a key reports the character without a shift key. -/
def plain (c : Char) : Bool := normalKeys.contains c

def codeOf (c : Char) : BitVec 8 := BitVec.ofNat 8 ((if plain c then normalKeys else shiftKeys).idxOf c)

/-- The key is pressed and released, with a shift key held if it needs one. -/
def strokes (c : Char) : List (BitVec 8) :=
  if plain c then [codeOf c, codeOf c ||| 0x80] else [0x2a, codeOf c, codeOf c ||| 0x80, 0xaa]

/-- What a key reports, without or with `CAPSLOCK`. -/
def report (shift : BitVec 32) (c : Char) : Char := if shift = 0 then c else swapCase c

/-- `shift` while the key is down -/
def heldFor (shift : BitVec 32) (c : Char) : BitVec 32 := if plain c then shift else shift ||| shiftMod

/-- The key of a character reports it, and nothing when it is released. -/
def Works (shift : BitVec 32) (c : Char) : Prop :=
  kbdProcData (heldFor shift c) (codeOf c) = (heldFor shift c, report shift c, false) ∧
    kbdProcData (heldFor shift c) (codeOf c ||| 0x80) = (heldFor shift c, 0, false) ∧
      report shift c ≠ 0 ∧ (c ≠ 10 → 32 ≤ (report shift c).toNat ∧ (report shift c).toNat < 127)

instance (shift : BitVec 32) (c : Char) : Decidable (Works shift c) :=
  inferInstanceAs (Decidable (_ ∧ _))

/-- Printable characters and the newline -/
def OnKey (c : Char) : Prop := 32 ≤ c.toNat ∧ c.toNat < 127 ∨ c.toNat = 10

section

variable {shift : BitVec 32} {c : Char} {text : List Char}

theorem works (locks : shift = 0 ∨ shift = capsLock) (key : OnKey c) : Works shift c := by
  have all : ∀ n < 127, 32 ≤ n ∨ n = 10 →
      Works 0 (BitVec.ofNat 8 n) ∧ Works capsLock (BitVec.ofNat 8 n) := by decide +kernel
  have both := all c.toNat (by unfold OnKey at key; omega) (by unfold OnKey at key; omega)
  rw [BitVec.ofNat_toNat, BitVec.setWidth_eq] at both
  rcases locks with rfl | rfl
  · exact both.1
  · exact both.2

theorem kbdProcEach_strokes (locks : shift = 0 ∨ shift = capsLock) (key : OnKey c)
    (rest : List (BitVec 8)) : real (kbdProcEach shift (strokes c ++ rest)).2 =
      report shift c :: real (kbdProcEach shift rest).2 := by
  obtain ⟨down, up, some, -⟩ := works locks key
  have reported (chars : List Char) : real (report shift c :: chars) = report shift c :: real chars :=
    List.filter_cons_of_pos (by simpa using some)
  have silent (chars : List Char) : real (0 :: chars) = real chars := List.filter_cons_of_neg (by simp)
  unfold strokes
  unfold heldFor at down up
  cases fits : plain c with
  | true =>
    simp only [fits, if_true] at down up ⊢
    simp only [List.cons_append, List.nil_append, kbdProcEach, down, up, reported, silent]
  | false =>
    have shifts : kbdProcData shift 0x2a = (shift ||| shiftMod, 0, false) ∧
        kbdProcData (shift ||| shiftMod) 0xaa = (shift, 0, false) := by
      rcases locks with rfl | rfl <;> decide
    simp only [fits, Bool.false_eq_true, if_false] at down up ⊢
    simp only [List.cons_append, List.nil_append, kbdProcEach, down, up, shifts, reported, silent]

/-- The keys of a text report it. -/
theorem kbdProcEach_text (locks : shift = 0 ∨ shift = capsLock) (keys : ∀ c ∈ text, OnKey c) :
    real (kbdProcEach shift (text.flatMap strokes)).2 = text.map (report shift) := by
  induction text with
  | nil => rfl
  | cons c text ih =>
    rw [List.flatMap_cons, kbdProcEach_strokes locks (keys c List.mem_cons_self),
      ih fun c member => keys c (List.mem_cons_of_mem _ member), List.map_cons]

/-- Printable characters go into the line as long as there is room. -/
theorem enter_text {line chars : List Int} (letters : ∀ c ∈ chars, 32 ≤ c ∧ c < 127)
    (room : line.length + chars.length < Readline.bufLen) :
    chars.foldl Readline.enter line = line ++ chars := by
  induction chars generalizing line with
  | nil => exact (List.append_nil line).symm
  | cons c chars ih =>
    obtain ⟨least, most⟩ := letters c List.mem_cons_self
    rw [List.length_cons] at room
    have put : Readline.enter line c = line ++ [c] := by
      rw [Readline.enter, if_neg, if_pos]
      · exact ⟨least, by omega⟩
      · rintro ⟨rfl | rfl, -⟩
        · exact absurd least (by decide)
        · exact absurd most (by decide)
    rw [List.foldl_cons, put, ih (fun c member => letters c (List.mem_cons_of_mem _ member))
      (by rw [List.length_append, List.length_singleton]; omega), List.append_assoc]
    rfl

/-- A line is typed, with `CAPSLOCK` off or on, and ended. However the interrupts and the calls of
`cons_getc` come, when the input buffer is never full and everything has been taken out of it,
`readline` returns the line. -/
theorem typed_line {s : Terminal} (reached : Reachable Fresh step Fits s)
    (locks : shift = 0 ∨ shift = capsLock)
    (letters : ∀ c ∈ text, 32 ≤ c.toNat ∧ c.toNat < 127) (short : text.length < Readline.bufLen)
    (typed : s.delivered = real (kbdProcEach shift ((text ++ [10]).flatMap strokes)).2)
    (drained : s.cons.pending = []) (prompt : Option (List (BitVec 8))) (echoing : Bool)
    (buf : Nat → BitVec 8) :
    ∃ reading, Readline.readline prompt echoing buf (s.returned.map fun c => (c.toNat : Int)) =
        some (reading, .line) ∧ reading.i = text.length ∧
      (∀ k c, text[k]? = some c → reading.buf k = report shift c) ∧ reading.buf reading.i = 0 := by
  obtain ⟨first, holds, whole⟩ := reached_holds reached fun _ _ fits => fits
  have all : s.returned = s.delivered := by
    have pending := holds.cons.pending
    rw [drained] at pending
    rw [whole, ← List.append_nil (s.delivered.take first), pending, List.take_append_drop]
  have keys : ∀ c ∈ text ++ [10], OnKey c := by
    intro c member
    rcases List.mem_append.mp member with inside | last
    · exact .inl (letters c inside)
    · rw [List.mem_singleton.mp last]
      exact .inr rfl
  rw [all, typed, kbdProcEach_text locks keys, List.map_map]
  have input : (text ++ [10]).map ((fun c : Char => (BitVec.toNat c : Int)) ∘ report shift) =
      (text.map fun c => ((report shift c).toNat : Int)) ++ [10] := by
    have same : report shift 10 = 10 := by rcases locks with rfl | rfl <;> decide
    rw [List.map_append, List.map_singleton, Function.comp_apply, same]
    rfl
  have chars : ∀ c ∈ text.map fun c => ((report shift c).toNat : Int), 32 ≤ c ∧ c < 127 := by
    intro c member
    obtain ⟨letter, inside, rfl⟩ := List.mem_map.mp member
    have range := (works locks (.inl (letters letter inside))).2.2.2 fun same => by
      have := (letters letter inside).1
      rw [same] at this
      exact absurd this (by decide)
    omega
  rw [input]
  generalize whole' : (text.map fun c : Char => ((report shift c).toNat : Int)) = line at chars ⊢
  have taken : (line ++ [10]).takeWhile Readline.typed = line ∧
      (line ++ [10]).dropWhile Readline.typed = [10] := by
    have letters : ∀ c ∈ line, Readline.typed c = true := fun c member => by
      have range := chars c member
      have ends : Readline.newline = 10 ∧ Readline.carriageReturn = 13 := ⟨rfl, rfl⟩
      exact Readline.typed_iff.mpr ⟨by omega, by omega, by omega⟩
    exact ⟨by rw [List.takeWhile_append_of_pos letters]; simp [Readline.typed, Readline.newline],
      by rw [List.dropWhile_append_of_pos letters]; simp [Readline.typed, Readline.newline]⟩
  obtain ⟨reading, ran, -, ended⟩ := @Readline.Reading.Holds.run echoing _ _ (line ++ [10])
    (@Readline.start_holds buf (prompt.toList.map .prompt))
  rw [taken.1, taken.2, enter_text chars (by rw [← whole', List.length_map]; simpa using short)] at ended
  rw [taken.2] at ran
  obtain ⟨⟨length, -, bytes⟩, terminated⟩ := ended rfl
  refine ⟨reading, ran, ?_, fun k c found => ?_, terminated⟩
  · rw [length, List.nil_append, ← whole', List.length_map]
  · rw [bytes k _ (by rw [List.nil_append, ← whole', List.getElem?_map, found]; rfl),
      BitVec.ofInt_natCast, BitVec.ofNat_toNat, BitVec.setWidth_eq]

end

instance (s : Terminal) (event : Event) : Decidable (Fits s event) :=
  inferInstanceAs (Decidable (_ < _))

/-- "A" is typed, and each code has an interrupt of its own. -/
theorem typed_letter : ∃ (s : Terminal) (reading : Readline.Reading), s.returned = [65, 10] ∧
    Readline.readline none true (fun _ => 0) (s.returned.map fun c => (c.toNat : Int)) =
      some (reading, .line) ∧ reading.buf 0 = 65 := by
  let events : List Event := [.intr [0], .intr [65], .intr [0], .getc [] [0], .intr [10], .intr [0],
    .getc [] []]
  have runs : (admits step Fits fresh events && (run step fresh events).any fun s =>
      s.returned = [65, 10] ∧ s.delivered = [65, 10] ∧ s.cons.pending = []) = true := by decide +kernel
  obtain ⟨admitted, runs⟩ := Bool.and_eq_true_iff.mp runs
  obtain ⟨s, ran, facts⟩ := (Option.any_eq_true _ _).mp runs
  obtain ⟨returned, delivered, drained⟩ := of_decide_eq_true facts
  obtain ⟨reading, line, -, bytes, -⟩ := @typed_line 0 [65] s
    ⟨fresh, events, ⟨rfl, rfl, rfl, rfl⟩, .of_admits admitted ran⟩ (.inl rfl) (by decide) (by decide)
    (delivered.trans (by decide +kernel)) drained none true fun _ => 0
  exact ⟨s, reading, returned, line, bytes 0 65 rfl⟩

end Console

end Jos
